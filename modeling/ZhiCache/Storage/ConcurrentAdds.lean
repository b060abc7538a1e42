import ZhiCache.Storage.Publication
import ZhiCache.Storage.Zset

/-!
# `Storage.ConcurrentAdds` — concurrent `/zadd` requests on one sorted set

`ZaddHandler` runs on concurrent fibers and nothing between it and `SkipList::Insert` takes a lock, although
the skip list asks for external synchronisation of writes. The system here is one existing sorted set and
any number of requests on it. A request looks the set up, adds to the value map, and inserts into the skip
list; the first two are one step each, `Insert` is the machine of `Storage.Interleaved`.

Once all requests have been answered, the set should hold one node for each of them, sorted, and `Range`
should return every member (`AddSys.Complete`). It does in every run whose accesses are fresh
(`adds_complete`): nobody has come in between a request's search and its publication on level 0. It does
not in general: of two requests that have found the same place, the second one unlinks the node of the
first (`adds_lose_a_member`).
-/

namespace ZhiCache

open Lib SkipList

/-- A sorted set, the requests that have looked it up, and their `Insert` calls. -/
structure AddSys where
  valueMap : HashKv Int32
  sys : Sys ZsetSkipListNode
  looked : Nat → Option ZaddRequest

/-- What can happen. -/
inductive AddEvent where
  /-- A request looks up the set. The set exists, so the lookup finds it and changes nothing. -/
  | lookup (w : Nat) (request : ZaddRequest)
  /-- `_value_map.Add`; the request then enters `Insert`. -/
  | addValue (w : Nat)
  /-- A request takes its next step in `Insert`. -/
  | write (w : Nat)
  deriving DecidableEq

/-- The request that an event brings, with its number. -/
def AddEvent.request : AddEvent → Option (Nat × ZaddRequest)
  | lookup w request => some (w, request)
  | _ => none

namespace AddSys

/-- A set that no request has looked up yet. -/
def start (z : Zset) : AddSys := ⟨z.valueMap, Sys.idle z.scoreRangeMap, fun _ => none⟩

/-- The set as it is in memory. -/
def zset (s : AddSys) : Zset := ⟨s.valueMap, s.sys.list⟩

/-- The system after an event; none when the event is not possible. -/
def step (draw : Random → Height × Random) (s : AddSys) : AddEvent → Option AddSys
  | .lookup w request =>
    if (s.looked w).isNone then some { s with looked := Function.update s.looked w (some request) }
    else none
  | .addValue w => do
    let request ← s.looked w
    let sys ← s.sys.step draw (.insert w request)
    return { s with valueMap := s.valueMap.add request.value request.score, sys := sys }
  | .write w => do
    let sys ← s.sys.step draw (.write w)
    return { s with sys := sys }

/-- What the event `e` needs in state `s`: see `InsertPc.Fresh`. -/
def Fresh (s : AddSys) : AddEvent → Prop
  | .write w => s.sys.Fresh (.write w)
  | _ => True

instance (s : AddSys) : (e : AddEvent) → Decidable (s.Fresh e)
  | .write w => inferInstanceAs (Decidable (s.sys.Fresh (.write w)))
  | .lookup _ _ | .addValue _ => isTrue trivial

/-- The requests of a run. -/
def requests (es : List AddEvent) : List (Nat × ZaddRequest) := es.filterMap AddEvent.request

/-- All requests have been answered. -/
def AllServed (es : List AddEvent) (s : AddSys) : Prop :=
  ∀ p ∈ requests es, ∃ ins x, s.sys.inserts p.1 = some ins ∧ ins.pc = .finished x

/-- What the set should be when all requests have been answered: level 0 is sorted and holds, besides the
    nodes it had, one for each request, and `Range` returns every member. -/
def Complete (z₀ : Zset) (es : List AddEvent) (s : AddSys) : Prop :=
  ∃ N₀ N, Linked (z₀.scoreRangeMap.level 0) (head :: N₀) ∧ Linked (s.sys.list.level 0) (head :: N) ∧
    (N.map s.sys.list.key).Pairwise (fun a b => a.score ≤ b.score) ∧
    (N.map s.sys.list.key).Perm (N₀.map z₀.scoreRangeMap.key ++ (requests es).map Prod.snd) ∧
    ∀ minScore maxScore, ∃ L, s.zset.range minScore maxScore = some L ∧
      ∀ score value, s.valueMap.view value = some score → minScore ≤ score → score ≤ maxScore →
        ⟨score, value⟩ ∈ L

/-! ## What a step does -/

variable {draw : Random → Height × Random} {s s' : AddSys}

/-- **What an event does.** -/
theorem step_cases {e : AddEvent} (h : s.step draw e = some s') :
    (∃ w request, e = .lookup w request ∧ s.looked w = none ∧
      s' = { s with looked := Function.update s.looked w (some request) }) ∨
    (∃ w request, e = .addValue w ∧ s.looked w = some request ∧ s.sys.inserts w = none ∧
      s' = { s with
        valueMap := s.valueMap.add request.value request.score
        sys := { s.sys with inserts := Function.update s.sys.inserts w (some ⟨request, .enter⟩) } }) ∨
    (∃ w ins l pc, e = .write w ∧ s.sys.inserts w = some ins ∧
      ins.pc.step draw s.sys.list ins.key = some (l, pc) ∧ s.sys.step draw (.write w) = some s'.sys ∧
      s' = { s with
        sys := { s.sys with
          list := l, inserts := Function.update s.sys.inserts w (some ⟨ins.key, pc⟩) } }) := by
  cases e with
  | lookup w request =>
      obtain ⟨hw, h⟩ := Option.ite_none_right_eq_some.mp h
      exact Or.inl ⟨w, request, rfl, Option.isNone_iff_eq_none.mp hw, (Option.some.inj h).symm⟩
  | addValue w =>
      obtain ⟨request, hreq, h⟩ := Option.bind_eq_some_iff.mp h
      obtain ⟨sys, hsys, h⟩ := Option.bind_eq_some_iff.mp h
      rcases Sys.step_cases hsys with ⟨w', key, he, hw, rfl⟩ | ⟨_, _, _, _, he, _⟩ | ⟨_, _, he, _⟩ |
        ⟨_, _, _, he, _⟩
      · cases he
        exact Or.inr (Or.inl ⟨w, request, rfl, hreq, hw, (Option.some.inj h).symm⟩)
      · cases he
      · cases he
      · cases he
  | write w =>
      obtain ⟨sys, hsys, h⟩ := Option.bind_eq_some_iff.mp h
      have hs' : { s with sys := sys } = s' := Option.some.inj h
      subst hs'
      rcases Sys.step_cases hsys with ⟨_, _, he, _⟩ | ⟨w', ins, l, pc, he, hw, hpc, hl⟩ | ⟨_, _, he, _⟩ |
        ⟨_, _, _, he, _⟩
      · cases he
      · cases he
        exact Or.inr (Or.inr ⟨w, ins, l, pc, rfl, hw, hpc, hsys, by rw [hl]⟩)
      · cases he
      · cases he

/-! ## The invariant over a run -/

/-- What holds after the events `es` on a set that had the list `l₀`, with the nodes `T₀` on level 0. -/
structure Inv (l₀ : SkipList ZsetSkipListNode) (T₀ : List NodeId) (es : List AddEvent) (s : AddSys) :
    Prop where
  sound : ∃ T, s.sys.Sound T₀ T
  keys : ∀ n ∈ T₀, s.sys.list.key n = l₀.key n
  looked : ∀ w request, s.looked w = some request ↔ (w, request) ∈ requests es
  once : ((requests es).map Prod.fst).Nodup
  begun : ∀ w ins, s.sys.inserts w = some ins → s.looked w = some ins.key
  scored : ∀ value score, s.valueMap.view value = some score →
    (∃ n ∈ T₀, n ≠ head ∧ l₀.key n = ⟨score, value⟩) ∨
      ∃ w ins, s.sys.inserts w = some ins ∧ ins.key = ⟨score, value⟩

theorem requests_snoc (es : List AddEvent) (e : AddEvent) :
    requests (es ++ [e]) = requests es ++ e.request.toList := by
  unfold requests
  rw [List.filterMap_append]
  cases e <;> rfl

section Steps

variable {l₀ : SkipList ZsetSkipListNode} {T₀ : List NodeId} {es : List AddEvent} {w : Nat}
  {request : ZaddRequest}

/-- A request finds its set. -/
theorem Inv.lookup (h : Inv l₀ T₀ es s) (hw : s.looked w = none) :
    Inv l₀ T₀ (es ++ [.lookup w request]) { s with looked := Function.update s.looked w (some request) } := by
  have hreqs : requests (es ++ [.lookup w request]) = requests es ++ [(w, request)] := requests_snoc _ _
  have hnew : ∀ request', (w, request') ∉ requests es := fun request' hmem =>
    absurd (hw.symm.trans ((h.looked w request').mpr hmem)) (by simp)
  refine ⟨h.sound, h.keys, ?_, ?_, ?_, h.scored⟩
  · intro w' request'
    rw [hreqs, List.mem_append, List.mem_singleton, ← h.looked]
    by_cases hww : w' = w
    · subst hww
      show Function.update s.looked w' (some request) w' = some request' ↔ _
      rw [Function.update_self, hw]
      simp [eq_comm]
    · show Function.update s.looked w (some request) w' = some request' ↔ _
      rw [Function.update_of_ne hww]
      simp [hww]
  · rw [hreqs, List.map_append]
    refine List.nodup_append.mpr ⟨h.once, by simp, ?_⟩
    intro a ha b hb hab
    obtain ⟨⟨w', request'⟩, hmem, rfl⟩ := List.mem_map.mp ha
    have hww : w' = w := hab.trans (by simpa using hb)
    exact hnew request' (hww ▸ hmem)
  · intro w' ins' hw'
    have hold := h.begun w' ins' hw'
    have hww : w' ≠ w := fun e => absurd (hw.symm.trans (e ▸ hold)) (by simp)
    exact (Function.update_of_ne hww _ _).trans hold

/-- The value map has the score, and `Insert` is called. -/
theorem Inv.addValue (h : Inv l₀ T₀ es s) (hreq : s.looked w = some request) (hw : s.sys.inserts w = none) :
    Inv l₀ T₀ (es ++ [.addValue w]) { s with
      valueMap := s.valueMap.add request.value request.score
      sys := { s.sys with inserts := Function.update s.sys.inserts w (some ⟨request, .enter⟩) } } := by
  obtain ⟨T, hT⟩ := h.sound
  have hreqs : requests (es ++ [.addValue w]) = requests es := (requests_snoc _ _).trans (List.append_nil _)
  refine ⟨⟨T, hT.begin request hw⟩, h.keys, ?_, ?_, ?_, ?_⟩
  · rw [hreqs]
    exact h.looked
  · rw [hreqs]
    exact h.once
  · intro w' ins' hw'
    rcases update_cases hw' with ⟨rfl, rfl⟩ | ⟨_, hold⟩
    · exact hreq
    · exact h.begun w' ins' hold
  · intro value score hview
    have hview' : (s.valueMap.add request.value request.score).view value = some score := hview
    rw [HashKv.view_add] at hview'
    by_cases hv : value = request.value
    · subst hv
      rw [Function.update_self] at hview'
      refine Or.inr ⟨w, _, Function.update_self .., ?_⟩
      rw [← Option.some.inj hview']
    · rw [Function.update_of_ne hv] at hview'
      rcases h.scored value score hview' with hold | ⟨w', ins', hw', hkey⟩
      · exact Or.inl hold
      · have hww : w' ≠ w := fun e => absurd (hw.symm.trans (e ▸ hw')) (by simp)
        exact Or.inr ⟨w', ins', (Function.update_of_ne hww _ _).trans hw', hkey⟩

/-- An access of an `Insert` call. -/
theorem Inv.write {ins : Insertion ZsetSkipListNode} {l : SkipList ZsetSkipListNode} {pc : InsertPc}
    {sys : Sys ZsetSkipListNode} (h : Inv l₀ T₀ es s) (hfresh : s.sys.Fresh (.write w))
    (hw : s.sys.inserts w = some ins) (hsys : s.sys.step draw (.write w) = some sys)
    (heq : sys = { s.sys with
      list := l, inserts := Function.update s.sys.inserts w (some ⟨ins.key, pc⟩) }) :
    Inv l₀ T₀ (es ++ [.write w]) { s with sys := sys } := by
  obtain ⟨T, hT⟩ := h.sound
  have hreqs : requests (es ++ [.write w]) = requests es := (requests_snoc _ _).trans (List.append_nil _)
  obtain ⟨T', mine, hT', heff⟩ := hT.step hfresh hsys
  subst heq
  refine ⟨⟨T', hT'⟩, ?_, ?_, ?_, ?_, ?_⟩
  · intro n hn
    have hlt := hT.threaded.alloc 0 n (hT.kept n hn)
    exact (heff.key n hlt).trans (h.keys n hn)
  · rw [hreqs]
    exact h.looked
  · rw [hreqs]
    exact h.once
  · intro w' ins' hw'
    rcases update_cases hw' with ⟨rfl, rfl⟩ | ⟨_, hold⟩
    · exact h.begun w' ins hw
    · exact h.begun w' ins' hold
  · intro value score hview
    rcases h.scored value score hview with hold | ⟨w', ins', hw', hkey⟩
    · exact Or.inl hold
    · by_cases hww : w' = w
      · subst hww
        have hins : ins = ins' := Option.some.inj (hw.symm.trans hw')
        subst hins
        exact Or.inr ⟨w', _, Function.update_self .., hkey⟩
      · exact Or.inr ⟨w', ins', (Function.update_of_ne hww _ _).trans hw', hkey⟩

end Steps

/-- **One event.** -/
theorem Inv.step {l₀ : SkipList ZsetSkipListNode} {T₀ : List NodeId} {es : List AddEvent} {e : AddEvent}
    (h : Inv l₀ T₀ es s) (hfresh : s.Fresh e) (hs : s.step draw e = some s') : Inv l₀ T₀ (es ++ [e]) s' := by
  rcases step_cases hs with ⟨w, request, rfl, hw, rfl⟩ | ⟨w, request, rfl, hreq, hw, rfl⟩ |
    ⟨w, ins, l, pc, rfl, hw, hpc, hsys, rfl⟩
  · exact h.lookup hw
  · exact h.addValue hreq hw
  · exact h.write hfresh hw hsys rfl

/-- At the start, for a set that sequential operations have built. -/
theorem inv_start {ops : List ZsetOp} {z₀ : Zset} {T₀ : Nat → List NodeId} (h : Zset.After ops z₀ T₀) :
    Inv z₀.scoreRangeMap (T₀ 0) [] (start z₀) := by
  refine ⟨⟨T₀, Sys.sound_idle h.levels.threaded⟩, fun n _ => rfl, ?_, List.nodup_nil, ?_, ?_⟩
  · exact fun w request => iff_of_false (by simp [start]) List.not_mem_nil
  · exact fun w ins hw => absurd hw (by simp [start, Sys.idle])
  · intro value score hview
    -- the pair was added, so a node with it is on level 0
    have hadd := (latest_some (h.view_iff.mp hview)).1
    have hmem := Zset.mem_plainKeys.mpr hadd
    rw [← h.keys] at hmem
    obtain ⟨n, hn, hkey⟩ := List.mem_map.mp hmem
    obtain ⟨N, hN⟩ := h.levels.threaded.eq_head_cons
    have hnd : (head :: N).Nodup := hN ▸ h.levels.threaded.nodup 0
    rw [hN, List.tail_cons] at hn
    refine Or.inl ⟨n, hN ▸ List.mem_cons_of_mem head hn, ?_, hkey⟩
    exact fun e => (List.nodup_cons.mp hnd).1 (e ▸ hn)

/-! ## When all requests have been answered -/

section Served

variable {l₀ : SkipList ZsetSkipListNode} {N₀ : List NodeId} {es : List AddEvent} {T : Nat → List NodeId}

/-- The node that request `w` has inserted. -/
def nodeOf (s : AddSys) (w : Nat) : NodeId := ((s.sys.inserts w).bind (fun ins => ins.pc.node)).getD head

/-- Every request has a node on level 0 with its score and value. -/
theorem Inv.served (h : Inv l₀ (head :: N₀) es s) (hT : s.sys.Sound (head :: N₀) T) (hall : AllServed es s)
    {w : Nat} {request : ZaddRequest} (hmem : (w, request) ∈ requests es) :
    ∃ ins, s.sys.inserts w = some ins ∧ ins.pc.node = some (s.nodeOf w) ∧ s.nodeOf w ∈ T 0 ∧
      s.nodeOf w ≠ head ∧ s.sys.list.key (s.nodeOf w) = request := by
  obtain ⟨ins, x, hw, hpc⟩ := hall (w, request) hmem
  have hnode : ins.pc.node = some x := by rw [hpc]; rfl
  have hx : s.nodeOf w = x := by
    have hw' : s.sys.inserts w = some ins := hw
    simp [nodeOf, hw', hnode]
  have hon := hT.inserts w ins hw
  rw [hpc] at hon
  obtain ⟨_, hne, hx0, hkey⟩ := hon
  have hreq : ins.key = request :=
    Option.some.inj ((h.begun w ins hw).symm.trans ((h.looked w request).mpr hmem))
  rw [hx]
  exact ⟨ins, hw, hnode, hx0, hne, hkey.trans hreq⟩

/-- **Level 0 holds the old nodes and one node for each request.** -/
theorem Inv.perm (h : Inv l₀ (head :: N₀) es s) (hT : s.sys.Sound (head :: N₀) T) (hall : AllServed es s)
    (hnd₀ : (head :: N₀).Nodup) {N : List NodeId} (hN : T 0 = head :: N) :
    N.Perm (N₀ ++ (requests es).map (fun p => s.nodeOf p.1)) := by
  have hnd : (head :: N).Nodup := hN ▸ hT.threaded.nodup 0
  have hmemN : ∀ n, n ∈ T 0 → n ≠ head → n ∈ N := by
    intro n hn hne
    rw [hN] at hn
    exact (List.mem_cons.mp hn).resolve_left hne
  have hinj : ((requests es).map (fun p => s.nodeOf p.1)).Nodup := by
    refine List.Nodup.map_on ?_ (List.Nodup.of_map _ h.once)
    rintro ⟨w, request⟩ hp ⟨w', request'⟩ hq hnode
    obtain ⟨ins, hw, hx, _⟩ := h.served hT hall hp
    obtain ⟨ins', hw', hx', _⟩ := h.served hT hall hq
    have hww : w = w' := hT.owner w w' ins ins' _ hw hw' hx (hx'.trans (congrArg some hnode.symm))
    exact List.inj_on_of_nodup_map h.once hp hq hww
  refine (List.perm_ext_iff_of_nodup (List.nodup_cons.mp hnd).2 ?_).mpr ?_
  · refine List.nodup_append.mpr ⟨(List.nodup_cons.mp hnd₀).2, hinj, ?_⟩
    intro n hn m hm hnm
    obtain ⟨⟨w, request⟩, hp, rfl⟩ := List.mem_map.mp hm
    obtain ⟨ins, hw, hx, _⟩ := h.served hT hall hp
    exact hT.foreign w ins _ hw hx (List.mem_cons_of_mem head (hnm ▸ hn))
  · intro n
    rw [List.mem_append, List.mem_map]
    constructor
    · intro hn
      have hne : n ≠ head := fun e => (List.nodup_cons.mp hnd).1 (e ▸ hn)
      rcases hT.origin n (hN ▸ List.mem_cons_of_mem head hn) with h0 | ⟨w, ins, hw, hx⟩
      · exact Or.inl ((List.mem_cons.mp h0).resolve_left hne)
      · have hp := (h.looked w ins.key).mp (h.begun w ins hw)
        refine Or.inr ⟨(w, ins.key), hp, ?_⟩
        simp [nodeOf, hw, hx]
    · rintro (hn | ⟨⟨w, request⟩, hp, rfl⟩)
      · have hne : n ≠ head := fun e => (List.nodup_cons.mp hnd₀).1 (e ▸ hn)
        exact hmemN n (hT.kept n (List.mem_cons_of_mem head hn)) hne
      · obtain ⟨ins, _, _, hx0, hne, _⟩ := h.served hT hall hp
        exact hmemN _ hx0 hne

end Served

/-- **When concurrent requests lose nothing.** In every run of `/zadd` requests on a set that sequential
    operations have built, in which every access is fresh, no request uses an entry of `prev` or a link that
    was never written, and once all have been answered the set is complete. -/
theorem adds_complete (draw : Random → Height × Random) (hash : String → Nat) (ops : List ZsetOp)
    {z₀ : Zset} {es : List AddEvent} {s : AddSys} (hz : Zset.run hash ops = some z₀)
    (hrun : Run (step draw) Fresh (start z₀) es s) :
    (∀ w ins, s.sys.inserts w = some ins → ins.pc ≠ .derailed) ∧ (AllServed es s → Complete z₀ es s) := by
  obtain ⟨z, T₀, hz', hafter⟩ := Zset.run_spec hash ops
  have hzz : z = z₀ := Option.some.inj (hz'.symm.trans hz)
  subst hzz
  have hinv := Run.history (inv_start hafter) (fun es s e s' h hfresh hs => h.step hfresh hs) hrun
  obtain ⟨T, hT⟩ := hinv.sound
  constructor
  · intro w ins hw hpc
    have hon := hT.inserts w ins hw
    rw [hpc] at hon
    exact hon
  · intro hall
    obtain ⟨N₀, hN₀⟩ := hafter.levels.threaded.eq_head_cons
    obtain ⟨N, hN⟩ := hT.threaded.eq_head_cons
    have hnd₀ : (head :: N₀).Nodup := hN₀ ▸ hafter.levels.threaded.nodup 0
    rw [hN₀] at hinv hT
    have hperm := hinv.perm hT hall hnd₀ hN
    refine ⟨N₀, N, ?_, ?_, ?_, ?_, ?_⟩
    · rw [← hN₀]
      exact hafter.levels.threaded.linked
    · rw [← hN]
      exact hT.threaded.linked
    · have hsorted := hT.threaded.sorted
      rw [hN, List.tail_cons] at hsorted
      rw [List.pairwise_map]
      exact hsorted.imp (fun hab => inOrder_iff.mp hab)
    · have hold : N₀.map s.sys.list.key = N₀.map z.scoreRangeMap.key :=
        List.map_congr_left (fun n hn => hinv.keys n (List.mem_cons_of_mem head hn))
      have hnew : ((requests es).map (fun p => s.nodeOf p.1)).map s.sys.list.key
          = (requests es).map Prod.snd := by
        rw [List.map_map]
        refine List.map_congr_left ?_
        rintro ⟨w, request⟩ hp
        obtain ⟨_, _, _, _, _, hkey⟩ := hinv.served hT hall hp
        exact hkey
      have hkeys := hperm.map s.sys.list.key
      rw [List.map_append, hold, hnew] at hkeys
      exact hkeys
    · intro minScore maxScore
      have hthreaded : Threaded s.zset.scoreRangeMap T := hT.threaded
      refine ⟨_, Zset.range_eq hthreaded minScore maxScore, ?_⟩
      intro score value hview hmin hmax
      -- the pair has a node on level 0
      obtain ⟨n, hn, hne, hkey⟩ : ∃ n ∈ T 0, n ≠ head ∧ s.sys.list.key n = ⟨score, value⟩ := by
        rcases hinv.scored value score hview with ⟨n, hn, hne, hkey⟩ | ⟨w, ins, hw, hkey⟩
        · exact ⟨n, hT.kept n hn, hne, (hinv.keys n hn).trans hkey⟩
        · have hp := (hinv.looked w ins.key).mp (hinv.begun w ins hw)
          obtain ⟨_, _, _, hx0, hne, hkey'⟩ := hinv.served hT hall hp
          exact ⟨_, hx0, hne, hkey'.trans hkey⟩
      rw [hN] at hn
      have hnN : n ∈ N := (List.mem_cons.mp hn).resolve_left hne
      rw [hN, List.tail_cons, List.mem_filter]
      refine ⟨List.mem_map.mpr ⟨n, hnN, hkey⟩, ?_⟩
      have hlive : s.zset.isLive ⟨score, value⟩ = true := Zset.isLive_iff.mpr hview
      simp [Zset.keeps, hmin, hmax, hlive]

/-- Whether a request has been answered. -/
def answered (s : AddSys) (w : Nat) : Bool :=
  match s.sys.inserts w with
  | some ⟨_, .finished _⟩ => true
  | _ => false

theorem allServed_of_answered {es : List AddEvent} (h : ∀ p ∈ requests es, s.answered p.1 = true) :
    AllServed es s := by
  intro p hp
  have hans := h p hp
  unfold answered at hans
  split at hans
  · rename_i key x hw
    exact ⟨_, x, hw, rfl⟩
  · exact absurd hans Bool.false_ne_true

/-- Two requests beside each other on a set with one member, the second one searching level 0 after the
    first has published. -/
theorem adds_complete_two_requests :
    ∃ z₀ es s, Zset.run String.length [.add 5 "m"] = some z₀ ∧
      Run (step randomHeight) Fresh (start z₀) es s ∧ AllServed es s ∧ Complete z₀ es s := by
  let es : List AddEvent := [AddEvent.lookup 0 ⟨1, "a"⟩, .addValue 0, .lookup 1 ⟨2, "b"⟩, .addValue 1]
    ++ List.replicate 2 (AddEvent.write 1) ++ List.replicate 9 (AddEvent.write 0)
    ++ List.replicate 8 (AddEvent.write 1)
  have hcheck : (Zset.run String.length [.add 5 "m"]).bind (fun z₀ =>
      (es.foldlM (fun s e => if Fresh s e then step randomHeight s e else none) (start z₀)).map (fun s =>
        (requests es).all (fun p => s.answered p.1))) = some true := by
    decide +kernel
  obtain ⟨z₀, hz, hcheck⟩ := Option.bind_eq_some_iff.mp hcheck
  obtain ⟨s, hs, hall⟩ := Option.map_eq_some_iff.mp hcheck
  have hrun : Run (step randomHeight) Fresh (start z₀) es s := run_of_foldlM hs
  have hserved : AllServed es s := allServed_of_answered (List.all_eq_true.mp hall)
  exact ⟨z₀, es, s, hz, hrun, hserved, (adds_complete randomHeight String.length _ hz hrun).2 hserved⟩

/-- **Requests can lose a member.** Two requests find the same place on level 0 and both load its successor;
    the one that publishes last unlinks the node of the other, whose member `Range` then misses. -/
theorem adds_lose_a_member :
    ¬ ∀ (hash : String → Nat) (ops : List ZsetOp) (z₀ : Zset) (es : List AddEvent) (s : AddSys),
        Zset.run hash ops = some z₀ → Run (step randomHeight) always (start z₀) es s → AllServed es s →
        Complete z₀ es s := by
  intro hall
  let es : List AddEvent := [AddEvent.lookup 0 ⟨1, "a"⟩, .addValue 0, .lookup 1 ⟨2, "b"⟩, .addValue 1]
    ++ List.replicate 8 (AddEvent.write 0) ++ List.replicate 8 (AddEvent.write 1)
    ++ [AddEvent.write 0, .write 1]
  have hcheck : (Zset.run String.length [.add 5 "m"]).bind (fun z₀ =>
      (es.foldlM (step randomHeight) (start z₀)).map (fun s =>
        ((requests es).all (fun p => s.answered p.1), s.valueMap.view "a", s.zset.range 0 10)))
      = some (true, some 1, some [⟨2, "b"⟩, ⟨5, "m"⟩]) := by
    decide +kernel
  obtain ⟨z₀, hz, hcheck⟩ := Option.bind_eq_some_iff.mp hcheck
  obtain ⟨s, hs, hres⟩ := Option.map_eq_some_iff.mp hcheck
  obtain ⟨hans, hres⟩ := Prod.mk.inj hres
  obtain ⟨hview, hrange⟩ := Prod.mk.inj hres
  have hserved : AllServed es s := allServed_of_answered (List.all_eq_true.mp hans)
  obtain ⟨_, _, _, _, _, _, hcomplete⟩ :=
    hall String.length _ z₀ es s hz (run_of_forall (fun _ _ _ => trivial) hs) hserved
  obtain ⟨L, hL, hmem⟩ := hcomplete 0 10
  have hLL : [⟨2, "b"⟩, ⟨5, "m"⟩] = L := Option.some.inj (hrange.symm.trans hL)
  have hin := hmem 1 "a" hview (by decide) (by decide)
  rw [← hLL] at hin
  exact absurd hin (by decide)

end AddSys

end ZhiCache
