import ZhiCache.Storage.Publication
import ZhiCache.Storage.InsertRuns

/-!
# `Storage.ConcurrentReaders` — readers beside one writer at a time

The thread safety that the skip list promises: writes are synchronised externally, reads need nothing but
the list to stay alive. Runs in which an `Insert` begins only after the previous one has finished
(`Sys.Serial`) meet what the invariant of `Storage.Publication` asks of the accesses of an `Insert` call
(`serial_run`): nobody but the call itself changes the links it has seen or raises the height.

What a reader may rely on is then read off the invariant (`concurrent_readers`): it never touches an
uninitialised link, yields nodes in order and none twice, and passes over no node that was inserted before
it began. It is never stuck either: left to itself, it comes to the end of the list.
-/

namespace ZhiCache.SkipList

open Lib

variable {Key : Type} [Comparator Key] {l l' : SkipList Key} {T T' : Nat → List NodeId} {key : Key}

/-! ## An `Insert` call that is the only one -/

/-- The first `n` entries of `prev` have been written. -/
def Filled (prev : Prev) (n : Nat) : Prop := ∀ j, j < n → prev j ≠ none

/-- The successor of `succ`'s predecessor is where the key belongs: `succ` is not below the key. -/
def SettledAt (l : SkipList Key) (key : Key) (p : NodeId) (succ : Option NodeId) : Prop :=
  l.next p 0 = some succ ∧ l.keyIsAfterNode key succ = false

/-- The key belongs behind the entry of `prev` for level 0. -/
def Settled (l : SkipList Key) (key : Key) (prev : Prev) : Prop :=
  ∀ p, prev 0 = some p → ∃ succ, SettledAt l key p succ

/-- What an `Insert` call knows while no other is under way. -/
def InsertPc.Solo (l : SkipList Key) (key : Key) : InsertPc → Prop
  | search s => ∀ j, s.level < j → j < l.maxHeight → s.prev j ≠ none
  | draw prev => Filled prev l.maxHeight ∧ Settled l key prev
  | check prev _ => Filled prev l.maxHeight ∧ Settled l key prev
  | fill prev height => Filled prev l.maxHeight ∧ Settled l key prev ∧ l.maxHeight < height.1
  | raise prev height => Filled prev height.1 ∧ Settled l key prev
  | alloc prev height => Filled prev height.1 ∧ Settled l key prev
  | load sp => Filled sp.prev sp.height ∧ sp.level < sp.height ∧ (sp.level = 0 → Settled l key sp.prev)
  | own sp p succ => Filled sp.prev sp.height ∧ (sp.level = 0 → SettledAt l key p succ)
  | publish sp p => Filled sp.prev sp.height ∧
      (sp.level = 0 → ∃ succ, SettledAt l key p succ ∧ l.next sp.x 0 = some succ)
  | _ => True

/-- Such a call meets what the invariant asks of it. -/
theorem InsertPc.Solo.fresh {pc : InsertPc} (h : pc.Solo l key) : pc.Fresh l key := by
  cases pc with
  | load sp => exact h.1 sp.level h.2.1
  | publish sp p =>
      intro h0
      obtain ⟨succ, ⟨hp, hk⟩, hx⟩ := h.2 h0
      refine ⟨hp.trans hx.symm, fun succ' hsucc' => ?_⟩
      rw [← Option.some.inj (hp.symm.trans hsucc')]
      exact hk
  | _ => trivial

/-- The knowledge about level 0 lasts while the links and keys of published nodes stay. -/
theorem SettledAt.mono (h : Threaded l T) {p : NodeId} {succ : Option NodeId} (hp : p ∈ T 0)
    (hs : SettledAt l key p succ) (hnext : l'.next p 0 = l.next p 0)
    (hkey : ∀ n, n < l.count → l'.key n = l.key n) : SettledAt l' key p succ := by
  obtain ⟨hsucc, hk⟩ := hs
  refine ⟨hnext.trans hsucc, ?_⟩
  rw [keyIsAfterNode_eq_false] at hk ⊢
  intro n hn
  have hmem : n ∈ T 0 := (h.fwd 0 p hp n (hsucc.trans (congrArg some hn))).mem_right
  rw [hkey n (h.alloc 0 n hmem)]
  exact hk n hn

/-- The end of the search: all entries of `prev` are written, the last one at the place found. -/
theorem solo_search {s : Search} (hsolo : (InsertPc.search s).Solo l key)
    {draw : Random → Height × Random} {pc' : InsertPc}
    (hs : (InsertPc.search s).step draw l key = some (l', pc')) : pc'.Solo l' key := by
  cases ho : s.step l key with
  | none =>
      have heq : l = l' ∧ InsertPc.derailed = pc' := by simpa [InsertPc.step, ho] using hs
      obtain ⟨rfl, rfl⟩ := heq
      trivial
  | some o =>
      obtain ⟨next, hn, hcase⟩ := Search.step_cases ho
      cases o with
      | more s' =>
          have heq : l = l' ∧ InsertPc.search s' = pc' := by simpa [InsertPc.step, ho] using hs
          obtain ⟨rfl, rfl⟩ := heq
          rcases hcase with ⟨n, _, _, hc⟩ | ⟨_, _, hc⟩ | ⟨_, level, hl, hc⟩
          · cases hc
            exact hsolo
          · cases hc
          · cases hc
            intro j hj hjm
            by_cases hjl : j = level + 1
            · subst hjl
              simp
            · have hj' : level < j := hj
              show Function.update s.prev (level + 1) (some s.x) j ≠ none
              rw [Function.update_of_ne hjl]
              exact hsolo j (by omega) hjm
      | found next' prev =>
          have heq : l = l' ∧ InsertPc.draw prev = pc' := by simpa [InsertPc.step, ho] using hs
          obtain ⟨rfl, rfl⟩ := heq
          rcases hcase with ⟨n, _, _, hc⟩ | ⟨hk, hl, hc⟩ | ⟨_, level, _, hc⟩
          · cases hc
          · cases hc
            refine ⟨fun j hj => ?_, fun p hp => ⟨next, ?_, hk⟩⟩
            · by_cases hj0 : j = 0
              · subst hj0
                simp
              · rw [Function.update_of_ne hj0]
                exact hsolo j (by omega) hj
            · rw [Function.update_self] at hp
              rw [← Option.some.inj hp, ← hl]
              exact hn
          · cases hc

/-- **One access of the only `Insert` call.** -/
theorem InsertPc.Solo.step (h : Threaded l T) {pc pc' : InsertPc} (hon : pc.On l T key)
    (hsolo : pc.Solo l key) {draw : Random → Height × Random}
    (hs : pc.step draw l key = some (l', pc')) : pc'.Solo l' key := by
  cases pc with
  | enter =>
      cases hs
      intro j hj hjm
      simp only [Search.start] at hj
      omega
  | search s => exact solo_search hsolo hs
  | draw prev =>
      cases hs
      exact hsolo
  | check prev height =>
      cases hs
      split
      · rename_i hlt
        exact ⟨hsolo.1, hsolo.2, hlt⟩
      · rename_i hge
        exact ⟨fun j hj => hsolo.1 j (by omega), hsolo.2⟩
  | fill prev height =>
      cases hs
      obtain ⟨hfill, hset, hlt⟩ := hsolo
      have h1 := h.one_le
      refine ⟨fun j hj => ?_, fun p hp => hset p ?_⟩
      · by_cases hjm : l.maxHeight ≤ j
        · rw [raisePrev, if_pos ⟨hjm, hj⟩]
          simp
        · rw [raisePrev, if_neg (fun hc => hjm hc.1)]
          exact hfill j (by omega)
      · rwa [raisePrev, if_neg (fun hc => by omega)] at hp
  | raise prev height =>
      cases hs
      exact hsolo
  | alloc prev height =>
      cases hs
      obtain ⟨hfill, hset⟩ := hsolo
      refine ⟨hfill, height.2.1, fun _ p hp => ?_⟩
      obtain ⟨succ, hsucc⟩ := hset p hp
      have hmem : p ∈ T 0 := (hon 0 p hp).1
      refine ⟨succ, hsucc.mono h hmem ?_ ?_⟩
      · rw [newNode_next, if_neg (Nat.ne_of_lt (h.alloc 0 p hmem))]
      · intro n hn
        rw [newNode_key, if_neg (Nat.ne_of_lt hn)]
  | load sp =>
      obtain ⟨hfill, hlt, hset⟩ := hsolo
      obtain ⟨p, hp⟩ := Option.ne_none_iff_exists'.mp (hfill sp.level hlt)
      obtain ⟨hmem, hbelow⟩ := hon.prev sp.level p hp
      obtain ⟨succ, hsucc⟩ := Option.ne_none_iff_exists'.mp (h.init sp.level p hmem)
      have heq : l = l' ∧ InsertPc.own sp p succ = pc' := by simpa [InsertPc.step, hp, hsucc] using hs
      obtain ⟨rfl, rfl⟩ := heq
      refine ⟨hfill, fun h0 => ?_⟩
      rw [h0] at hp hsucc
      obtain ⟨succ', hsucc', hk⟩ := hset h0 p hp
      rw [← Option.some.inj (hsucc.symm.trans hsucc')] at hk
      exact ⟨hsucc, hk⟩
  | own sp p succ =>
      cases hs
      obtain ⟨hsp, hp, _, _⟩ := hon
      have hx : sp.x ∉ T sp.level := fun hm => Nat.lt_irrefl _ ((hsp.mem sp.level).mp hm)
      refine ⟨hsolo.1, fun h0 => ⟨succ, ?_, ?_⟩⟩
      · rw [h0] at hp hx
        refine (hsolo.2 h0).mono h hp ?_ (fun _ _ => rfl)
        rw [setNext_next, if_neg]
        exact fun hc => hx (hc.1 ▸ hp)
      · rw [setNext_next, if_pos ⟨rfl, h0.symm⟩]
  | publish sp p =>
      cases hs
      split
      · rename_i hlt
        exact ⟨hsolo.1, hlt, fun h0 => absurd h0 (Nat.succ_ne_zero _)⟩
      · trivial
  | finished x => exact absurd hs (by simp [InsertPc.step])
  | derailed => exact absurd hs (by simp [InsertPc.step])

/-! ## One `Insert` at a time -/

namespace Sys

/-- External synchronisation: an `Insert` begins only when none is under way. -/
def Serial (s : Sys Key) : Event Key → Prop
  | .insert _ _ => ∀ w ins, s.inserts w = some ins → ∃ x, ins.pc = .finished x
  | _ => True

/-- At most one call is under way, and it knows what the only one knows. -/
structure Alone (s : Sys Key) : Prop where
  one : ∀ w w' ins ins', s.inserts w = some ins → s.inserts w' = some ins' →
    (∀ x, ins.pc ≠ .finished x) → (∀ x, ins'.pc ≠ .finished x) → w = w'
  solo : ∀ w ins, s.inserts w = some ins → ins.pc.Solo s.list ins.key

theorem alone_idle (l : SkipList Key) : (idle l).Alone where
  one := fun w w' ins ins' hw => absurd hw (by simp [idle])
  solo := fun w ins hw => absurd hw (by simp [idle])

variable {T₀ : List NodeId} {s s' : Sys Key} {draw : Random → Height × Random}

/-- One event of a serial run. -/
theorem Alone.step (h : Sound T₀ s T) (ha : s.Alone) {e : Event Key} (hser : s.Serial e)
    (hs : s.step draw e = some s') : s'.Alone := by
  rcases step_cases hs with ⟨w, key, rfl, hw, rfl⟩ | ⟨w, ins, l', pc', rfl, hw, hpc, rfl⟩ |
    ⟨r, target, rfl, _, rfl⟩ | ⟨r, rd, rd', rfl, hr, hrd, rfl⟩
  · -- all the others have finished
    have hfin : ∀ w' ins', s.inserts w' = some ins' → ¬ ∀ x, ins'.pc ≠ .finished x := by
      intro w' ins' hw' hnot
      obtain ⟨x, hx⟩ := hser w' ins' hw'
      exact hnot x hx
    constructor
    · intro w₁ w₂ ins₁ ins₂ h₁ h₂ hx₁ hx₂
      rcases update_cases h₁ with ⟨rfl, _⟩ | ⟨_, h₁⟩
      · rcases update_cases h₂ with ⟨rfl, _⟩ | ⟨_, h₂⟩
        · rfl
        · exact absurd hx₂ (hfin w₂ ins₂ h₂)
      · exact absurd hx₁ (hfin w₁ ins₁ h₁)
    · intro w' ins' hw'
      rcases update_cases hw' with ⟨_, rfl⟩ | ⟨_, hw'⟩
      · trivial
      · exact ha.solo w' ins' hw'
  · -- the call that moves is the only one under way
    have hmoves : ∀ x, ins.pc ≠ .finished x := by
      intro x hx
      rw [hx] at hpc
      exact absurd hpc (by simp [InsertPc.step])
    constructor
    · intro w₁ w₂ ins₁ ins₂ h₁ h₂ hx₁ hx₂
      rcases update_cases h₁ with ⟨rfl, _⟩ | ⟨_, hold₁⟩
      · rcases update_cases h₂ with ⟨rfl, _⟩ | ⟨_, hold₂⟩
        · rfl
        · exact ha.one w₁ w₂ ins ins₂ hw hold₂ hmoves hx₂
      · rcases update_cases h₂ with ⟨rfl, _⟩ | ⟨_, hold₂⟩
        · exact ha.one w₁ w₂ ins₁ ins hold₁ hw hx₁ hmoves
        · exact ha.one w₁ w₂ ins₁ ins₂ hold₁ hold₂ hx₁ hx₂
    · intro w' ins' hw'
      rcases update_cases hw' with ⟨_, rfl⟩ | ⟨hne, hw'⟩
      · exact (ha.solo w ins hw).step h.threaded (h.inserts w ins hw) hpc
      · by_cases hx : ∀ x, ins'.pc ≠ .finished x
        · exact absurd (ha.one w' w ins' ins hw' hw hx hmoves) hne
        · obtain ⟨x, hx⟩ := not_forall_not.mp hx
          rw [hx]
          trivial
  · exact ⟨ha.one, ha.solo⟩
  · exact ⟨ha.one, ha.solo⟩

/-- **Serial runs meet the condition of the invariant** at each of their steps. -/
theorem serial_run [LawfulComparator Key] {es : List (Event Key)} (h : ∃ T, Sound T₀ s T) (ha : s.Alone)
    (hrun : Run (Sys.step draw) Serial s es s') :
    Run (Sys.step draw) Fresh s es s' ∧ (∃ T, Sound T₀ s' T) ∧ s'.Alone := by
  refine Run.strengthen (I := fun s => (∃ T, Sound T₀ s T) ∧ s.Alone) ⟨h, ha⟩ ?_ hrun
  rintro s₁ e s₂ ⟨⟨T, hT⟩, ha₁⟩ hser hs
  have hfresh : s₁.Fresh e := by
    cases e with
    | write w => exact fun ins hw => (ha₁.solo w ins hw).fresh
    | _ => trivial
  obtain ⟨T', _, hT', _⟩ := hT.step hfresh hs
  exact ⟨⟨⟨T', hT'⟩, ha₁.step hT hser hs⟩, hfresh⟩

/-! ## What a reader owes, over a run -/

/-- Reader `r` is on its way from `target` and has passed over none of the nodes in `X`. -/
def OnItsWay (T₀ : List NodeId) (r : Nat) (target : Key) (X : NodeId → Prop) (s : Sys Key) : Prop :=
  ∃ T rd, Sound T₀ s T ∧ s.readers r = some rd ∧ rd.target = target ∧
    ∀ x, X x → x ∈ T 0 ∧ x ≠ head ∧ ¬ compare (s.list.key x) target < 0 ∧ rd.Owes T x

theorem OnItsWay.step [LawfulComparator Key] {r : Nat} {target : Key} {X : NodeId → Prop} {e : Event Key}
    (h : OnItsWay T₀ r target X s) (hfresh : s.Fresh e) (hs : s.step draw e = some s') :
    OnItsWay T₀ r target X s' := by
  obtain ⟨T, rd, hT, hr, htarget, hX⟩ := h
  obtain ⟨T', mine, hT', heff⟩ := hT.step hfresh hs
  have hsame : s'.readers r = some rd → OnItsWay T₀ r target X s' := by
    intro hr'
    refine ⟨T', rd, hT', hr', htarget, fun x hx => ?_⟩
    obtain ⟨hmem, hne, hge, howes⟩ := hX x hx
    refine ⟨(heff.sub 0).subset hmem, hne, ?_, howes.mono (heff.sub 0)⟩
    rw [heff.key x (hT.threaded.alloc 0 x hmem)]
    exact hge
  rcases step_cases hs with ⟨w, key, rfl, _, rfl⟩ | ⟨w, ins, l', pc', rfl, _, _, rfl⟩ |
    ⟨r', target', rfl, hr', rfl⟩ | ⟨r', rd₀, rd', rfl, hr', hrd, rfl⟩
  · exact hsame hr
  · exact hsame hr
  · have hrr : r ≠ r' := fun e => absurd ((e ▸ hr').symm.trans hr) (by simp)
    exact hsame ((Function.update_of_ne hrr _ _).trans hr)
  · by_cases hrr : r = r'
    · subst hrr
      have hrd₀ : rd₀ = rd := Option.some.inj (hr'.symm.trans hr)
      subst hrd₀
      -- the reader itself moves; memory is as before
      have hon := hT.readers r rd₀ hr
      refine ⟨T, rd', hT.read (hon.step hT.threaded hrd), Function.update_self ..,
        (Reader.step_target hrd).trans htarget, fun x hx => ?_⟩
      obtain ⟨hmem, hne, hge, howes⟩ := hX x hx
      exact ⟨hmem, hne, hge, howes.step hT.threaded hon hrd hmem hne (htarget ▸ hge)⟩
    · exact hsame ((Function.update_of_ne hrr _ _).trans hr)

/-! ## A reader left to itself -/

end Sys

/-- A bound on the accesses that a reader still needs when memory stays as it is. -/
def Reader.bound (l : SkipList Key) (T : Nat → List NodeId) (rd : Reader Key) : Nat :=
  match rd.pc with
  | .enter => kMaxHeight * l.count + (T 0).length + 2
  | .search s => s.bound T l.count + (T 0).length + 1
  | .standing n => (T 0).length - (T 0).idxOf n
  | _ => 0

theorem Reader.bound_lt (h : Threaded l T) {rd rd' : Reader Key} (hon : rd.On l T)
    (hs : rd.step l = some rd') : rd'.bound l T < rd.bound l T := by
  -- wherever the iterator moves to, less than the length of level 0 is left
  have hmove : ∀ next, (rd.moveTo next).bound l T ≤ (T 0).length := by
    intro next
    cases next with
    | none => exact Nat.zero_le _
    | some n => exact Nat.sub_le _ _
  unfold Reader.On at hon
  unfold Reader.step at hs
  cases hpc : rd.pc with
  | enter =>
      simp only [hpc] at hs
      have hb := h.bound_start
      rw [← Option.some.inj hs]
      simp only [Reader.bound, hpc]
      omega
  | search s =>
      simp only [hpc] at hon hs
      obtain ⟨o, ho⟩ := Option.ne_none_iff_exists'.mp (h.step_ne_none hon.1)
      rw [ho] at hs
      cases o with
      | more s' =>
          have hb := h.bound_lt hon.1 ho
          rw [← Option.some.inj hs]
          simp only [Reader.bound, hpc]
          omega
      | found next prev =>
          have hb := hmove next
          rw [← Option.some.inj hs]
          have hself : rd.bound l T = s.bound T l.count + (T 0).length + 1 := by simp only [Reader.bound, hpc]
          omega
  | standing n =>
      simp only [hpc] at hon hs
      obtain ⟨⟨ys, hys⟩, hsub⟩ := hon
      have hn : n ∈ T 0 := by
        refine List.mem_of_mem_tail (hsub.subset ?_)
        rw [hys]
        exact List.mem_append_right ys List.mem_cons_self
      have hidx : (T 0).idxOf n < (T 0).length := List.idxOf_lt_length_iff.mpr hn
      have hself : rd.bound l T = (T 0).length - (T 0).idxOf n := by simp only [Reader.bound, hpc]
      obtain ⟨next, hnext⟩ := Option.ne_none_iff_exists'.mp (h.init 0 n hn)
      have hiter : l.iterNext n = some next := hnext
      rw [hiter] at hs
      rw [← Option.some.inj hs, hself]
      cases next with
      | none =>
          show 0 < _
          omega
      | some m =>
          -- the links of level 0 lead forward
          have hlt := (h.fwd 0 n hn m hnext).idxOf_lt (h.nodup 0)
          show (T 0).length - (T 0).idxOf m < _
          omega
  | finished =>
      simp only [hpc] at hs
      exact absurd hs (by simp)
  | fault =>
      simp only [hpc] at hon

/-- A reader that is not at the end can move. -/
theorem Reader.On.step_ne_none {rd : Reader Key} (hon : rd.On l T) (hne : rd.pc ≠ .finished) :
    rd.step l ≠ none := by
  unfold Reader.On at hon
  unfold Reader.step
  cases hpc : rd.pc with
  | enter => simp
  | search s => cases hs : s.step l rd.target with
      | none => simp [hs]
      | some o => cases o <;> simp [hs]
  | standing n => cases hn : l.iterNext n <;> simp [hn]
  | finished => exact absurd hpc hne
  | fault => simp only [hpc] at hon

/-- **A reader left to itself comes to the end.** -/
theorem Sys.Sound.reader_finishes [LawfulComparator Key] {T₀ : List NodeId} {s : Sys Key}
    {draw : Random → Height × Random} (h : s.Sound T₀ T) {r : Nat} {rd : Reader Key}
    (hr : s.readers r = some rd) :
    ∃ n s' rd', (List.replicate n (Event.read r)).foldlM (Sys.step draw) s = some s' ∧
      s'.readers r = some rd' ∧ rd'.pc = .finished := by
  induction hb : rd.bound s.list T using Nat.strong_induction_on generalizing s rd with
  | h b ih =>
      by_cases hfin : rd.pc = .finished
      · exact ⟨0, s, rd, rfl, hr, hfin⟩
      · have hon := h.readers r rd hr
        obtain ⟨rd₁, hrd₁⟩ := Option.ne_none_iff_exists'.mp (hon.step_ne_none hfin)
        have hs₁ := h.read (r := r) (hon.step h.threaded hrd₁)
        obtain ⟨n, s', rd', hrun, hr', hfin'⟩ :=
          ih _ (hb ▸ Reader.bound_lt h.threaded hon hrd₁) hs₁ (Function.update_self ..) rfl
        refine ⟨n + 1, s', rd', ?_, hr', hfin'⟩
        rw [List.replicate_succ, List.foldlM_cons]
        have hstep : s.step draw (.read r)
            = some { s with readers := Function.update s.readers r (some rd₁) } := by
          simp [Sys.step, hr, hrd₁]
        rw [hstep]
        exact hrun

theorem Reader.On.yielded_sublist {rd : Reader Key} (hon : rd.On l T) : rd.yielded.Sublist (T 0).tail := by
  unfold Reader.On at hon
  cases hpc : rd.pc with
  | enter =>
      simp only [hpc] at hon
      rw [hon]
      exact List.nil_sublist _
  | search s =>
      simp only [hpc] at hon
      rw [hon.2]
      exact List.nil_sublist _
  | standing n =>
      simp only [hpc] at hon
      exact hon.2
  | finished =>
      simp only [hpc] at hon
      exact hon
  | fault => simp only [hpc] at hon

/-! ## The skip list of a sorted set -/

/-- **Readers beside one writer at a time.** In every run of `Insert`s performed one at a time, a reader that
    called `Seek` at some point never loads an uninitialised link, yields nodes of non-decreasing score, none
    twice, and only nodes of `Insert` calls that have begun. Once it is at the end it has yielded every node
    within its target whose `Insert` had finished before the `Seek`; and it can always get to the end. -/
theorem concurrent_readers (draw : Random → Height × Random) {es₁ es₂ : List (Event ZsetSkipListNode)}
    {s₁ s₁' s₂ : Sys ZsetSkipListNode} {r : Nat} {target : ZsetSkipListNode}
    (h₁ : Run (Sys.step draw) Sys.Serial (Sys.idle new) es₁ s₁)
    (hseek : s₁.step draw (.seek r target) = some s₁')
    (h₂ : Run (Sys.step draw) Sys.Serial s₁' es₂ s₂) :
    ∃ rd, s₂.readers r = some rd ∧ rd.target = target ∧
      rd.pc ≠ .fault ∧
      (rd.yielded.map (fun n => (s₂.list.key n).score)).Pairwise (· ≤ ·) ∧
      rd.yielded.Nodup ∧
      (∀ n ∈ rd.yielded, ∃ w ins, s₂.inserts w = some ins ∧ ins.pc.node = some n) ∧
      (rd.pc = .finished → ∀ w ins x, s₁.inserts w = some ins → ins.pc = .finished x →
        target.score ≤ ins.key.score → x ∈ rd.yielded) ∧
      ∃ n s₃ rd₃, (List.replicate n (.read r)).foldlM (Sys.step draw) s₂ = some s₃ ∧
        s₃.readers r = some rd₃ ∧ rd₃.pc = .finished := by
  have h0 : Sys.Sound [head] (Sys.idle (new : SkipList ZsetSkipListNode)) emptyLevels :=
    Sys.sound_idle new_levels.threaded
  obtain ⟨_, ⟨T₁, hT₁⟩, ha₁⟩ := Sys.serial_run ⟨_, h0⟩ (Sys.alone_idle _) h₁
  -- the nodes that the reader owes from its `Seek` on
  let X : NodeId → Prop := fun x => ∃ w ins, s₁.inserts w = some ins ∧ ins.pc = .finished x ∧
    target.score ≤ ins.key.score
  rcases Sys.step_cases hseek with ⟨_, _, he, _⟩ | ⟨_, _, _, _, he, _⟩ | ⟨r', target', he, _, rfl⟩ |
    ⟨_, _, _, he, _⟩
  · cases he
  · cases he
  · cases he
    have hT₁' : Sys.Sound [head]
        { s₁ with readers := Function.update s₁.readers r (some ⟨target, .enter, []⟩) } T₁ := hT₁.read rfl
    have hway₁ : Sys.OnItsWay [head] r target X
        { s₁ with readers := Function.update s₁.readers r (some ⟨target, .enter, []⟩) } := by
      refine ⟨T₁, _, hT₁', Function.update_self .., rfl, ?_⟩
      rintro x ⟨w, ins, hw, hpc, hge⟩
      have hon := hT₁.inserts w ins hw
      rw [hpc] at hon
      obtain ⟨_, hne, hmem, hkey⟩ := hon
      refine ⟨hmem, hne, ?_, trivial⟩
      show ¬ compare (s₁.list.key x) target < 0
      rw [hkey, compare_lt_zero]
      exact Int32.not_lt.mpr hge
    obtain ⟨hrun₂, _, _⟩ := Sys.serial_run ⟨_, hT₁'⟩ ⟨ha₁.one, ha₁.solo⟩ h₂
    obtain ⟨T, rd, hT, hr, htarget, hX⟩ :=
      Run.invariant hway₁ (fun s e s' hs hfresh hstep => hs.step hfresh hstep) hrun₂
    have hon := hT.readers r rd hr
    have hsub := hon.yielded_sublist
    refine ⟨rd, hr, htarget, ?_, ?_, ?_, ?_, ?_, hT.reader_finishes hr⟩
    · intro hfault
      unfold Reader.On at hon
      simp only [hfault] at hon
    · rw [List.pairwise_map]
      exact (hT.threaded.sorted.sublist hsub).imp (fun hab => inOrder_iff.mp hab)
    · exact (hT.threaded.nodup 0).sublist (hsub.trans (List.tail_sublist _))
    · intro n hn
      obtain ⟨N, hN⟩ := hT.threaded.eq_head_cons
      have hmem : n ∈ N := by
        have hmem := hsub.subset hn
        rwa [hN] at hmem
      have hnd : (head :: N).Nodup := hN ▸ hT.threaded.nodup 0
      refine (hT.origin n (hN ▸ List.mem_cons_of_mem head hmem)).resolve_left (fun hhead => ?_)
      exact (List.nodup_cons.mp hnd).1 (List.mem_singleton.mp hhead ▸ hmem)
    · intro hfin w ins x hw hpc hge
      have howes := (hX x ⟨w, ins, hw, hpc, hge⟩).2.2.2
      unfold Reader.Owes at howes
      rw [hfin] at howes
      exact howes
  · cases he

/-- A reader sent to score 3 finds the node of score 5 that was inserted before, and goes on to the node of
    score 7 whose `Insert` was under way when `Seek` was called and takes its steps between those of the
    reader. -/
theorem concurrent_readers_second_insert :
    ∃ (s₁ s₁' s₂ : Sys ZsetSkipListNode) (rd : Reader ZsetSkipListNode),
      Run (Sys.step randomHeight) Sys.Serial (Sys.idle new)
        (.insert 0 ⟨5, "a"⟩ :: List.replicate 13 (.write 0)
          ++ .insert 1 ⟨7, "b"⟩ :: List.replicate 5 (.write 1)) s₁ ∧
      s₁.step randomHeight (.seek 0 ⟨3, ""⟩) = some s₁' ∧
      Run (Sys.step randomHeight) Sys.Serial s₁'
        [.read 0, .write 1, .write 1, .read 0, .write 1, .read 0, .write 1, .write 1, .read 0, .read 0] s₂ ∧
      s₂.readers 0 = some rd ∧ rd.pc = .finished ∧ 1 ∈ rd.yielded ∧ rd.yielded = [1, 2] ∧
      (rd.yielded.map (fun n => (s₂.list.key n).score)).Pairwise (· ≤ ·) ∧
      ∃ w ins, s₂.inserts w = some ins ∧ ins.pc.node = some 2 := by
  have hcheck : ((.insert 0 ⟨5, "a"⟩ :: List.replicate 13 (Event.write 0)).foldlM (Sys.step randomHeight)
        (Sys.idle (new : SkipList ZsetSkipListNode))).bind
      (fun s₀ => (s₀.step randomHeight (.insert 1 ⟨7, "b"⟩)).bind
      (fun s₀' => ((List.replicate 5 (Event.write 1)).foldlM (Sys.step randomHeight) s₀').bind
      (fun s₁ => (s₁.step randomHeight (.seek 0 ⟨3, ""⟩)).bind
      (fun s₁' => ([.read 0, .write 1, .write 1, .read 0, .write 1, .read 0, .write 1, .write 1, .read 0,
        .read 0].foldlM (Sys.step randomHeight) s₁').bind
      (fun s₂ => (s₁.inserts 0).bind (fun ins => (s₂.readers 0).map (fun rd =>
        (((s₀.inserts 0).map (fun ins => ins.pc.result), ins.key.score, ins.pc.result),
          rd.pc.isFinished, rd.yielded)))))))) = some ((some (some 1), 5, some 1), true, [1, 2]) := by
    decide +kernel
  obtain ⟨s₀, hs₀, hcheck⟩ := Option.bind_eq_some_iff.mp hcheck
  obtain ⟨s₀', hs₀', hcheck⟩ := Option.bind_eq_some_iff.mp hcheck
  obtain ⟨s₁, hs₁, hcheck⟩ := Option.bind_eq_some_iff.mp hcheck
  obtain ⟨s₁', hseek, hcheck⟩ := Option.bind_eq_some_iff.mp hcheck
  obtain ⟨s₂, hs₂, hcheck⟩ := Option.bind_eq_some_iff.mp hcheck
  obtain ⟨ins, hins, hcheck⟩ := Option.bind_eq_some_iff.mp hcheck
  obtain ⟨rd₀, hrd₀, hcheck⟩ := Option.map_eq_some_iff.mp hcheck
  simp only [Prod.mk.injEq] at hcheck
  obtain ⟨⟨hfirst, hscore, hnode⟩, hfin, hyielded⟩ := hcheck
  have hfirstRun : Run (Sys.step randomHeight) Sys.Serial (Sys.idle new)
      (.insert 0 ⟨5, "a"⟩ :: List.replicate 13 (.write 0)) s₀ := by
    rw [List.foldlM_cons] at hs₀
    obtain ⟨s, hs, hrest⟩ := Option.bind_eq_some_iff.mp hs₀
    refine Run.cons (fun w ins hw => absurd hw (by simp [Sys.idle])) hs (run_of_forall ?_ hrest)
    exact fun e he s => by rw [List.eq_of_mem_replicate he]; trivial
  -- the second call may begin, for the first one is the only one before and has finished
  have hserial : Sys.Serial s₀ (.insert 1 ⟨7, "b"⟩) := by
    intro w ins hw
    have hbegun : w = 0 := by
      have hmem := Sys.begun hfirstRun w ins hw
      simp only [List.mem_cons, Event.insert.injEq, List.mem_replicate, reduceCtorEq, and_false,
        or_false] at hmem
      exact hmem.1
    subst hbegun
    rw [hw] at hfirst
    exact ⟨1, InsertPc.eq_finished (Option.some.inj hfirst)⟩
  have hsecondRun : Run (Sys.step randomHeight) Sys.Serial s₀' (List.replicate 5 (.write 1)) s₁ :=
    run_of_forall (fun e he s => by rw [List.eq_of_mem_replicate he]; trivial) hs₁
  have h₁ := hfirstRun.trans (Run.cons hserial hs₀' hsecondRun)
  have h₂ : Run (Sys.step randomHeight) Sys.Serial s₁' _ s₂ := run_of_forall (by simp [Sys.Serial]) hs₂
  obtain ⟨rd, hrd, -, -, hsorted, -, horigin, hall, -⟩ := concurrent_readers randomHeight h₁ hseek h₂
  obtain rfl : rd₀ = rd := Option.some.inj (hrd₀.symm.trans hrd)
  have hend := ReaderPc.eq_finished hfin
  refine ⟨s₁, s₁', s₂, rd₀, h₁, hseek, h₂, hrd, hend, ?_, hyielded, hsorted, ?_⟩
  · exact hall hend 0 ins 1 hins (InsertPc.eq_finished hnode) (by rw [hscore]; decide)
  · exact horigin 2 (by rw [hyielded]; simp)

end ZhiCache.SkipList
