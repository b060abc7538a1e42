import Mathlib.Data.List.DropRight
import ZhiCache.Server.Pointers
import ZhiCache.Lib.Run

/-!
# `Server.Lifetime` — how long a pointer returned by `Get` is good

Between the lookup of a pointer and the read through it, other requests may destroy the element. The system
of this module interleaves `/query`, `/list` and `/zrange`, which hold pointers, with `/add`, `/del` and
`/zrmv`. One event is one operation on a map, or one read through a pointer. `/zrmv` first looks its set up;
no request here adds or removes a set, so this lookup is made together with the deletion.

A deletion of its key takes a pointer from leading to its element to having lost it, and nothing takes it
back, because an address is handed out once (`Maps.Leads.step`, `Maps.Gone.step`). So the element still
exists at the read exactly when no request has deleted its key since the lookup (`held_exists_iff`).
-/

namespace ZhiCache

open Lib

/-! ## The system -/

/-- What can happen. -/
inductive LookupEvent where
  | add (request : InsertRequest)
  | del (key : Option String)
  | zrmv (key value : Option String)
  | arrive (r : Nat) (request : ReadRequest)
  /-- Request `r` looks something up, in its fiber `i`. -/
  | get (r i : Nat)
  /-- Request `r` reads through the pointer of its fiber `i`. -/
  | read (r i : Nat)
  deriving DecidableEq, Repr

namespace LookupEvent

/-- What the event does to the maps. -/
def onMaps (m : Maps) : LookupEvent → Option Maps
  | add request => some { m with kv := (AddKeyHandler.onPost m.kv request).kv }
  | del key => some { m with kv := (DelKeyHandler.onGet m.kv key).kv }
  | zrmv key value => (ZrmvHandler.onGet m.zsets key value).map (fun r => { m with zsets := r.2 })
  | _ => some m

/-- Whether the event deletes what the pointer was looked up by. -/
def deletes : LookupEvent → Pointer → Bool
  | del (some key), .value key' _ => decide (key = key')
  | zrmv (some key) (some value), .score key' _ member _ => decide (key = key' ∧ value = member)
  | _, _ => false

end LookupEvent

/-- The maps, and the requests that look into them. -/
structure LookupSys where
  maps : Maps
  requests : Nat → Option ReadPc

namespace LookupSys

/-- No request yet. -/
def idle (m : Maps) : LookupSys := ⟨m, fun _ => none⟩

/-- What the event does to the requests. -/
def advance (s : LookupSys) : LookupEvent → Option (Nat → Option ReadPc)
  | .arrive r request =>
    match s.requests r with
    | some _ => none
    | none => some (Function.update s.requests r (some request.start))
  | .get r i => do
    let pc ← s.requests r
    let pc ← pc.get s.maps i
    return Function.update s.requests r (some pc)
  | .read r i => do
    let pc ← s.requests r
    let pc ← pc.read s.maps i
    return Function.update s.requests r (some pc)
  | _ => some s.requests

/-- One event. -/
def step (s : LookupSys) (e : LookupEvent) : Option LookupSys := do
  let maps ← e.onMaps s.maps
  let requests ← s.advance e
  return ⟨maps, requests⟩

/-- The pointer that request `r` holds in its fiber `i`. -/
def held (s : LookupSys) (r i : Nat) : Option Pointer := (s.requests r).bind (ReadPc.held i)

end LookupSys

/-! ## What an event does to a pointer -/

namespace LookupEvent

variable {m m' : Maps} {e : LookupEvent}

/-- Only `/add` and `/del` reach `KvManager`, and only `/zrmv` reaches the sets. -/
theorem onMaps_cases (h : e.onMaps m = some m') :
    (∃ request, e = .add request ∧ m' = ⟨(AddKeyHandler.onPost m.kv request).kv, m.zsets⟩) ∨
    (∃ key, e = .del (some key) ∧ m' = ⟨m.kv.del key, m.zsets⟩) ∨
    (∃ key value zsets, e = .zrmv (some key) (some value) ∧ m.zsets.del key value = some zsets ∧
      m' = ⟨m.kv, zsets⟩) ∨
    ((∀ p, e.deletes p = false) ∧ m' = m) := by
  cases e with
  | add request => exact Or.inl ⟨request, rfl, (Option.some.inj h).symm⟩
  | del key =>
      cases key with
      | none => exact Or.inr (Or.inr (Or.inr ⟨fun p => rfl, (Option.some.inj h).symm⟩))
      | some key => exact Or.inr (Or.inl ⟨key, rfl, (Option.some.inj h).symm⟩)
  | zrmv key value =>
      obtain ⟨⟨status, zsets⟩, hz, rfl⟩ := Option.map_eq_some_iff.mp h
      cases key with
      | none =>
          obtain ⟨_, rfl⟩ := Prod.mk.inj (Option.some.inj hz)
          exact Or.inr (Or.inr (Or.inr ⟨fun p => rfl, rfl⟩))
      | some key =>
          cases value with
          | none =>
              obtain ⟨_, rfl⟩ := Prod.mk.inj (Option.some.inj hz)
              exact Or.inr (Or.inr (Or.inr ⟨fun p => rfl, rfl⟩))
          | some value =>
              obtain ⟨zsets', hdel, heq⟩ := Option.map_eq_some_iff.mp hz
              obtain ⟨_, rfl⟩ := Prod.mk.inj heq
              exact Or.inr (Or.inr (Or.inl ⟨key, value, _, rfl, hdel, rfl⟩))
  | _ => exact Or.inr (Or.inr (Or.inr ⟨fun p => rfl, (Option.some.inj h).symm⟩))

end LookupEvent

namespace Maps

variable {m m' : Maps} {p : Pointer} {e : LookupEvent}

/-- **One event and a pointer that a lookup would return.** -/
theorem Leads.step (h : m.Leads p) (hm : e.onMaps m = some m') :
    m'.Leads p ∧ e.deletes p = false ∨ m'.Gone p ∧ e.deletes p = true := by
  rcases LookupEvent.onMaps_cases hm with ⟨request, rfl, rfl⟩ | ⟨key', rfl, rfl⟩
    | ⟨key', value, zsets, rfl, hdel, rfl⟩ | ⟨hno, rfl⟩
  · refine Or.inl ⟨?_, rfl⟩
    cases p with
    | value key a =>
        show (AddKeyHandler.onPost m.kv request).kv.query key = some a
        unfold AddKeyHandler.onPost
        split
        · exact h
        · exact HashKv.get_add_of_some h
    | set key a => exact h
    | score key zset member a => exact h
  · cases p with
    | value key a =>
        by_cases hk : key' = key
        · subst hk
          exact Or.inr ⟨HashKv.destroyed_of_del h, decide_eq_true rfl⟩
        · refine Or.inl ⟨?_, decide_eq_false hk⟩
          show (m.kv.memdb.del key').get key = some a
          rw [HashKv.get_del, if_neg (fun hk' => hk hk'.symm)]
          exact h
    | set key a => exact Or.inl ⟨h, rfl⟩
    | score key zset member a => exact Or.inl ⟨h, rfl⟩
  · cases p with
    | value key a => exact Or.inl ⟨h, rfl⟩
    | set key a =>
        obtain ⟨z, hz⟩ := Option.isSome_iff_exists.mp (Leads.exist h)
        exact Or.inl ⟨(ZsetManager.del_deref hdel h hz).1, rfl⟩
    | score key zset member a =>
        obtain ⟨hg, z, hz, hs⟩ := h
        obtain ⟨hg', hz'⟩ := ZsetManager.del_deref hdel hg hz
        by_cases hk : key' = key ∧ value = member
        · obtain ⟨rfl, rfl⟩ := hk
          rw [if_pos rfl] at hz'
          exact Or.inr ⟨⟨hg', _, hz', HashKv.destroyed_of_del hs⟩, decide_eq_true ⟨rfl, rfl⟩⟩
        · refine Or.inl ⟨⟨hg', _, hz', ?_⟩, decide_eq_false hk⟩
          split
          · rename_i hkey
            show (z.valueMap.del value).get member = some a
            rw [HashKv.get_del, if_neg (fun hv => hk ⟨hkey, hv.symm⟩)]
            exact hs
          · exact hs
  · exact Or.inl ⟨h, hno p⟩

/-- A destroyed element stays destroyed. -/
theorem Gone.step (h : m.Gone p) (hm : e.onMaps m = some m') : m'.Gone p := by
  rcases LookupEvent.onMaps_cases hm with ⟨request, rfl, rfl⟩ | ⟨key', rfl, rfl⟩
    | ⟨key', value, zsets, rfl, hdel, rfl⟩ | ⟨_, rfl⟩
  · cases p with
    | value key a =>
        show (AddKeyHandler.onPost m.kv request).kv.memdb.Destroyed a
        unfold AddKeyHandler.onPost
        split
        · exact h
        · exact HashKv.Destroyed.add h _ _
    | set key a => exact h
    | score key zset member a => exact h
  · cases p with
    | value key a => exact HashKv.Destroyed.del h key'
    | set key a => exact h
    | score key zset member a => exact h
  · cases p with
    | value key a => exact h
    | set key a => exact h
    | score key zset member a =>
        obtain ⟨hg, z, hz, hs⟩ := h
        obtain ⟨hg', hz'⟩ := ZsetManager.del_deref hdel hg hz
        refine ⟨hg', _, hz', ?_⟩
        split
        · exact HashKv.Destroyed.del hs value
        · exact hs
  · exact h

end Maps

/-! ## Runs -/

namespace LookupSys

variable {s s' : LookupSys} {es : List LookupEvent} {e : LookupEvent} {r i : Nat} {p : Pointer}

/-- The events since the last lookup of fiber `i` of request `r`. -/
def sinceGet (r i : Nat) (es : List LookupEvent) : List LookupEvent :=
  es.rtakeWhile (fun e => decide (e ≠ .get r i))

theorem sinceGet_snoc_self : sinceGet r i (es ++ [.get r i]) = [] :=
  List.rtakeWhile_concat_neg _ _ _ (by simp)

theorem sinceGet_snoc_of_ne (h : e ≠ .get r i) : sinceGet r i (es ++ [e]) = sinceGet r i es ++ [e] :=
  List.rtakeWhile_concat_pos _ _ _ (by simpa using h)

theorem step_cases (h : s.step e = some s') :
    e.onMaps s.maps = some s'.maps ∧ s.advance e = some s'.requests := by
  obtain ⟨maps, hmaps, h⟩ := Option.bind_eq_some_iff.mp h
  obtain ⟨requests, hreq, h⟩ := Option.bind_eq_some_iff.mp h
  obtain rfl : ⟨maps, requests⟩ = s' := Option.some.inj h
  exact ⟨hmaps, hreq⟩

/-- What is known of the pointers after the events `es`. -/
structure Tracked (es : List LookupEvent) (s : LookupSys) : Prop where
  sets : ∀ r pc p, s.requests r = some pc → pc.set = some p → s.maps.Leads p
  held : ∀ r i p, s.held r i = some p →
    (s.maps.Leads p ∧ ∀ e ∈ sinceGet r i es, e.deletes p = false) ∨
    (s.maps.Gone p ∧ ∃ e ∈ sinceGet r i es, e.deletes p = true)

/-- **Inversion of what an event does to the requests.** -/
theorem advance_cases {requests : Nat → Option ReadPc} (h : s.advance e = some requests) :
    (requests = s.requests ∧ ∀ r i, e ≠ .get r i) ∨
    (∃ r request, e = .arrive r request ∧ requests = Function.update s.requests r (some request.start)) ∨
    (∃ r i pc pc', e = .get r i ∧ s.requests r = some pc ∧ pc.get s.maps i = some pc' ∧
      requests = Function.update s.requests r (some pc')) ∨
    (∃ r i pc pc', e = .read r i ∧ s.requests r = some pc ∧ pc.read s.maps i = some pc' ∧
      requests = Function.update s.requests r (some pc')) := by
  cases e with
  | arrive r request =>
      simp only [advance] at h
      split at h
      · exact absurd h (by simp)
      · exact Or.inr (Or.inl ⟨r, request, rfl, (Option.some.inj h).symm⟩)
  | get r i =>
      obtain ⟨pc, hr, h⟩ := Option.bind_eq_some_iff.mp h
      obtain ⟨pc', hpc, h⟩ := Option.bind_eq_some_iff.mp h
      exact Or.inr (Or.inr (Or.inl ⟨r, i, pc, pc', rfl, hr, hpc, (Option.some.inj h).symm⟩))
  | read r i =>
      obtain ⟨pc, hr, h⟩ := Option.bind_eq_some_iff.mp h
      obtain ⟨pc', hpc, h⟩ := Option.bind_eq_some_iff.mp h
      exact Or.inr (Or.inr (Or.inr ⟨r, i, pc, pc', rfl, hr, hpc, (Option.some.inj h).symm⟩))
  | _ => exact Or.inl ⟨(Option.some.inj h).symm, by simp⟩

/-- Where the pointers of the requests come from: a lookup in this step, or the state before. -/
theorem held_advance {requests : Nat → Option ReadPc} (h : s.advance e = some requests)
    (hsets : ∀ r pc p, s.requests r = some pc → pc.set = some p → s.maps.Leads p)
    (hheld : (requests r).bind (ReadPc.held i) = some p) :
    (e ≠ .get r i ∧ s.held r i = some p) ∨ (e = .get r i ∧ s.maps.Leads p) := by
  obtain ⟨pc, hpc, hp⟩ := Option.bind_eq_some_iff.mp hheld
  have hold : ∀ pc, s.requests r = some pc → pc.held i = some p → s.held r i = some p := by
    intro pc hr hp
    rw [held, hr]
    exact hp
  rcases advance_cases h with ⟨rfl, hne⟩ | ⟨r₀, request, rfl, rfl⟩ | ⟨r₀, j, pc₀, pc₁, rfl, hr₀, hget, rfl⟩ |
    ⟨r₀, j, pc₀, pc₁, rfl, hr₀, hread, rfl⟩
  · exact Or.inl ⟨hne r i, hold pc hpc hp⟩
  · rcases update_cases hpc with ⟨_, rfl⟩ | ⟨_, hr⟩
    · rw [(ReadPc.held_start request i).1] at hp
      exact absurd hp (by simp)
    · exact Or.inl ⟨by simp, hold pc hr hp⟩
  · rcases update_cases hpc with ⟨rfl, rfl⟩ | ⟨hne, hr⟩
    · rcases ReadPc.held_get hget (fun p => hsets r pc₀ p hr₀) hp with ⟨hij, hp₀⟩ | ⟨rfl, hleads⟩
      · exact Or.inl ⟨fun heq => hij (LookupEvent.get.inj heq).2.symm, hold pc₀ hr₀ hp₀⟩
      · exact Or.inr ⟨rfl, hleads⟩
    · exact Or.inl ⟨fun heq => hne (LookupEvent.get.inj heq).1.symm, hold pc hr hp⟩
  · rcases update_cases hpc with ⟨rfl, rfl⟩ | ⟨_, hr⟩
    · exact Or.inl ⟨by simp, hold pc₀ hr₀ ((ReadPc.held_read hread).1 p hp)⟩
    · exact Or.inl ⟨by simp, hold pc hr hp⟩

/-- The sets that the requests work on are found in `ZsetManager`. -/
theorem sets_advance {requests : Nat → Option ReadPc} (h : s.advance e = some requests)
    (hsets : ∀ r pc p, s.requests r = some pc → pc.set = some p → s.maps.Leads p) {pc : ReadPc}
    (hpc : requests r = some pc) (hp : pc.set = some p) : s.maps.Leads p := by
  rcases advance_cases h with ⟨rfl, _⟩ | ⟨r₀, request, rfl, rfl⟩ | ⟨r₀, j, pc₀, pc₁, rfl, hr₀, hget, rfl⟩ |
    ⟨r₀, j, pc₀, pc₁, rfl, hr₀, hread, rfl⟩
  · exact hsets r pc p hpc hp
  · rcases update_cases hpc with ⟨_, rfl⟩ | ⟨_, hr⟩
    · rw [(ReadPc.held_start request 0).2] at hp
      exact absurd hp (by simp)
    · exact hsets r pc p hr hp
  · rcases update_cases hpc with ⟨rfl, rfl⟩ | ⟨_, hr⟩
    · exact ReadPc.set_get hget (fun p => hsets r pc₀ p hr₀) hp
    · exact hsets r pc p hr hp
  · rcases update_cases hpc with ⟨rfl, rfl⟩ | ⟨_, hr⟩
    · exact hsets r pc₀ p hr₀ ((ReadPc.held_read (j := j) hread).2 p hp)
    · exact hsets r pc p hr hp

/-- **One event.** -/
theorem Tracked.step (h : Tracked es s) (hstep : s.step e = some s') : Tracked (es ++ [e]) s' := by
  obtain ⟨hmaps, hreq⟩ := step_cases hstep
  constructor
  · intro r pc p hpc hp
    have hleads := sets_advance hreq h.sets hpc hp
    obtain ⟨key, a, rfl⟩ := ReadPc.set_eq hp
    rcases hleads.step hmaps with ⟨hleads', _⟩ | ⟨hgone, _⟩
    · exact hleads'
    · exact hgone.elim
  · intro r i p hp
    rcases held_advance hreq h.sets hp with ⟨hne, hold⟩ | ⟨rfl, hleads⟩
    · rw [sinceGet_snoc_of_ne hne]
      rcases h.held r i p hold with ⟨hleads, hno⟩ | ⟨hgone, e', he', hdel⟩
      · rcases hleads.step hmaps with ⟨hleads', hkeep⟩ | ⟨hgone, hdel⟩
        · refine Or.inl ⟨hleads', fun e' he' => ?_⟩
          rcases List.mem_append.mp he' with hmem | hmem
          · exact hno e' hmem
          · rw [List.mem_singleton.mp hmem]
            exact hkeep
        · exact Or.inr ⟨hgone, e, List.mem_append_right _ List.mem_cons_self, hdel⟩
      · exact Or.inr ⟨hgone.step hmaps, e', List.mem_append_left _ he', hdel⟩
    · -- a lookup changes no map
      have hsame : s.maps = s'.maps := Option.some.inj hmaps
      rw [sinceGet_snoc_self, ← hsame]
      exact Or.inl ⟨hleads, fun e' he' => absurd he' List.not_mem_nil⟩

theorem tracked {m : Maps} (h : Run step always (idle m) es s) : Tracked es s :=
  h.history (I := Tracked)
    ⟨fun _ _ _ hpc _ => absurd hpc (by simp [idle]), fun _ _ _ hp => absurd hp (by simp [held, idle])⟩
    (fun _ _ _ _ hI _ hstep => hI.step hstep)

theorem Tracked.exist_iff (h : Tracked es s) (hp : s.held r i = some p) :
    s.maps.exist p = true ↔ ∀ e ∈ sinceGet r i es, e.deletes p = false := by
  rcases h.held r i p hp with ⟨hleads, hno⟩ | ⟨hgone, e, he, hdel⟩
  · exact ⟨fun _ => hno, fun _ => hleads.exist⟩
  · constructor
    · intro hexist
      rw [hgone.not_exist] at hexist
      exact absurd hexist Bool.false_ne_true
    · intro hno
      rw [hno e he] at hdel
      exact absurd hdel Bool.false_ne_true

/-- **How long a pointer is good.** In every run, the element that a request's pointer leads to still exists
    exactly when no request has deleted, since the lookup, what the pointer was looked up by: the key of a
    value by `/del`, the member of a score by `/zrmv`. -/
theorem held_exists_iff (m : Maps) (h : Run step always (idle m) es s) (hp : s.held r i = some p) :
    s.maps.exist p = true ↔ ∀ e ∈ sinceGet r i es, e.deletes p = false :=
  (tracked h).exist_iff hp

/-- The value is replaced and another key deleted between the lookup and the read. -/
theorem held_exists_after_add :
    ∃ es s, Run step always (idle ⟨(KvManager.init String.length).add "k" "v", .init String.length⟩) es s ∧
      s.held 0 0 = some (.value "k" 0) ∧ s.maps.exist (.value "k" 0) = true := by
  let es : List LookupEvent := [.arrive 0 (.query (some "k")), .get 0 0, .add ⟨"k", "w"⟩, .del (some "x")]
  have hcheck : (es.foldlM step (idle ⟨(KvManager.init String.length).add "k" "v", .init String.length⟩)).map
      (fun s => s.held 0 0) = some (some (.value "k" 0)) := by
    decide +kernel
  obtain ⟨s, hs, hheld⟩ := Option.map_eq_some_iff.mp hcheck
  have hrun : Run step always (idle ⟨(KvManager.init String.length).add "k" "v", .init String.length⟩) es s :=
    run_of_forall (fun _ _ _ => trivial) hs
  exact ⟨es, s, hrun, hheld, (held_exists_iff _ hrun hheld).mpr (by decide)⟩

/-- **A pointer can outlive its element.** The key is deleted between the lookup and the read of `/query`. -/
theorem query_reads_deleted_value :
    ¬ ∀ (m : Maps) (es : List LookupEvent) (s : LookupSys) (r i : Nat) (p : Pointer),
        Run step always (idle m) es s → s.held r i = some p → (s.step (.read r i)).isSome = true →
        s.maps.exist p = true := by
  intro hall
  let m : Maps := ⟨(KvManager.init String.length).add "k" "v", .init String.length⟩
  let es : List LookupEvent := [.arrive 0 (.query (some "k")), .get 0 0, .del (some "k")]
  have hcheck : (es.foldlM step (idle m)).map
      (fun s => (s.held 0 0, (s.step (.read 0 0)).isSome, s.maps.exist (.value "k" 0)))
      = some (some (.value "k" 0), true, false) := by
    decide +kernel
  obtain ⟨s, hs, hres⟩ := Option.map_eq_some_iff.mp hcheck
  obtain ⟨hheld, hres⟩ := Prod.mk.inj hres
  obtain ⟨hread, hgone⟩ := Prod.mk.inj hres
  have hexist := hall m es s 0 0 _ (run_of_forall (fun _ _ _ => trivial) hs) hheld hread
  rw [hgone] at hexist
  exact Bool.false_ne_true hexist

/-- So a read goes wrong exactly when there has been such a deletion. -/
theorem read_faults_iff_deleted {m : Maps} {pc : ReadPc} (h : Run step always (idle m) es s)
    (hp : s.held r i = some p) (hread : s.step (.read r i) = some s') (hpc : s'.requests r = some pc) :
    pc.faulted = true ↔ ∃ e ∈ sinceGet r i es, e.deletes p = true := by
  obtain ⟨pc₀, hr, hreq⟩ := Option.bind_eq_some_iff.mp (step_cases hread).2
  obtain ⟨pc₁, hpc₁, hreq⟩ := Option.bind_eq_some_iff.mp hreq
  rw [← Option.some.inj hreq] at hpc
  obtain rfl : pc₁ = pc := by simpa using hpc
  have hheld : pc₀.held i = some p := by
    rw [held, hr] at hp
    exact hp
  rw [ReadPc.read_faults_iff hpc₁ hheld, ← Bool.not_eq_true, (tracked h).exist_iff hp]
  simp

end LookupSys

end ZhiCache
