import ZhiCache.Lib.Run
import ZhiCache.Storage.HashKv
import ZhiCache.Model.RequestModel

/-!
# `Manager.ConcurrentCalls` — concurrent calls of `ZsetManager`

`ZsetManager::Add` looks its key up and, on a miss, makes a new `Zset` and offers it to `GetOrCreate`. No lock
spans the two operations, so several calls may miss the same key and each make a `Zset`; `try_emplace` keeps
the first, and the others are discarded when the temporary `shared_ptr` dies. `Range` and `Del` look the key
up and do nothing on a miss.

The map holds shared pointers, so a `Zset` is an object of its own here, known by a `ZsetRef`: `zsets` says
which objects exist and which calls each has been given. One event is one operation on the map, the creation
of an object, or the call on the object that the pointer leads to.

A `Zset` that a call has made and not yet offered is stored nowhere and known to no other call (`Sound`), so
discarding one never takes away a stored one, and a stored one is never replaced (`Sound.step`,
`view_step`).
-/

namespace ZhiCache

open Lib

/-- A `Zset` object: what a `shared_ptr<Zset>` points to. -/
abbrev ZsetRef := Nat

/-- A call of `ZsetManager`. -/
inductive ManagerCall where
  | add (key : String) (score : Int32) (value : String)
  | range (key : String) (minScore maxScore : Int32)
  | del (key value : String)
  deriving DecidableEq, Repr

namespace ManagerCall

def key : ManagerCall → String
  | add key _ _ => key
  | range key _ _ => key
  | del key _ => key

/-- Whether the call makes a `Zset` on a miss. -/
def creates : ManagerCall → Bool
  | add _ _ _ => true
  | _ => false

end ManagerCall

/-- How far a call has come. -/
inductive ManagerPc where
  /-- `_zset_map.Get` is next. -/
  | asked (call : ManagerCall)
  /-- `Add` has found no `Zset`; `std::make_shared<Zset>` is next. -/
  | missed (call : ManagerCall)
  /-- `Add` has made a `Zset`; `_zset_map.GetOrCreate` is next. -/
  | offering (call : ManagerCall) (zset : ZsetRef)
  /-- The map has returned a pointer to the `shared_ptr` under the key. -/
  | found (call : ManagerCall) (cell : Addr)
  /-- The call has been made on the `Zset`. -/
  | applied (call : ManagerCall) (zset : ZsetRef)
  /-- `Range` or `Del` has found no `Zset`. -/
  | absent (call : ManagerCall)
  /-- The pointer led to no `Zset`. -/
  | dangling (call : ManagerCall)
  deriving DecidableEq, Repr

/-- One step of the call with this number. -/
inductive ManagerEvent where
  | begin (c : Nat) (call : ManagerCall)
  | get (c : Nat)
  | make (c : Nat)
  | create (c : Nat)
  | apply (c : Nat)
  deriving DecidableEq, Repr

/-- The map, the `Zset` objects with the calls each has been given, and the calls under way. -/
structure ManagerSys where
  zsetMap : HashKv ZsetRef
  zsets : ZsetRef → Option (List ManagerCall)
  /-- The objects made so far are those below. -/
  made : ZsetRef
  calls : Nat → Option ManagerPc

namespace ManagerSys

/-- `Init`, and no call yet. -/
def idle (hash : String → Nat) : ManagerSys := ⟨HashKv.init hash 87719, fun _ => none, 0, fun _ => none⟩

/-- The call with number `c` goes on to `pc`. -/
def goto (s : ManagerSys) (c : Nat) (pc : ManagerPc) : ManagerSys :=
  { s with calls := Function.update s.calls c (some pc) }

/-- `_zset_map.Get`. -/
def lookup (s : ManagerSys) (call : ManagerCall) : ManagerPc :=
  match s.zsetMap.get call.key with
  | some cell => .found call cell
  | none => if call.creates then .missed call else .absent call

/-- `std::make_shared<Zset>`: a new object, which no call has reached yet. -/
def makeShared (s : ManagerSys) : ManagerSys :=
  { s with zsets := Function.update s.zsets s.made (some []), made := s.made + 1 }

/-- `_zset_map.GetOrCreate`. When the key has a `Zset` already, the one offered dies with its only owner. -/
def offer (s : ManagerSys) (key : String) (zset : ZsetRef) : ManagerSys :=
  { s with
    zsetMap := (s.zsetMap.getOrCreate key zset).2
    zsets := if (s.zsetMap.get key).isSome then Function.update s.zsets zset none else s.zsets }

/-- The `Zset` that the pointer leads to, and the calls it has been given. -/
def target (s : ManagerSys) (cell : Addr) : Option (ZsetRef × List ManagerCall) := do
  let zset ← s.zsetMap.deref cell
  let given ← s.zsets zset
  return (zset, given)

/-- The call on the `Zset`. -/
def applyCall (s : ManagerSys) (c : Nat) (call : ManagerCall) (cell : Addr) : ManagerSys :=
  match s.target cell with
  | some (zset, given) =>
      goto { s with zsets := Function.update s.zsets zset (some (given ++ [call])) } c (.applied call zset)
  | none => s.goto c (.dangling call)

/-- One step. -/
def step (s : ManagerSys) : ManagerEvent → Option ManagerSys
  | .begin c call =>
    match s.calls c with
    | none => some (s.goto c (.asked call))
    | some _ => none
  | .get c =>
    match s.calls c with
    | some (.asked call) => some (s.goto c (s.lookup call))
    | _ => none
  | .make c =>
    match s.calls c with
    | some (.missed call) => some (s.makeShared.goto c (.offering call s.made))
    | _ => none
  | .create c =>
    match s.calls c with
    | some (.offering call zset) =>
        some ((s.offer call.key zset).goto c (.found call (s.zsetMap.getOrCreate call.key zset).1))
    | _ => none
  | .apply c =>
    match s.calls c with
    | some (.found call cell) => some (s.applyCall c call cell)
    | _ => none

/-- The `Zset` is stored under the key, in whatever partition. -/
def Stored (s : ManagerSys) (key : String) (zset : ZsetRef) : Prop :=
  ∃ i cell, (s.zsetMap.mapVec i).lookup key = some cell ∧ s.zsetMap.deref cell = some zset

variable {s s' : ManagerSys} {e : ManagerEvent} {key : String} {zset : ZsetRef}

theorem stored_iff : s.Stored key zset ↔ s.zsetMap.view key = some zset := by
  constructor
  · rintro ⟨i, cell, hl, hd⟩
    rw [← HashKv.deref_of_get (HashKv.lookup_eq_some hl)]
    exact hd
  · intro h
    obtain ⟨cell, hg, hd⟩ := Option.bind_eq_some_iff.mp h
    exact ⟨s.zsetMap.index key, cell, hg, hd⟩

/-- What a step can do. -/
theorem step_cases (h : s.step e = some s') :
    (∃ c call, s.calls c = none ∧ s' = s.goto c (.asked call)) ∨
    (∃ c call, s.calls c = some (.asked call) ∧ s' = s.goto c (s.lookup call)) ∨
    (∃ c call, s.calls c = some (.missed call) ∧ s' = s.makeShared.goto c (.offering call s.made)) ∨
    (∃ c call zset, s.calls c = some (.offering call zset) ∧
      s' = (s.offer call.key zset).goto c (.found call (s.zsetMap.getOrCreate call.key zset).1)) ∨
    (∃ c call cell, s.calls c = some (.found call cell) ∧ s' = s.applyCall c call cell) := by
  cases e with
  | begin c call =>
      cases hc : s.calls c with
      | none =>
          simp only [step, hc, Option.some.injEq] at h
          exact Or.inl ⟨c, call, hc, h.symm⟩
      | some pc => simp [step, hc] at h
  | get c =>
      simp only [step] at h
      split at h
      · rename_i call hc
        exact Or.inr (Or.inl ⟨c, call, hc, (Option.some.inj h).symm⟩)
      · exact absurd h (by simp)
  | make c =>
      simp only [step] at h
      split at h
      · rename_i call hc
        exact Or.inr (Or.inr (Or.inl ⟨c, call, hc, (Option.some.inj h).symm⟩))
      · exact absurd h (by simp)
  | create c =>
      simp only [step] at h
      split at h
      · rename_i call zset hc
        exact Or.inr (Or.inr (Or.inr (Or.inl ⟨c, call, zset, hc, (Option.some.inj h).symm⟩)))
      · exact absurd h (by simp)
  | apply c =>
      simp only [step] at h
      split at h
      · rename_i call cell hc
        exact Or.inr (Or.inr (Or.inr (Or.inr ⟨c, call, cell, hc, (Option.some.inj h).symm⟩)))
      · exact absurd h (by simp)

/-! ## What a step leaves of the map -/

@[simp] theorem goto_zsets (s : ManagerSys) (c : Nat) (pc : ManagerPc) : (s.goto c pc).zsets = s.zsets := rfl

theorem applyCall_zsetMap (s : ManagerSys) (c : Nat) (call : ManagerCall) (cell : Addr) :
    (s.applyCall c call cell).zsetMap = s.zsetMap := by
  unfold applyCall
  split <;> rfl

/-- `GetOrCreate` on a key that has a `Zset`: the map stays, the `Zset` offered is discarded. -/
theorem offer_of_some {cell : Addr} (h : s.zsetMap.get key = some cell) :
    s.offer key zset = { s with zsets := Function.update s.zsets zset none } := by
  unfold offer
  rw [HashKv.getOrCreate_of_some h, h]
  rfl

/-- `GetOrCreate` on a key that has none: the `Zset` offered is stored. -/
theorem offer_of_none (h : s.zsetMap.get key = none) :
    s.offer key zset = { s with zsetMap := s.zsetMap.insertNew key zset } := by
  unfold offer
  rw [HashKv.getOrCreate_of_none h, h]
  rfl

/-- `GetOrCreate` keeps the pointers. -/
theorem get_offer {key' : String} {cell : Addr} (hg : s.zsetMap.get key = some cell) :
    (s.offer key' zset).zsetMap.get key = some cell := by
  cases hk : s.zsetMap.get key' with
  | some cell' =>
      rw [offer_of_some hk]
      exact hg
  | none =>
      have hne : key ≠ key' := by
        rintro rfl
        rw [hk] at hg
        exact absurd hg (by simp)
      rw [offer_of_none hk]
      exact (HashKv.get_insertNew.trans (if_neg hne)).trans hg

/-- `GetOrCreate` keeps what is stored. -/
theorem view_offer {key' : String} {zset' : ZsetRef} (hv : s.zsetMap.view key = some zset) :
    (s.offer key' zset').zsetMap.view key = some zset := by
  cases hk : s.zsetMap.get key' with
  | some cell' =>
      rw [offer_of_some hk]
      exact hv
  | none =>
      have hne : key ≠ key' := by
        rintro rfl
        rw [HashKv.view_eq_none_iff.mpr hk] at hv
        exact absurd hv (by simp)
      rw [offer_of_none hk]
      show (s.zsetMap.insertNew key' zset').view key = some zset
      rw [HashKv.view_insertNew hk, Function.update_of_ne hne]
      exact hv

/-- **A stored `Zset` is never replaced or removed.** -/
theorem view_step (h : s.step e = some s') (hv : s.zsetMap.view key = some zset) :
    s'.zsetMap.view key = some zset := by
  rcases step_cases h with ⟨c, call, _, rfl⟩ | ⟨c, call, _, rfl⟩ | ⟨c, call, _, rfl⟩
    | ⟨c, call, z, _, rfl⟩ | ⟨c, call, cell, _, rfl⟩
  · exact hv
  · exact hv
  · exact hv
  · exact view_offer hv
  · rw [applyCall_zsetMap]
    exact hv

/-! ## The invariant -/

/-- What a call can rely on where it stands. -/
def Knows (s : ManagerSys) : ManagerPc → Prop
  | .offering _ zset => (s.zsets zset).isSome ∧ ∀ key, s.zsetMap.view key ≠ some zset
  | .found call cell => s.zsetMap.get call.key = some cell
  | .applied call zset =>
      s.zsetMap.view call.key = some zset ∧ ∃ given, s.zsets zset = some given ∧ call ∈ given
  | .dangling _ => False
  | _ => True

/-- Every stored `Zset` exists, and a `Zset` that is offered is not stored and offered by one call only. -/
structure Sound (s : ManagerSys) : Prop where
  stored : ∀ key zset, s.zsetMap.view key = some zset → (s.zsets zset).isSome
  unmade : ∀ zset, s.made ≤ zset → s.zsets zset = none
  knows : ∀ c pc, s.calls c = some pc → s.Knows pc
  alone : ∀ c c' call call' zset, s.calls c = some (.offering call zset) →
    s.calls c' = some (.offering call' zset) → c = c'

theorem sound_idle (hash : String → Nat) : (idle hash).Sound where
  stored := fun key zset h => by
    rw [idle, HashKv.view_init] at h
    exact absurd h (by simp)
  unmade := fun _ _ => rfl
  knows := fun _ _ h => absurd h (by simp [idle])
  alone := fun _ _ _ _ _ h => absurd h (by simp [idle])

/-- A call that goes on to something other than an offer offers nothing that another one does. -/
theorem Sound.alone_goto (h : s.Sound) {c : Nat} {pc : ManagerPc} (hno : ∀ call zset, pc ≠ .offering call zset)
    {c₁ c₂ : Nat} {call₁ call₂ : ManagerCall}
    (h₁ : Function.update s.calls c (some pc) c₁ = some (.offering call₁ zset))
    (h₂ : Function.update s.calls c (some pc) c₂ = some (.offering call₂ zset)) : c₁ = c₂ := by
  rcases update_cases h₁ with ⟨_, he⟩ | ⟨_, hold₁⟩
  · exact absurd he.symm (hno call₁ zset)
  · rcases update_cases h₂ with ⟨_, he⟩ | ⟨_, hold₂⟩
    · exact absurd he.symm (hno call₂ zset)
    · exact h.alone c₁ c₂ call₁ call₂ zset hold₁ hold₂

/-- A call that offers nothing new goes on to something it knows. -/
theorem Sound.goto (h : s.Sound) {c : Nat} {pc : ManagerPc} (hpc : s.Knows pc)
    (hno : ∀ call zset, pc ≠ .offering call zset) : (s.goto c pc).Sound where
  stored := h.stored
  unmade := h.unmade
  knows := fun c' pc' h' => by
    rcases update_cases h' with ⟨_, rfl⟩ | ⟨_, hold⟩
    · exact hpc
    · exact h.knows c' pc' hold
  alone := fun _ _ _ _ _ h₁ h₂ => h.alone_goto hno h₁ h₂

theorem knows_lookup (s : ManagerSys) (call : ManagerCall) : s.Knows (s.lookup call) := by
  unfold lookup
  cases hg : s.zsetMap.get call.key with
  | some cell => exact hg
  | none =>
      cases call with
      | add key score value => trivial
      | range key minScore maxScore => trivial
      | del key value => trivial

theorem lookup_ne_offering (s : ManagerSys) (call call' : ManagerCall) (zset : ZsetRef) :
    s.lookup call ≠ .offering call' zset := by
  unfold lookup
  split
  · simp
  · split <;> simp

/-- What a call knows survives a change of the map and of the objects that keeps the pointers and what is
    stored, keeps the objects it relies on with the calls they were given, and stores none it offers. -/
theorem Knows.mono {pc : ManagerPc} (h : s.Knows pc)
    (hget : ∀ key cell, s.zsetMap.get key = some cell → s'.zsetMap.get key = some cell)
    (hview : ∀ key zset, s.zsetMap.view key = some zset → s'.zsetMap.view key = some zset)
    (hgiven : ∀ key zset given, s.zsetMap.view key = some zset → s.zsets zset = some given →
      ∃ given', s'.zsets zset = some given' ∧ given ⊆ given')
    (hoffer : ∀ call zset, pc = .offering call zset →
      (s'.zsets zset).isSome ∧ ∀ key, s'.zsetMap.view key ≠ some zset) : s'.Knows pc := by
  cases pc with
  | offering call zset => exact hoffer call zset rfl
  | found call cell => exact hget _ _ h
  | applied call zset =>
      obtain ⟨hv, given, hg, hmem⟩ := h
      obtain ⟨given', hg', hsub⟩ := hgiven _ _ _ hv hg
      exact ⟨hview _ _ hv, given', hg', hsub hmem⟩
  | dangling call => exact h
  | asked call => trivial
  | missed call => trivial
  | absent call => trivial

/-- A new object, offered by the call that made it. -/
theorem Sound.makeShared (h : s.Sound) {c : Nat} {call : ManagerCall} :
    (s.makeShared.goto c (.offering call s.made)).Sound := by
  have hmade : s.zsets s.made = none := h.unmade _ (Nat.le_refl _)
  -- an object that exists is not the new one
  have hne : ∀ zset, (s.zsets zset).isSome → zset ≠ s.made := by
    rintro zset hz rfl
    rw [hmade] at hz
    exact absurd hz (by simp)
  have hkeep : ∀ zset, (s.zsets zset).isSome → s.makeShared.zsets zset = s.zsets zset :=
    fun zset hz => Function.update_of_ne (hne zset hz) _ _
  refine ⟨?_, ?_, ?_, ?_⟩
  · intro key zset hv
    have hz := h.stored key zset hv
    exact (congrArg Option.isSome (hkeep zset hz)).trans hz
  · intro zset hz
    have hlt : s.made < zset := hz
    exact (Function.update_of_ne (Nat.ne_of_gt hlt) _ _).trans (h.unmade zset (Nat.le_of_lt hlt))
  · intro c' pc h'
    rcases update_cases h' with ⟨_, rfl⟩ | ⟨_, hold⟩
    · refine ⟨by simp [ManagerSys.makeShared], ?_⟩
      intro key hv
      exact hne _ (h.stored key s.made hv) rfl
    · have hk := h.knows c' pc hold
      refine hk.mono (fun _ _ => id) (fun _ _ => id) ?_ ?_
      · intro key zset given hv hg
        exact ⟨given, (hkeep zset (h.stored key zset hv)).trans hg, List.Subset.refl _⟩
      · rintro call' zset rfl
        exact ⟨(congrArg Option.isSome (hkeep zset hk.1)).trans hk.1, hk.2⟩
  · intro c₁ c₂ call₁ call₂ zset h₁ h₂
    -- the new object is offered by no older call
    have hold : ∀ c' call', s.calls c' = some (.offering call' zset) → zset ≠ s.made :=
      fun c' call' hc => hne zset (h.knows c' _ hc).1
    rcases update_cases h₁ with ⟨hc₁, he₁⟩ | ⟨_, hold₁⟩
    · obtain ⟨_, rfl⟩ := ManagerPc.offering.inj he₁
      rcases update_cases h₂ with ⟨hc₂, _⟩ | ⟨_, hold₂⟩
      · exact hc₁.trans hc₂.symm
      · exact absurd rfl (hold c₂ call₂ hold₂)
    · rcases update_cases h₂ with ⟨_, he₂⟩ | ⟨_, hold₂⟩
      · obtain ⟨_, rfl⟩ := ManagerPc.offering.inj he₂
        exact absurd rfl (hold c₁ call₁ hold₁)
      · exact h.alone c₁ c₂ call₁ call₂ zset hold₁ hold₂

/-- Another call offers another object. -/
theorem Sound.other_offer (h : s.Sound) {c c' : Nat} {call call' : ManagerCall} {zset' : ZsetRef}
    (hc : s.calls c = some (.offering call zset)) (hne : c' ≠ c)
    (hc' : s.calls c' = some (.offering call' zset')) : zset' ≠ zset := by
  rintro rfl
  exact hne (h.alone c' c call' call zset' hc' hc)

/-- `GetOrCreate` on a key that has a `Zset`: the object offered dies, which is stored under no key. -/
theorem Sound.discard (h : s.Sound) {c : Nat} {call : ManagerCall} {cell : Addr}
    (hc : s.calls c = some (.offering call zset)) (hg : s.zsetMap.get call.key = some cell) :
    (ManagerSys.goto { s with zsets := Function.update s.zsets zset none } c (.found call cell)).Sound := by
  obtain ⟨_, hnot⟩ := h.knows c _ hc
  have hkeep : ∀ zset', zset' ≠ zset → Function.update s.zsets zset none zset' = s.zsets zset' :=
    fun zset' hne => Function.update_of_ne hne _ _
  have hstored : ∀ key zset', s.zsetMap.view key = some zset' → zset' ≠ zset := by
    rintro key zset' hv rfl
    exact hnot key hv
  refine ⟨?_, ?_, ?_, fun _ _ _ _ _ h₁ h₂ => h.alone_goto (by simp) h₁ h₂⟩
  · intro key zset' hv
    show (Function.update s.zsets zset none zset').isSome
    rw [hkeep zset' (hstored key zset' hv)]
    exact h.stored key zset' hv
  · intro zset' hle
    show Function.update s.zsets zset none zset' = none
    by_cases he : zset' = zset
    · rw [he, Function.update_self]
    · rw [hkeep zset' he]
      exact h.unmade zset' hle
  · intro c' pc h'
    rcases update_cases h' with ⟨_, rfl⟩ | ⟨hne, hold⟩
    · exact hg
    · have hk := h.knows c' pc hold
      refine hk.mono (fun _ _ => id) (fun _ _ => id) ?_ ?_
      · intro key zset' given hv hgiven
        exact ⟨given, (hkeep zset' (hstored key zset' hv)).trans hgiven, List.Subset.refl _⟩
      · rintro call' zset' rfl
        have hz' : Function.update s.zsets zset none zset' = s.zsets zset' :=
          hkeep zset' (h.other_offer hc hne hold)
        exact ⟨(congrArg Option.isSome hz').trans hk.1, hk.2⟩

/-- `GetOrCreate` on a key that has none: the object offered is stored, and no other call offers it. -/
theorem Sound.store (h : s.Sound) {c : Nat} {call : ManagerCall} {cell : Addr}
    (hc : s.calls c = some (.offering call zset)) (hg : s.zsetMap.get call.key = none)
    (hcell : (s.zsetMap.insertNew call.key zset).get call.key = some cell) :
    (ManagerSys.goto { s with zsetMap := s.zsetMap.insertNew call.key zset } c (.found call cell)).Sound := by
  obtain ⟨hz, _⟩ := h.knows c _ hc
  have hview : (s.zsetMap.insertNew call.key zset).view
      = Function.update s.zsetMap.view call.key (some zset) := HashKv.view_insertNew hg
  refine ⟨?_, h.unmade, ?_, fun _ _ _ _ _ h₁ h₂ => h.alone_goto (by simp) h₁ h₂⟩
  · intro key zset' hv
    have hv' : Function.update s.zsetMap.view call.key (some zset) key = some zset' := by
      rw [← hview]
      exact hv
    by_cases hk : key = call.key
    · rw [hk, Function.update_self] at hv'
      exact Option.some.inj hv' ▸ hz
    · rw [Function.update_of_ne hk] at hv'
      exact h.stored key zset' hv'
  · intro c' pc h'
    rcases update_cases h' with ⟨_, rfl⟩ | ⟨hne, hold⟩
    · exact hcell
    · have hk := h.knows c' pc hold
      refine hk.mono ?_ ?_ (fun key zset' given _ hgiven => ⟨given, hgiven, List.Subset.refl _⟩) ?_
      · intro key cell' hcell'
        have hkept : (s.offer call.key zset).zsetMap.get key = some cell' := get_offer hcell'
        rw [offer_of_none hg] at hkept
        exact hkept
      · intro key zset' hv
        have hkept : (s.offer call.key zset).zsetMap.view key = some zset' := view_offer hv
        rw [offer_of_none hg] at hkept
        exact hkept
      · rintro call' zset' rfl
        refine ⟨hk.1, ?_⟩
        intro key
        show (s.zsetMap.insertNew call.key zset).view key ≠ some zset'
        rw [hview]
        by_cases hkey : key = call.key
        · rw [hkey, Function.update_self]
          intro he
          exact h.other_offer hc hne hold (Option.some.inj he).symm
        · rw [Function.update_of_ne hkey]
          exact hk.2 key

/-- `GetOrCreate`, after which the call holds the pointer to what is stored. -/
theorem Sound.offer (h : s.Sound) {c : Nat} {call : ManagerCall} (hc : s.calls c = some (.offering call zset)) :
    ((s.offer call.key zset).goto c (.found call (s.zsetMap.getOrCreate call.key zset).1)).Sound := by
  cases hg : s.zsetMap.get call.key with
  | some cell =>
      rw [HashKv.getOrCreate_of_some hg, offer_of_some hg]
      exact h.discard hc hg
  | none =>
      rw [HashKv.getOrCreate_of_none hg, offer_of_none hg]
      exact h.store hc hg (HashKv.get_insertNew.trans (if_pos rfl))

/-- The call on the object that its pointer leads to: the pointer is what `Get` returns, so it leads to the
    stored `Zset`, and that one exists. -/
theorem Sound.applyCall (h : s.Sound) {c : Nat} {call : ManagerCall} {cell : Addr}
    (hc : s.calls c = some (.found call cell)) : (s.applyCall c call cell).Sound := by
  have hget : s.zsetMap.get call.key = some cell := h.knows c _ hc
  obtain ⟨zset, hv⟩ := Option.isSome_iff_exists.mp (HashKv.view_isSome hget)
  obtain ⟨given, hgiven⟩ := Option.isSome_iff_exists.mp (h.stored _ _ hv)
  have htarget : s.target cell = some (zset, given) := by
    simp [target, HashKv.deref_of_get hget, hv, hgiven]
  -- no object dies, and each keeps the calls it was given
  have hgrow : ∀ zset' given', s.zsets zset' = some given' →
      ∃ given'', Function.update s.zsets zset (some (given ++ [call])) zset' = some given'' ∧
        given' ⊆ given'' := by
    intro zset' given' hg
    by_cases he : zset' = zset
    · subst he
      obtain rfl := Option.some.inj (hgiven.symm.trans hg)
      exact ⟨given ++ [call], Function.update_self .., List.subset_append_left _ _⟩
    · exact ⟨given', (Function.update_of_ne he _ _).trans hg, List.Subset.refl _⟩
  have hsome : ∀ zset', (s.zsets zset').isSome →
      (Function.update s.zsets zset (some (given ++ [call])) zset').isSome := by
    intro zset' hz
    obtain ⟨given', hg⟩ := Option.isSome_iff_exists.mp hz
    obtain ⟨given'', hg', _⟩ := hgrow zset' given' hg
    exact Option.isSome_iff_exists.mpr ⟨given'', hg'⟩
  unfold ManagerSys.applyCall
  rw [htarget]
  apply Sound.goto
  · refine ⟨?_, ?_, ?_, h.alone⟩
    · intro key zset' hv'
      exact hsome zset' (h.stored key zset' hv')
    · intro zset' hle
      have hne : zset' ≠ zset := by
        rintro rfl
        rw [h.unmade zset' hle] at hgiven
        exact absurd hgiven (by simp)
      exact (Function.update_of_ne hne _ _).trans (h.unmade zset' hle)
    · intro c' pc h'
      have hk := h.knows c' pc h'
      refine hk.mono (fun _ _ => id) (fun _ _ => id) (fun _ zset' given' _ => hgrow zset' given') ?_
      rintro call' zset' rfl
      exact ⟨hsome zset' hk.1, hk.2⟩
  · exact ⟨hv, given ++ [call], Function.update_self .., by simp⟩
  · intro call' zset'
    simp

/-- **A step keeps the invariant.** -/
theorem Sound.step (h : s.Sound) (hs : s.step e = some s') : s'.Sound := by
  rcases step_cases hs with ⟨c, call, _, rfl⟩ | ⟨c, call, _, rfl⟩ | ⟨c, call, _, rfl⟩
    | ⟨c, call, z, hc, rfl⟩ | ⟨c, call, cell, hc, rfl⟩
  · exact h.goto trivial (by simp)
  · exact h.goto (knows_lookup s call) (lookup_ne_offering s call)
  · exact h.makeShared
  · exact h.offer hc
  · exact h.applyCall hc

/-! ## Whole runs -/

theorem view_run {es : List ManagerEvent} (h : Run step always s es s') (hv : s.zsetMap.view key = some zset) :
    s'.zsetMap.view key = some zset :=
  h.invariant (I := fun t => t.zsetMap.view key = some zset) hv (fun _ _ _ hI _ hs => view_step hs hI)

/-- **Every key has one `Zset`.** In every state that any number of interleaved calls reach from the start:

    * at most one `Zset` is stored under a key;
    * what is stored under a key stays stored there, in every state reached from here on;
    * a call that holds a pointer holds the pointer to what is stored under its key;
    * a call that has been made on a `Zset` has been made on the one stored under its key, which exists and
      counts that call among those it was given;
    * no pointer leads nowhere. -/
theorem one_zset_per_key (hash : String → Nat) {es : List ManagerEvent}
    (hrun : Run step always (idle hash) es s) :
    (∀ key zset zset', s.Stored key zset → s.Stored key zset' → zset = zset') ∧
    (∀ es' s' key zset, Run step always s es' s' → s.Stored key zset → s'.Stored key zset) ∧
    (∀ c call cell, s.calls c = some (.found call cell) →
      ∃ zset, s.zsetMap.deref cell = some zset ∧ s.Stored call.key zset) ∧
    (∀ c call zset, s.calls c = some (.applied call zset) →
      s.Stored call.key zset ∧ ∃ given, s.zsets zset = some given ∧ call ∈ given) ∧
    ∀ c call, s.calls c ≠ some (.dangling call) := by
  have hsound : s.Sound := hrun.invariant (sound_idle hash) (fun _ _ _ hI _ hs => hI.step hs)
  refine ⟨?_, ?_, ?_, ?_, ?_⟩
  · intro key zset zset' h h'
    exact Option.some.inj ((stored_iff.mp h).symm.trans (stored_iff.mp h'))
  · intro es' s' key zset hrun' h
    exact stored_iff.mpr (view_run hrun' (stored_iff.mp h))
  · intro c call cell hc
    have hget : s.zsetMap.get call.key = some cell := hsound.knows c _ hc
    obtain ⟨zset, hv⟩ := Option.isSome_iff_exists.mp (HashKv.view_isSome hget)
    exact ⟨zset, (HashKv.deref_of_get hget).trans hv, stored_iff.mpr hv⟩
  · intro c call zset hc
    obtain ⟨hv, hgiven⟩ := hsound.knows c _ hc
    exact ⟨stored_iff.mpr hv, hgiven⟩
  · intro c call hc
    exact hsound.knows c _ hc

/-- Two calls of `Add` that both miss the key, each with a `Zset` of its own: the second one's is discarded,
    and both calls reach the first one's. -/
def twoMisses : List ManagerEvent :=
  [.begin 0 (.add "k" 1 "a"), .begin 1 (.add "k" 2 "b"), .get 0, .get 1, .make 0, .make 1, .create 0, .create 1,
   .apply 1, .apply 0]

theorem one_zset_per_key_two_misses :
    ∃ s, Run step always (idle String.length) twoMisses s ∧
      s.calls 0 = some (.applied (.add "k" 1 "a") 0) ∧ s.calls 1 = some (.applied (.add "k" 2 "b") 0) ∧
      s.Stored "k" 0 ∧ s.zsets 1 = none := by
  obtain ⟨s, hs, h₀, h₁, hz⟩ : ∃ s, twoMisses.foldlM step (idle String.length) = some s ∧
      s.calls 0 = some (.applied (.add "k" 1 "a") 0) ∧
      s.calls 1 = some (.applied (.add "k" 2 "b") 0) ∧ s.zsets 1 = none :=
    ⟨_, rfl, by decide +kernel, by decide +kernel, by decide +kernel⟩
  have hrun : Run step always (idle String.length) twoMisses s := run_of_forall (fun _ _ _ => trivial) hs
  obtain ⟨_, _, _, happlied, _⟩ := one_zset_per_key String.length hrun
  exact ⟨s, hrun, h₀, h₁, (happlied 0 _ _ h₀).1, hz⟩

end ManagerSys

end ZhiCache
