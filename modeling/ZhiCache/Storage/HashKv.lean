import Mathlib.Data.List.AList
import Mathlib.Logic.Function.Basic

/-!
# `Storage.HashKv` — the hash-partitioned map

`HashKv<V>` is a vector of `std::unordered_map`s, each behind its own lock; a key lives in the partition
that its hash selects. `Get` and `GetOrCreate` return a **pointer** to the element, so the model keeps the
elements apart from the tables: a table maps a key to the address of its element (`Addr`), and `cells` says
what an address holds. An address is handed out once; erasing a key destroys its element, and `cells` then
holds nothing there. References to the elements of an `unordered_map` survive insertions, so no other
operation moves one.

The placement of keys and the soundness of the addresses are part of the type: a `HashKv` whose table points
at a destroyed element, or holds a key in a foreign partition, cannot be built. `view` is the plain map from
keys to values that the structure stands for; every operation is one update of it (`view_add`, `view_del`,
`view_getOrCreate`, `view_store`).

Each operation runs under the lock of its partition and is one atomic step.
-/

namespace ZhiCache

/-- The address of an element. -/
abbrev Addr := Nat

/-- One partition: the table of an `unordered_map`. -/
abbrev Table := AList (fun _ : String => Addr)

/-- The partitioned map. `hash` is `std::hash<std::string>`. -/
structure HashKv (V : Type) where
  hash : String → Nat
  partitionNum : Nat
  mapVec : Nat → Table
  cells : Addr → Option V
  /-- The addresses handed out so far are those below. -/
  fresh : Addr
  placed : ∀ i key a, (mapVec i).lookup key = some a → i = hash key % partitionNum
  live : ∀ i key a, (mapVec i).lookup key = some a → (cells a).isSome
  owner : ∀ i key i' key' a, (mapVec i).lookup key = some a → (mapVec i').lookup key' = some a → key = key'
  unused : ∀ a, fresh ≤ a → cells a = none

namespace HashKv

variable {V : Type}

/-- `Init`: `partition_num` empty partitions. -/
def init (hash : String → Nat) (partitionNum : Nat) : HashKv V where
  hash := hash
  partitionNum := partitionNum
  mapVec := fun _ => ∅
  cells := fun _ => none
  fresh := 0
  placed := fun _ _ _ h => absurd h (by simp)
  live := fun _ _ _ h => absurd h (by simp)
  owner := fun _ _ _ _ _ h => absurd h (by simp)
  unused := fun _ _ => rfl

/-- `Hash`: the partition of a key. -/
def index (m : HashKv V) (key : String) : Nat := m.hash key % m.partitionNum

/-- `Get`: the address of the key's element. -/
def get (m : HashKv V) (key : String) : Option Addr := (m.mapVec (m.index key)).lookup key

/-- What reading through a pointer gives; nothing when the element no longer exists. -/
def deref (m : HashKv V) (a : Addr) : Option V := m.cells a

/-- The plain map that the structure stands for. -/
def view (m : HashKv V) (key : String) : Option V := (m.get key).bind m.deref

/-! ## Pointers -/

variable {m : HashKv V} {key key' : String} {a : Addr} {v : V}

theorem lookup_eq_some {i : Nat} (h : (m.mapVec i).lookup key = some a) : m.get key = some a := by
  have hi : i = m.index key := m.placed i key a h
  rw [get, ← hi]
  exact h

theorem get_lt (h : m.get key = some a) : a < m.fresh := by
  by_contra hge
  have hsome := m.live _ _ _ h
  rw [m.unused a (Nat.le_of_not_lt hge)] at hsome
  exact absurd hsome (by simp)

/-- A pointer returned by `Get` leads to an element. -/
theorem deref_of_get (h : m.get key = some a) : m.deref a = m.view key := by
  rw [view, h]
  rfl

theorem view_isSome (h : m.get key = some a) : (m.view key).isSome := by
  rw [← deref_of_get h]
  exact m.live _ _ _ h

theorem view_eq_none_iff : m.view key = none ↔ m.get key = none := by
  constructor
  · intro h
    cases hg : m.get key with
    | none => rfl
    | some a =>
        have hs := view_isSome hg
        rw [h] at hs
        exact absurd hs (by simp)
  · intro h
    rw [view, h]
    rfl

theorem get_injective (h : m.get key = some a) (h' : m.get key' = some a) : key = key' :=
  m.owner _ _ _ _ _ h h'

/-! ## The operations -/

/-- A write through a pointer to an existing element. -/
def store (m : HashKv V) (a : Addr) (v : V) (h : a < m.fresh) : HashKv V where
  hash := m.hash
  partitionNum := m.partitionNum
  mapVec := m.mapVec
  cells := Function.update m.cells a (some v)
  fresh := m.fresh
  placed := m.placed
  live := fun i key b hb => by
    by_cases hba : b = a
    · subst hba
      simp
    · rw [Function.update_of_ne hba]
      exact m.live i key b hb
  owner := m.owner
  unused := fun b hb => by
    have hba : b ≠ a := fun e => Nat.lt_irrefl _ (Nat.lt_of_lt_of_le h (e ▸ hb))
    rw [Function.update_of_ne hba]
    exact m.unused b hb

/-- A write through a pointer; without effect when the address was never handed out. -/
def write (m : HashKv V) (a : Addr) (v : V) : HashKv V :=
  if h : a < m.fresh then m.store a v h else m

/-- The tables after `key` has been entered with a new address. -/
def tablesAfterInsert (m : HashKv V) (key : String) : Nat → Table :=
  Function.update m.mapVec (m.index key) ((m.mapVec (m.index key)).insert key m.fresh)

theorem lookup_tablesAfterInsert {i : Nat} (h : (m.tablesAfterInsert key i).lookup key' = some a) :
    key' = key ∧ a = m.fresh ∧ i = m.index key ∨ key' ≠ key ∧ (m.mapVec i).lookup key' = some a := by
  unfold tablesAfterInsert at h
  by_cases hi : i = m.index key
  · subst hi
    rw [Function.update_self] at h
    by_cases hk : key' = key
    · subst hk
      rw [AList.lookup_insert] at h
      exact Or.inl ⟨rfl, (Option.some.inj h).symm, rfl⟩
    · rw [AList.lookup_insert_ne hk] at h
      exact Or.inr ⟨hk, h⟩
  · rw [Function.update_of_ne hi] at h
    refine Or.inr ⟨?_, h⟩
    rintro rfl
    exact hi (m.placed i _ _ h)

/-- An insertion into the table: a new element under a key that has none. -/
def insertNew (m : HashKv V) (key : String) (v : V) : HashKv V where
  hash := m.hash
  partitionNum := m.partitionNum
  mapVec := m.tablesAfterInsert key
  cells := Function.update m.cells m.fresh (some v)
  fresh := m.fresh + 1
  placed := fun i key' b h => by
    rcases lookup_tablesAfterInsert h with ⟨rfl, _, hi⟩ | ⟨_, hold⟩
    · exact hi
    · exact m.placed i key' b hold
  live := fun i key' b h => by
    rcases lookup_tablesAfterInsert h with ⟨_, rfl, _⟩ | ⟨_, hold⟩
    · simp
    · rw [Function.update_of_ne (Nat.ne_of_lt (get_lt (lookup_eq_some hold)))]
      exact m.live i key' b hold
  owner := fun i key₁ i' key₂ b h h' => by
    rcases lookup_tablesAfterInsert h with ⟨hk, hb, _⟩ | ⟨_, hold⟩
    · rcases lookup_tablesAfterInsert h' with ⟨hk', _, _⟩ | ⟨_, hold'⟩
      · rw [hk, hk']
      · exact absurd hb (Nat.ne_of_lt (get_lt (lookup_eq_some hold')))
    · rcases lookup_tablesAfterInsert h' with ⟨_, hb, _⟩ | ⟨_, hold'⟩
      · exact absurd hb (Nat.ne_of_lt (get_lt (lookup_eq_some hold)))
      · exact m.owner _ _ _ _ _ hold hold'
  unused := fun b hb => by
    rw [Function.update_of_ne (Nat.ne_of_gt hb)]
    exact m.unused b (Nat.le_of_succ_le hb)

/-- The tables after `key` has been erased. -/
def tablesAfterErase (m : HashKv V) (key : String) : Nat → Table :=
  Function.update m.mapVec (m.index key) ((m.mapVec (m.index key)).erase key)

theorem lookup_tablesAfterErase {i : Nat} (h : (m.tablesAfterErase key i).lookup key' = some a) :
    key' ≠ key ∧ (m.mapVec i).lookup key' = some a := by
  unfold tablesAfterErase at h
  by_cases hi : i = m.index key
  · subst hi
    rw [Function.update_self] at h
    by_cases hk : key' = key
    · subst hk
      rw [AList.lookup_erase] at h
      exact absurd h (by simp)
    · rw [AList.lookup_erase_ne hk] at h
      exact ⟨hk, h⟩
  · rw [Function.update_of_ne hi] at h
    refine ⟨?_, h⟩
    rintro rfl
    exact hi (m.placed i _ _ h)

/-- `Del`: the key's element, if there is one, is destroyed. -/
def del (m : HashKv V) (key : String) : HashKv V where
  hash := m.hash
  partitionNum := m.partitionNum
  mapVec := m.tablesAfterErase key
  cells := fun b => if m.get key = some b then none else m.cells b
  fresh := m.fresh
  placed := fun i key' b h => m.placed i key' b (lookup_tablesAfterErase h).2
  live := fun i key' b h => by
    obtain ⟨hne, hold⟩ := lookup_tablesAfterErase h
    rw [if_neg]
    · exact m.live i key' b hold
    · exact fun hg => hne (get_injective (lookup_eq_some hold) hg)
  owner := fun i key₁ i' key₂ b h h' =>
    m.owner _ _ _ _ _ (lookup_tablesAfterErase h).2 (lookup_tablesAfterErase h').2
  unused := fun b hb => by
    split
    · rfl
    · exact m.unused b hb

/-- `Add`: `insert_or_assign`. An existing element is assigned in place. -/
def add (m : HashKv V) (key : String) (v : V) : HashKv V :=
  match h : m.get key with
  | some a => m.store a v (get_lt h)
  | none => m.insertNew key v

/-- `GetOrCreate`: `try_emplace`. An existing element is kept. -/
def getOrCreate (m : HashKv V) (key : String) (v : V) : Addr × HashKv V :=
  match m.get key with
  | some a => (a, m)
  | none => (m.fresh, m.insertNew key v)

/-! ## What the operations do to the pointers -/

@[simp] theorem get_init (hash : String → Nat) (n : Nat) : (init hash n : HashKv V).get key = none := by
  simp [get, init]

@[simp] theorem get_store (h : a < m.fresh) : (m.store a v h).get key = m.get key := rfl

theorem get_insertNew : (m.insertNew key v).get key' = if key' = key then some m.fresh else m.get key' := by
  show (m.tablesAfterInsert key (m.index key')).lookup key' = _
  unfold tablesAfterInsert
  by_cases hk : key' = key
  · subst hk
    rw [Function.update_self, AList.lookup_insert, if_pos rfl]
  · rw [if_neg hk]
    by_cases hi : m.index key' = m.index key
    · rw [hi, Function.update_self, AList.lookup_insert_ne hk, ← hi]
      rfl
    · rw [Function.update_of_ne hi]
      rfl

theorem get_del : (m.del key).get key' = if key' = key then none else m.get key' := by
  show (m.tablesAfterErase key (m.index key')).lookup key' = _
  unfold tablesAfterErase
  by_cases hk : key' = key
  · subst hk
    rw [Function.update_self, AList.lookup_erase, if_pos rfl]
  · rw [if_neg hk]
    by_cases hi : m.index key' = m.index key
    · rw [hi, Function.update_self, AList.lookup_erase_ne hk, ← hi]
      rfl
    · rw [Function.update_of_ne hi]
      rfl

theorem add_of_some (h : m.get key = some a) : m.add key v = m.store a v (get_lt h) := by
  unfold add
  split
  · rename_i b hb
    have hab : a = b := Option.some.inj (h.symm.trans hb)
    subst hab
    rfl
  · rename_i hb
    rw [h] at hb
    exact absurd hb (by simp)

theorem add_of_none (h : m.get key = none) : m.add key v = m.insertNew key v := by
  unfold add
  split
  · rename_i b hb
    rw [h] at hb
    exact absurd hb (by simp)
  · rfl

theorem getOrCreate_of_some (h : m.get key = some a) : m.getOrCreate key v = (a, m) := by
  rw [getOrCreate, h]

theorem getOrCreate_of_none (h : m.get key = none) :
    m.getOrCreate key v = (m.fresh, m.insertNew key v) := by
  rw [getOrCreate, h]

/-- The element has existed and has been destroyed. -/
def Destroyed (m : HashKv V) (a : Addr) : Prop := a < m.fresh ∧ m.deref a = none

/-- `Add` on any key keeps the pointers. -/
theorem get_add_of_some (h : m.get key = some a) : (m.add key' v).get key = some a := by
  cases hg : m.get key' with
  | some b =>
      rw [add_of_some hg, get_store]
      exact h
  | none =>
      have hk : key ≠ key' := by
        rintro rfl
        rw [hg] at h
        exact absurd h (by simp)
      rw [add_of_none hg, get_insertNew, if_neg hk]
      exact h

/-- A destroyed element does not come back: `Add` hands out a new address. -/
theorem Destroyed.add (h : m.Destroyed a) (key : String) (v : V) : (m.add key v).Destroyed a := by
  obtain ⟨hlt, hnone⟩ := h
  cases hg : m.get key with
  | some b =>
      have hab : a ≠ b := by
        rintro rfl
        have hsome := view_isSome hg
        rw [← deref_of_get hg, hnone] at hsome
        exact absurd hsome (by simp)
      rw [add_of_some hg]
      exact ⟨hlt, (Function.update_of_ne hab _ _).trans hnone⟩
  | none =>
      rw [add_of_none hg]
      exact ⟨Nat.lt_succ_of_lt hlt, (Function.update_of_ne (Nat.ne_of_lt hlt) _ _).trans hnone⟩

theorem Destroyed.del (h : m.Destroyed a) (key : String) : (m.del key).Destroyed a := by
  refine ⟨h.1, ?_⟩
  show (if m.get key = some a then none else m.cells a) = none
  split
  · rfl
  · exact h.2

/-- `Del` destroys the element that the key's pointer leads to. -/
theorem destroyed_of_del (h : m.get key = some a) : (m.del key).Destroyed a := by
  have hlt : a < m.fresh := get_lt h
  exact ⟨hlt, if_pos h⟩

theorem get_write : (m.write a v).get key = m.get key := by
  unfold write
  split <;> rfl

/-- A write through a pointer is seen through that pointer and no other. -/
theorem deref_write {b : Addr} (h : a < m.fresh) :
    (m.write a v).deref b = if b = a then some v else m.deref b := by
  rw [write, dif_pos h]
  show Function.update m.cells a (some v) b = _
  rw [Function.update_apply]
  rfl

/-! ## What the operations do to the plain map -/

@[simp] theorem view_init (hash : String → Nat) (n : Nat) : (init hash n : HashKv V).view key = none := by
  simp [view]

/-- A write through the pointer to a key's element changes the value of that key. -/
theorem view_store (hg : m.get key = some a) (h : a < m.fresh) :
    (m.store a v h).view = Function.update m.view key (some v) := by
  funext key'
  by_cases hk : key' = key
  · subst hk
    rw [Function.update_self, view, get_store, hg]
    show Function.update m.cells a (some v) a = some v
    exact Function.update_self ..
  · rw [Function.update_of_ne hk, view, get_store, view]
    cases hg' : m.get key' with
    | none => rfl
    | some b =>
        have hba : b ≠ a := fun e => hk (get_injective (e ▸ hg') hg)
        show Function.update m.cells a (some v) b = m.cells b
        exact Function.update_of_ne hba _ _

theorem view_write (hg : m.get key = some a) :
    (m.write a v).view = Function.update m.view key (some v) := by
  rw [write, dif_pos (get_lt hg)]
  exact view_store hg _

theorem view_insertNew (hg : m.get key = none) :
    (m.insertNew key v).view = Function.update m.view key (some v) := by
  funext key'
  by_cases hk : key' = key
  · subst hk
    rw [Function.update_self, view, get_insertNew, if_pos rfl]
    show Function.update m.cells m.fresh (some v) m.fresh = some v
    exact Function.update_self ..
  · rw [Function.update_of_ne hk, view, get_insertNew, if_neg hk, view]
    cases hg' : m.get key' with
    | none => rfl
    | some b =>
        show Function.update m.cells m.fresh (some v) b = m.cells b
        exact Function.update_of_ne (Nat.ne_of_lt (get_lt hg')) _ _

/-- `Add` overwrites. -/
theorem view_add (m : HashKv V) (key : String) (v : V) :
    (m.add key v).view = Function.update m.view key (some v) := by
  cases hg : m.get key with
  | none =>
      rw [add_of_none hg]
      exact view_insertNew hg
  | some a =>
      rw [add_of_some hg]
      exact view_store hg _

/-- `Del` removes, and does nothing to an absent key. -/
theorem view_del (m : HashKv V) (key : String) : (m.del key).view = Function.update m.view key none := by
  funext key'
  by_cases hk : key' = key
  · subst hk
    rw [Function.update_self, view, get_del, if_pos rfl]
    rfl
  · rw [Function.update_of_ne hk, view, get_del, if_neg hk, view]
    cases hg' : m.get key' with
    | none => rfl
    | some b =>
        show (if m.get key = some b then none else m.cells b) = m.cells b
        exact if_neg (fun hg => hk (get_injective hg' hg))

/-- `GetOrCreate` keeps an existing value. -/
theorem view_getOrCreate (m : HashKv V) (key : String) (v : V) :
    (m.getOrCreate key v).2.view = Function.update m.view key (some ((m.view key).getD v)) := by
  cases hg : m.get key with
  | none =>
      rw [getOrCreate_of_none hg, view_eq_none_iff.mpr hg]
      exact view_insertNew hg
  | some a =>
      obtain ⟨w, hw⟩ := Option.isSome_iff_exists.mp (view_isSome hg)
      rw [getOrCreate_of_some hg, hw]
      funext key'
      by_cases hk : key' = key
      · subst hk
        rw [Function.update_self]
        exact hw
      · rw [Function.update_of_ne hk]

/-- The pointer that `GetOrCreate` returns is the one a following `Get` returns. -/
theorem get_getOrCreate (m : HashKv V) (key : String) (v : V) :
    (m.getOrCreate key v).2.get key = some (m.getOrCreate key v).1 := by
  cases hg : m.get key with
  | none =>
      rw [getOrCreate_of_none hg]
      exact get_insertNew.trans (if_pos rfl)
  | some a =>
      rw [getOrCreate_of_some hg]
      exact hg

end HashKv

end ZhiCache
