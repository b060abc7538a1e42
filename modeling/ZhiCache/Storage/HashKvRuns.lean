import ZhiCache.Storage.HashKv
import Mathlib.Data.Finmap

/-!
# `Storage.HashKvRuns` — sequences of calls on the partitioned map

`HashKv` is used through four calls. `Call` names them, `call` carries one out and gives what it returns, and
`calls` carries out a sequence. What a client can observe of a call is the Boolean that it returns, or whether
the pointer is null and, if it is not, the value it reads through it (`seen`).

The abstract counterpart is one finite map (`Plain`), with no partitions, no hash and no addresses. `Agrees`
relates the two; every call keeps it, and under it a call shows the client the same thing on both sides. The
partition count and the hash occur in none of the plain operations, so they cannot be observed.
-/

namespace ZhiCache

namespace HashKv

/-- A call on the map. -/
inductive Call (V : Type) where
  | get (key : String)
  | getOrCreate (key : String) (value : V)
  | add (key : String) (value : V)
  | del (key : String)

/-- What a call returns. -/
inductive Reply (α : Type) where
  /-- `Get` and `GetOrCreate` return a pointer, which may be null. -/
  | pointer (p : Option α)
  /-- `Add` and `Del` return a Boolean. -/
  | flag (b : Bool)
  deriving DecidableEq

/-- What is read through the pointer, in its place. -/
def Reply.map {α β : Type} (f : α → β) : Reply α → Reply β
  | .pointer p => .pointer (p.map f)
  | .flag b => .flag b

variable {V : Type}

/-- The key a call is about. -/
def Call.key : Call V → String
  | .get key => key
  | .getOrCreate key _ => key
  | .add key _ => key
  | .del key => key

/-- The call returns a pointer. -/
def Call.returnsPointer : Call V → Bool
  | .get _ | .getOrCreate _ _ => true
  | .add _ _ | .del _ => false

/-- One call: what it returns, and the map after it. -/
def call (m : HashKv V) : Call V → Reply Addr × HashKv V
  | .get key => (.pointer (m.get key), m)
  | .getOrCreate key value => (.pointer (some (m.getOrCreate key value).1), (m.getOrCreate key value).2)
  | .add key value => (.flag true, m.add key value)
  | .del key => (.flag true, m.del key)

/-- The map after a sequence of calls. -/
def calls (m : HashKv V) (cs : List (Call V)) : HashKv V := cs.foldl (fun m c => (m.call c).2) m

/-- What the client sees of a call: the Boolean, or that the pointer is null, or what it reads through it. -/
def seen (m : HashKv V) (c : Call V) : Reply (Option V) := (m.call c).1.map (m.call c).2.deref

/-- What the client sees of each call of a sequence. -/
def allSeen (m : HashKv V) : List (Call V) → List (Reply (Option V))
  | [] => []
  | c :: cs => m.seen c :: allSeen (m.call c).2 cs

/-! ## The plain map -/

/-- One finite map from keys to values. -/
abbrev Plain (V : Type) := Finmap (fun _ : String => V)

namespace Plain

/-- What a call gives and the map after it. A value stands for a pointer to it. -/
def call (p : Plain V) : Call V → Reply V × Plain V
  | .get key => (.pointer (p.lookup key), p)
  | .getOrCreate key value =>
      match p.lookup key with
      | some old => (.pointer (some old), p)
      | none => (.pointer (some value), p.insert key value)
  | .add key value => (.flag true, p.insert key value)
  | .del key => (.flag true, p.erase key)

/-- The map after a sequence of calls. -/
def calls (p : Plain V) (cs : List (Call V)) : Plain V := cs.foldl (fun p c => (p.call c).2) p

/-- What each call of a sequence gives. -/
def results (p : Plain V) : List (Call V) → List (Reply V)
  | [] => []
  | c :: cs => (p.call c).1 :: results (p.call c).2 cs

theorem lookup_insert_eq_update (p : Plain V) (key : String) (value : V) :
    (p.insert key value).lookup = Function.update p.lookup key (some value) := by
  funext key'
  by_cases hk : key' = key
  · subst hk
    rw [Finmap.lookup_insert, Function.update_self]
  · rw [Finmap.lookup_insert_of_ne _ hk, Function.update_of_ne hk]

theorem lookup_erase_eq_update (p : Plain V) (key : String) :
    (p.erase key).lookup = Function.update p.lookup key none := by
  funext key'
  by_cases hk : key' = key
  · subst hk
    rw [Finmap.lookup_erase, Function.update_self]
  · rw [Finmap.lookup_erase_ne hk, Function.update_of_ne hk]

end Plain

/-! ## One call -/

variable {m : HashKv V} {p : Plain V}

/-- The partitioned map stands for the plain map. -/
def Agrees (m : HashKv V) (p : Plain V) : Prop := m.view = p.lookup

/-- An existing element: `GetOrCreate` is a `Get`, on both sides. -/
theorem call_getOrCreate_of_some {key : String} {a : Addr} (value : V) (h : m.get key = some a) :
    m.call (.getOrCreate key value) = m.call (.get key) := by
  simp only [call, getOrCreate_of_some h, h]

/-- **A call keeps the agreement.** -/
theorem Agrees.call (h : Agrees m p) (c : Call V) : Agrees (m.call c).2 (p.call c).2 := by
  cases c with
  | get key => exact h
  | add key value =>
      show (m.add key value).view = (p.insert key value).lookup
      rw [view_add, Plain.lookup_insert_eq_update, h]
  | del key =>
      show (m.del key).view = (p.erase key).lookup
      rw [view_del, Plain.lookup_erase_eq_update, h]
  | getOrCreate key value =>
      have hview : m.view key = p.lookup key := congrFun h key
      cases hp : p.lookup key with
      | some old =>
          -- the element exists: neither side changes
          have hne : m.get key ≠ none := by
            intro hg
            rw [view_eq_none_iff.mpr hg, hp] at hview
            exact absurd hview (by simp)
          obtain ⟨a, ha⟩ := Option.ne_none_iff_exists'.mp hne
          rw [call_getOrCreate_of_some value ha]
          simp only [Plain.call, hp]
          exact h
      | none =>
          have hg : m.get key = none := view_eq_none_iff.mp (hview.trans hp)
          simp only [HashKv.call, Plain.call, hp, getOrCreate_of_none hg]
          show (m.insertNew key value).view = (p.insert key value).lookup
          rw [view_insertNew hg, Plain.lookup_insert_eq_update, h]

/-- A pointer that a call returns is the one a following `Get` returns. -/
theorem call_pointer {c : Call V} (hc : c.returnsPointer = true) :
    (m.call c).1 = .pointer ((m.call c).2.get c.key) := by
  cases c with
  | get key => rfl
  | getOrCreate key value => exact congrArg Reply.pointer (get_getOrCreate m key value).symm
  | add key value => cases hc
  | del key => cases hc

/-- A value that a call on the plain map gives is that of the key after the call. -/
theorem Plain.call_pointer {c : Call V} (hc : c.returnsPointer = true) :
    (p.call c).1 = .pointer ((p.call c).2.lookup c.key) := by
  cases c with
  | get key => rfl
  | getOrCreate key value =>
      cases hl : p.lookup key with
      | some old => simp only [Plain.call, hl, Call.key]
      | none => simp only [Plain.call, hl, Call.key, Finmap.lookup_insert]
  | add key value => cases hc
  | del key => cases hc

/-- What is read through the pointer to a key's element is the value of the key. -/
theorem map_deref_get (key : String) : (m.get key).map m.deref = (m.view key).map some := by
  cases hg : m.get key with
  | none => rw [view_eq_none_iff.mpr hg, Option.map_none, Option.map_none]
  | some a =>
      obtain ⟨v, hv⟩ := Option.isSome_iff_exists.mp (view_isSome hg)
      rw [Option.map_some, deref_of_get hg, hv, Option.map_some]

/-- **A call shows the client what the plain map gives**: the same Boolean; a null pointer where the plain map
    has nothing, and otherwise a pointer through which the plain map's value is read. -/
theorem Agrees.seen (h : Agrees m p) (c : Call V) : m.seen c = (p.call c).1.map some := by
  cases hc : c.returnsPointer with
  | true =>
      have hafter : (m.call c).2.view c.key = (p.call c).2.lookup c.key := congrFun (h.call c) c.key
      rw [HashKv.seen, HashKv.call_pointer hc, Plain.call_pointer hc, Reply.map, Reply.map,
        map_deref_get, hafter]
  | false =>
      cases c with
      | add key value => rfl
      | del key => rfl
      | get key => cases hc
      | getOrCreate key value => cases hc

/-- **A call on one key leaves the others alone**: the pointer that `Get` returns for another key, and the
    value read through it, stay. -/
theorem frame_call (c : Call V) {key : String} (hk : key ≠ c.key) :
    (m.call c).2.get key = m.get key ∧ (m.call c).2.view key = m.view key := by
  cases c with
  | get key' => exact ⟨rfl, rfl⟩
  | add key' value =>
      have hne : key ≠ key' := hk
      refine ⟨?_, ?_⟩
      · show (m.add key' value).get key = m.get key
        cases hg : m.get key' with
        | some a => rw [add_of_some hg, get_store]
        | none => rw [add_of_none hg, get_insertNew, if_neg hne]
      · show (m.add key' value).view key = m.view key
        rw [view_add, Function.update_of_ne hne]
  | del key' =>
      have hne : key ≠ key' := hk
      refine ⟨get_del.trans (if_neg hne), ?_⟩
      show (m.del key').view key = m.view key
      rw [view_del, Function.update_of_ne hne]
  | getOrCreate key' value =>
      have hne : key ≠ key' := hk
      refine ⟨?_, ?_⟩
      · show (m.getOrCreate key' value).2.get key = m.get key
        cases hg : m.get key' with
        | some a => rw [getOrCreate_of_some hg]
        | none => rw [getOrCreate_of_none hg, get_insertNew, if_neg hne]
      · show (m.getOrCreate key' value).2.view key = m.view key
        rw [view_getOrCreate, Function.update_of_ne hne]

/-- A call other than `Del` on the key keeps the pointer to the key's element. -/
theorem get_call_of_some {c : Call V} {key : String} {a : Addr} (hc : c ≠ .del key) (h : m.get key = some a) :
    (m.call c).2.get key = some a := by
  by_cases hk : key = c.key
  · subst hk
    cases c with
    | get key => exact h
    | add key value => exact get_add_of_some h
    | del key => exact absurd rfl hc
    | getOrCreate key value =>
        have hg : m.get key = some a := h
        rw [call_getOrCreate_of_some value hg]
        exact hg
  · rw [(frame_call c hk).1]
    exact h

theorem call_shape (c : Call V) :
    (m.call c).2.hash = m.hash ∧ (m.call c).2.partitionNum = m.partitionNum := by
  cases c with
  | get key => exact ⟨rfl, rfl⟩
  | del key => exact ⟨rfl, rfl⟩
  | add key value =>
      show (m.add key value).hash = m.hash ∧ (m.add key value).partitionNum = m.partitionNum
      cases hg : m.get key with
      | some a => rw [add_of_some hg]; exact ⟨rfl, rfl⟩
      | none => rw [add_of_none hg]; exact ⟨rfl, rfl⟩
  | getOrCreate key value =>
      show (m.getOrCreate key value).2.hash = m.hash ∧
        (m.getOrCreate key value).2.partitionNum = m.partitionNum
      cases hg : m.get key with
      | some a => rw [getOrCreate_of_some hg]; exact ⟨rfl, rfl⟩
      | none => rw [getOrCreate_of_none hg]; exact ⟨rfl, rfl⟩

/-! ## Sequences of calls -/

theorem calls_cons (c : Call V) (cs : List (Call V)) : m.calls (c :: cs) = (m.call c).2.calls cs := rfl

theorem Agrees.calls (h : Agrees m p) (cs : List (Call V)) : Agrees (m.calls cs) (p.calls cs) := by
  induction cs generalizing m p with
  | nil => exact h
  | cons c cs ih => exact ih (h.call c)

theorem Agrees.allSeen (h : Agrees m p) (cs : List (Call V)) :
    m.allSeen cs = (p.results cs).map (Reply.map some) := by
  induction cs generalizing m p with
  | nil => rfl
  | cons c cs ih =>
      rw [HashKv.allSeen, Plain.results, List.map_cons, h.seen c, ih (h.call c)]

theorem agrees_init (hash : String → Nat) (n : Nat) : Agrees (init hash n : HashKv V) ∅ := by
  funext key
  rw [view_init, Finmap.lookup_empty]

/-- A pointer to the key's element stays one as long as the key is not deleted. -/
theorem get_calls_of_some {key : String} {a : Addr} {cs : List (Call V)} (h : m.get key = some a)
    (hcs : ∀ c ∈ cs, c ≠ .del key) : (m.calls cs).get key = some a := by
  induction cs generalizing m with
  | nil => exact h
  | cons c cs ih =>
      rw [calls_cons]
      exact ih (get_call_of_some (hcs c List.mem_cons_self) h)
        (fun c' hc' => hcs c' (List.mem_cons_of_mem c hc'))

theorem calls_shape (cs : List (Call V)) :
    (m.calls cs).hash = m.hash ∧ (m.calls cs).partitionNum = m.partitionNum := by
  induction cs generalizing m with
  | nil => exact ⟨rfl, rfl⟩
  | cons c cs ih =>
      rw [calls_cons]
      exact ⟨ih.1.trans (call_shape c).1, ih.2.trans (call_shape c).2⟩

/-- **The partitioned map is a plain finite map.** For every hash, partition count and sequence of calls on
    a new map:

    * each call shows the client what the plain map gives;
    * a pointer that a call returned goes on to show the plain map's value of its key, until the key is
      deleted;
    * with another hash and another partition count the client sees the same;
    * every key stands in the partition that its hash selects, and in no other;
    * a call on one key changes neither the pointer nor the value of another. -/
theorem calls_refine_plain (hash : String → Nat) (n : Nat) (cs : List (Call V)) :
    (init hash n).allSeen cs = (Plain.results ∅ cs).map (Reply.map some) ∧
    (∀ c a later, (((init hash n).calls cs).call c).1 = .pointer (some a) → (∀ c' ∈ later, c' ≠ .del c.key) →
      ((((init hash n).calls cs).call c).2.calls later).deref a =
        ((((∅ : Plain V).calls cs).call c).2.calls later).lookup c.key) ∧
    (∀ hash' n', (init hash' n').allSeen cs = (init hash n).allSeen cs) ∧
    (∀ i key a, (((init hash n).calls cs).mapVec i).lookup key = some a → i = hash key % n) ∧
    ∀ c key, key ≠ c.key →
      (((init hash n).calls cs).call c).2.get key = ((init hash n).calls cs).get key ∧
      (((init hash n).calls cs).call c).2.view key = ((init hash n).calls cs).view key := by
  have hseen : ∀ hash n, (init hash n).allSeen cs = (Plain.results ∅ cs).map (Reply.map some) :=
    fun hash n => (agrees_init hash n).allSeen cs
  refine ⟨hseen hash n, ?_, ?_, ?_, ?_⟩
  · intro c a later hc hlater
    have hpointer : c.returnsPointer = true := by
      cases c with
      | get | getOrCreate => rfl
      | add | del => cases hc
    have ha : _ = some a := Reply.pointer.inj ((call_pointer hpointer).symm.trans hc)
    have hget := get_calls_of_some ha hlater
    rw [deref_of_get hget]
    exact congrFun ((((agrees_init hash n).calls cs).call c).calls later) c.key
  · intro hash' n'
    rw [hseen hash' n', hseen hash n]
  · intro i key a hl
    obtain ⟨hhash, hn⟩ := calls_shape (m := init hash n) cs
    have hi := ((init hash n).calls cs).placed i key a hl
    rw [hhash, hn] at hi
    exact hi
  · intro c key hk
    exact frame_call c hk

end HashKv

end ZhiCache
