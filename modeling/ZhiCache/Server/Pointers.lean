import ZhiCache.Handler.ZsetHandler

/-!
# `Server.Pointers` — the pointers that requests hold

`HashKv::Get` returns a pointer to an element and drops the lock; the caller reads through the pointer later.
`/query` and `/list` hold such pointers into `KvManager`, `/zrange` into `ZsetManager` and into the value map
of its set.

A pointer is in one of two conditions: a lookup by its key would return it (`Maps.Leads`), or its element has
been destroyed (`Maps.Gone`). This module says which pointers a request holds (`ReadPc.held`), that a lookup
gives it one that leads to its element (`ReadPc.held_get`), that going on gives it none (`ReadPc.held_read`),
and what a read through a pointer does (`ReadPc.read_faults_iff`).
-/

namespace ZhiCache

/-! ## Pointers -/

/-- The maps that requests look into. -/
structure Maps where
  kv : KvManager
  zsets : ZsetManager

/-- A pointer that `Get` has returned, with what it was looked up by. -/
inductive Pointer where
  /-- To a value in `KvManager`. -/
  | value (key : String) (a : Addr)
  /-- To a set in `ZsetManager`. -/
  | set (key : String) (a : Addr)
  /-- To the score of a member in the value map of the set of `key`, found through `zset`. -/
  | score (key : String) (zset : Addr) (member : String) (a : Addr)
  deriving DecidableEq, Repr

namespace Maps

/-- Whether the element that the pointer leads to still exists. -/
def exist (m : Maps) : Pointer → Bool
  | .value _ a => (m.kv.memdb.deref a).isSome
  | .set _ a => (m.zsets.zsetMap.deref a).isSome
  | .score _ zset _ a => ((m.zsets.zsetMap.deref zset).bind (fun z => z.valueMap.deref a)).isSome

/-- A lookup would return the pointer. -/
def Leads (m : Maps) : Pointer → Prop
  | .value key a => m.kv.query key = some a
  | .set key a => m.zsets.zsetMap.get key = some a
  | .score key zset member a => m.zsets.zsetMap.get key = some zset ∧
      ∃ z, m.zsets.zsetMap.deref zset = some z ∧ z.valueMap.get member = some a

/-- The element has been destroyed. Sets are never destroyed. -/
def Gone (m : Maps) : Pointer → Prop
  | .value _ a => m.kv.memdb.Destroyed a
  | .set _ _ => False
  | .score key zset _ a => m.zsets.zsetMap.get key = some zset ∧
      ∃ z, m.zsets.zsetMap.deref zset = some z ∧ z.valueMap.Destroyed a

variable {m m' : Maps} {p : Pointer}

theorem Leads.exist (h : m.Leads p) : m.exist p = true := by
  cases p with
  | value key a =>
      show (m.kv.memdb.deref a).isSome = true
      rw [HashKv.deref_of_get h]
      exact HashKv.view_isSome h
  | set key a =>
      show (m.zsets.zsetMap.deref a).isSome = true
      rw [HashKv.deref_of_get h]
      exact HashKv.view_isSome h
  | score key zset member a =>
      obtain ⟨_, z, hz, hg⟩ := h
      show ((m.zsets.zsetMap.deref zset).bind (fun z => z.valueMap.deref a)).isSome = true
      rw [hz, Option.bind_some, HashKv.deref_of_get hg]
      exact HashKv.view_isSome hg

theorem Gone.not_exist (h : m.Gone p) : m.exist p = false := by
  cases p with
  | value key a =>
      show (m.kv.memdb.deref a).isSome = false
      rw [h.2]
      rfl
  | set key a => exact h.elim
  | score key zset member a =>
      obtain ⟨_, z, hz, hg⟩ := h
      show ((m.zsets.zsetMap.deref zset).bind (fun z => z.valueMap.deref a)).isSome = false
      rw [hz, Option.bind_some, hg.2]
      rfl

end Maps

/-! ## Requests that hold pointers -/

/-- The pointer that a `/query` request holds. -/
def QueryPc.held : QueryPc → Option Pointer
  | holding key value => some (.value key value)
  | _ => none

/-- The pointer that the fiber at `i` of a `/list` request has returned, until the loop has passed it. -/
def BatchQueryPc.held (i : Nat) : BatchQueryPc → Option Pointer
  | collecting keys values index _ =>
    if index ≤ i then
      match keys[i]?, values i with
      | some key, some (some value) => some (.value key value)
      | _, _ => none
    else none
  | _ => none

/-- The pointer that a `/zrange` request is to read next. -/
def ZrangePc.held : ZrangePc → Option Pointer
  | found key zset _ => some (.set key zset)
  | holding key zset _ _ node score _ => some (.score key zset node.value score)
  | _ => none

/-- The pointer to its set, on which a `/zrange` request works. -/
def ZrangePc.set : ZrangePc → Option Pointer
  | found key zset _ => some (.set key zset)
  | standing key zset _ _ _ => some (.set key zset)
  | holding key zset _ _ _ _ _ => some (.set key zset)
  | _ => none

/-- A request that looks something up. -/
inductive ReadRequest where
  | query (key : Option String)
  | list (keys : List String)
  | zrange (key : Option String) (request : ZrangeRequest)
  deriving DecidableEq, Repr

/-- Where such a request stands. -/
inductive ReadPc where
  | query (pc : QueryPc)
  | list (pc : BatchQueryPc)
  | zrange (pc : ZrangePc)

/-- The request arrives. -/
def ReadRequest.start : ReadRequest → ReadPc
  | query key => .query (.start key)
  | list keys => .list (.start keys)
  | zrange key request => .zrange (.start key request)

namespace ReadPc

/-- The lookup of fiber `i`. Only `/list` has more than one. -/
def get (m : Maps) (i : Nat) : ReadPc → Option ReadPc
  | query pc => if i = 0 then (pc.get m.kv).map .query else none
  | list pc => (pc.get m.kv i).map .list
  | zrange pc => if i = 0 then (pc.get m.zsets).map .zrange else none

/-- The request goes on with the pointer of fiber `i`, reading through it. -/
def read (m : Maps) (i : Nat) : ReadPc → Option ReadPc
  | query pc => if i = 0 then (pc.read m.kv).map .query else none
  | list pc => (pc.read m.kv i).map .list
  | zrange pc => if i = 0 then (pc.read m.zsets).map .zrange else none

/-- The pointer of fiber `i`. -/
def held (i : Nat) : ReadPc → Option Pointer
  | query pc => if i = 0 then pc.held else none
  | list pc => pc.held i
  | zrange pc => if i = 0 then pc.held else none

/-- The pointer to its set, on which a `/zrange` request works. -/
def set : ReadPc → Option Pointer
  | zrange pc => pc.set
  | _ => none

/-- The request has read an element that did not exist. -/
def faulted : ReadPc → Bool
  | query .fault => true
  | list .fault => true
  | zrange .fault => true
  | _ => false

end ReadPc

/-! ## What a request does to its pointers -/

section Query

variable {kv : KvManager} {pc pc' : QueryPc} {p : Pointer}

theorem QueryPc.held_start (key : Option String) : (start key).held = none := by
  cases key <;> rfl

theorem QueryPc.held_get (h : pc.get kv = some pc') (hp : pc'.held = some p) :
    ∃ key a, p = .value key a ∧ kv.query key = some a := by
  cases pc with
  | asked key =>
      simp only [get] at h
      split at h
      · rw [← Option.some.inj h] at hp
        exact absurd hp (by simp [held])
      · rename_i a ha
        rw [← Option.some.inj h] at hp
        exact ⟨key, a, (Option.some.inj hp).symm, ha⟩
  | _ => exact absurd h (by simp [get])

theorem QueryPc.held_read (h : pc.read kv = some pc') : pc'.held = none := by
  cases pc with
  | holding key value =>
      simp only [read] at h
      split at h
      · rw [← Option.some.inj h]
        rfl
      · rw [← Option.some.inj h]
        rfl
  | _ => exact absurd h (by simp [read])

/-- Reading a value. -/
theorem QueryPc.read_faults_iff {m : Maps} (h : pc.read m.kv = some pc') (hp : pc.held = some p) :
    (ReadPc.query pc').faulted = true ↔ m.exist p = false := by
  cases pc with
  | holding key value =>
      obtain rfl : .value key value = p := Option.some.inj hp
      simp only [read] at h
      split at h
      · rename_i hd
        rw [← Option.some.inj h]
        simp [ReadPc.faulted, Maps.exist, hd]
      · rename_i hd
        rw [← Option.some.inj h]
        simp [ReadPc.faulted, Maps.exist, hd]
  | _ => exact absurd hp (by simp [held])

end Query

section BatchQuery

variable {kv : KvManager} {pc pc' : BatchQueryPc} {i j : Nat} {p : Pointer}

/-- The pointers of a collecting loop. -/
theorem BatchQueryPc.held_collecting {keys : List String} {values : Nat → Option (Option Addr)} {index : Nat}
    {results : List InsertRequest} :
    (collecting keys values index results).held i = some p ↔
      index ≤ i ∧ ∃ key a, keys[i]? = some key ∧ values i = some (some a) ∧ p = .value key a := by
  unfold held
  constructor
  · intro h
    obtain ⟨hle, h⟩ := Option.ite_none_right_eq_some.mp h
    split at h
    · rename_i key a hkey ha
      exact ⟨hle, key, a, hkey, ha, (Option.some.inj h).symm⟩
    · exact absurd h (by simp)
  · rintro ⟨hle, key, a, hkey, ha, rfl⟩
    simp [hle, hkey, ha]

theorem BatchQueryPc.held_start (keys : List String) : (start keys).held i = none := by
  unfold start
  split
  · rfl
  · cases hp : (collecting keys (fun _ => none) 0 []).held i with
    | none => rfl
    | some p =>
        obtain ⟨_, _, _, _, ha, _⟩ := held_collecting.mp hp
        exact absurd ha (by simp)

/-- The fiber at `i` has what it looked up, the others what they had. -/
theorem BatchQueryPc.held_get (h : pc.get kv i = some pc') (hp : pc'.held j = some p) :
    (j ≠ i ∧ pc.held j = some p) ∨ (j = i ∧ ∃ key a, p = .value key a ∧ kv.query key = some a) := by
  cases pc with
  | collecting keys values index results =>
      obtain ⟨key, hkey, h⟩ := Option.bind_eq_some_iff.mp h
      split at h
      · exact absurd h (by simp)
      · rw [← Option.some.inj h] at hp
        obtain ⟨hle, key', a, hkey', ha, rfl⟩ := held_collecting.mp hp
        by_cases hij : j = i
        · subst hij
          rw [Function.update_self] at ha
          have hkk : key = key' := Option.some.inj (hkey.symm.trans hkey')
          rw [hkk] at ha
          exact Or.inr ⟨rfl, key', a, rfl, Option.some.inj ha⟩
        · rw [Function.update_of_ne hij] at ha
          exact Or.inl ⟨hij, held_collecting.mpr ⟨hle, key', a, hkey', ha, rfl⟩⟩
  | _ => exact absurd h (by simp [get])

theorem BatchQueryPc.held_read (h : pc.read kv i = some pc') (hp : pc'.held j = some p) :
    pc.held j = some p := by
  cases pc with
  | collecting keys values index results =>
      -- the loop goes on to the next index, whatever it has read
      have hnext : ∀ results', (collecting keys values (index + 1) results').held j = some p →
          (collecting keys values index results).held j = some p := by
        intro results' hp
        obtain ⟨hle, hrest⟩ := held_collecting.mp hp
        exact held_collecting.mpr ⟨Nat.le_of_succ_le hle, hrest⟩
      obtain ⟨_, h⟩ := Option.ite_none_right_eq_some.mp h
      split at h
      · rw [← Option.some.inj h] at hp
        exact absurd hp (by simp [held])
      · split at h
        · exact absurd h (by simp)
        · rw [← Option.some.inj h] at hp
          exact hnext _ hp
        · split at h
          · rw [← Option.some.inj h] at hp
            exact absurd hp (by simp [held])
          · rw [← Option.some.inj h] at hp
            exact hnext _ hp
  | _ => exact absurd h (by simp [read])

theorem BatchQueryPc.read_faults_iff {m : Maps} (h : pc.read m.kv i = some pc') (hp : pc.held i = some p) :
    (ReadPc.list pc').faulted = true ↔ m.exist p = false := by
  cases pc with
  | collecting keys values index results =>
      obtain ⟨_, key, value, hkey, hvalue, rfl⟩ := held_collecting.mp hp
      obtain ⟨rfl, h⟩ := Option.ite_none_right_eq_some.mp h
      rw [hkey] at h
      simp only [hvalue] at h
      split at h
      · rename_i hd
        rw [← Option.some.inj h]
        simp [ReadPc.faulted, Maps.exist, hd]
      · rename_i hd
        rw [← Option.some.inj h]
        simp [ReadPc.faulted, Maps.exist, hd]
  | _ => exact absurd hp (by simp [held])

end BatchQuery

section Zrange

variable {m : Maps} {pc pc' : ZrangePc} {p : Pointer}

theorem ZrangePc.held_start (key : Option String) (request : ZrangeRequest) :
    (start key request).held = none := by
  cases key <;> rfl

theorem ZrangePc.set_start (key : Option String) (request : ZrangeRequest) :
    (start key request).set = none := by
  cases key <;> rfl

theorem ZrangePc.held_next {z : Zset} {key : String} {zset : Addr} {maxScore : Int32} {n : NodeId}
    {result : List ZaddRequest} : (next z key zset maxScore n result).held = none := by
  unfold next
  split <;> rfl

theorem ZrangePc.set_next {z : Zset} {key : String} {zset : Addr} {maxScore : Int32} {n : NodeId}
    {result : List ZaddRequest} (hp : (next z key zset maxScore n result).set = some p) :
    p = .set key zset := by
  unfold next at hp
  split at hp
  · exact absurd hp (by simp [set])
  · exact (Option.some.inj hp).symm

/-- A `/zrange` request gets a pointer only to its set or, within its set, to a score. -/
theorem ZrangePc.leads_get (h : pc.get m.zsets = some pc') (hset : ∀ p, pc.set = some p → m.Leads p) :
    (∀ p, pc'.held = some p → m.Leads p) ∧ (∀ p, pc'.set = some p → m.Leads p) := by
  cases pc with
  | asked key request =>
      simp only [get] at h
      split at h
      · rw [← Option.some.inj h]
        exact ⟨fun p hp => absurd hp (by simp [held]), fun p hp => absurd hp (by simp [set])⟩
      · rename_i zset hg
        rw [← Option.some.inj h]
        exact ⟨fun p hp => Option.some.inj hp ▸ hg, fun p hp => Option.some.inj hp ▸ hg⟩
  | standing key zset maxScore n result =>
      have hg : m.zsets.zsetMap.get key = some zset := hset _ rfl
      simp only [get] at h
      split at h
      · rw [← Option.some.inj h]
        exact ⟨fun p hp => absurd hp (by simp [held]), fun p hp => absurd hp (by simp [set])⟩
      · rename_i z hz
        split at h
        · rw [← Option.some.inj h]
          exact ⟨fun p hp => absurd hp (by simp [held]), fun p hp => absurd hp (by simp [set])⟩
        · split at h
          · split at h
            · rw [← Option.some.inj h]
              refine ⟨fun p hp => absurd hp (by simp [held_next]), fun p hp => ?_⟩
              rw [set_next hp]
              exact hg
            · rename_i score hs
              rw [← Option.some.inj h]
              exact ⟨fun p hp => Option.some.inj hp ▸ ⟨hg, z, hz, hs⟩, fun p hp => Option.some.inj hp ▸ hg⟩
          · rw [← Option.some.inj h]
            exact ⟨fun p hp => absurd hp (by simp [held]), fun p hp => absurd hp (by simp [set])⟩
  | _ => exact absurd h (by simp [get])

/-- Going on gives no pointer, and stays on the set. -/
theorem ZrangePc.held_read (h : pc.read m.zsets = some pc') :
    pc'.held = none ∧ ∀ p, pc'.set = some p → pc.set = some p := by
  cases pc with
  | found key zset request =>
      simp only [read] at h
      split at h
      · rw [← Option.some.inj h]
        exact ⟨rfl, fun p hp => absurd hp (by simp [set])⟩
      · split at h
        · rw [← Option.some.inj h]
          exact ⟨rfl, fun p hp => absurd hp (by simp [set])⟩
        · rw [← Option.some.inj h]
          exact ⟨rfl, fun p hp => hp⟩
  | holding key zset maxScore n node score result =>
      simp only [read] at h
      split at h
      · rw [← Option.some.inj h]
        exact ⟨rfl, fun p hp => absurd hp (by simp [set])⟩
      · split at h
        · rw [← Option.some.inj h]
          exact ⟨rfl, fun p hp => absurd hp (by simp [set])⟩
        · rw [← Option.some.inj h]
          exact ⟨held_next, fun p hp => by rw [set_next hp]; rfl⟩
  | _ => exact absurd h (by simp [read])

theorem ZrangePc.faulted_next {z : Zset} {key : String} {zset : Addr} {maxScore : Int32} {n : NodeId}
    {result : List ZaddRequest} : (ReadPc.zrange (next z key zset maxScore n result)).faulted = false := by
  unfold next
  split <;> rfl

/-- Reading a set or a score. -/
theorem ZrangePc.read_faults_iff (h : pc.read m.zsets = some pc') (hp : pc.held = some p) :
    (ReadPc.zrange pc').faulted = true ↔ m.exist p = false := by
  cases pc with
  | found key zset request =>
      obtain rfl : .set key zset = p := Option.some.inj hp
      simp only [read] at h
      split at h
      · rename_i hd
        rw [← Option.some.inj h]
        simp [ReadPc.faulted, Maps.exist, hd]
      · rename_i z hd
        split at h
        · rw [← Option.some.inj h]
          simp [ReadPc.faulted, Maps.exist, hd]
        · rw [← Option.some.inj h]
          simp [ReadPc.faulted, Maps.exist, hd]
  | holding key zset maxScore n node score result =>
      obtain rfl : .score key zset node.value score = p := Option.some.inj hp
      simp only [read] at h
      split at h
      · rename_i hd
        rw [← Option.some.inj h]
        simp [ReadPc.faulted, Maps.exist, hd]
      · rename_i z hd
        split at h
        · rename_i hs
          rw [← Option.some.inj h]
          simp [ReadPc.faulted, Maps.exist, hd, hs]
        · rename_i v hs
          rw [← Option.some.inj h, faulted_next]
          simp [Maps.exist, hd, hs]
  | _ => exact absurd hp (by simp [held])

end Zrange

namespace ReadPc

variable {m : Maps} {pc pc' : ReadPc} {i j : Nat} {p : Pointer}

theorem set_eq (hp : pc.set = some p) : ∃ key a, p = .set key a := by
  cases pc with
  | zrange pc =>
      have hp' : pc.set = some p := hp
      unfold ZrangePc.set at hp'
      split at hp'
      · exact ⟨_, _, (Option.some.inj hp').symm⟩
      · exact ⟨_, _, (Option.some.inj hp').symm⟩
      · exact ⟨_, _, (Option.some.inj hp').symm⟩
      · exact absurd hp' (by simp)
  | _ => exact absurd hp (by simp [set])

/-- A request arrives without pointers. -/
theorem held_start (request : ReadRequest) (i : Nat) :
    request.start.held i = none ∧ request.start.set = none := by
  cases request with
  | query key => exact ⟨by simp [ReadRequest.start, held, QueryPc.held_start], rfl⟩
  | list keys => exact ⟨BatchQueryPc.held_start keys, rfl⟩
  | zrange key request =>
      exact ⟨by simp [ReadRequest.start, held, ZrangePc.held_start], ZrangePc.set_start key request⟩

/-- **A lookup**: fiber `i` holds what the lookup has returned, the others what they held. -/
theorem held_get (h : pc.get m i = some pc') (hset : ∀ p, pc.set = some p → m.Leads p)
    (hp : pc'.held j = some p) : (j ≠ i ∧ pc.held j = some p) ∨ (j = i ∧ m.Leads p) := by
  cases pc with
  | query pc =>
      obtain ⟨rfl, h⟩ := Option.ite_none_right_eq_some.mp h
      obtain ⟨qc, hq, rfl⟩ := Option.map_eq_some_iff.mp h
      obtain ⟨hj, hp⟩ := Option.ite_none_right_eq_some.mp hp
      obtain ⟨key, a, rfl, ha⟩ := QueryPc.held_get hq hp
      exact Or.inr ⟨hj, ha⟩
  | list pc =>
      obtain ⟨bc, hb, rfl⟩ := Option.map_eq_some_iff.mp h
      rcases BatchQueryPc.held_get hb hp with hold | ⟨hj, key, a, rfl, ha⟩
      · exact Or.inl hold
      · exact Or.inr ⟨hj, ha⟩
  | zrange pc =>
      obtain ⟨rfl, h⟩ := Option.ite_none_right_eq_some.mp h
      obtain ⟨zc, hz, rfl⟩ := Option.map_eq_some_iff.mp h
      obtain ⟨hj, hp⟩ := Option.ite_none_right_eq_some.mp hp
      exact Or.inr ⟨hj, (ZrangePc.leads_get hz hset).1 p hp⟩

theorem set_get (h : pc.get m i = some pc') (hset : ∀ p, pc.set = some p → m.Leads p)
    (hp : pc'.set = some p) : m.Leads p := by
  cases pc with
  | query pc =>
      obtain ⟨_, h⟩ := Option.ite_none_right_eq_some.mp h
      obtain ⟨qc, _, rfl⟩ := Option.map_eq_some_iff.mp h
      exact absurd hp (by simp [set])
  | list pc =>
      obtain ⟨bc, _, rfl⟩ := Option.map_eq_some_iff.mp h
      exact absurd hp (by simp [set])
  | zrange pc =>
      obtain ⟨_, h⟩ := Option.ite_none_right_eq_some.mp h
      obtain ⟨zc, hz, rfl⟩ := Option.map_eq_some_iff.mp h
      exact (ZrangePc.leads_get hz hset).2 p hp

/-- **A read** gives no pointer, and a `/zrange` request stays on its set. -/
theorem held_read (h : pc.read m i = some pc') :
    (∀ p, pc'.held j = some p → pc.held j = some p) ∧ (∀ p, pc'.set = some p → pc.set = some p) := by
  cases pc with
  | query pc =>
      obtain ⟨_, h⟩ := Option.ite_none_right_eq_some.mp h
      obtain ⟨qc, hq, rfl⟩ := Option.map_eq_some_iff.mp h
      refine ⟨fun p hp => absurd hp ?_, fun p hp => hp⟩
      simp [held, QueryPc.held_read hq]
  | list pc =>
      obtain ⟨bc, hb, rfl⟩ := Option.map_eq_some_iff.mp h
      exact ⟨fun p hp => BatchQueryPc.held_read hb hp, fun p hp => hp⟩
  | zrange pc =>
      obtain ⟨_, h⟩ := Option.ite_none_right_eq_some.mp h
      obtain ⟨zc, hz, rfl⟩ := Option.map_eq_some_iff.mp h
      obtain ⟨hnone, hsame⟩ := ZrangePc.held_read hz
      refine ⟨fun p hp => absurd hp ?_, hsame⟩
      simp [held, hnone]

/-- **What a read does**: it goes wrong exactly when the element does not exist. -/
theorem read_faults_iff (h : pc.read m i = some pc') (hp : pc.held i = some p) :
    pc'.faulted = true ↔ m.exist p = false := by
  cases pc with
  | query pc =>
      obtain ⟨_, h⟩ := Option.ite_none_right_eq_some.mp h
      obtain ⟨qc, hq, rfl⟩ := Option.map_eq_some_iff.mp h
      exact QueryPc.read_faults_iff hq (Option.ite_none_right_eq_some.mp hp).2
  | list pc =>
      obtain ⟨bc, hb, rfl⟩ := Option.map_eq_some_iff.mp h
      exact BatchQueryPc.read_faults_iff hb hp
  | zrange pc =>
      obtain ⟨_, h⟩ := Option.ite_none_right_eq_some.mp h
      obtain ⟨zc, hz, rfl⟩ := Option.map_eq_some_iff.mp h
      exact ZrangePc.read_faults_iff hz (Option.ite_none_right_eq_some.mp hp).2

end ReadPc

end ZhiCache
