import ZhiCache.Fiber.SharedProgress
import ZhiCache.Storage.HashKvRuns

/-!
# `Storage.LockedKv` — the calls of the partitioned map, access by access

`HashKv` is modelled with calls that are single steps. Here a call is what the code does: it takes the
`SharedMutex` of the key's partition, shared for `Get` and exclusively for the others, looks the key up,
enters what it has to enter into the table it has looked at, and unlocks. Each partition has a lock of its
own, and every access of every lock is a step (`SharedSys`); between two of them the other fibers may do
anything. A call that looked at a table while another one changed it would lose that change.

* **Linearizability** (`locked_calls_linearizable`): the memory and all results are those of single-step
  calls, one after the other, in an order in which each fiber's calls keep their order and a call that has
  returned stands before one that is made later.
* **Termination** (`locked_calls_return`): the calls that are under way make a bounded number of accesses, in
  whatever order they take turns, and where none of them can go on, all have returned.
-/

namespace ZhiCache

open Lib

/-! ## Calls that are not atomic -/

/-- The memory of the map: the tables of the partitions and the elements. -/
structure KvMem (V : Type) where
  mapVec : Nat → Table
  cells : Addr → Option V
  fresh : Addr

/-- Where a fiber stands in its call. -/
inductive KvPc (V : Type) where
  | idle
  /-- In `lock` or `lock_shared`. -/
  | locking (c : HashKv.Call V)
  /-- With the lock, before the table is looked at. -/
  | locked (c : HashKv.Call V)
  /-- Has looked at the table. -/
  | looked (c : HashKv.Call V) (table : Table)
  /-- Before the lock is given back. -/
  | done (c : HashKv.Call V) (result : HashKv.Reply Addr)
  /-- In `unlock` or `unlock_shared`. -/
  | unlocking (c : HashKv.Call V) (result : HashKv.Reply Addr)

/-- The map with its locks and the fibers that call it. `log` lists the calls in the order in which they took
    effect, with what they return. -/
structure LockedKv (ι V : Type) where
  hash : String → Nat
  partitionNum : Nat
  locks : Nat → SharedSys ι
  mem : KvMem V
  pc : ι → KvPc V
  log : List (ι × HashKv.Call V × HashKv.Reply Addr)

/-- What can happen. -/
inductive KvEvent (ι V : Type) where
  | call (i : ι) (c : HashKv.Call V)
  /-- The next access of a call that is under way, or its return. -/
  | run (i : ι)

namespace KvMem

variable {V : Type}

/-- A new element, entered into the table. -/
def link (mem : KvMem V) (index : Nat) (table : Table) (key : String) (value : V) : KvMem V :=
  ⟨Function.update mem.mapVec index (table.insert key mem.fresh),
    Function.update mem.cells mem.fresh (some value), mem.fresh + 1⟩

/-- The rest of a call that has looked at `table`, the table of the partition `index`. -/
def finish (mem : KvMem V) (index : Nat) (table : Table) : HashKv.Call V → HashKv.Reply Addr × KvMem V
  | .get key => (.pointer (table.lookup key), mem)
  | .getOrCreate key value =>
    match table.lookup key with
    | some a => (.pointer (some a), mem)
    | none => (.pointer (some mem.fresh), mem.link index table key value)
  | .add key value =>
    match table.lookup key with
    | some a => (.flag true, { mem with cells := Function.update mem.cells a (some value) })
    | none => (.flag true, mem.link index table key value)
  | .del key =>
    (.flag true, { mem with
      mapVec := Function.update mem.mapVec index (table.erase key),
      cells := fun b => if table.lookup key = some b then none else mem.cells b })

end KvMem

/-- `Get` takes the lock with `shared_lock`, the other calls with `unique_lock`. -/
def HashKv.Call.shared {V : Type} : HashKv.Call V → Bool
  | .get _ => true
  | _ => false

namespace LockedKv

variable {ι V : Type} [DecidableEq ι]

/-- After `Init`. -/
def init (ι : Type) {V : Type} (hash : String → Nat) (partitionNum : Nat) : LockedKv ι V :=
  ⟨hash, partitionNum, fun _ => SharedSys.init, ⟨fun _ => ∅, fun _ => none, 0⟩, fun _ => .idle, []⟩

/-- `Hash`: the partition of the call's key. -/
def index (s : LockedKv ι V) (c : HashKv.Call V) : Nat := s.hash c.key % s.partitionNum

/-- The fiber goes on. -/
def goto (s : LockedKv ι V) (i : ι) (pc : KvPc V) : LockedKv ι V := { s with pc := Function.update s.pc i pc }

/-- The lock of the call's partition makes a step. -/
def lockStep (s : LockedKv ι V) (c : HashKv.Call V) (e : SharedEvent ι) : Option (LockedKv ι V) :=
  ((s.locks (s.index c)).step e).map fun l => { s with locks := Function.update s.locks (s.index c) l }

/-- The next access of the fiber; none when it has to wait, or is not in a call. -/
def run (s : LockedKv ι V) (i : ι) : Option (LockedKv ι V) :=
  match s.pc i with
  | .idle => none
  | .locking c =>
    if (s.locks (s.index c)).pc i = SharedSys.acquired c.shared then some (s.goto i (.locked c))
    else s.lockStep c (.run i)
  | .locked c => some (s.goto i (.looked c (s.mem.mapVec (s.index c))))
  | .looked c table =>
    let (result, mem) := s.mem.finish (s.index c) table c
    some { s.goto i (.done c result) with mem := mem, log := s.log ++ [(i, c, result)] }
  | .done c result =>
    (s.lockStep c (if c.shared then .unlockShared i else .unlock i)).map fun s => s.goto i (.unlocking c result)
  | .unlocking c _ =>
    if (s.locks (s.index c)).pc i = .idle then some (s.goto i .idle) else s.lockStep c (.run i)

/-- The system after an event; none when the event is not possible. -/
def step (s : LockedKv ι V) : KvEvent ι V → Option (LockedKv ι V)
  | .call i c =>
    match s.pc i with
    | .idle => (s.lockStep c (if c.shared then .lockShared i else .lock i)).map fun s => s.goto i (.locking c)
    | _ => none
  | .run i => s.run i

/-- The lock of a partition is replaced. -/
def setLock (s : LockedKv ι V) (p : Nat) (l : SharedSys ι) : LockedKv ι V :=
  { s with locks := Function.update s.locks p l }

/-- How a call takes its lock, and how it gives it back. -/
def lockEvent (c : HashKv.Call V) (i : ι) : SharedEvent ι := if c.shared then .lockShared i else .lock i

def unlockEvent (c : HashKv.Call V) (i : ι) : SharedEvent ι := if c.shared then .unlockShared i else .unlock i

end LockedKv

/-- The possible accesses and their effects, as a relation. -/
inductive LockedKv.Effect {ι V : Type} [DecidableEq ι] (s : LockedKv ι V) (i : ι) : LockedKv ι V → Prop where
  | call {c l} : s.pc i = .idle → (s.locks (s.index c)).step (lockEvent c i) = some l →
      Effect s i ((s.setLock (s.index c) l).goto i (.locking c))
  | enter {c l} : s.pc i = .locking c → (s.locks (s.index c)).run i = some l →
      Effect s i ((s.setLock (s.index c) l).goto i (.locking c))
  | locked {c} : s.pc i = .locking c → (s.locks (s.index c)).pc i = SharedSys.acquired c.shared →
      Effect s i (s.goto i (.locked c))
  | look {c} : s.pc i = .locked c → Effect s i (s.goto i (.looked c (s.mem.mapVec (s.index c))))
  | finish {c table} : s.pc i = .looked c table →
      Effect s i { s.goto i (.done c (s.mem.finish (s.index c) table c).1) with
        mem := (s.mem.finish (s.index c) table c).2,
        log := s.log ++ [(i, c, (s.mem.finish (s.index c) table c).1)] }
  | unlock {c result l} : s.pc i = .done c result → (s.locks (s.index c)).step (unlockEvent c i) = some l →
      Effect s i ((s.setLock (s.index c) l).goto i (.unlocking c result))
  | leave {c result l} : s.pc i = .unlocking c result → (s.locks (s.index c)).run i = some l →
      Effect s i ((s.setLock (s.index c) l).goto i (.unlocking c result))
  | ret {c result} : s.pc i = .unlocking c result → (s.locks (s.index c)).pc i = .idle →
      Effect s i (s.goto i .idle)

namespace LockedKv

section Cases

variable {ι V : Type} [DecidableEq ι] {s s' : LockedKv ι V} {i : ι}

theorem lockStep_eq_some {c : HashKv.Call V} {e : SharedEvent ι} (h : s.lockStep c e = some s') :
    ∃ l, (s.locks (s.index c)).step e = some l ∧ s' = s.setLock (s.index c) l := by
  obtain ⟨l, hl, rfl⟩ := Option.map_eq_some_iff.mp h
  exact ⟨l, hl, rfl⟩

/-- An access of the lock in the middle of `lock` or `unlock`. -/
theorem setLock_eq_goto {p : Nat} {l : SharedSys ι} {pc : KvPc V} (hpc : s.pc i = pc) :
    s.setLock p l = (s.setLock p l).goto i pc := by
  have hsame : Function.update s.pc i pc = s.pc := by rw [← hpc, Function.update_eq_self]
  show _ = { s.setLock p l with pc := Function.update s.pc i pc }
  rw [hsame]
  rfl

/-- **Inversion of an access.** -/
theorem run_cases (h : s.run i = some s') : s.Effect i s' := by
  unfold run at h
  cases hpc : s.pc i with
  | idle =>
      rw [hpc] at h
      cases h
  | locking c =>
      simp only [hpc] at h
      split at h
      · rename_i hacquired
        obtain rfl := Option.some.inj h
        exact .locked hpc hacquired
      · obtain ⟨l, hl, rfl⟩ := lockStep_eq_some h
        rw [setLock_eq_goto hpc]
        exact .enter hpc hl
  | locked c =>
      rw [hpc] at h
      obtain rfl := Option.some.inj h
      exact .look hpc
  | looked c table =>
      rw [hpc] at h
      obtain rfl := Option.some.inj h
      exact .finish hpc
  | done c result =>
      rw [hpc] at h
      obtain ⟨s₁, hs₁, rfl⟩ := Option.map_eq_some_iff.mp h
      obtain ⟨l, hl, rfl⟩ := lockStep_eq_some hs₁
      exact .unlock hpc hl
  | unlocking c result =>
      simp only [hpc] at h
      split at h
      · rename_i hidle
        obtain rfl := Option.some.inj h
        exact .ret hpc hidle
      · obtain ⟨l, hl, rfl⟩ := lockStep_eq_some h
        rw [setLock_eq_goto hpc]
        exact .leave hpc hl

/-- The fiber of an event. -/
def fiber : KvEvent ι V → ι
  | .call i _ | .run i => i

theorem call_cases {c : HashKv.Call V} (h : s.step (.call i c) = some s') : s.pc i = .idle
    ∧ ∃ l, (s.locks (s.index c)).step (lockEvent c i) = some l
      ∧ s' = (s.setLock (s.index c) l).goto i (.locking c) := by
  cases hpc : s.pc i with
  | idle =>
      simp only [step, hpc] at h
      obtain ⟨s₁, hs₁, rfl⟩ := Option.map_eq_some_iff.mp h
      obtain ⟨l, hl, rfl⟩ := lockStep_eq_some hs₁
      exact ⟨rfl, l, hl, rfl⟩
  | _ => simp [step, hpc] at h

theorem step_cases {e : KvEvent ι V} (h : s.step e = some s') : s.Effect (fiber e) s' := by
  cases e with
  | call i c =>
      obtain ⟨hpc, l, hl, rfl⟩ := call_cases h
      exact .call hpc hl
  | run i => exact run_cases h

theorem goto_pc_self (s : LockedKv ι V) (i : ι) (pc : KvPc V) : (s.goto i pc).pc i = pc :=
  Function.update_self (β := fun _ => KvPc V) i pc s.pc

theorem goto_pc_of_ne (s : LockedKv ι V) {i j : ι} (h : j ≠ i) (pc : KvPc V) : (s.goto i pc).pc j = s.pc j :=
  Function.update_of_ne (β := fun _ => KvPc V) h pc s.pc

omit [DecidableEq ι] in
theorem setLock_self (s : LockedKv ι V) (p : Nat) (l : SharedSys ι) : (s.setLock p l).locks p = l :=
  Function.update_self (β := fun _ => SharedSys ι) p l s.locks

omit [DecidableEq ι] in
theorem setLock_of_ne (s : LockedKv ι V) {p q : Nat} (h : q ≠ p) (l : SharedSys ι) :
    (s.setLock p l).locks q = s.locks q :=
  Function.update_of_ne (β := fun _ => SharedSys ι) h l s.locks

end Cases

end LockedKv

/-- The memory of the map with single-step calls. -/
def HashKv.mem {V : Type} (m : HashKv V) : KvMem V := ⟨m.mapVec, m.cells, m.fresh⟩

/-- **The two accesses of a call are one step** when the table has not changed in between. -/
theorem HashKv.finish_eq {V : Type} (m : HashKv V) (c : HashKv.Call V) :
    m.mem.finish (m.index c.key) (m.mapVec (m.index c.key)) c = ((m.call c).1, (m.call c).2.mem) := by
  cases c with
  | get key => rfl
  | getOrCreate key value =>
      cases hg : m.get key with
      | some a =>
          have hlookup : (m.mapVec (m.index key)).lookup key = some a := hg
          simp only [KvMem.finish, call, Call.key, hlookup, getOrCreate_of_some hg]
      | none =>
          have hlookup : (m.mapVec (m.index key)).lookup key = none := hg
          simp only [KvMem.finish, call, Call.key, hlookup, getOrCreate_of_none hg]
          rfl
  | add key value =>
      cases hg : m.get key with
      | some a =>
          have hlookup : (m.mapVec (m.index key)).lookup key = some a := hg
          simp only [KvMem.finish, call, Call.key, hlookup, add_of_some hg]
          rfl
      | none =>
          have hlookup : (m.mapVec (m.index key)).lookup key = none := hg
          simp only [KvMem.finish, call, Call.key, hlookup, add_of_none hg]
          rfl
  | del key => rfl

/-- What the calls of a sequence return. -/
def HashKv.replies {V : Type} (m : HashKv V) : List (HashKv.Call V) → List (HashKv.Reply Addr)
  | [] => []
  | c :: cs => (m.call c).1 :: (m.call c).2.replies cs

theorem HashKv.replies_concat {V : Type} (m : HashKv V) (cs : List (HashKv.Call V)) (c : HashKv.Call V) :
    m.replies (cs ++ [c]) = m.replies cs ++ [((m.calls cs).call c).1] := by
  induction cs generalizing m with
  | nil => rfl
  | cons c' cs ih =>
      show _ :: (m.call c').2.replies (cs ++ [c]) = _
      rw [ih]
      rfl

theorem HashKv.calls_concat {V : Type} (m : HashKv V) (cs : List (HashKv.Call V)) (c : HashKv.Call V) :
    m.calls (cs ++ [c]) = ((m.calls cs).call c).2 := List.foldl_concat ..

/-! ## The invariant -/

namespace KvMem

variable {V : Type} {mem : KvMem V} {p : Nat} {table : Table} {c : HashKv.Call V}

/-- A call enters what it has to enter into the table of its partition. -/
theorem finish_mapVec_of_ne {q : Nat} (hq : q ≠ p) : (mem.finish p table c).2.mapVec q = mem.mapVec q := by
  cases c with
  | get key => rfl
  | getOrCreate key value =>
      cases hlookup : table.lookup key with
      | some a => simp [finish, hlookup]
      | none => simp [finish, hlookup, link, Function.update_of_ne hq]
  | add key value =>
      cases hlookup : table.lookup key with
      | some a => simp [finish, hlookup]
      | none => simp [finish, hlookup, link, Function.update_of_ne hq]
  | del key => exact Function.update_of_ne hq ..

theorem finish_of_shared (hc : c.shared = true) : (mem.finish p table c).2 = mem := by
  cases c with
  | get key => rfl
  | getOrCreate | add | del => cases hc

end KvMem

namespace KvPc

variable {ι V : Type}

/-- The call that the fiber is in. -/
def call : KvPc V → Option (HashKv.Call V)
  | .idle => none
  | .locking c | .locked c | .looked c _ | .done c _ | .unlocking c _ => some c

/-- The call has been made and has not taken effect. -/
def pending : KvPc V → List (HashKv.Call V)
  | .locking c | .locked c | .looked c _ => [c]
  | _ => []

/-- Where a fiber in a call stands in the lock of the call's partition. -/
def Here : KvPc V → SharedPc ι → Prop
  | .idle, l => l = .idle
  | .locking c, l => SharedSys.Entering c.shared l ∨ l = SharedSys.acquired c.shared
  | .locked c, l | .looked c _, l | .done c _, l => l = SharedSys.acquired c.shared
  | .unlocking _ _, l => SharedSys.Leaving l ∨ l = .idle

/-- Another fiber may make a halted one ready. -/
theorem Here.resume {pc : KvPc V} {what : Waits} (h : pc.Here (.halted what : SharedPc ι)) :
    pc.Here (.resumed what : SharedPc ι) := by
  cases pc with
  | idle => cases h
  | locking c =>
      rcases h with hentering | hacquired
      · exact Or.inl hentering
      · exact absurd hacquired.symm ((SharedSys.acquired_not_way c.shared true).2.2.2 what)
  | locked c | looked c table | done c result =>
      exact absurd h.symm ((SharedSys.acquired_not_way c.shared true).2.2.2 what)
  | unlocking c result =>
      rcases h with hleaving | hidle
      · exact hleaving.elim
      · cases hidle

end KvPc

namespace LockedKv

section Log

variable {ι V : Type}

/-- The calls that have taken effect, in the order in which they did. -/
def order (s : LockedKv ι V) : List (HashKv.Call V) := s.log.map (fun entry => entry.2.1)

/-- What they return. -/
def results (s : LockedKv ι V) : List (HashKv.Reply Addr) := s.log.map (fun entry => entry.2.2)

/-- The map with single-step calls, after these calls. -/
def replayed (s : LockedKv ι V) : HashKv V := (HashKv.init s.hash s.partitionNum).calls s.order

/-- The memory and the results are those of single-step calls. -/
def Atomic (s : LockedKv ι V) : Prop :=
  s.mem = s.replayed.mem ∧ s.results = (HashKv.init s.hash s.partitionNum).replies s.order

end Log

/-- **The invariant.** -/
structure Inv {ι V : Type} [Fintype ι] (s : LockedKv ι V) : Prop where
  locks : ∀ p, (s.locks p).Inv
  here : ∀ i c, (s.pc i).call = some c → (s.pc i).Here ((s.locks (s.index c)).pc i)
  away : ∀ i p, (∀ c, (s.pc i).call = some c → s.index c ≠ p) → (s.locks p).pc i = .idle
  /-- The lock keeps the table as it was looked at. -/
  table : ∀ i c table, s.pc i = .looked c table → table = s.mem.mapVec (s.index c)
  atomic : s.Atomic

section Keep

variable {ι V : Type} [Fintype ι] [DecidableEq ι] {s s' : LockedKv ι V} {i : ι} {c : HashKv.Call V}
  {pc : KvPc V}

omit [DecidableEq ι] in
theorem inv_init (hash : String → Nat) (n : Nat) : (init ι hash n : LockedKv ι V).Inv where
  locks _ := SharedSys.inv_init
  here i c hc := by cases hc
  away _ _ _ := rfl
  table i c table hpc := by cases hpc
  atomic := ⟨rfl, rfl⟩

/-- A step of the fiber `i`: the others stay where they are, up to those that it makes ready. -/
theorem Inv.moves (h : s.Inv) (hpc : s'.pc = Function.update s.pc i pc) (hindex : ∀ c, s'.index c = s.index c)
    (hlocks : ∀ p, (s'.locks p).Inv)
    (hothers : ∀ p k, k ≠ i → (s'.locks p).pc k = (s.locks p).pc k
      ∨ ∃ what, (s.locks p).pc k = .halted what ∧ (s'.locks p).pc k = .resumed what)
    (hhere : ∀ c, pc.call = some c → pc.Here ((s'.locks (s.index c)).pc i))
    (haway : ∀ p, (∀ c, pc.call = some c → s.index c ≠ p) → (s'.locks p).pc i = .idle)
    (htable : ∀ k c table, s'.pc k = .looked c table → table = s'.mem.mapVec (s.index c))
    (hatomic : s'.Atomic) : s'.Inv := by
  have hi : s'.pc i = pc := by rw [hpc, Function.update_self]
  have hk : ∀ k, k ≠ i → s'.pc k = s.pc k := fun k hk => by rw [hpc, Function.update_of_ne hk]
  refine ⟨hlocks, fun k c hc => ?_, fun k p hp => ?_, fun k c table => ?_, hatomic⟩
  · rw [hindex]
    by_cases hki : k = i
    · subst hki
      rw [hi] at hc ⊢
      exact hhere c hc
    · rw [hk k hki] at hc ⊢
      have hold := h.here k c hc
      rcases hothers (s.index c) k hki with hsame | ⟨what, hhalted, hresumed⟩
      · rwa [hsame]
      · rw [hhalted] at hold
        rw [hresumed]
        exact hold.resume
  · simp only [hindex] at hp
    by_cases hki : k = i
    · subst hki
      rw [hi] at hp
      exact haway p hp
    · rw [hk k hki] at hp
      have hold := h.away k p hp
      rcases hothers p k hki with hsame | ⟨what, hhalted, -⟩
      · rwa [hsame]
      · rw [hhalted] at hold
        cases hold
  · rw [hindex]
    exact htable k c table

omit [Fintype ι] in
/-- Who has looked at a table, after the step of a fiber. -/
theorem looked_of_update {k : ι} {table : Table} (hpc : s'.pc = Function.update s.pc i pc)
    (hnot : ∀ c table, pc ≠ .looked c table) (hk : s'.pc k = .looked c table) :
    s.pc k = .looked c table ∧ k ≠ i := by
  rw [hpc] at hk
  by_cases hki : k = i
  · rw [hki, Function.update_self] at hk
    exact absurd hk (hnot c table)
  · rw [Function.update_of_ne hki] at hk
    exact ⟨hk, hki⟩

/-- A step of the lock of `c` by a fiber that begins the call, or is in it. -/
theorem Inv.lockMoves (h : s.Inv) (hcard : Fintype.card ι < kMaxReaders) {e : SharedEvent ι} {l : SharedSys ι}
    (hl : (s.locks (s.index c)).step e = some l) (he : e.fiber = i)
    (hbefore : ∀ c', (s.pc i).call = some c' → c' = c)
    (hcall : pc.call = some c) (hhere : l.Inv → pc.Here (l.pc i)) (hnot : ∀ c table, pc ≠ .looked c table) :
    ((s.setLock (s.index c) l).goto i pc).Inv := by
  subst he
  have hinv : l.Inv := (h.locks _).of_step hcard hl
  -- the lock of the call, or another one
  have hcases : ∀ {P : Nat → SharedSys ι → Prop}, P (s.index c) l → (∀ p, p ≠ s.index c → P p (s.locks p)) →
      ∀ p, P p (((s.setLock (s.index c) l).goto e.fiber pc).locks p) := by
    intro P hself hother p
    show P p ((s.setLock (s.index c) l).locks p)
    by_cases hp : p = s.index c
    · subst hp
      rwa [setLock_self]
    · rw [setLock_of_ne s hp]
      exact hother p hp
  refine h.moves rfl (fun _ => rfl) ?_ ?_ ?_ ?_ (fun k c' table hk => ?_) h.atomic
  · exact hcases (P := fun _ l => l.Inv) hinv (fun p _ => h.locks p)
  · refine hcases (P := fun p l => ∀ k, k ≠ e.fiber → l.pc k = (s.locks p).pc k
      ∨ ∃ what, (s.locks p).pc k = .halted what ∧ l.pc k = .resumed what) ?_ (fun p _ k _ => Or.inl rfl)
    exact fun k hk => (h.locks _).others hcard hl hk
  · intro c' hc'
    obtain rfl := Option.some.inj (hcall.symm.trans hc')
    show pc.Here (((s.setLock (s.index c) l).locks (s.index c)).pc e.fiber)
    rw [setLock_self]
    exact hhere hinv
  · refine hcases (P := fun p l => (∀ c, pc.call = some c → s.index c ≠ p) → l.pc e.fiber = .idle) ?_ ?_
    · exact fun hp => absurd rfl (hp c hcall)
    · intro p hp _
      refine h.away _ p (fun c' hc' => ?_)
      rw [hbefore c' hc']
      exact hp.symm
  · exact h.table k c' table (looked_of_update rfl hnot hk).1

/-- A fiber in a call goes on without an access of the lock, and without a change of the memory. -/
theorem Inv.goes (h : s.Inv) (hbefore : (s.pc i).call = some c) (hcall : pc.call = some c)
    (hhere : pc.Here ((s.locks (s.index c)).pc i))
    (hlooked : ∀ c table, pc = .looked c table → table = s.mem.mapVec (s.index c)) : (s.goto i pc).Inv := by
  refine h.moves rfl (fun _ => rfl) h.locks (fun _ _ _ => Or.inl rfl) ?_ ?_ (fun k c' table hk => ?_) h.atomic
  · intro c' hc'
    obtain rfl := Option.some.inj (hcall.symm.trans hc')
    exact hhere
  · rw [hcall, ← hbefore]
    exact h.away i
  · by_cases hki : k = i
    · rw [hki, goto_pc_self] at hk
      exact hlooked c' table hk
    · rw [goto_pc_of_ne s hki] at hk
      exact h.table k c' table hk

/-- A call returns. -/
theorem Inv.returns (h : s.Inv) (hbefore : (s.pc i).call = some c)
    (hidle : (s.locks (s.index c)).pc i = .idle) :
    (s.goto i .idle).Inv := by
  refine h.moves rfl (fun _ => rfl) h.locks (fun _ _ _ => Or.inl rfl) ?_ ?_ (fun k c' table hk => ?_) h.atomic
  · intro c' hc'
    cases hc'
  · intro p _
    by_cases hp : s.index c = p
    · exact hp ▸ hidle
    · refine h.away i p (fun c' hc' => ?_)
      obtain rfl := Option.some.inj (hbefore.symm.trans hc')
      exact hp
  · exact h.table k c' table (looked_of_update rfl (by simp) hk).1

omit [DecidableEq ι] [Fintype ι] in
theorem index_replayed (s : LockedKv ι V) (c : HashKv.Call V) : s.replayed.index c.key = s.index c := by
  obtain ⟨hhash, hnum⟩ := HashKv.calls_shape (m := HashKv.init s.hash s.partitionNum) s.order
  unfold HashKv.index index
  rw [show s.replayed.hash = _ from hhash, show s.replayed.partitionNum = _ from hnum]
  rfl

omit [DecidableEq ι] in
/-- A call that has looked at the table, and finds it unchanged, takes effect at once. -/
theorem Inv.finish_eq (h : s.Inv) {table : Table} (hpc : s.pc i = .looked c table) :
    s.mem.finish (s.index c) table c = ((s.replayed.call c).1, (s.replayed.call c).2.mem) := by
  rw [h.table i c table hpc, h.atomic.1, ← index_replayed]
  exact s.replayed.finish_eq c

/-- **A call takes effect.** -/
theorem Inv.finishes (h : s.Inv) {table : Table} (hpc : s.pc i = .looked c table) :
    ({ s.goto i (.done c (s.mem.finish (s.index c) table c).1) with
        mem := (s.mem.finish (s.index c) table c).2,
        log := s.log ++ [(i, c, (s.mem.finish (s.index c) table c).1)] } : LockedKv ι V).Inv := by
  have hfinish := h.finish_eq hpc
  have hhere := h.here i c (by rw [hpc]; rfl)
  rw [hpc] at hhere
  refine h.moves rfl (fun _ => rfl) h.locks (fun _ _ _ => Or.inl rfl) ?_ ?_ (fun k c' table' hk => ?_) ?_
  · intro c' hc'
    obtain rfl := Option.some.inj hc'
    exact hhere
  · intro p hp
    refine h.away i p (fun c' hc' => ?_)
    rw [hpc] at hc'
    exact hp c' hc'
  · -- whoever else has looked at this table has only read it, or has waited for the lock
    have hnot : ∀ c' table', (.done c (s.mem.finish (s.index c) table c).1 : KvPc V) ≠ .looked c' table' := by
      simp
    obtain ⟨hlooked, hki⟩ := looked_of_update rfl hnot hk
    have htable := h.table k c' table' hlooked
    show table' = (s.mem.finish (s.index c) table c).2.mapVec (s.index c')
    cases hshared : c.shared with
    | true => rwa [KvMem.finish_of_shared hshared]
    | false =>
        rw [KvMem.finish_mapVec_of_ne ?_, htable]
        intro hsame
        have hother := h.here k c' (by rw [hlooked]; rfl)
        rw [hlooked, hsame] at hother
        have hwriting : (s.locks (s.index c)).pc i = .writing := by
          have hacquired : _ = SharedSys.acquired c.shared := hhere
          rwa [hshared] at hacquired
        exact hki ((h.locks _).only_writer hwriting hother)
  · rw [hfinish]
    have horder : (s.log ++ [(i, c, (s.replayed.call c).1)]).map (fun entry => entry.2.1) = s.order ++ [c] :=
      List.map_append
    have hresults : (s.log ++ [(i, c, (s.replayed.call c).1)]).map (fun entry => entry.2.2)
        = s.results ++ [(s.replayed.call c).1] := List.map_append
    simp only [Atomic, replayed, order, results] at horder hresults ⊢
    rw [horder, hresults, HashKv.calls_concat, HashKv.replies_concat]
    exact ⟨rfl, congrArg (· ++ _) h.atomic.2⟩

/-- **Every step keeps the invariant.** -/
theorem Inv.effect (h : s.Inv) (hcard : Fintype.card ι < kMaxReaders) (he : s.Effect i s') : s'.Inv := by
  cases he with
  | @call c l hpc hl =>
      refine h.lockMoves hcard hl ?_ (by simp [hpc, KvPc.call]) rfl (fun hinv => ?_) (by simp)
      · unfold lockEvent
        split <;> rfl
      · show SharedSys.Entering c.shared (l.pc i) ∨ _
        cases hshared : c.shared with
        | true => exact SharedSys.lockShared_way (by simpa [lockEvent, hshared] using hl) hinv
        | false => exact Or.inl (SharedSys.lock_way (by simpa [lockEvent, hshared] using hl))
  | @enter c l hpc hl =>
      refine h.lockMoves (e := .run i) hcard hl rfl (by simp [hpc, KvPc.call]) rfl (fun hinv => ?_) (by simp)
      have hhere := h.here i c (by rw [hpc]; rfl)
      rw [hpc] at hhere
      rcases hhere with hentering | hacquired
      · exact SharedSys.entering_run hl hinv hentering
      · exact absurd hl (by rw [SharedSys.run_of_acquired hacquired]; simp)
  | @locked c hpc hacquired => exact h.goes (by rw [hpc]; rfl) rfl hacquired (by simp)
  | @look c hpc =>
      have hhere := h.here i c (by rw [hpc]; rfl)
      rw [hpc] at hhere
      refine h.goes (c := c) (by rw [hpc]; rfl) rfl hhere (fun c' table hlooked => ?_)
      cases hlooked
      rfl
  | finish hpc => exact h.finishes hpc
  | @unlock c result l hpc hl =>
      refine h.lockMoves hcard hl ?_ (by simp [hpc, KvPc.call]) rfl (fun hinv => ?_) (by simp)
      · unfold unlockEvent
        split <;> rfl
      · show SharedSys.Leaving (l.pc i) ∨ _
        cases hshared : c.shared with
        | true => exact SharedSys.unlockShared_way (by simpa [unlockEvent, hshared] using hl) hinv
        | false => exact Or.inl (SharedSys.unlock_way (by simpa [unlockEvent, hshared] using hl))
  | @leave c result l hpc hl =>
      refine h.lockMoves (e := .run i) hcard hl rfl (by simp [hpc, KvPc.call]) rfl (fun hinv => ?_) (by simp)
      have hhere := h.here i c (by rw [hpc]; rfl)
      rw [hpc] at hhere
      rcases hhere with hleaving | hidle
      · exact SharedSys.leaving_run hl hinv hleaving
      · exact absurd hl (by simp [SharedSys.run, hidle])
  | @ret c result hpc hidle => exact h.returns (by rw [hpc]; rfl) hidle

theorem run_inv (hcard : Fintype.card ι < kMaxReaders) {hash : String → Nat} {n : Nat} {es : List (KvEvent ι V)}
    (h : Run step always (init ι hash n) es s) : s.Inv :=
  h.invariant (inv_init hash n) (fun _ _ _ hinv _ hstep => hinv.effect hcard (step_cases hstep))

end Keep

/-! ## Linearizability -/

section History

variable {ι V : Type} [DecidableEq ι] {s s' : LockedKv ι V} {i k : ι}

/-- The call that the fiber `k` makes. -/
def callOf (k : ι) : KvEvent ι V → Option (HashKv.Call V)
  | .call i c => if i = k then some c else none
  | .run _ => none

/-- What the log has of the fiber `k`. -/
def logOf (s : LockedKv ι V) (k : ι) : List (ι × HashKv.Call V × HashKv.Reply Addr) :=
  s.log.filter (fun entry => entry.1 = k)

/-- The calls of the fiber `k`, those that have taken effect and the one that has not. -/
def made (s : LockedKv ι V) (k : ι) : List (HashKv.Call V) :=
  (s.logOf k).map (fun entry => entry.2.1) ++ (s.pc k).pending

/-- The accesses of a fiber leave the others where they are. -/
theorem Effect.others (h : s.Effect i s') (hk : k ≠ i) : s'.pc k = s.pc k ∧ s'.logOf k = s.logOf k := by
  cases h with
  | finish hpc =>
      refine ⟨goto_pc_of_ne s hk _, ?_⟩
      simp [logOf, Ne.symm hk]
  | _ => exact ⟨goto_pc_of_ne _ hk _, rfl⟩

theorem made_goto (pc : KvPc V) :
    (s.goto i pc).made i = (s.logOf i).map (fun entry => entry.2.1) ++ pc.pending := by
  unfold made
  rw [goto_pc_self]
  rfl

/-- **No call gets lost or is made twice**: an access leaves the calls of each fiber as they are, a call adds
    itself. -/
theorem made_step {e : KvEvent ι V} (h : s.step e = some s') (k : ι) :
    s'.made k = s.made k ++ (callOf k e).toList := by
  by_cases hk : k = fiber e
  · subst hk
    cases e with
    | call i c =>
        obtain ⟨hpc, l, hl, rfl⟩ := call_cases h
        show _ = s.made i ++ _
        rw [fiber, made_goto, made, hpc]
        simp [callOf, KvPc.pending, logOf, setLock]
    | run i =>
        show s'.made i = s.made i ++ []
        rw [List.append_nil]
        cases run_cases h with
        | call hpc hl => simp [step, run, hpc] at h
        | @finish c table hpc =>
            unfold made
            rw [hpc,
              show ({ s.goto i _ with mem := _, log := _ } : LockedKv ι V).pc i = _ from goto_pc_self s i _]
            simp [KvPc.pending, logOf]
        | locked hpc hacquired =>
            rw [made_goto, made, hpc]
            rfl
        | look hpc =>
            rw [made_goto, made, hpc]
            rfl
        | enter hpc hl =>
            rw [made_goto, made, hpc]
            rfl
        | unlock hpc hl =>
            rw [made_goto, made, hpc]
            rfl
        | leave hpc hl =>
            rw [made_goto, made, hpc]
            rfl
        | ret hpc hidle =>
            rw [made_goto, made, hpc]
            rfl
  · obtain ⟨hpc, hlog⟩ := (step_cases h).others hk
    have hnone : callOf k e = none := by
      cases e with
      | call i c => exact if_neg (Ne.symm hk)
      | run i => rfl
    rw [made, made, hpc, hlog, hnone, Option.toList_none, List.append_nil]

theorem made_run {hash : String → Nat} {n : Nat} {es : List (KvEvent ι V)}
    (h : Run step always (init ι hash n) es s) (k : ι) : es.filterMap (callOf k) = s.made k := by
  induction h with
  | nil => rfl
  | @snoc es s₁ e s₂ _ _ hstep ih =>
      rw [made_step hstep, List.filterMap_append, ih]
      cases hcall : callOf k e <;> simp [hcall]

/-- The log only grows. -/
theorem Effect.log_grows (h : s.Effect i s') : s.log <+: s'.log := by
  cases h with
  | finish hpc => exact List.prefix_append ..
  | _ => exact List.prefix_rfl

theorem log_run {es : List (KvEvent ι V)} (h : Run step always s es s') : s.log <+: s'.log := by
  induction h with
  | nil => exact List.prefix_rfl
  | snoc _ _ hstep ih => exact ih.trans (step_cases hstep).log_grows

/-- The call is on its way back with its result. -/
def Returning (s : LockedKv ι V) (k : ι) (c : HashKv.Call V) (result : HashKv.Reply Addr) : Prop :=
  s.pc k = .done c result ∨ s.pc k = .unlocking c result

/-- A call returns what it has put into the log. -/
theorem Effect.returning (h : s.Effect i s')
    (hs : ∀ k c result, s.Returning k c result → (s.logOf k).getLast? = some (k, c, result)) (k : ι)
    (c : HashKv.Call V) (result : HashKv.Reply Addr) (hk : s'.Returning k c result) :
    (s'.logOf k).getLast? = some (k, c, result) := by
  by_cases hki : k = i
  · subst hki
    unfold Returning at hk
    cases h with
    | call hpc hl | enter hpc hl => simp [goto_pc_self] at hk
    | locked hpc hacquired => simp [goto_pc_self] at hk
    | look hpc => simp [goto_pc_self] at hk
    | ret hpc hidle => simp [goto_pc_self] at hk
    | @finish c' table hpc =>
        rw [show ({ s.goto k _ with mem := _, log := _ } : LockedKv ι V).pc k = _ from goto_pc_self s k _] at hk
        obtain ⟨rfl, rfl⟩ : c' = c ∧ (s.mem.finish (s.index c') table c').1 = result := by simpa using hk
        simp [logOf]
    | @unlock c' result' l hpc hl =>
        rw [goto_pc_self] at hk
        obtain ⟨rfl, rfl⟩ : c' = c ∧ result' = result := by simpa using hk
        exact hs k c' result' (Or.inl hpc)
    | @leave c' result' l hpc hl =>
        rw [goto_pc_self] at hk
        obtain ⟨rfl, rfl⟩ : c' = c ∧ result' = result := by simpa using hk
        exact hs k c' result' (Or.inr hpc)
  · obtain ⟨hpc, hlog⟩ := h.others hki
    rw [Returning, hpc] at hk
    rw [hlog]
    exact hs k c result hk

theorem returning_run {hash : String → Nat} {n : Nat} {es : List (KvEvent ι V)}
    (h : Run step always (init ι hash n) es s) :
    ∀ k c result, s.Returning k c result → (s.logOf k).getLast? = some (k, c, result) := by
  induction h with
  | nil =>
      intro k c result hk
      rcases hk with hk | hk <;> cases hk
  | snoc _ _ hstep ih => exact (step_cases hstep).returning ih

/-- The hash and the number of partitions are what `Init` has set. -/
theorem shape_run {hash : String → Nat} {n : Nat} {es : List (KvEvent ι V)}
    (h : Run step always (init ι hash n) es s) : s.hash = hash ∧ s.partitionNum = n := by
  refine h.invariant (I := fun s => s.hash = hash ∧ s.partitionNum = n) ⟨rfl, rfl⟩ (fun s e s' hs _ hstep => ?_)
  cases step_cases hstep <;> exact hs

/-- **The locked calls are linearizable.** In every interleaving of the accesses of all calls:

    * the memory is that of single-step calls, one after the other, in the order of the log;
    * so is what each call returns;
    * each fiber's calls stand in the log in the order in which it has made them, and only the call that it is
      in may be missing;
    * a call on its way back returns what the log says;
    * the log only grows at its end, so what is made later comes later. -/
theorem locked_calls_linearizable [Fintype ι] (hcard : Fintype.card ι < kMaxReaders) {hash : String → Nat}
    {n : Nat} {es : List (KvEvent ι V)} (h : Run step always (init ι hash n) es s) :
    s.mem = ((HashKv.init hash n).calls s.order).mem
      ∧ s.results = (HashKv.init hash n).replies s.order
      ∧ (∀ k, es.filterMap (callOf k) = (s.logOf k).map (fun entry => entry.2.1) ++ (s.pc k).pending)
      ∧ (∀ k c result, s.Returning k c result → (s.logOf k).getLast? = some (k, c, result))
      ∧ ∀ later s', Run step always s later s' → s.log <+: s'.log := by
  obtain ⟨rfl, rfl⟩ := shape_run h
  obtain ⟨hmem, hresults⟩ := (run_inv hcard h).atomic
  exact ⟨hmem, hresults, made_run h, returning_run h, fun _ _ hlater => log_run hlater⟩

end History

/-- An `Add` has taken effect, and a `Get` of its key waits for the lock. -/
theorem locked_calls_linearizable_waiting : ∃ s : LockedKv (Fin 2) Nat,
    Run step always (init (Fin 2) (fun _ => 0) 1)
        [.call 0 (.add "k" 7), .run 0, .run 0, .run 0, .call 1 (.get "k"), .run 0, .run 0] s
      ∧ s.order = [.add "k" 7] ∧ (s.pc 1).pending = [.get "k"]
      ∧ s.mem = ((HashKv.init (fun _ => 0) 1).calls [.add "k" 7]).mem := by
  have hrun : Run step always (init (Fin 2) (fun _ => 0) 1 : LockedKv (Fin 2) Nat)
      [.call 0 (.add "k" 7), .run 0, .run 0, .run 0, .call 1 (.get "k"), .run 0, .run 0] _ :=
    run_of_forall (fun _ _ _ => trivial) rfl
  obtain ⟨hmem, -⟩ := locked_calls_linearizable (by decide) hrun
  exact ⟨_, hrun, rfl, rfl, hmem⟩

/-! ## All calls return -/

section Return

variable {ι V : Type} [Fintype ι] [DecidableEq ι] {s s' : LockedKv ι V} {i : ι} {c : HashKv.Call V} {p : Nat}

/-- The accesses of a call that are not accesses of the lock. -/
@[simp] def rank : KvPc V → Int
  | .idle => 0
  | .unlocking _ _ => 1
  | .done _ _ => 2
  | .looked _ _ => 3
  | .locked _ => 4
  | .locking _ => 5

theorem rank_nonneg (pc : KvPc V) : 0 ≤ rank pc := by cases pc <;> simp

theorem rank_le (pc : KvPc V) : rank pc ≤ 5 := by cases pc <;> simp

/-- What the calls of one lock may do before somebody calls it again. -/
def lockBound (ι : Type) [Fintype ι] : Nat := (8 * Fintype.card ι + 8) * Fintype.card ι

/-- How much all calls may still do with the locks as they are. -/
def lockRemaining (s : LockedKv ι V) : Int :=
  tally SharedSys.remaining (fun p : Fin s.partitionNum => s.locks p)

/-- How much all calls may still do: every step but those of the locks allows for one lock to be called. -/
def remaining (s : LockedKv ι V) : Int := s.lockRemaining + (lockBound ι + 1) * tally rank s.pc

omit [DecidableEq ι] in
theorem lockRemaining_setLock (hp : p < s.partitionNum) (l : SharedSys ι) :
    (s.setLock p l).lockRemaining = s.lockRemaining - (s.locks p).remaining + l.remaining := by
  have hupdate : (fun q : Fin s.partitionNum => (s.setLock p l).locks q)
      = Function.update (fun q : Fin s.partitionNum => s.locks q) ⟨p, hp⟩ l := by
    funext q
    by_cases hq : q = ⟨p, hp⟩
    · rw [hq, Function.update_self]
      exact setLock_self s p l
    · rw [Function.update_of_ne hq, setLock_of_ne s (fun h => hq (Fin.ext h))]
  show tally SharedSys.remaining (fun q : Fin s.partitionNum => (s.setLock p l).locks q) = _
  rw [hupdate, tally_update]
  rfl

theorem remaining_goto {pc pc' : KvPc V} (hpc : s.pc i = pc) : (s.goto i pc').remaining
    = s.remaining - (lockBound ι + 1) * rank pc + (lockBound ι + 1) * rank pc' := by
  have htally : tally rank (s.goto i pc').pc = tally rank s.pc - rank pc + rank pc' := by
    rw [← hpc]
    exact tally_update ..
  show s.lockRemaining + _ * tally rank (s.goto i pc').pc = _
  rw [htally, mul_add, mul_sub, remaining]
  omega

omit [DecidableEq ι] in
theorem remaining_setLock (hp : p < s.partitionNum) (l : SharedSys ι) :
    (s.setLock p l).remaining = s.remaining - (s.locks p).remaining + l.remaining := by
  show (s.setLock p l).lockRemaining + _ * tally rank s.pc = _
  rw [lockRemaining_setLock hp, remaining]
  omega

omit [DecidableEq ι] [Fintype ι] in
theorem index_lt (hn : 0 < s.partitionNum) (c : HashKv.Call V) : s.index c < s.partitionNum := Nat.mod_lt _ hn

/-- **An access brings the calls closer to their ends.** -/
theorem Inv.remaining_run (h : s.Inv) (hcard : Fintype.card ι < kMaxReaders) (hn : 0 < s.partitionNum)
    (hrun : s.run i = some s') : s'.remaining + 1 ≤ s.remaining := by
  have hgoto : ∀ {pc pc' : KvPc V}, s.pc i = pc → rank pc' + 1 = rank pc →
      (s.goto i pc').remaining + 1 ≤ s.remaining := by
    intro pc pc' hpc hless
    rw [remaining_goto hpc, ← hless, mul_add]
    omega
  cases run_cases hrun with
  | call hpc hl => simp [run, hpc] at hrun
  | @enter c l hpc hl =>
      have hless : l.remaining + 1 ≤ (s.locks (s.index c)).remaining := (h.locks _).remaining_run hl
      rw [remaining_goto (s := s.setLock _ l) hpc, remaining_setLock (index_lt hn c)]
      omega
  | locked hpc hacquired => exact hgoto hpc rfl
  | look hpc => exact hgoto hpc rfl
  | finish hpc => exact hgoto hpc rfl
  | @unlock c result l hpc hl =>
      have hbefore := (h.locks (s.index c)).remaining_nonneg
      have hafter : l.remaining ≤ lockBound ι := ((h.locks _).of_step hcard hl).remaining_le
      rw [remaining_goto (s := s.setLock _ l) hpc, remaining_setLock (index_lt hn c)]
      simp only [rank]
      omega
  | @leave c result l hpc hl =>
      have hless : l.remaining + 1 ≤ (s.locks (s.index c)).remaining := (h.locks _).remaining_run hl
      rw [remaining_goto (s := s.setLock _ l) hpc, remaining_setLock (index_lt hn c)]
      omega
  | ret hpc hidle => exact hgoto hpc rfl

omit [DecidableEq ι] in
theorem Inv.remaining_nonneg (h : s.Inv) : 0 ≤ s.remaining := by
  have hlocks : 0 ≤ s.lockRemaining := by
    unfold lockRemaining tally
    exact Finset.sum_nonneg (fun p _ => (h.locks p).remaining_nonneg)
  have hcalls : 0 ≤ (lockBound ι + 1 : Int) * tally rank s.pc :=
    mul_nonneg (by omega) (tally_nonneg rank_nonneg s.pc)
  unfold remaining
  omega

omit [DecidableEq ι] in
theorem Inv.remaining_le (h : s.Inv) :
    s.remaining ≤ lockBound ι * s.partitionNum + (lockBound ι + 1) * (5 * Fintype.card ι) := by
  have hlocks : s.lockRemaining ≤ lockBound ι * s.partitionNum := by
    have hle : s.lockRemaining ≤ ∑ _p : Fin s.partitionNum, (lockBound ι : Int) := by
      unfold lockRemaining tally
      exact Finset.sum_le_sum (fun p _ => (h.locks p).remaining_le)
    rwa [Finset.sum_const, Finset.card_univ, Fintype.card_fin, nsmul_eq_mul, mul_comm] at hle
  have hcalls : (lockBound ι + 1 : Int) * tally rank s.pc ≤ (lockBound ι + 1) * (5 * Fintype.card ι) :=
    mul_le_mul_of_nonneg_left (tally_le_card rank_le s.pc) (by omega)
  unfold remaining
  omega

theorem length_add_remaining (hcard : Fintype.card ι < kMaxReaders) (hs : s.Inv) (hn : 0 < s.partitionNum)
    {es : List (KvEvent ι V)} (h : Run step (fun _ e => ∃ i, e = .run i) s es s') :
    s'.Inv ∧ s'.partitionNum = s.partitionNum ∧ (es.length : Int) + s'.remaining ≤ s.remaining := by
  induction h with
  | nil => exact ⟨hs, rfl, by simp⟩
  | @snoc es s₁ e s₂ hrun hok hstep ih =>
      obtain ⟨i, rfl⟩ := hok
      obtain ⟨hinv, hshape, hle⟩ := ih
      have hless : s₂.remaining + 1 ≤ s₁.remaining := hinv.remaining_run hcard (hshape ▸ hn) hstep
      refine ⟨hinv.effect hcard (run_cases hstep), ?_, ?_⟩
      · rw [← hshape]
        cases run_cases hstep <;> rfl
      · rw [List.length_append, List.length_singleton]
        omega

/-- Where nobody can go on, no lock can make a step. -/
theorem Inv.locks_stopped (h : s.Inv) (hstop : ∀ i, s.run i = none) (p : Nat) (j : ι) :
    (s.locks p).run j = none := by
  rw [Option.eq_none_iff_forall_ne_some]
  intro l hl
  -- the fiber is in a call of this partition
  obtain ⟨c, hcall, rfl⟩ : ∃ c, (s.pc j).call = some c ∧ s.index c = p := by
    by_contra hno
    have haway := h.away j p (fun c hc hp => hno ⟨c, hc, hp⟩)
    simp [SharedSys.run, haway] at hl
  have hhere := h.here j c hcall
  have hj := hstop j
  have hstep : s.lockStep c (.run j) = some (s.setLock (s.index c) l) := by
    unfold lockStep
    rw [show (s.locks (s.index c)).step (.run j) = some l from hl]
    rfl
  cases hpc : s.pc j with
  | idle => simp [hpc, KvPc.call] at hcall
  | locking c' =>
      obtain rfl : c' = c := by simpa [hpc, KvPc.call] using hcall
      simp only [run, hpc] at hj
      split at hj
      · cases hj
      · rw [hstep] at hj
        cases hj
  | locked c' | looked c' table | done c' result =>
      obtain rfl : c' = c := by simpa [hpc, KvPc.call] using hcall
      rw [hpc] at hhere
      rw [SharedSys.run_of_acquired hhere] at hl
      cases hl
  | unlocking c' result =>
      obtain rfl : c' = c := by simpa [hpc, KvPc.call] using hcall
      simp only [run, hpc] at hj
      split at hj
      · cases hj
      · rw [hstep] at hj
        cases hj

/-- A fiber that has a lock can go on. -/
theorem Inv.run_of_acquired (h : s.Inv) {shared : Bool} (hj : (s.locks p).pc i = SharedSys.acquired shared) :
    s.run i ≠ none := by
  obtain ⟨c, hcall, rfl⟩ : ∃ c, (s.pc i).call = some c ∧ s.index c = p := by
    by_contra hno
    have haway := h.away i p (fun c hc hp => hno ⟨c, hc, hp⟩)
    exact (SharedSys.acquired_not_way shared true).2.2.1 (hj.symm.trans haway)
  have hhere := h.here i c hcall
  cases hpc : s.pc i with
  | idle => simp [hpc, KvPc.call] at hcall
  | locking c' =>
      obtain rfl : c' = c := by simpa [hpc, KvPc.call] using hcall
      rw [hpc] at hhere
      rcases hhere with hentering | hacquired
      · rw [hj] at hentering
        exact absurd hentering (SharedSys.acquired_not_way shared c'.shared).1
      · simp [run, hpc, hacquired]
  | locked c' => simp [run, hpc]
  | looked c' table => simp [run, hpc]
  | done c' result =>
      obtain rfl : c' = c := by simpa [hpc, KvPc.call] using hcall
      rw [hpc] at hhere
      have hacquired : _ = SharedSys.acquired c'.shared := hhere
      cases hshared : c'.shared <;> rw [hshared] at hacquired
        <;> simp [run, hpc, lockStep, hshared, SharedSys.step, hacquired, SharedSys.acquired]
  | unlocking c' result =>
      rw [hpc, hj] at hhere
      rcases hhere with hleaving | hidle
      · exact absurd hleaving (SharedSys.acquired_not_way shared true).2.1
      · exact absurd hidle (SharedSys.acquired_not_way shared true).2.2.1

/-- **Where nobody can go on, all calls have returned.** -/
theorem Inv.all_idle (h : s.Inv) (hcard : Fintype.card ι < kMaxReaders) (hstop : ∀ i, s.run i = none) (i : ι) :
    s.pc i = .idle := by
  have hstopped := h.locks_stopped hstop
  -- nobody has a lock, hence nobody waits for one
  have hnobody : ∀ p j shared, (s.locks p).pc j ≠ SharedSys.acquired shared :=
    fun p j shared hj => h.run_of_acquired hj (hstop j)
  have hcalm : ∀ p j, (s.locks p).pc j = .idle := by
    intro p j
    have hwait : ¬ ((s.locks p).pc j = .lock ∨ ∃ what, (s.locks p).pc j = .halted what) := by
      intro hj
      obtain ⟨k, hk | hk⟩ := (h.locks p).holder hcard (hstopped p) hj
      · exact hnobody p k true hk
      · exact hnobody p k false hk
    rcases (h.locks p).settled (hstopped p) j with hidle | hreading | hwriting | hj
    · exact hidle
    · exact absurd hreading (hnobody p j true)
    · exact absurd hwriting (hnobody p j false)
    · exact absurd hj hwait
  have hi := hstop i
  cases hpc : s.pc i with
  | idle => rfl
  | locked c => simp [run, hpc] at hi
  | looked c table => simp [run, hpc] at hi
  | done c result =>
      have hhere := h.here i c (by rw [hpc]; rfl)
      rw [hpc] at hhere
      exact absurd hhere (hnobody _ i _)
  | locking c =>
      have hhere := h.here i c (by rw [hpc]; rfl)
      rw [hpc] at hhere
      rcases hhere with hentering | hacquired
      · rw [hcalm] at hentering
        exact hentering.elim
      · exact absurd hacquired (hnobody _ i _)
  | unlocking c result => simp [run, hpc, hcalm] at hi

end Return

/-- **All calls return.** From every state that can be reached, the calls that are under way make a bounded
    number of accesses, in whatever order they take turns; where none can go on, all of them have returned. No
    call is stuck behind another one, with any number of partitions and any hash. -/
theorem locked_calls_return {ι V : Type} [Fintype ι] [DecidableEq ι] (hcard : Fintype.card ι < kMaxReaders)
    {hash : String → Nat} {n : Nat} (hn : 0 < n) {es : List (KvEvent ι V)} {s : LockedKv ι V}
    (h : Run step always (init ι hash n) es s) :
    (∀ es' s', Run step (fun _ e => ∃ i, e = .run i) s es' s' →
        es'.length ≤ lockBound ι * n + (lockBound ι + 1) * (5 * Fintype.card ι))
      ∧ ((∀ i, s.run i = none) → ∀ i, s.pc i = .idle) := by
  have hinv := run_inv hcard h
  obtain ⟨-, rfl⟩ := shape_run h
  refine ⟨fun es' s' hrun => ?_, hinv.all_idle hcard⟩
  obtain ⟨hinv', -, hmeasure⟩ := length_add_remaining hcard hinv hn hrun
  have hafter := hinv'.remaining_nonneg
  have hbefore := hinv.remaining_le
  have hbound : (es'.length : Int)
      ≤ lockBound ι * s.partitionNum + (lockBound ι + 1) * (5 * Fintype.card ι) := by omega
  exact_mod_cast hbound

/-- Two fibers in calls of one partition. `Get` has the lock when `Add` comes for it, and makes its accesses
    first; after those of `Add` both have returned, and nobody can go on. -/
theorem locked_calls_return_two : ∃ s s' : LockedKv (Fin 2) Nat,
    Run step always (init (Fin 2) (fun _ => 0) 1) [.call 0 (.add "k" 7), .call 1 (.get "k")] s
      ∧ Run step (fun _ e => ∃ i, e = .run i) s
        (List.replicate 5 (.run 1) ++ List.replicate 11 (.run 0)) s'
      ∧ (∀ es' s', Run step (fun _ e => ∃ i, e = .run i) s es' s' → es'.length ≤ 538)
      ∧ (∀ i, s'.run i = none) ∧ ∀ i, s'.pc i = .idle := by
  have hexec : (([.call 0 (.add "k" 7), .call 1 (.get "k")] ++ (List.replicate 5 (.run 1)
      ++ List.replicate 11 (.run 0)) : List (KvEvent (Fin 2) Nat)).foldlM step
        (init (Fin 2) (fun _ => 0) 1)).map (fun s => (s.run 0).isNone && (s.run 1).isNone)
          = some true := by decide +kernel
  obtain ⟨s', hs', hnone⟩ := Option.map_eq_some_iff.mp hexec
  have hall : Run step always _ _ s' := run_of_forall (fun _ _ _ => trivial) hs'
  obtain ⟨s, hcalls, haccesses⟩ := hall.split
  have hstop : ∀ i, s'.run i = none := by
    rw [Bool.and_eq_true, Option.isNone_iff_eq_none, Option.isNone_iff_eq_none] at hnone
    exact Fin.forall_fin_two.mpr hnone
  obtain ⟨hlength, -⟩ := locked_calls_return (by decide) (by decide) hcalls
  obtain ⟨-, hidle⟩ := locked_calls_return (by decide) (by decide) hall
  refine ⟨s, s', hcalls, haccesses.of_mem (P := fun e => ∃ i, e = .run i) ?_, hlength, hstop, hidle hstop⟩
  simp only [List.mem_append, List.mem_replicate]
  rintro e (⟨-, rfl⟩ | ⟨-, rfl⟩)
  · exact ⟨1, rfl⟩
  · exact ⟨0, rfl⟩

end LockedKv

end ZhiCache
