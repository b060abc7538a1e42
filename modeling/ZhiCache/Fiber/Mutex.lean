import ZhiCache.Lib.Machines
import ZhiCache.Lib.Run
import Mathlib.Data.UInt

/-!
# `Fiber.Mutex` — the mutex of fibers

`flare::fiber::Mutex` counts its owner and those who wait for it in one atomic word. `lock` succeeds at once
when it can set the word from 0 to 1. Otherwise `LockSlow` adds 1 under a spin lock, puts the fiber into the
wait chain and halts it. `unlock` subtracts 1; when others are counted, it takes the first of the wait chain
and makes it ready: the mutex goes from hand to hand, and the word never shows it free. `MutexSys` is a mutex
with the fibers that call it, each access to a shared variable a step of its own. A fiber that is about to
halt still holds its `scheduler_lock`, so that nobody makes it ready before it has halted.

* A fiber stands where the word counts it, or where it has the mutex, or where it waits (`counted`, `token`,
  `chained`); the shared variables are the sums of these (`Inv`).
* Each call takes effect at one of its accesses, or at the `WakeOne` that takes the fiber out of the wait chain
  (`commits`). No check of the code fails, and these effects, in their order, are a run of an atomic lock
  (`simulates_lock`).
* Calls come to an end, and nobody waits for a mutex that is free (`calls_settle`).
-/

namespace ZhiCache

open Lib

/-- Where a fiber stands. -/
inductive MutexPc (ι : Type) where
  | idle
  /-- `lock`: the first `try_lock`. -/
  | lock
  /-- `LockSlow`: the second `try_lock`. -/
  | lockSlow
  /-- Before `slow_path_lock_` is taken. -/
  | spin
  /-- With `slow_path_lock_`, before `count_` is increased. -/
  | counting
  /-- `count_` was 0; `LockSlow` returns, and gives `slow_path_lock_` back. -/
  | lucky
  /-- With both locks, before `AddWaiter`. -/
  | addWaiter
  /-- In the wait chain, before `splk.unlock()`. -/
  | added
  /-- Before `Halt` has left the fiber and unlocked its `scheduler_lock`. -/
  | halting
  | halted
  /-- Made ready by `unlock`. -/
  | resumed
  /-- `lock` or `try_lock` has returned with the mutex. -/
  | owner
  /-- `unlock`: before `count_` is decreased. -/
  | unlock
  /-- Others were counted; before `slow_path_lock_` is taken. -/
  | wakeSpin
  /-- With `slow_path_lock_`, before `WakeOne`. -/
  | wakeOne
  /-- `WakeOne` has returned the fiber; before `splk.unlock()`. -/
  | wakeUnlock (fiber : ι)
  /-- Before `ReadyFiber`, which waits for the fiber's `scheduler_lock`. -/
  | readyFiber (fiber : ι)
  /-- A check has failed. -/
  | aborted
  deriving DecidableEq

/-- A mutex and the fibers that use it. -/
structure MutexSys (ι : Type) where
  /-- `count_`: how many wait, and the owner. -/
  count : UInt32
  slowPathLock : Option ι
  /-- The wait chain of `impl_`. -/
  waiters : List ι
  pc : ι → MutexPc ι

/-- What can happen. -/
inductive MutexEvent (ι : Type) where
  | lock (i : ι)
  | tryLock (i : ι)
  | unlock (i : ι)
  /-- The next access of a call that is under way. -/
  | run (i : ι)
  deriving DecidableEq

namespace MutexSys

variable {ι : Type} [DecidableEq ι]

/-- Nobody has called anything. -/
def init : MutexSys ι := ⟨0, none, [], fun _ => .idle⟩

/-- The fiber goes on. -/
def goto (s : MutexSys ι) (i : ι) (pc : MutexPc ι) : MutexSys ι := { s with pc := Function.update s.pc i pc }

theorem goto_pc_self (s : MutexSys ι) (i : ι) (pc : MutexPc ι) : (s.goto i pc).pc i = pc :=
  Function.update_self (β := fun _ => MutexPc ι) i pc s.pc

theorem goto_pc_of_ne (s : MutexSys ι) {i j : ι} (h : j ≠ i) (pc : MutexPc ι) : (s.goto i pc).pc j = s.pc j :=
  Function.update_of_ne (β := fun _ => MutexPc ι) h pc s.pc

/-- `try_lock`: `compare_exchange_strong(0, 1)`. The fiber stands at `fail` if there is something in the word.
    -/
def tryLock (s : MutexSys ι) (i : ι) (fail : MutexPc ι) : MutexSys ι :=
  if s.count = 0 then { s.goto i .owner with count := 1 } else s.goto i fail

/-- The next access of the fiber; none when it has to wait, or is not in a call. -/
def run (s : MutexSys ι) (i : ι) : Option (MutexSys ι) :=
  match s.pc i with
  | .lock => some (s.tryLock i .lockSlow)
  | .lockSlow => some (s.tryLock i .spin)
  | .spin => if s.slowPathLock = none then some { s.goto i .counting with slowPathLock := some i } else none
  | .counting => some { s.goto i (if s.count = 0 then .lucky else .addWaiter) with count := s.count + 1 }
  | .lucky => some { s.goto i .owner with slowPathLock := none }
  | .addWaiter => some { s.goto i .added with waiters := s.waiters ++ [i] }
  | .added => some { s.goto i .halting with slowPathLock := none }
  | .halting => some (s.goto i .halted)
  -- `FLARE_DCHECK(!impl_.TryRemoveWaiter(&wb))`
  | .resumed => some (s.goto i (if i ∈ s.waiters then .aborted else .owner))
  | .unlock =>
    some { s.goto i (if s.count = 1 then .idle else if 1 < s.count then .wakeSpin else .aborted) with
      count := s.count - 1 }
  | .wakeSpin => if s.slowPathLock = none then some { s.goto i .wakeOne with slowPathLock := some i } else none
  | .wakeOne =>
    match s.waiters with
    | [] => some (s.goto i .aborted)
    | fiber :: rest => some { s.goto i (.wakeUnlock fiber) with waiters := rest }
  | .wakeUnlock fiber => some { s.goto i (.readyFiber fiber) with slowPathLock := none }
  | .readyFiber fiber =>
    match s.pc fiber with
    -- the fiber holds its `scheduler_lock`
    | .addWaiter | .added | .halting => none
    | .halted => some ((s.goto fiber .resumed).goto i .idle)
    -- a fiber that is not waiting is put into the run queue
    | _ => some (s.goto i .aborted)
  | _ => none

/-- The system after an event; none when the event is not possible. -/
def step (s : MutexSys ι) : MutexEvent ι → Option (MutexSys ι)
  | .lock i => if s.pc i = .idle then some (s.goto i .lock) else none
  | .tryLock i => if s.pc i = .idle then some (s.tryLock i .idle) else none
  | .unlock i => if s.pc i = .owner then some (s.goto i .unlock) else none
  | .run i => s.run i

/-- What the event does to the lock that the mutex stands for, if anything: who finds 0 in the word takes it,
    `unlock` gives it back with its subtraction, and `WakeOne` takes it for the fiber that it returns. -/
def commits (s : MutexSys ι) : MutexEvent ι → Option (LockEvent ι)
  | .lock _ | .unlock _ => none
  | .tryLock i => if s.count = 0 then some (.acquire i) else none
  | .run i =>
    match s.pc i with
    | .lock | .lockSlow | .counting => if s.count = 0 then some (.acquire i) else none
    | .unlock => some (.release i)
    | .wakeOne => s.waiters.head?.map .acquire
    | _ => none

end MutexSys

/-! ## What an access can do -/

/-- The possible accesses and their effects, as a relation: what the access does to the lock, and the system
    after it. -/
inductive MutexSys.Effect {ι : Type} [DecidableEq ι] (s : MutexSys ι) (i : ι) :
    Option (LockEvent ι) → MutexSys ι → Prop where
  | call {pc pc'} : s.pc i = pc → (pc, pc') ∈ [(.idle, .lock), (.owner, .unlock), (.idle, .idle),
      (.lock, .lockSlow), (.lockSlow, .spin), (.halting, .halted)] → Effect s i none (s.goto i pc')
  | take {pc} : s.pc i = pc → pc ∈ [MutexPc.idle, .lock, .lockSlow] → s.count = 0 →
      Effect s i (some (.acquire i)) { s.goto i .owner with count := 1 }
  | spin {pc pc'} : s.pc i = pc → (pc, pc') ∈ [(.spin, .counting), (.wakeSpin, .wakeOne)] →
      s.slowPathLock = none → Effect s i none { s.goto i pc' with slowPathLock := some i }
  | unspin {pc pc'} : s.pc i = pc → (pc, pc') ∈ [(.lucky, .owner), (.added, .halting)] →
      Effect s i none { s.goto i pc' with slowPathLock := none }
  | lucky : s.pc i = .counting → s.count = 0 →
      Effect s i (some (.acquire i)) { s.goto i .lucky with count := s.count + 1 }
  | counted : s.pc i = .counting → s.count ≠ 0 →
      Effect s i none { s.goto i .addWaiter with count := s.count + 1 }
  | addWaiter : s.pc i = .addWaiter → Effect s i none { s.goto i .added with waiters := s.waiters ++ [i] }
  | resumed : s.pc i = .resumed → Effect s i none (s.goto i (if i ∈ s.waiters then .aborted else .owner))
  | free : s.pc i = .unlock → s.count = 1 →
      Effect s i (some (.release i)) { s.goto i .idle with count := s.count - 1 }
  | handOver : s.pc i = .unlock → 1 < s.count →
      Effect s i (some (.release i)) { s.goto i .wakeSpin with count := s.count - 1 }
  | underflow : s.pc i = .unlock → s.count = 0 →
      Effect s i (some (.release i)) { s.goto i .aborted with count := s.count - 1 }
  | wakeOne {fiber rest} : s.pc i = .wakeOne → s.waiters = fiber :: rest →
      Effect s i (some (.acquire fiber)) { s.goto i (.wakeUnlock fiber) with waiters := rest }
  | nobody : s.pc i = .wakeOne → s.waiters = [] → Effect s i none (s.goto i .aborted)
  | wakeUnlock {fiber} : s.pc i = .wakeUnlock fiber →
      Effect s i none { s.goto i (.readyFiber fiber) with slowPathLock := none }
  | ready {fiber} : s.pc i = .readyFiber fiber → s.pc fiber = .halted →
      Effect s i none ((s.goto fiber .resumed).goto i .idle)
  | stray {fiber} : s.pc i = .readyFiber fiber → s.pc fiber ≠ .halting → s.pc fiber ≠ .halted →
      Effect s i none (s.goto i .aborted)

namespace MutexSys

variable {ι : Type} [DecidableEq ι] {s s' : MutexSys ι} {i : ι}

theorem tryLock_effect {pc fail : MutexPc ι} (hpc : s.pc i = pc)
    (hmem : (pc, fail) ∈ [(MutexPc.idle, MutexPc.idle), (.lock, .lockSlow), (.lockSlow, .spin)]) :
    s.Effect i (if s.count = 0 then some (.acquire i) else none) (s.tryLock i fail) := by
  unfold tryLock
  by_cases hfree : s.count = 0
  · rw [if_pos hfree, if_pos hfree]
    refine .take hpc ?_ hfree
    simp only [List.mem_cons, Prod.mk.injEq, List.not_mem_nil, or_false] at hmem ⊢
    rcases hmem with ⟨rfl, _⟩ | ⟨rfl, _⟩ | ⟨rfl, _⟩ <;> simp
  · rw [if_neg hfree, if_neg hfree]
    refine .call hpc ?_
    simp only [List.mem_cons, Prod.mk.injEq, List.not_mem_nil, or_false] at hmem ⊢
    rcases hmem with ⟨rfl, rfl⟩ | ⟨rfl, rfl⟩ | ⟨rfl, rfl⟩ <;> simp

/-- **Inversion of an access.** -/
theorem run_cases (h : s.run i = some s') : s.Effect i (s.commits (.run i)) s' := by
  unfold run at h
  simp only [commits]
  cases hpc : s.pc i with
  | lock =>
      rw [hpc] at h
      obtain rfl := Option.some.inj h
      exact tryLock_effect hpc (by simp)
  | lockSlow =>
      rw [hpc] at h
      obtain rfl := Option.some.inj h
      exact tryLock_effect hpc (by simp)
  | spin =>
      simp only [hpc] at h
      obtain ⟨hfree, ⟨⟩⟩ := Option.ite_none_right_eq_some.mp h
      exact .spin hpc (by simp) hfree
  | counting =>
      rw [hpc] at h
      obtain rfl := Option.some.inj h
      by_cases hc : s.count = 0
      · simp only [if_pos hc]
        exact .lucky hpc hc
      · simp only [if_neg hc]
        exact .counted hpc hc
  | lucky =>
      rw [hpc] at h
      obtain rfl := Option.some.inj h
      exact .unspin hpc (by simp)
  | addWaiter =>
      rw [hpc] at h
      obtain rfl := Option.some.inj h
      exact .addWaiter hpc
  | added =>
      rw [hpc] at h
      obtain rfl := Option.some.inj h
      exact .unspin hpc (by simp)
  | halting =>
      rw [hpc] at h
      obtain rfl := Option.some.inj h
      exact .call hpc (by simp)
  | resumed =>
      rw [hpc] at h
      obtain rfl := Option.some.inj h
      exact .resumed hpc
  | unlock =>
      rw [hpc] at h
      obtain rfl := Option.some.inj h
      by_cases hone : s.count = 1
      · rw [if_pos hone]
        exact .free hpc hone
      · rw [if_neg hone]
        by_cases hmore : 1 < s.count
        · rw [if_pos hmore]
          exact .handOver hpc hmore
        · rw [if_neg hmore]
          refine .underflow hpc ?_
          have hle : s.count.toNat ≤ 1 := UInt32.le_iff_toNat_le.mp (UInt32.not_lt.mp hmore)
          have hne : s.count.toNat ≠ 1 := fun e => hone (UInt32.toNat_inj.mp e)
          exact UInt32.toNat_inj.mp (show s.count.toNat = 0 by omega)
  | wakeSpin =>
      simp only [hpc] at h
      obtain ⟨hfree, ⟨⟩⟩ := Option.ite_none_right_eq_some.mp h
      exact .spin hpc (by simp) hfree
  | wakeOne =>
      rw [hpc] at h
      cases hw : s.waiters with
      | nil =>
          simp only [hw, List.head?_nil, Option.map_none] at h ⊢
          obtain rfl := Option.some.inj h
          exact .nobody hpc hw
      | cons fiber rest =>
          simp only [hw, List.head?_cons, Option.map_some] at h ⊢
          obtain rfl := Option.some.inj h
          exact .wakeOne hpc hw
  | wakeUnlock fiber =>
      rw [hpc] at h
      obtain rfl := Option.some.inj h
      exact .wakeUnlock hpc
  | readyFiber fiber =>
      simp only [hpc] at h
      split at h
      · cases h
      · cases h
      · cases h
      · rename_i hhalted
        obtain rfl := Option.some.inj h
        exact .ready hpc hhalted
      · rename_i hne hne' hhalting hhalted
        obtain rfl := Option.some.inj h
        exact .stray hpc hhalting hhalted
  | idle => simp [hpc] at h
  | halted => simp [hpc] at h
  | owner => simp [hpc] at h
  | aborted => simp [hpc] at h

theorem step_cases {e : MutexEvent ι} (h : s.step e = some s') : ∃ i, s.Effect i (s.commits e) s' := by
  cases e with
  | lock i =>
      obtain ⟨hpc, ⟨⟩⟩ := Option.ite_none_right_eq_some.mp h
      exact ⟨i, .call hpc (by simp)⟩
  | tryLock i =>
      obtain ⟨hpc, ⟨⟩⟩ := Option.ite_none_right_eq_some.mp h
      exact ⟨i, tryLock_effect hpc (by simp)⟩
  | unlock i =>
      obtain ⟨hpc, ⟨⟩⟩ := Option.ite_none_right_eq_some.mp h
      exact ⟨i, .call hpc (by simp)⟩
  | run i => exact ⟨i, run_cases h⟩

end MutexSys

/-! ## The invariant -/

namespace MutexSys

variable {ι : Type}

/-- The word counts the fiber. -/
def counted : MutexPc ι → Int
  | .lucky | .addWaiter | .added | .halting | .halted | .resumed | .owner | .unlock => 1
  | _ => 0

/-- The mutex is in the hands of the fiber, or passes through them. -/
def token : MutexPc ι → Int
  | .lucky | .resumed | .owner | .unlock | .wakeSpin | .wakeOne | .wakeUnlock _ | .readyFiber _ => 1
  | _ => 0

/-- The fiber has been put into the wait chain. -/
def chained : MutexPc ι → Bool
  | .added | .halting | .halted => true
  | _ => false

/-- The fiber halts, or has halted. -/
def stopped : MutexPc ι → Bool
  | .halting | .halted => true
  | _ => false

/-- The fiber that is going to be made ready. -/
def waking : MutexPc ι → List ι
  | .wakeUnlock fiber | .readyFiber fiber => [fiber]
  | _ => []

/-- The fiber holds `slow_path_lock_`. -/
def spinning : MutexPc ι → Bool
  | .counting | .lucky | .addWaiter | .added | .wakeOne | .wakeUnlock _ => true
  | _ => false

theorem counted_nonneg (pc : MutexPc ι) : 0 ≤ counted pc := by cases pc <;> simp [counted]

theorem counted_le_one (pc : MutexPc ι) : counted pc ≤ 1 := by cases pc <;> simp [counted]

theorem token_nonneg (pc : MutexPc ι) : 0 ≤ token pc := by cases pc <;> simp [token]

/-- Who wakes another fiber has the mutex in the hands. -/
theorem token_of_waking {pc : MutexPc ι} {fiber : ι} (h : fiber ∈ waking pc) : token pc = 1 := by
  cases pc <;> simp [waking, token] at h ⊢

/-- **The invariant.** The shared variables are the sums of what the fibers contribute; a mutex that is not free
    is in one hand; and nobody is lost in the wait chain. -/
structure Inv [Fintype ι] (s : MutexSys ι) : Prop where
  count : (s.count.toNat : Int) = tally counted s.pc
  inHand : tally token s.pc = if s.count = 0 then 0 else 1
  spin : Owned s.slowPathLock spinning s.pc
  waits : WaitChain chained stopped waking s.waiters s.pc
  safe : ∀ j, s.pc j ≠ .aborted

theorem inv_init [Fintype ι] : (init : MutexSys ι).Inv where
  count := by simp [init, tally_const, counted]
  inHand := by simp [init, tally_const, token]
  spin := fun j => by simp [init, spinning]
  waits := waitChain_start rfl rfl
  safe := fun j => by simp [init]

section Steps

variable [Fintype ι] {s : MutexSys ι} {i : ι}

/-- The word is 0 exactly when it counts nobody. -/
theorem Inv.count_eq_zero_iff (h : s.Inv) : s.count = 0 ↔ tally counted s.pc = 0 := by
  rw [← h.count, ← UInt32.toNat_inj]
  exact Int.natCast_eq_zero.symm

/-- The owner is counted. -/
theorem Inv.count_ne_zero (h : s.Inv) (hi : counted (s.pc i) = 1) : s.count ≠ 0 := by
  have hle := le_tally counted_nonneg s.pc i
  rw [Ne, h.count_eq_zero_iff]
  omega

variable [DecidableEq ι]

/-- The mutex is in one hand. -/
theorem Inv.token_unique (h : s.Inv) {j : ι} (hi : token (s.pc i) = 1)
    (hj : token (s.pc j) = 1) : i = j := by
  by_contra hne
  have htwo := add_le_tally token_nonneg s.pc hne
  have hone := h.inHand
  split at hone
  · omega
  · omega

/-- A fiber that moves from `pc` to `a`, with what this does to the shared variables. -/
theorem Inv.move (h : s.Inv) {pc a : MutexPc ι} {c : UInt32} {slowPathLock : Option ι} {waiters : List ι}
    (hpc : s.pc i = pc) (hcount : (c.toNat : Int) = s.count.toNat - counted pc + counted a)
    (htoken : (if c = 0 then 0 else 1) = (if s.count = 0 then 0 else 1) - token pc + token a)
    (hspin : Owned slowPathLock spinning (Function.update s.pc i a))
    (hwaits : WaitChain chained stopped waking waiters (Function.update s.pc i a)) (hsafe : a ≠ .aborted) :
    (⟨c, slowPathLock, waiters, Function.update s.pc i a⟩ : MutexSys ι).Inv where
  count := by rw [tally_update, ← h.count, hcount, hpc]
  inHand := by rw [tally_update, h.inHand, htoken, hpc]
  spin := hspin
  waits := hwaits
  safe := (Function.forall_update_iff s.pc (fun _ pc => pc ≠ .aborted)).mpr ⟨hsafe, fun j _ => h.safe j⟩

/-- A fiber goes on without touching the shared variables. -/
theorem Inv.call (h : s.Inv) {pc pc' : MutexPc ι} (hpc : s.pc i = pc)
    (hmem : (pc, pc') ∈ [(MutexPc.idle, MutexPc.lock), (.owner, .unlock), (.idle, .idle), (.lock, .lockSlow),
      (.lockSlow, .spin), (.halting, .halted)]) : (s.goto i pc').Inv := by
  simp only [List.mem_cons, Prod.mk.injEq, List.not_mem_nil, or_false] at hmem
  rcases hmem with ⟨rfl, rfl⟩ | ⟨rfl, rfl⟩ | ⟨rfl, rfl⟩ | ⟨rfl, rfl⟩ | ⟨rfl, rfl⟩ | ⟨rfl, rfl⟩
  all_goals
    apply h.move (c := s.count) hpc
    · simp [counted]
    · simp [token]
    · exact h.spin.move (by simp [hpc, spinning])
    · exact h.waits.move (by simp [hpc, chained]) (by simp [hpc, waking]) (by simp [hpc, stopped])
    · simp

/-- The word goes from 0 to 1. -/
theorem Inv.take (h : s.Inv) {pc : MutexPc ι} (hpc : s.pc i = pc) (hmem : pc ∈ [MutexPc.idle, .lock, .lockSlow])
    (hfree : s.count = 0) : ({ s.goto i .owner with count := 1 } : MutexSys ι).Inv := by
  simp only [List.mem_cons, List.not_mem_nil, or_false] at hmem
  rcases hmem with rfl | rfl | rfl
  all_goals
    apply h.move (c := 1) hpc
    · simp [hfree, counted]
    · simp [hfree, token]
    · exact h.spin.move (by simp [hpc, spinning])
    · exact h.waits.move (by simp [hpc, chained]) (by simp [hpc, waking]) (by simp [hpc, stopped])
    · simp

/-- `slow_path_lock_` is taken. -/
theorem Inv.acquire (h : s.Inv) {pc pc' : MutexPc ι} (hpc : s.pc i = pc)
    (hmem : (pc, pc') ∈ [(MutexPc.spin, MutexPc.counting), (.wakeSpin, .wakeOne)])
    (hfree : s.slowPathLock = none) :
    ({ s.goto i pc' with slowPathLock := some i } : MutexSys ι).Inv := by
  simp only [List.mem_cons, Prod.mk.injEq, List.not_mem_nil, or_false] at hmem
  have hspin : Owned none spinning s.pc := hfree ▸ h.spin
  rcases hmem with ⟨rfl, rfl⟩ | ⟨rfl, rfl⟩
  all_goals
    apply h.move (c := s.count) hpc
    · simp [counted]
    · simp [token]
    · exact hspin.acquire rfl
    · exact h.waits.move (by simp [hpc, chained]) (by simp [hpc, waking]) (by simp [hpc, stopped])
    · simp

/-- `slow_path_lock_` is given back. -/
theorem Inv.release (h : s.Inv) {pc pc' : MutexPc ι} (hpc : s.pc i = pc)
    (hmem : (∃ fiber, (pc, pc') = (.wakeUnlock fiber, .readyFiber fiber))
      ∨ (pc, pc') ∈ [(MutexPc.lucky, MutexPc.owner), (.added, .halting)]) :
    ({ s.goto i pc' with slowPathLock := none } : MutexSys ι).Inv := by
  simp only [List.mem_cons, Prod.mk.injEq, List.not_mem_nil, or_false] at hmem
  rcases hmem with ⟨fiber, rfl, rfl⟩ | ⟨rfl, rfl⟩ | ⟨rfl, rfl⟩
  all_goals
    apply h.move (c := s.count) hpc
    · simp [counted]
    · simp [token]
    · exact h.spin.release (by simp [hpc, spinning]) rfl
    · exact h.waits.move (by simp [hpc, chained]) (by simp [hpc, waking]) (by simp [hpc, stopped])
    · simp

omit [DecidableEq ι] in
/-- With fewer fibers than the word can count, it does not overflow where a fiber is about to be counted. -/
theorem Inv.toNat_succ (h : s.Inv) (hcard : Fintype.card ι < 2 ^ 32) (hi : counted (s.pc i) = 0) :
    (s.count + 1).toNat = s.count.toNat + 1 := by
  have hall : tally counted s.pc < Fintype.card ι := tally_lt_card counted_le_one hi
  rw [← h.count] at hall
  rw [UInt32.toNat_add, UInt32.toNat_one]
  omega

/-- The word is increased. -/
theorem Inv.increase (h : s.Inv) (hcard : Fintype.card ι < 2 ^ 32) (hpc : s.pc i = .counting) {pc' : MutexPc ι}
    (hpc' : s.count = 0 ∧ pc' = .lucky ∨ s.count ≠ 0 ∧ pc' = .addWaiter) :
    ({ s.goto i pc' with count := s.count + 1 } : MutexSys ι).Inv := by
  have hsucc := h.toNat_succ hcard (i := i) (by simp [hpc, counted])
  have hne : s.count + 1 ≠ 0 := by
    intro e
    rw [e] at hsucc
    exact absurd hsucc (by simp)
  rcases hpc' with ⟨hzero, rfl⟩ | ⟨hzero, rfl⟩
  all_goals
    apply h.move (c := s.count + 1) hpc
    · simp [hsucc, counted]
    · simp [hne, hzero, token]
    · exact h.spin.move (by simp [hpc, spinning])
    · exact h.waits.move (by simp [hpc, chained]) (by simp [hpc, waking]) (by simp [hpc, stopped])
    · simp

/-- The word is decreased. -/
theorem Inv.decrease (h : s.Inv) (hpc : s.pc i = .unlock) {pc' : MutexPc ι}
    (hpc' : s.count = 1 ∧ pc' = .idle ∨ 1 < s.count ∧ pc' = .wakeSpin) :
    ({ s.goto i pc' with count := s.count - 1 } : MutexSys ι).Inv := by
  have hne : s.count ≠ 0 := h.count_ne_zero (i := i) (by simp [hpc, counted])
  have hpos : 1 ≤ s.count.toNat := Nat.one_le_iff_ne_zero.mpr (fun e => hne (UInt32.toNat_inj.mp e))
  have hpred : (s.count - 1).toNat = s.count.toNat - 1 :=
    UInt32.toNat_sub_of_le _ _ (UInt32.le_iff_toNat_le.mpr hpos)
  have hspin : ∀ {a}, spinning a = false → Owned s.slowPathLock spinning (Function.update s.pc i a) :=
    fun ha => h.spin.move (ha.trans (by simp [hpc, spinning]))
  have hwaits : ∀ {a}, chained a = false → waking a = [] →
      WaitChain chained stopped waking s.waiters (Function.update s.pc i a) :=
    fun hc hw =>
      h.waits.move (hc.trans (by simp [hpc, chained])) (hw.trans (by simp [hpc, waking]))
        (by simp [hpc, stopped])
  rcases hpc' with ⟨hone, rfl⟩ | ⟨hmore, rfl⟩
  · apply h.move (c := s.count - 1) hpc
    · simp [hone, counted]
    · simp [hone, token]
    · exact hspin rfl
    · exact hwaits rfl rfl
    · simp
  · have hleft : s.count - 1 ≠ 0 := by
      intro e
      have htwo : 1 < s.count.toNat := UInt32.lt_iff_toNat_lt.mp hmore
      rw [e, UInt32.toNat_zero] at hpred
      omega
    apply h.move (c := s.count - 1) hpc
    · simp only [hpred, counted]
      omega
    · simp [hne, hleft, token]
    · exact hspin rfl
    · exact hwaits rfl rfl
    · simp

theorem Inv.resumed (h : s.Inv) (hpc : s.pc i = .resumed) : (s.goto i .owner).Inv := by
  apply h.move (c := s.count) hpc
  · simp [counted]
  · simp [token]
  · exact h.spin.move (by simp [hpc, spinning])
  · exact h.waits.move (by simp [hpc, chained]) (by simp [hpc, waking]) (by simp [hpc, stopped])
  · simp

theorem Inv.addWaiter (h : s.Inv) (hpc : s.pc i = .addWaiter) :
    ({ s.goto i .added with waiters := s.waiters ++ [i] } : MutexSys ι).Inv := by
  apply h.move (c := s.count) hpc
  · simp [counted]
  · simp [token]
  · exact h.spin.move (by simp [hpc, spinning])
  · exact h.waits.add (by simp [hpc, chained]) (by simp [hpc, stopped]) rfl (by simp [hpc, waking])
  · simp

/-- Where the mutex is handed over, somebody is in the wait chain. -/
theorem Inv.waiters_ne_nil (h : s.Inv) (hpc : s.pc i = .wakeOne) : s.waiters ≠ [] := by
  intro hnil
  have htoken : token (s.pc i) = 1 := by simp [hpc, token]
  have hspin : spinning (s.pc i) = true := by simp [hpc, spinning]
  have hcount : tally counted s.pc ≠ 0 := by
    intro e
    have hle := le_tally token_nonneg s.pc i
    rw [h.inHand, if_pos (h.count_eq_zero_iff.mpr e)] at hle
    omega
  have hpos : 0 < tally counted s.pc := by
    have hnn := tally_nonneg counted_nonneg s.pc
    omega
  -- the mutex and the spin lock are in the hands of `i`, so that whoever is counted has left the wait chain
  obtain ⟨j, hj⟩ := exists_of_tally_pos hpos
  have hji : j ≠ i := by
    rintro rfl
    simp [hpc, counted] at hj
  have hchained : chained (s.pc j) = true := by
    have hnot : token (s.pc j) ≠ 1 := fun e => hji (h.token_unique e htoken)
    have hnot' : spinning (s.pc j) ≠ true := fun e => hji (h.spin.unique e hspin)
    cases hjpc : s.pc j <;> simp [hjpc, counted, token, spinning, chained] at hj hnot hnot' ⊢
  -- but then somebody is making it ready, with the mutex in the hands
  rcases h.waits.awake j hchained with hj | ⟨k, hk⟩
  · rw [hnil] at hj
    exact List.not_mem_nil hj
  · rw [h.token_unique (token_of_waking hk) htoken, hpc] at hk
    exact List.not_mem_nil hk

theorem Inv.wakeOne (h : s.Inv) (hpc : s.pc i = .wakeOne) {fiber : ι} {rest : List ι}
    (hwaiters : s.waiters = fiber :: rest) :
    ({ s.goto i (.wakeUnlock fiber) with waiters := rest } : MutexSys ι).Inv := by
  have hwaits := hwaiters ▸ h.waits
  have hchained : chained (s.pc fiber) = true := hwaits.chain fiber List.mem_cons_self
  have hne : fiber ≠ i := by
    rintro rfl
    simp [hpc, chained] at hchained
  -- a fiber that is still before `splk.unlock()` would hold the spin lock of `i`
  have hstopped : stopped (s.pc fiber) = true := by
    have hspin : spinning (s.pc fiber) ≠ true := fun e => hne (h.spin.unique e (by simp [hpc, spinning]))
    cases hfpc : s.pc fiber <;> simp [hfpc, chained, spinning, stopped] at hchained hspin ⊢
  apply h.move (c := s.count) hpc
  · simp [counted]
  · simp [token]
  · exact h.spin.move (by simp [hpc, spinning])
  · exact hwaits.take (by simp [hpc, chained]) (by simp [hpc, stopped]) hstopped rfl (by simp [hpc, waking])
  · simp

theorem Inv.ready (h : s.Inv) {fiber : ι} (hpc : s.pc i = .readyFiber fiber) (hhalted : s.pc fiber = .halted) :
    ((s.goto fiber .resumed).goto i .idle).Inv := by
  have hne : i ≠ fiber := by
    rintro rfl
    rw [hpc] at hhalted
    cases hhalted
  have hi : Function.update s.pc fiber .resumed i = .readyFiber fiber := by rw [Function.update_of_ne hne, hpc]
  have htally : ∀ w : MutexPc ι → Int, tally w ((s.goto fiber .resumed).goto i .idle).pc
      = tally w s.pc - w .halted + w .resumed - w (.readyFiber fiber) + w .idle := by
    intro w
    show tally w (Function.update (Function.update s.pc fiber .resumed) i .idle) = _
    rw [tally_update, tally_update, hi, hhalted]
  constructor
  case count =>
    show (s.count.toNat : Int) = _
    rw [htally, h.count]
    simp [counted]
  case inHand =>
    show _ = if s.count = 0 then 0 else 1
    rw [htally, ← h.inHand]
    simp [token]
  case spin =>
    refine Owned.move (h.spin.move (by simp [hhalted, spinning])) ?_
    show _ = spinning (Function.update s.pc fiber .resumed i)
    simp [hi, spinning]
  case waits =>
    refine h.waits.ready (by simp [hpc, waking]) hne.symm ?_ ?_ rfl rfl ?_ rfl
    · simp [hpc, chained]
    · simp [hpc, stopped]
    · simp [hhalted, waking]
  case safe =>
    refine (Function.forall_update_iff _ (fun _ pc => pc ≠ MutexPc.aborted)).mpr ⟨by simp, fun j _ => ?_⟩
    exact (Function.forall_update_iff s.pc (fun _ pc => pc ≠ .aborted)).mpr ⟨by simp, fun j _ => h.safe j⟩ j

omit [DecidableEq ι] in
/-- A fiber that is to be made ready halts, or has halted. -/
theorem Inv.target (h : s.Inv) {fiber : ι} (hpc : s.pc i = .readyFiber fiber) :
    s.pc fiber = .halting ∨ s.pc fiber = .halted := by
  have hstopped := (h.waits.target i fiber (by simp [hpc, waking])).2
  cases hfpc : s.pc fiber <;> simp [hfpc, stopped] at hstopped ⊢

/-- **Every access keeps the invariant**; in particular no check fails. -/
theorem Inv.effect {s' : MutexSys ι} {l : Option (LockEvent ι)} (h : s.Inv) (hcard : Fintype.card ι < 2 ^ 32)
    (he : s.Effect i l s') : s'.Inv := by
  cases he with
  | call hpc hmem => exact h.call hpc hmem
  | take hpc hmem hfree => exact h.take hpc hmem hfree
  | spin hpc hmem hfree => exact h.acquire hpc hmem hfree
  | unspin hpc hmem => exact h.release hpc (Or.inr hmem)
  | lucky hpc hzero => exact h.increase hcard hpc (Or.inl ⟨hzero, rfl⟩)
  | counted hpc hzero => exact h.increase hcard hpc (Or.inr ⟨hzero, rfl⟩)
  | addWaiter hpc => exact h.addWaiter hpc
  | resumed hpc =>
      rw [if_neg (h.waits.not_mem (by simp [hpc, chained]))]
      exact h.resumed hpc
  | free hpc hone => exact h.decrease hpc (Or.inl ⟨hone, rfl⟩)
  | handOver hpc hmore => exact h.decrease hpc (Or.inr ⟨hmore, rfl⟩)
  | underflow hpc hzero => exact absurd hzero (h.count_ne_zero (i := i) (by simp [hpc, counted]))
  | wakeOne hpc hwaiters => exact h.wakeOne hpc hwaiters
  | nobody hpc hnil => exact absurd hnil (h.waiters_ne_nil hpc)
  | wakeUnlock hpc => exact h.release hpc (Or.inl ⟨_, rfl⟩)
  | ready hpc hhalted => exact h.ready hpc hhalted
  | stray hpc hhalting hhalted =>
      rcases h.target hpc with hstop | hstop
      · exact absurd hstop hhalting
      · exact absurd hstop hhalted

theorem run_inv (hcard : Fintype.card ι < 2 ^ 32) {es : List (MutexEvent ι)} (h : Run step always init es s) :
    s.Inv := by
  refine h.invariant inv_init ?_
  intro s e s' hinv _ hs
  obtain ⟨i, he⟩ := step_cases hs
  exact hinv.effect hcard he

end Steps

/-! ## The mutex as an atomic lock -/

/-- Whose the mutex is where `i` has it in the hands: a fiber that has been taken out of the wait chain owns it,
    though it does not run yet. Nobody does before `WakeOne`. -/
def belongs (i : ι) : MutexPc ι → Option ι
  | .lucky | .resumed | .owner | .unlock => some i
  | .wakeUnlock fiber | .readyFiber fiber => some fiber
  | _ => none

/-- The mutex is the fiber's. -/
def Owns (s : MutexSys ι) (j : ι) : Prop := ∃ k, belongs k (s.pc k) = some j

theorem token_of_belongs {i j : ι} {pc : MutexPc ι} (h : belongs i pc = some j) : token pc = 1 := by
  cases pc <;> simp [belongs, token] at h ⊢

theorem Inv.not_owns_of_zero [Fintype ι] {s : MutexSys ι} {j : ι} (h : s.Inv) (hzero : s.count = 0) :
    ¬ s.Owns j := by
  rintro ⟨k, hk⟩
  have hle := le_tally token_nonneg s.pc k
  rw [token_of_belongs hk, h.inHand, if_pos hzero] at hle
  omega

section Ownership

variable [DecidableEq ι] {s s' : MutexSys ι} {i j : ι} {a : MutexPc ι} {l : Option (LockEvent ι)}

theorem owns_goto : (s.goto i a).Owns j ↔ belongs i a = some j ∨ ∃ k, k ≠ i ∧ belongs k (s.pc k) = some j := by
  constructor
  · rintro ⟨k, hk⟩
    by_cases hki : k = i
    · subst hki
      rw [goto_pc_self] at hk
      exact Or.inl hk
    · rw [goto_pc_of_ne s hki] at hk
      exact Or.inr ⟨k, hki, hk⟩
  · rintro (hi | ⟨k, hki, hk⟩)
    · exact ⟨i, by rwa [goto_pc_self]⟩
    · exact ⟨k, by rwa [goto_pc_of_ne s hki]⟩

theorem owns_iff (s : MutexSys ι) (i : ι) :
    s.Owns j ↔ belongs i (s.pc i) = some j ∨ ∃ k, k ≠ i ∧ belongs k (s.pc k) = some j := by
  rw [← owns_goto, goto, Function.update_eq_self]

/-- A move that leaves the mutex to whom it belongs. -/
theorem owns_goto_same (ha : belongs i a = belongs i (s.pc i)) : (s.goto i a).Owns j ↔ s.Owns j := by
  rw [owns_goto, ha, ← owns_iff]

/-- What an access does to the ownership: nothing, or somebody takes the mutex that nobody has, or the one who
    has it gives it back. -/
def Transfer (s s' : MutexSys ι) : Option (LockEvent ι) → Prop
  | none => ∀ j, s'.Owns j ↔ s.Owns j
  | some (.acquire k) => (∀ j, ¬ s.Owns j) ∧ ∀ j, s'.Owns j ↔ some k = some j
  | some (.release k) => (∀ j, s.Owns j ↔ some k = some j) ∧ ∀ j, ¬ s'.Owns j

/-- The mutex is taken by `i`, or given by `i` to another fiber. -/
theorem transfer_take (hnone : ∀ j, ¬ s.Owns j) {k : ι} (ha : belongs i a = some k) :
    s.Transfer (s.goto i a) (some (.acquire k)) := by
  refine ⟨hnone, fun j => ?_⟩
  rw [owns_goto, ha]
  refine or_iff_left ?_
  rintro ⟨k, -, hk⟩
  exact hnone j ⟨k, hk⟩

variable [Fintype ι]

/-- Where the mutex is in the hands of `i`, its place says whose it is. -/
theorem Inv.owns_of_token (h : s.Inv) (hi : token (s.pc i) = 1) :
    s.Owns j ↔ belongs i (s.pc i) = some j := by
  rw [owns_iff s i]
  refine or_iff_left ?_
  rintro ⟨k, hki, hk⟩
  exact hki (h.token_unique (token_of_belongs hk) hi)

/-- The mutex is given back. -/
theorem Inv.transfer_release (h : s.Inv) (hpc : s.pc i = .unlock) (ha : belongs i a = none) :
    s.Transfer (s.goto i a) (some (.release i)) := by
  have htoken : token (s.pc i) = 1 := by simp [hpc, token]
  refine ⟨fun j => ?_, fun j => ?_⟩
  · rw [h.owns_of_token htoken, hpc]
    rfl
  · rw [owns_goto, ha]
    rintro (hj | ⟨k, hki, hk⟩)
    · cases hj
    · exact hki (h.token_unique (token_of_belongs hk) htoken)

/-- The fiber is made ready; the mutex is already its. -/
theorem Inv.transfer_ready (h : s.Inv) {fiber : ι} (hpc : s.pc i = .readyFiber fiber) (hne : fiber ≠ i) :
    s.Transfer ((s.goto fiber .resumed).goto i .idle) none := by
  have htoken : token (s.pc i) = 1 := by simp [hpc, token]
  intro j
  rw [h.owns_of_token htoken, hpc, owns_goto]
  constructor
  · rintro (hj | ⟨k, hki, hk⟩)
    · cases hj
    · by_cases hkf : k = fiber
      · subst hkf
        rwa [goto_pc_self] at hk
      · rw [goto_pc_of_ne s hkf] at hk
        exact absurd (h.token_unique (token_of_belongs hk) htoken) hki
  · intro hj
    exact Or.inr ⟨fiber, hne, by rw [goto_pc_self]; exact hj⟩

/-- **An access does to the ownership what it does to the lock.** -/
theorem Inv.transfer (h : s.Inv) (he : s.Effect i l s') : s.Transfer s' l := by
  cases he with
  | call hpc hmem =>
      refine fun j => owns_goto_same ?_
      simp only [List.mem_cons, Prod.mk.injEq, List.not_mem_nil, or_false] at hmem
      rcases hmem with ⟨rfl, rfl⟩ | ⟨rfl, rfl⟩ | ⟨rfl, rfl⟩ | ⟨rfl, rfl⟩ | ⟨rfl, rfl⟩ | ⟨rfl, rfl⟩ <;>
        simp [hpc, belongs]
  | take hpc hmem hfree => exact transfer_take (a := .owner) (fun j => h.not_owns_of_zero hfree) rfl
  | spin hpc hmem hfree =>
      refine fun j => owns_goto_same ?_
      simp only [List.mem_cons, Prod.mk.injEq, List.not_mem_nil, or_false] at hmem
      rcases hmem with ⟨rfl, rfl⟩ | ⟨rfl, rfl⟩ <;> simp [hpc, belongs]
  | unspin hpc hmem =>
      refine fun j => owns_goto_same ?_
      simp only [List.mem_cons, Prod.mk.injEq, List.not_mem_nil, or_false] at hmem
      rcases hmem with ⟨rfl, rfl⟩ | ⟨rfl, rfl⟩ <;> simp [hpc, belongs]
  | lucky hpc hzero => exact transfer_take (a := .lucky) (fun j => h.not_owns_of_zero hzero) rfl
  | counted hpc hzero => exact fun j => owns_goto_same (a := .addWaiter) (by simp [hpc, belongs])
  | addWaiter hpc => exact fun j => owns_goto_same (a := .added) (by simp [hpc, belongs])
  | resumed hpc =>
      rw [if_neg (h.waits.not_mem (by simp [hpc, chained]))]
      exact fun j => owns_goto_same (by simp [hpc, belongs])
  | free hpc hone => exact h.transfer_release (a := .idle) hpc rfl
  | handOver hpc hmore => exact h.transfer_release (a := .wakeSpin) hpc rfl
  | underflow hpc hzero => exact absurd hzero (h.count_ne_zero (i := i) (by simp [hpc, counted]))
  | @wakeOne fiber rest hpc hwaiters =>
      refine transfer_take (a := .wakeUnlock fiber) (fun j => ?_) rfl
      rw [h.owns_of_token (i := i) (by simp [hpc, token]), hpc]
      exact fun hj => by cases hj
  | nobody hpc hnil => exact absurd hnil (h.waiters_ne_nil hpc)
  | @wakeUnlock fiber hpc => exact fun j => owns_goto_same (a := .readyFiber fiber) (by simp [hpc, belongs])
  | ready hpc hhalted =>
      refine h.transfer_ready hpc ?_
      rintro rfl
      rw [hpc] at hhalted
      cases hhalted
  | stray hpc hhalting hhalted =>
      rcases h.target hpc with hstop | hstop
      · exact absurd hstop hhalting
      · exact absurd hstop hhalted

omit [Fintype ι] in
/-- The atomic lock follows: what an access does to the ownership, the lock does with its owner. -/
theorem Transfer.lockStep {owner : Option ι} (h : s.Transfer s' l) (howner : ∀ j, owner = some j ↔ s.Owns j) :
    ∃ owner', stepLabel lockStep owner l = some owner' ∧ ∀ j, owner' = some j ↔ s'.Owns j := by
  match l, h with
  | none, hsame => exact ⟨owner, rfl, fun j => (howner j).trans (hsame j).symm⟩
  | some (.acquire k), ⟨hfree, htaken⟩ =>
      obtain rfl : owner = none :=
        Option.eq_none_iff_forall_ne_some.mpr (fun j hj => hfree j ((howner j).mp hj))
      exact ⟨some k, rfl, fun j => (htaken j).symm⟩
  | some (.release k), ⟨hheld, hfree⟩ =>
      obtain rfl : owner = some k := (howner k).mpr ((hheld k).mpr rfl)
      exact ⟨none, if_pos rfl, fun j => iff_of_false (by simp) (hfree j)⟩

omit [DecidableEq ι] in
/-- Whose the mutex is has been counted. -/
theorem Inv.counted_of_owns (h : s.Inv) (hj : s.Owns j) : counted (s.pc j) = 1 := by
  obtain ⟨k, hk⟩ := hj
  -- it has the mutex in its hands, or is going to be made ready by the one who has
  have hcases : (k = j ∧ counted (s.pc k) = 1) ∨ j ∈ waking (s.pc k) := by
    cases hpc : s.pc k <;> simp [hpc, belongs, counted, waking] at hk ⊢ <;> simp [hk]
  rcases hcases with ⟨rfl, hcounted⟩ | hwoken
  · exact hcounted
  · have hstopped := (h.waits.target k j hwoken).2
    cases hpc : s.pc j <;> simp [hpc, stopped, counted] at hstopped ⊢

end Ownership

/-- **The mutex is a lock.** In every run no check fails, and what the events of the run do to the lock is a
    run of the atomic lock, that ends with the fiber to whom the mutex belongs as the owner. A fiber whose
    `lock` has returned, and that has not given the mutex back, is the owner; one that the word does not
    count, as before its `lock` and after its `unlock`, is not. -/
theorem simulates_lock [DecidableEq ι] [Fintype ι] (hcard : Fintype.card ι < 2 ^ 32) {es : List (MutexEvent ι)}
    {s : MutexSys ι} (h : Run step always init es s) :
    (∀ j, s.pc j ≠ .aborted)
      ∧ ∃ owner, Run lockStep always none (trace step commits init es) owner
        ∧ (∀ j, owner = some j ↔ s.Owns j)
        ∧ ∀ j, (s.pc j = .owner ∨ s.pc j = .unlock → owner = some j)
          ∧ (counted (s.pc j) = 0 → owner ≠ some j) := by
  have hinv := run_inv hcard h
  have hstart : (init : MutexSys ι).Inv ∧ ∀ j, (none : Option ι) = some j ↔ (init : MutexSys ι).Owns j :=
    ⟨inv_init, fun j => iff_of_false (by simp) (inv_init.not_owns_of_zero rfl)⟩
  obtain ⟨owner, hrun, -, howner⟩ := h.trace_run lockStep commits
    (R := fun s owner => s.Inv ∧ ∀ j, owner = some j ↔ s.Owns j) hstart
    (fun s owner e s' hR _ hs => by
      obtain ⟨i, he⟩ := step_cases hs
      obtain ⟨owner', hstep, howner'⟩ := (hR.1.transfer he).lockStep hR.2
      exact ⟨owner', hstep, hR.1.effect hcard he, howner'⟩)
  refine ⟨hinv.safe, owner, hrun, howner, fun j => ⟨fun hj => (howner j).mpr ⟨j, ?_⟩, fun hj hown => ?_⟩⟩
  · rcases hj with hj | hj
    · rw [hj]
      rfl
    · rw [hj]
      rfl
  · have hcounted := hinv.counted_of_owns ((howner j).mp hown)
    omega

/-- A fiber waits, is made ready and returns with the mutex, while the one that unlocks it goes on: of the
    seventeen events three do something to the lock, and the last of them is done for the fiber that waits. -/
theorem simulates_lock_handOver : ∃ s : MutexSys (Fin 2),
    Run step always init [.lock 0, .run 0, .lock 1, .run 1, .run 1, .run 1, .run 1, .run 1, .run 1, .run 1,
      .unlock 0, .run 0, .run 0, .run 0, .run 0, .run 0, .run 1] s
      ∧ s.pc 0 = .idle ∧ s.pc 1 = .owner ∧ (∀ j, s.pc j ≠ .aborted) ∧ s.Owns 1
      ∧ Run lockStep always none [.acquire 0, .release 0, .acquire 1] (some (1 : Fin 2)) := by
  have hrun : Run step always (init : MutexSys (Fin 2))
      [.lock 0, .run 0, .lock 1, .run 1, .run 1, .run 1, .run 1, .run 1, .run 1, .run 1,
        .unlock 0, .run 0, .run 0, .run 0, .run 0, .run 0, .run 1] _ :=
    run_of_forall (fun _ _ _ => trivial) rfl
  obtain ⟨hsafe, owner, htrace, howner, hplaces⟩ := simulates_lock (by decide) hrun
  obtain rfl : owner = some 1 := (hplaces 1).1 (Or.inl rfl)
  exact ⟨_, hrun, rfl, rfl, hsafe, (howner 1).mp rfl, htrace⟩

/-! ## Calls come to an end -/

/-- How many accesses the call may still make, with those of the fiber that makes this one ready. -/
def rank : MutexPc ι → Int
  | .lock => 9
  | .lockSlow => 8
  | .spin => 7
  | .counting => 6
  | .addWaiter | .unlock => 5
  | .added | .wakeSpin => 4
  | .halting | .wakeOne => 3
  | .halted | .wakeUnlock _ => 2
  | .lucky | .resumed | .readyFiber _ => 1
  | .idle | .owner | .aborted => 0

theorem rank_nonneg (pc : MutexPc ι) : 0 ≤ rank pc := by cases pc <;> simp [rank]

theorem rank_le (pc : MutexPc ι) : rank pc ≤ 9 := by cases pc <;> simp [rank]

section Settle

variable [DecidableEq ι] {s s' : MutexSys ι} {i : ι} {l : Option (LockEvent ι)}

theorem rank_goto {a : MutexPc ι} (ha : rank a < rank (s.pc i)) :
    rank ((s.goto i a).pc i) < rank (s.pc i) ∧ ∀ j, rank ((s.goto i a).pc j) ≤ rank (s.pc j) := by
  refine ⟨by rwa [goto_pc_self], fun j => ?_⟩
  by_cases hj : j = i
  · subst hj
    rw [goto_pc_self]
    omega
  · rw [goto_pc_of_ne s hj]

/-- **An access of a call brings the call closer to its end**, and no other one further away. -/
theorem rank_effect (he : s.Effect i l s') (hidle : s.pc i ≠ .idle) (howner : s.pc i ≠ .owner) :
    rank (s'.pc i) < rank (s.pc i) ∧ ∀ j, rank (s'.pc j) ≤ rank (s.pc j) := by
  cases he with
  | call hpc hmem =>
      refine rank_goto ?_
      simp only [List.mem_cons, Prod.mk.injEq, List.not_mem_nil, or_false] at hmem
      rcases hmem with ⟨rfl, rfl⟩ | ⟨rfl, rfl⟩ | ⟨rfl, rfl⟩ | ⟨rfl, rfl⟩ | ⟨rfl, rfl⟩ | ⟨rfl, rfl⟩
      · exact absurd hpc hidle
      · exact absurd hpc howner
      · exact absurd hpc hidle
      all_goals simp [hpc, rank]
  | take hpc hmem hfree =>
      refine rank_goto (a := .owner) ?_
      simp only [List.mem_cons, List.not_mem_nil, or_false] at hmem
      rcases hmem with rfl | rfl | rfl
      · exact absurd hpc hidle
      all_goals simp [hpc, rank]
  | spin hpc hmem hfree =>
      refine rank_goto ?_
      simp only [List.mem_cons, Prod.mk.injEq, List.not_mem_nil, or_false] at hmem
      rcases hmem with ⟨rfl, rfl⟩ | ⟨rfl, rfl⟩ <;> simp [hpc, rank]
  | unspin hpc hmem =>
      refine rank_goto ?_
      simp only [List.mem_cons, Prod.mk.injEq, List.not_mem_nil, or_false] at hmem
      rcases hmem with ⟨rfl, rfl⟩ | ⟨rfl, rfl⟩ <;> simp [hpc, rank]
  | lucky hpc => exact rank_goto (a := .lucky) (by simp [hpc, rank])
  | counted hpc => exact rank_goto (a := .addWaiter) (by simp [hpc, rank])
  | addWaiter hpc => exact rank_goto (a := .added) (by simp [hpc, rank])
  | resumed hpc =>
      refine rank_goto ?_
      split <;> simp [hpc, rank]
  | free hpc => exact rank_goto (a := .idle) (by simp [hpc, rank])
  | handOver hpc => exact rank_goto (a := .wakeSpin) (by simp [hpc, rank])
  | underflow hpc => exact rank_goto (a := .aborted) (by simp [hpc, rank])
  | @wakeOne fiber rest hpc => exact rank_goto (a := .wakeUnlock fiber) (by simp [hpc, rank])
  | nobody hpc => exact rank_goto (a := .aborted) (by simp [hpc, rank])
  | @wakeUnlock fiber hpc => exact rank_goto (a := .readyFiber fiber) (by simp [hpc, rank])
  | @ready fiber hpc hhalted =>
      have hne : i ≠ fiber := by
        rintro rfl
        rw [hpc] at hhalted
        cases hhalted
      have hself : (s.goto fiber .resumed).pc i = s.pc i := goto_pc_of_ne s hne .resumed
      obtain ⟨-, hwoken⟩ := rank_goto (s := s) (i := fiber) (a := .resumed) (by simp [hhalted, rank])
      obtain ⟨hless, hothers⟩ :=
        rank_goto (s := s.goto fiber .resumed) (i := i) (a := .idle) (by simp [hself, hpc, rank])
      exact ⟨hself ▸ hless, fun j => (hothers j).trans (hwoken j)⟩
  | stray hpc => exact rank_goto (a := .aborted) (by simp [hpc, rank])

theorem rank_run (h : s.run i = some s') :
    rank (s'.pc i) < rank (s.pc i) ∧ ∀ j, rank (s'.pc j) ≤ rank (s.pc j) := by
  refine rank_effect (run_cases h) ?_ ?_
  · intro hpc
    simp [run, hpc] at h
  · intro hpc
    simp [run, hpc] at h

/-- What a call may still do goes down with each of its accesses. -/
theorem count_add_rank {es : List (MutexEvent ι)} (h : Run step (fun _ e => ∃ i, e = .run i) s es s') (i : ι) :
    (es.count (.run i) : Int) + rank (s'.pc i) ≤ rank (s.pc i) := by
  induction h with
  | nil => simp
  | @snoc es s₁ e s₂ hrun hok hs ih =>
      obtain ⟨k, rfl⟩ := hok
      obtain ⟨hself, hothers⟩ := rank_run hs
      have hi := hothers i
      rw [List.count_append, List.count_singleton]
      by_cases hk : k = i
      · subst hk
        simp only [beq_self_eq_true, if_true]
        omega
      · have hne : (MutexEvent.run k == MutexEvent.run i) = false := by simpa using hk
        simp only [hne, Bool.false_eq_true, if_false]
        omega

variable [Fintype ι]

theorem length_add_rank {es : List (MutexEvent ι)} (h : Run step (fun _ e => ∃ i, e = .run i) s es s') :
    (es.length : Int) + tally rank s'.pc ≤ tally rank s.pc := by
  induction h with
  | nil => simp
  | @snoc es s₁ e s₂ hrun hok hs ih =>
      obtain ⟨i, rfl⟩ := hok
      obtain ⟨hself, hothers⟩ := rank_run hs
      have hless : tally rank s₂.pc < tally rank s₁.pc := tally_lt hothers hself
      rw [List.length_append, List.length_singleton]
      omega

omit [Fintype ι] in
/-- The holder of the spin lock can go on. -/
theorem run_of_spinning (h : spinning (s.pc i) = true) : s.run i ≠ none := by
  unfold run
  cases hpc : s.pc i <;> simp [hpc, spinning] at h ⊢
  cases s.waiters <;> simp

/-- **Where nobody can go on**, every fiber is between two calls or has been halted. -/
theorem Inv.settled (h : s.Inv) (hstop : ∀ i, s.run i = none) (i : ι) :
    s.pc i = .idle ∨ s.pc i = .owner ∨ s.pc i = .halted := by
  have hfree : s.slowPathLock = none := by
    rw [Option.eq_none_iff_forall_ne_some]
    exact fun k hk => run_of_spinning ((h.spin k).mp hk) (hstop k)
  have hi := hstop i
  cases hpc : s.pc i with
  | idle => exact Or.inl rfl
  | owner => exact Or.inr (Or.inl rfl)
  | halted => exact Or.inr (Or.inr rfl)
  | aborted => exact absurd hpc (h.safe i)
  | readyFiber fiber =>
      rcases h.target hpc with hfiber | hfiber
      · have hf := hstop fiber
        simp [run, hfiber] at hf
      · simp [run, hpc, hfiber] at hi
  | wakeOne => exact absurd hi (run_of_spinning (by simp [hpc, spinning]))
  | spin | wakeSpin => simp [run, hpc, hfree] at hi
  | lock | lockSlow | counting | lucky | addWaiter | added | halting | resumed | unlock => simp [run, hpc] at hi
  | wakeUnlock fiber => simp [run, hpc] at hi

end Settle

/-- **Calls come to an end.** From every state that can be reached, each call that is under way makes no more
    than nine accesses, in whatever order the fibers take turns. Where none of them can go on, each fiber is
    outside of a call or has been halted by `lock`, and if one is halted, then another one is the owner and
    has not unlocked. -/
theorem calls_settle [DecidableEq ι] [Fintype ι] (hcard : Fintype.card ι < 2 ^ 32) {es : List (MutexEvent ι)}
    {s : MutexSys ι} (h : Run step always init es s) :
    (∀ es' s', Run step (fun _ e => ∃ i, e = .run i) s es' s' →
        (∀ i, es'.count (.run i) ≤ 9) ∧ es'.length ≤ 9 * Fintype.card ι)
      ∧ ((∀ i, s.run i = none) → (∀ i, s.pc i = .idle ∨ s.pc i = .owner ∨ s.pc i = .halted)
        ∧ ((∃ i, s.pc i = .halted) → ∃! j, s.pc j = .owner)) := by
  have hinv := run_inv hcard h
  constructor
  · intro es' s' hrun
    constructor
    · intro i
      have hmeasure := count_add_rank hrun i
      have hnonneg := rank_nonneg (s'.pc i)
      have hle := rank_le (s.pc i)
      omega
    · have hmeasure := length_add_rank hrun
      have hnonneg := tally_nonneg rank_nonneg s'.pc
      have hall := tally_le_card rank_le s.pc
      omega
  · intro hstop
    have hsettled := hinv.settled hstop
    refine ⟨hsettled, ?_⟩
    rintro ⟨i, hi⟩
    have hone : tally token s.pc = 1 := by
      rw [hinv.inHand, if_neg (hinv.count_ne_zero (i := i) (by simp [hi, counted]))]
    obtain ⟨j, hj⟩ := exists_of_tally_pos (by omega : 0 < tally token s.pc)
    have howner : s.pc j = .owner := by
      rcases hsettled j with hpc | hpc | hpc
      · simp [hpc, token] at hj
      · exact hpc
      · simp [hpc, token] at hj
    refine ⟨j, howner, fun k hk => hinv.token_unique ?_ ?_⟩
    · simp [hk, token]
    · simp [howner, token]

/-- The second fiber makes seven accesses, the first one none, and then neither can go on: the second one has
    been halted, and waits for the first one. -/
theorem calls_settle_halted : ∃ s s' : MutexSys (Fin 2),
    Run step always init [.lock 0, .run 0, .lock 1] s
      ∧ Run step (fun _ e => ∃ i, e = .run i) s
        [.run 1, .run 1, .run 1, .run 1, .run 1, .run 1, .run 1] s'
      ∧ (∀ es' s', Run step (fun _ e => ∃ i, e = .run i) s es' s' →
        (∀ i, es'.count (.run i) ≤ 9) ∧ es'.length ≤ 18)
      ∧ (∀ i, s'.run i = none) ∧ s'.pc 1 = .halted ∧ ∃! j, s'.pc j = .owner := by
  have hrun : Run step always (init : MutexSys (Fin 2)) [.lock 0, .run 0, .lock 1] _ :=
    run_of_forall (fun _ _ _ => trivial) rfl
  have hrest : Run step always (init : MutexSys (Fin 2))
      [.lock 0, .run 0, .lock 1, .run 1, .run 1, .run 1, .run 1, .run 1, .run 1, .run 1] _ :=
    run_of_forall (fun _ _ _ => trivial) rfl
  obtain ⟨hbound, -⟩ := calls_settle (by decide) hrun
  rw [Fintype.card_fin] at hbound
  obtain ⟨-, hsettle⟩ := calls_settle (by decide) hrest
  refine ⟨_, _, hrun, run_of_forall ?_ rfl, hbound, Fin.forall_fin_two.mpr ⟨rfl, rfl⟩, rfl, ?_⟩
  · exact fun e he s => ⟨1, List.eq_of_mem_replicate (n := 7) he⟩
  · exact (hsettle (Fin.forall_fin_two.mpr ⟨rfl, rfl⟩)).2 ⟨1, rfl⟩

end MutexSys

end ZhiCache
