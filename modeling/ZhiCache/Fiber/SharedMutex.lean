import ZhiCache.Lib.Machines
import Mathlib.Algebra.Order.Group.Int
import Mathlib.Logic.Function.Basic

/-!
# `Fiber.SharedMutex` — the reader-writer lock of fibers

`flare::fiber::SharedMutex` keeps one atomic number, `reader_quota_`. A reader takes 1 from it, a writer takes
`kMaxReaders`, so that the number is positive exactly while no writer has come. A writer that finds readers
waits until all of those have left; a reader that finds a writer waits until it has been granted the lock by
the writer's `unlock`. Both wait at one condition variable, under `wakeup_lock_`, and count in
`exited_readers_` and `newly_granted_readers_` whom they wait for. `SharedSys` is such a lock with the fibers
that call it.

The two `Mutex`es are taken as the atomic locks that they have been shown to be. `wait` puts the fiber into
the wait chain of the condition variable, unlocks and halts; `notify_all` first takes all the fibers out of
the chain and then makes them ready one by one. The two loops over `compare_exchange_weak` may begin anew for
no reason; this is an event of its own (`spurious`).

`commits` says at which access a call takes effect. `Effect` says once what an access can do, the failed checks
included; `Fiber.SharedRuns` shows what holds in every run.
-/

namespace ZhiCache

open Lib

/-- `kMaxReaders`. -/
def kMaxReaders : Int := 0x3fffffff

/-- What a fiber waits for at `wakeup_cv_`. -/
inductive Waits where
  /-- `WaitForRead`: to be granted the lock. -/
  | read
  /-- `lock`: that `pending_readers` readers have left. -/
  | write (pendingReaders : Int)
  deriving DecidableEq

/-- Who calls `notify_all`. -/
inductive Notifier where
  | wakeupWriter
  | unlock
  deriving DecidableEq

/-- Where a fiber stands. -/
inductive SharedPc (ι : Type) where
  | idle
  /-- `try_lock_shared`: has read `was`, before `compare_exchange_weak`. -/
  | tryShared (was : Int)
  /-- Before `wakeup_lock_` is taken. -/
  | wait (what : Waits)
  /-- With `wakeup_lock_`, before the predicate is evaluated. -/
  | test (what : Waits)
  /-- In the wait chain, before `lock.unlock()`. -/
  | added (what : Waits)
  /-- Before `Halt` has left the fiber and unlocked its `scheduler_lock`. -/
  | halting (what : Waits)
  | halted (what : Waits)
  /-- Made ready by `notify_all`, before `TryRemoveWaiter`. -/
  | resumed (what : Waits)
  /-- The predicate held; before `wakeup_lock_` is given back. -/
  | passed (what : Waits)
  /-- `lock_shared` or `try_lock_shared` has returned with the lock. -/
  | reading
  /-- `WakeupWriter`: before `wakeup_lock_` is taken. -/
  | wakeupWriter
  /-- With `wakeup_lock_`, before `exited_readers_` is increased. -/
  | exiting
  /-- `lock`: before `writer_lock_` is taken. -/
  | lock
  /-- With `writer_lock_`, before `reader_quota_` is decreased. -/
  | subtract
  /-- `try_lock`: with `writer_lock_`, before `reader_quota_` is read. -/
  | tryLoad
  /-- Has read `kMaxReaders`, before `compare_exchange_weak`. -/
  | tryCas
  /-- Before `writer_lock_` is given back. -/
  | tryFailed
  /-- `lock` or `try_lock` has returned with the lock. -/
  | writing
  /-- `unlock`: before `wakeup_lock_` is taken. -/
  | unlock
  /-- With `wakeup_lock_`, before `reader_quota_` is increased. -/
  | restore
  /-- Before `newly_granted_readers_` is set. -/
  | grant (was : Int)
  /-- `notify_all`: has taken `fibers` out of the wait chain. -/
  | notifyAll (who : Notifier) (fibers : List ι)
  /-- Has the `fibers` still to make ready. -/
  | readyFibers (who : Notifier) (fibers : List ι)
  /-- `unlock`: before `writer_lock_` is given back. -/
  | unlockWriter
  /-- Before `wakeup_lock_` is given back. -/
  | leave
  /-- A check has failed. -/
  | aborted
  deriving DecidableEq

/-- Where the caller of `notify_all` goes on. -/
@[simp] def Notifier.next {ι : Type} : Notifier → SharedPc ι
  | .wakeupWriter => .leave
  | .unlock => .unlockWriter

/-- A reader-writer lock and the fibers that use it. -/
structure SharedSys (ι : Type) where
  readerQuota : Int
  exitedReaders : Int
  newlyGrantedReaders : Int
  wakeupLock : Option ι
  writerLock : Option ι
  /-- The wait chain of `wakeup_cv_`. -/
  waiters : List ι
  pc : ι → SharedPc ι

/-- What can happen. -/
inductive SharedEvent (ι : Type) where
  | lock (i : ι)
  | tryLock (i : ι)
  | unlock (i : ι)
  | lockShared (i : ι)
  | tryLockShared (i : ι)
  | unlockShared (i : ι)
  /-- The next access of a call that is under way. -/
  | run (i : ι)
  /-- The next access is a `compare_exchange_weak` that fails though it finds what it expects. -/
  | spurious (i : ι)
  deriving DecidableEq

/-- The fiber that makes the access. -/
def SharedEvent.fiber {ι : Type} : SharedEvent ι → ι
  | .lock i | .tryLock i | .unlock i | .lockShared i | .tryLockShared i | .unlockShared i => i
  | .run i | .spurious i => i

/-- An access that is counted: it is part of a call that is under way, and no spurious failure. -/
def SharedEvent.isRun {ι : Type} : SharedEvent ι → Bool
  | .run _ => true
  | _ => false

namespace SharedSys

variable {ι : Type} [DecidableEq ι]

/-- Nobody has called anything. -/
def init : SharedSys ι := ⟨kMaxReaders, 0, 0, none, none, [], fun _ => .idle⟩

/-- The fiber goes on. -/
def goto (s : SharedSys ι) (i : ι) (pc : SharedPc ι) : SharedSys ι := { s with pc := Function.update s.pc i pc }

theorem goto_pc_self (s : SharedSys ι) (i : ι) (pc : SharedPc ι) : (s.goto i pc).pc i = pc :=
  Function.update_self (β := fun _ => SharedPc ι) i pc s.pc

theorem goto_pc_of_ne (s : SharedSys ι) {i j : ι} (h : j ≠ i) (pc : SharedPc ι) : (s.goto i pc).pc j = s.pc j :=
  Function.update_of_ne (β := fun _ => SharedPc ι) h pc s.pc

/-- `lock_shared`, up to the wait. -/
def lockShared (s : SharedSys ι) (i : ι) : SharedSys ι :=
  { s.goto i (if 1 < s.readerQuota then (if s.readerQuota ≤ kMaxReaders then .reading else .aborted)
      else if s.readerQuota = 1 then .aborted else .wait .read) with
    readerQuota := s.readerQuota - 1 }

/-- `try_lock_shared`: what follows on reading `was`. -/
def tryShared (was : Int) : SharedPc ι :=
  if ¬ was ≤ kMaxReaders then .aborted
  else if was = 1 then .aborted
  else if was ≤ 0 then .idle
  else .tryShared was

/-- `unlock_shared`, up to `WakeupWriter`. -/
def unlockShared (s : SharedSys ι) (i : ι) : SharedSys ι :=
  { s.goto i (if 0 < s.readerQuota then (if s.readerQuota < kMaxReaders then .idle else .aborted)
      else .wakeupWriter) with
    readerQuota := s.readerQuota + 1 }

/-- `lock`: `reader_quota_` is decreased. -/
def subtract (s : SharedSys ι) (i : ι) : SharedSys ι :=
  { s.goto i (if s.readerQuota = kMaxReaders then .writing
      else if s.readerQuota < kMaxReaders ∧ 0 < s.readerQuota then .wait (.write (kMaxReaders - s.readerQuota))
      else .aborted) with
    readerQuota := s.readerQuota - kMaxReaders }

/-- `unlock`: `reader_quota_` is increased. -/
def restore (s : SharedSys ι) (i : ι) : SharedSys ι :=
  { s.goto i (if 0 < s.readerQuota + kMaxReaders ∧ s.readerQuota ≤ 0 then
        (if s.readerQuota = 0 then .unlockWriter else .grant s.readerQuota)
      else .aborted) with
    readerQuota := s.readerQuota + kMaxReaders }

/-- The predicate does not hold: `AddWaiter`. -/
def addWaiter (s : SharedSys ι) (i : ι) (what : Waits) : SharedSys ι :=
  { s.goto i (.added what) with waiters := s.waiters ++ [i] }

/-- The predicates, and what `lock` does after the wait. -/
def test (s : SharedSys ι) (i : ι) : Waits → SharedSys ι
  | .read =>
    if s.newlyGrantedReaders ≠ 0 then
      { s.goto i (.passed .read) with newlyGrantedReaders := s.newlyGrantedReaders - 1 }
    else s.addWaiter i .read
  | .write pendingReaders =>
    if s.exitedReaders = pendingReaders then
      { s.goto i (.passed (.write pendingReaders)) with exitedReaders := 0 }
    else s.addWaiter i (.write pendingReaders)

/-- `wakeup_lock_` is taken, when it is free. -/
def takeWakeup (s : SharedSys ι) (i : ι) (pc : SharedPc ι) : Option (SharedSys ι) :=
  if s.wakeupLock = none then some { s.goto i pc with wakeupLock := some i } else none

/-- `ReadyFiber` on the first of the `fibers`; it waits for the fiber's `scheduler_lock`. -/
def readyFiber (s : SharedSys ι) (i : ι) (who : Notifier) (fiber : ι) (rest : List ι) : Option (SharedSys ι) :=
  match s.pc fiber with
  | .added _ | .halting _ => none
  | .halted what => some ((s.goto fiber (.resumed what)).goto i (.readyFibers who rest))
  -- a fiber that is not waiting is put into the run queue
  | _ => some (s.goto i .aborted)

/-- The next access of the fiber; none when it has to wait, or is not in a call. -/
def run (s : SharedSys ι) (i : ι) : Option (SharedSys ι) :=
  match s.pc i with
  | .tryShared was =>
    if s.readerQuota = was then some { s.goto i .reading with readerQuota := s.readerQuota - 1 }
    else some (s.goto i (tryShared s.readerQuota))
  | .wait what => s.takeWakeup i (.test what)
  | .test what => some (s.test i what)
  | .added what => some { s.goto i (.halting what) with wakeupLock := none }
  | .halting what => some (s.goto i (.halted what))
  | .resumed what => some { s.goto i (.wait what) with waiters := s.waiters.erase i }
  | .passed .read => some { s.goto i .reading with wakeupLock := none }
  | .passed (.write _) => some { s.goto i .writing with wakeupLock := none }
  | .wakeupWriter => s.takeWakeup i .exiting
  | .exiting =>
    some { s.goto i (if 0 ≤ s.exitedReaders then .notifyAll .wakeupWriter [] else .aborted) with
      exitedReaders := s.exitedReaders + 1 }
  | .lock => if s.writerLock = none then some { s.goto i .subtract with writerLock := some i } else none
  | .subtract => some (s.subtract i)
  | .tryLoad => some (s.goto i (if s.readerQuota = kMaxReaders then .tryCas else .tryFailed))
  | .tryCas =>
    if s.readerQuota = kMaxReaders then some { s.goto i .writing with readerQuota := 0 }
    else some (s.goto i .tryFailed)
  | .tryFailed => some { s.goto i .idle with writerLock := none }
  | .unlock => s.takeWakeup i .restore
  | .restore => some (s.restore i)
  | .grant was => some { s.goto i (.notifyAll .unlock []) with newlyGrantedReaders := - was }
  | .notifyAll who fibers =>
    match s.waiters with
    | [] => some (s.goto i (.readyFibers who fibers))
    | fiber :: rest => some { s.goto i (.notifyAll who (fibers ++ [fiber])) with waiters := rest }
  | .readyFibers who [] => some (s.goto i who.next)
  | .readyFibers who (fiber :: rest) => s.readyFiber i who fiber rest
  | .unlockWriter => some { s.goto i .leave with writerLock := none }
  | .leave => some { s.goto i .idle with wakeupLock := none }
  | .idle | .halted _ | .reading | .writing | .aborted => none

/-- `compare_exchange_weak` fails with the value unchanged: the loop begins anew with what has been read. -/
def spurious (s : SharedSys ι) (i : ι) : Option (SharedSys ι) :=
  match s.pc i with
  | .tryShared was => if s.readerQuota = was then some (s.goto i (tryShared s.readerQuota)) else none
  | .tryCas => if s.readerQuota = kMaxReaders then some (s.goto i .tryCas) else none
  | _ => none

/-- The system after an event; none when the event is not possible. -/
def step (s : SharedSys ι) : SharedEvent ι → Option (SharedSys ι)
  | .lock i => if s.pc i = .idle then some (s.goto i .lock) else none
  | .tryLock i =>
    if s.pc i = .idle then
      if s.writerLock = none then some { s.goto i .tryLoad with writerLock := some i }
      else some (s.goto i .idle)
    else none
  | .unlock i => if s.pc i = .writing then some (s.goto i .unlock) else none
  | .lockShared i => if s.pc i = .idle then some (s.lockShared i) else none
  | .tryLockShared i => if s.pc i = .idle then some (s.goto i (tryShared s.readerQuota)) else none
  | .unlockShared i => if s.pc i = .reading then some (s.unlockShared i) else none
  | .run i => s.run i
  | .spurious i => s.spurious i

/-- What the event does to the reader-writer lock that `SharedMutex` stands for, if anything. A reader comes
    in with its subtraction, or when it finds that it has been granted the lock, and leaves with its addition;
    a writer comes in with its subtraction when there are no readers, or when it finds that all have left, and
    leaves with its addition. -/
def commits (s : SharedSys ι) : SharedEvent ι → Option (RwEvent ι)
  | .lockShared i => if 1 < s.readerQuota then some (.acquireShared i) else none
  | .unlockShared i => some (.releaseShared i)
  | .run i =>
    match s.pc i with
    | .tryShared was => if s.readerQuota = was then some (.acquireShared i) else none
    | .test .read => if s.newlyGrantedReaders ≠ 0 then some (.acquireShared i) else none
    | .test (.write pendingReaders) => if s.exitedReaders = pendingReaders then some (.acquire i) else none
    | .subtract | .tryCas => if s.readerQuota = kMaxReaders then some (.acquire i) else none
    | .restore => some (.release i)
    | _ => none
  | .lock _ | .tryLock _ | .unlock _ | .tryLockShared _ | .spurious _ => none

end SharedSys

/-! ## What an access can do -/

namespace SharedPc

/-- The moves that touch no shared variable. -/
inductive Silent {ι : Type} : SharedPc ι → SharedPc ι → Prop where
  | lock : Silent .idle .lock
  | tryLock : Silent .idle .idle
  | tryLoad : Silent .tryLoad .tryCas
  | tryLoadFailed : Silent .tryLoad .tryFailed
  | tryCasFailed : Silent .tryCas .tryFailed
  | unlock : Silent .writing .unlock
  | halt (what) : Silent (.halting what) (.halted what)
  | notified (who) : Silent (.readyFibers who []) who.next

/-- The moves that take `wakeup_lock_`. -/
inductive TakesWakeup {ι : Type} : SharedPc ι → SharedPc ι → Prop where
  | wait (what) : TakesWakeup (.wait what) (.test what)
  | wakeupWriter : TakesWakeup .wakeupWriter .exiting
  | unlock : TakesWakeup .unlock .restore

/-- The moves that give `wakeup_lock_` back. -/
inductive GivesWakeup {ι : Type} : SharedPc ι → SharedPc ι → Prop where
  | wait (what) : GivesWakeup (.added what) (.halting what)
  | read : GivesWakeup (.passed .read) .reading
  | write (pendingReaders) : GivesWakeup (.passed (.write pendingReaders)) .writing
  | leave : GivesWakeup .leave .idle

end SharedPc

/-- What the fiber waits for has come. -/
def SharedSys.Due {ι : Type} (s : SharedSys ι) : Waits → Prop
  | .read => s.newlyGrantedReaders ≠ 0
  | .write pendingReaders => s.exitedReaders = pendingReaders

/-- The possible accesses and their effects, as a relation: what the access does to the lock, and the system
    after it. -/
inductive SharedSys.Effect {ι : Type} [DecidableEq ι] (s : SharedSys ι) (i : ι) :
    Option (RwEvent ι) → SharedSys ι → Prop where
  | silent {pc pc'} : s.pc i = pc → SharedPc.Silent pc pc' → Effect s i none (s.goto i pc')
  | look {pc} : s.pc i = pc → pc = .idle ∨ (∃ was, pc = .tryShared was ∧ was ≠ s.readerQuota) →
      Effect s i none (s.goto i (tryShared s.readerQuota))
  | enter {pc} : s.pc i = pc →
      pc = .idle ∧ 1 < s.readerQuota ∧ s.readerQuota ≤ kMaxReaders ∨ pc = .tryShared s.readerQuota →
      Effect s i (some (.acquireShared i)) { s.goto i .reading with readerQuota := s.readerQuota - 1 }
  | queue : s.pc i = .idle → s.readerQuota < 1 →
      Effect s i none { s.goto i (.wait .read) with readerQuota := s.readerQuota - 1 }
  | badEnter {l} : s.pc i = .idle → s.readerQuota = 1 ∨ kMaxReaders < s.readerQuota →
      Effect s i l { s.goto i .aborted with readerQuota := s.readerQuota - 1 }
  | exit : s.pc i = .reading → 0 < s.readerQuota → s.readerQuota < kMaxReaders →
      Effect s i (some (.releaseShared i)) { s.goto i .idle with readerQuota := s.readerQuota + 1 }
  | exitSlow : s.pc i = .reading → s.readerQuota ≤ 0 →
      Effect s i (some (.releaseShared i)) { s.goto i .wakeupWriter with readerQuota := s.readerQuota + 1 }
  | badExit : s.pc i = .reading → kMaxReaders ≤ s.readerQuota →
      Effect s i (some (.releaseShared i)) { s.goto i .aborted with readerQuota := s.readerQuota + 1 }
  | takeWakeup {pc pc'} : s.pc i = pc → SharedPc.TakesWakeup pc pc' → s.wakeupLock = none →
      Effect s i none { s.goto i pc' with wakeupLock := some i }
  | giveWakeup {pc pc'} : s.pc i = pc → SharedPc.GivesWakeup pc pc' →
      Effect s i none { s.goto i pc' with wakeupLock := none }
  | letIn : s.pc i = .test .read → s.newlyGrantedReaders ≠ 0 →
      Effect s i (some (.acquireShared i))
        { s.goto i (.passed .read) with newlyGrantedReaders := s.newlyGrantedReaders - 1 }
  | drained {pendingReaders} : s.pc i = .test (.write pendingReaders) → s.exitedReaders = pendingReaders →
      Effect s i (some (.acquire i)) { s.goto i (.passed (.write pendingReaders)) with exitedReaders := 0 }
  | addWaiter {what} : s.pc i = .test what → ¬ s.Due what → Effect s i none (s.addWaiter i what)
  | resumed {what} : s.pc i = .resumed what →
      Effect s i none { s.goto i (.wait what) with waiters := s.waiters.erase i }
  | exiting : s.pc i = .exiting → 0 ≤ s.exitedReaders →
      Effect s i none { s.goto i (.notifyAll .wakeupWriter []) with exitedReaders := s.exitedReaders + 1 }
  | badExiting : s.pc i = .exiting → s.exitedReaders < 0 →
      Effect s i none { s.goto i .aborted with exitedReaders := s.exitedReaders + 1 }
  | takeWriter {pc pc'} : s.pc i = pc → (pc, pc') ∈ [(SharedPc.lock, SharedPc.subtract), (.idle, .tryLoad)] →
      s.writerLock = none → Effect s i none { s.goto i pc' with writerLock := some i }
  | giveWriter {pc pc'} : s.pc i = pc →
      (pc, pc') ∈ [(SharedPc.tryFailed, SharedPc.idle), (.unlockWriter, .leave)] →
      Effect s i none { s.goto i pc' with writerLock := none }
  | close {pc} : s.pc i = pc → pc ∈ [SharedPc.subtract, .tryCas] → s.readerQuota = kMaxReaders →
      Effect s i (some (.acquire i)) { s.goto i .writing with readerQuota := 0 }
  | drain : s.pc i = .subtract → s.readerQuota < kMaxReaders → 0 < s.readerQuota →
      Effect s i none { s.goto i (.wait (.write (kMaxReaders - s.readerQuota))) with
        readerQuota := s.readerQuota - kMaxReaders }
  | badSubtract : s.pc i = .subtract → kMaxReaders < s.readerQuota ∨ s.readerQuota ≤ 0 →
      Effect s i none { s.goto i .aborted with readerQuota := s.readerQuota - kMaxReaders }
  | reopen : s.pc i = .restore → s.readerQuota = 0 →
      Effect s i (some (.release i)) { s.goto i .unlockWriter with readerQuota := s.readerQuota + kMaxReaders }
  | restore : s.pc i = .restore → s.readerQuota < 0 → 0 < s.readerQuota + kMaxReaders →
      Effect s i (some (.release i))
        { s.goto i (.grant s.readerQuota) with readerQuota := s.readerQuota + kMaxReaders }
  | badRestore : s.pc i = .restore → s.readerQuota + kMaxReaders ≤ 0 ∨ 0 < s.readerQuota →
      Effect s i (some (.release i)) { s.goto i .aborted with readerQuota := s.readerQuota + kMaxReaders }
  | grant {was} : s.pc i = .grant was →
      Effect s i none { s.goto i (.notifyAll .unlock []) with newlyGrantedReaders := - was }
  | wakeOne {who fibers fiber rest} : s.pc i = .notifyAll who fibers → s.waiters = fiber :: rest →
      Effect s i none { s.goto i (.notifyAll who (fibers ++ [fiber])) with waiters := rest }
  | wokeAll {who fibers} : s.pc i = .notifyAll who fibers → s.waiters = [] →
      Effect s i none (s.goto i (.readyFibers who fibers))
  | ready {who fiber rest what} : s.pc i = .readyFibers who (fiber :: rest) → s.pc fiber = .halted what →
      Effect s i none ((s.goto fiber (.resumed what)).goto i (.readyFibers who rest))
  | stray {who fiber rest} : s.pc i = .readyFibers who (fiber :: rest) →
      (∀ what, s.pc fiber ≠ .halting what ∧ s.pc fiber ≠ .halted what) → Effect s i none (s.goto i .aborted)

namespace SharedSys

section Cases

variable {ι : Type} [DecidableEq ι] {s s' : SharedSys ι} {i : ι}

theorem lockShared_effect (hpc : s.pc i = .idle) :
    s.Effect i (if 1 < s.readerQuota then some (.acquireShared i) else none) (s.lockShared i) := by
  unfold lockShared
  by_cases hmore : 1 < s.readerQuota
  · simp only [if_pos hmore]
    by_cases hle : s.readerQuota ≤ kMaxReaders
    · rw [if_pos hle]
      exact .enter hpc (Or.inl ⟨rfl, hmore, hle⟩)
    · rw [if_neg hle]
      exact .badEnter hpc (Or.inr (not_le.mp hle))
  · simp only [if_neg hmore]
    by_cases hone : s.readerQuota = 1
    · rw [if_pos hone]
      exact .badEnter hpc (Or.inl hone)
    · rw [if_neg hone]
      exact .queue hpc (by omega)

theorem unlockShared_effect (hpc : s.pc i = .reading) :
    s.Effect i (some (.releaseShared i)) (s.unlockShared i) := by
  unfold unlockShared
  by_cases hpos : 0 < s.readerQuota
  · rw [if_pos hpos]
    by_cases hlt : s.readerQuota < kMaxReaders
    · rw [if_pos hlt]
      exact .exit hpc hpos hlt
    · rw [if_neg hlt]
      exact .badExit hpc (not_lt.mp hlt)
  · rw [if_neg hpos]
    exact .exitSlow hpc (not_lt.mp hpos)

theorem subtract_effect (hpc : s.pc i = .subtract) :
    s.Effect i (if s.readerQuota = kMaxReaders then some (.acquire i) else none) (s.subtract i) := by
  unfold subtract
  by_cases hfree : s.readerQuota = kMaxReaders
  · simp only [hfree, if_true, sub_self]
    exact .close hpc (by simp) hfree
  · simp only [if_neg hfree]
    by_cases hpos : s.readerQuota < kMaxReaders ∧ 0 < s.readerQuota
    · rw [if_pos hpos]
      exact .drain hpc hpos.1 hpos.2
    · rw [if_neg hpos]
      exact .badSubtract hpc (by omega)

theorem restore_effect (hpc : s.pc i = .restore) : s.Effect i (some (.release i)) (s.restore i) := by
  unfold restore
  by_cases hrange : 0 < s.readerQuota + kMaxReaders ∧ s.readerQuota ≤ 0
  · rw [if_pos hrange]
    by_cases hzero : s.readerQuota = 0
    · rw [if_pos hzero]
      exact .reopen hpc hzero
    · rw [if_neg hzero]
      exact .restore hpc (by omega) hrange.1
  · rw [if_neg hrange]
    exact .badRestore hpc (by omega)

theorem test_effect {what : Waits} (hpc : s.pc i = .test what) :
    s.Effect i (s.commits (.run i)) (s.test i what) := by
  cases what with
  | read =>
      simp only [commits, hpc, test]
      by_cases hgranted : s.newlyGrantedReaders ≠ 0
      · rw [if_pos hgranted, if_pos hgranted]
        exact .letIn hpc hgranted
      · rw [if_neg hgranted, if_neg hgranted]
        exact .addWaiter hpc hgranted
  | write pendingReaders =>
      simp only [commits, hpc, test]
      by_cases hexited : s.exitedReaders = pendingReaders
      · rw [if_pos hexited, if_pos hexited]
        exact .drained hpc hexited
      · rw [if_neg hexited, if_neg hexited]
        exact .addWaiter hpc hexited

theorem takeWakeup_effect {pc pc' : SharedPc ι} (hpc : s.pc i = pc) (hmove : SharedPc.TakesWakeup pc pc')
    (h : s.takeWakeup i pc' = some s') : s.Effect i none s' := by
  obtain ⟨hfree, ⟨⟩⟩ := Option.ite_none_right_eq_some.mp h
  exact .takeWakeup hpc hmove hfree

theorem readyFiber_effect {who : Notifier} {fiber : ι} {rest : List ι}
    (hpc : s.pc i = .readyFibers who (fiber :: rest)) (h : s.readyFiber i who fiber rest = some s') :
    s.Effect i none s' := by
  unfold readyFiber at h
  split at h
  · cases h
  · cases h
  · rename_i what hhalted
    obtain rfl := Option.some.inj h
    exact .ready hpc hhalted
  · rename_i hadded hhalting hhalted
    obtain rfl := Option.some.inj h
    exact .stray hpc (fun what => ⟨hhalting what, hhalted what⟩)

/-- **Inversion of an access.** -/
theorem run_cases (h : s.run i = some s') : s.Effect i (s.commits (.run i)) s' := by
  unfold run at h
  cases hpc : s.pc i with
  | tryShared was =>
      simp only [commits, hpc] at h ⊢
      by_cases hsame : s.readerQuota = was
      · rw [if_pos hsame] at h ⊢
        obtain rfl := Option.some.inj h
        exact .enter hpc (Or.inr (by rw [hsame]))
      · rw [if_neg hsame] at h ⊢
        obtain rfl := Option.some.inj h
        exact .look hpc (Or.inr ⟨was, rfl, Ne.symm hsame⟩)
  | wait what =>
      simp only [commits, hpc] at h ⊢
      exact takeWakeup_effect hpc (.wait what) h
  | test what =>
      rw [hpc] at h
      obtain rfl := Option.some.inj h
      exact test_effect hpc
  | added what =>
      simp only [commits, hpc] at h ⊢
      obtain rfl := Option.some.inj h
      exact .giveWakeup hpc (.wait what)
  | halting what =>
      simp only [commits, hpc] at h ⊢
      obtain rfl := Option.some.inj h
      exact .silent hpc (.halt what)
  | resumed what =>
      simp only [commits, hpc] at h ⊢
      obtain rfl := Option.some.inj h
      exact .resumed hpc
  | passed what =>
      simp only [commits, hpc] at h ⊢
      cases what with
      | read =>
          obtain rfl := Option.some.inj h
          exact .giveWakeup hpc .read
      | write pendingReaders =>
          obtain rfl := Option.some.inj h
          exact .giveWakeup hpc (.write pendingReaders)
  | wakeupWriter =>
      simp only [commits, hpc] at h ⊢
      exact takeWakeup_effect hpc .wakeupWriter h
  | exiting =>
      simp only [commits, hpc] at h ⊢
      obtain rfl := Option.some.inj h
      by_cases hnonneg : 0 ≤ s.exitedReaders
      · rw [if_pos hnonneg]
        exact .exiting hpc hnonneg
      · rw [if_neg hnonneg]
        exact .badExiting hpc (not_le.mp hnonneg)
  | lock =>
      simp only [commits, hpc] at h ⊢
      obtain ⟨hfree, ⟨⟩⟩ := Option.ite_none_right_eq_some.mp h
      exact .takeWriter hpc (by simp) hfree
  | subtract =>
      simp only [commits, hpc] at h ⊢
      obtain rfl := Option.some.inj h
      exact subtract_effect hpc
  | tryLoad =>
      simp only [commits, hpc] at h ⊢
      obtain rfl := Option.some.inj h
      split
      · exact .silent hpc .tryLoad
      · exact .silent hpc .tryLoadFailed
  | tryCas =>
      simp only [commits, hpc] at h ⊢
      by_cases hfree : s.readerQuota = kMaxReaders
      · rw [if_pos hfree] at h ⊢
        obtain rfl := Option.some.inj h
        exact .close hpc (by simp) hfree
      · rw [if_neg hfree] at h ⊢
        obtain rfl := Option.some.inj h
        exact .silent hpc .tryCasFailed
  | tryFailed =>
      simp only [commits, hpc] at h ⊢
      obtain rfl := Option.some.inj h
      exact .giveWriter hpc (by simp)
  | unlock =>
      simp only [commits, hpc] at h ⊢
      exact takeWakeup_effect hpc .unlock h
  | restore =>
      simp only [commits, hpc] at h ⊢
      obtain rfl := Option.some.inj h
      exact restore_effect hpc
  | grant was =>
      simp only [commits, hpc] at h ⊢
      obtain rfl := Option.some.inj h
      exact .grant hpc
  | notifyAll who fibers =>
      simp only [commits, hpc] at h ⊢
      cases hw : s.waiters with
      | nil =>
          simp only [hw] at h
          obtain rfl := Option.some.inj h
          exact .wokeAll hpc hw
      | cons fiber rest =>
          simp only [hw] at h
          obtain rfl := Option.some.inj h
          exact .wakeOne hpc hw
  | readyFibers who fibers =>
      simp only [commits, hpc] at h ⊢
      cases fibers with
      | nil =>
          obtain rfl := Option.some.inj h
          exact .silent hpc (.notified who)
      | cons fiber rest => exact readyFiber_effect hpc h
  | unlockWriter =>
      simp only [commits, hpc] at h ⊢
      obtain rfl := Option.some.inj h
      exact .giveWriter hpc (by simp)
  | leave =>
      simp only [commits, hpc] at h ⊢
      obtain rfl := Option.some.inj h
      exact .giveWakeup hpc .leave
  | idle => simp [hpc] at h
  | halted what => simp [hpc] at h
  | reading => simp [hpc] at h
  | writing => simp [hpc] at h
  | aborted => simp [hpc] at h

theorem spurious_cases (h : s.spurious i = some s') :
    s.pc i = .tryShared s.readerQuota ∧ s' = s.goto i (tryShared s.readerQuota)
      ∨ s.pc i = .tryCas ∧ s' = s.goto i .tryCas := by
  unfold spurious at h
  split at h
  · rename_i was hpc
    obtain ⟨hsame, ⟨⟩⟩ := Option.ite_none_right_eq_some.mp h
    exact Or.inl ⟨hsame ▸ hpc, rfl⟩
  · rename_i hpc
    obtain ⟨-, ⟨⟩⟩ := Option.ite_none_right_eq_some.mp h
    exact Or.inr ⟨hpc, rfl⟩
  · cases h

/-- An event is an access, or a spurious failure of one. -/
theorem step_cases {e : SharedEvent ι} (h : s.step e = some s') :
    s.Effect e.fiber (s.commits e) s' ∨ ∃ i, e = .spurious i ∧ s.spurious i = some s' := by
  cases e with
  | spurious i => exact Or.inr ⟨i, rfl, h⟩
  | run i => exact Or.inl (run_cases h)
  | lock i =>
      obtain ⟨hpc, ⟨⟩⟩ := Option.ite_none_right_eq_some.mp h
      exact Or.inl (.silent hpc .lock)
  | tryLock i =>
      obtain ⟨hpc, h⟩ := Option.ite_none_right_eq_some.mp h
      split at h
      · rename_i hfree
        obtain rfl := Option.some.inj h
        exact Or.inl (.takeWriter hpc (by simp) hfree)
      · obtain rfl := Option.some.inj h
        exact Or.inl (.silent hpc .tryLock)
  | unlock i =>
      obtain ⟨hpc, ⟨⟩⟩ := Option.ite_none_right_eq_some.mp h
      exact Or.inl (.silent hpc .unlock)
  | lockShared i =>
      obtain ⟨hpc, ⟨⟩⟩ := Option.ite_none_right_eq_some.mp h
      exact Or.inl (lockShared_effect hpc)
  | tryLockShared i =>
      obtain ⟨hpc, ⟨⟩⟩ := Option.ite_none_right_eq_some.mp h
      exact Or.inl (.look hpc (Or.inl rfl))
  | unlockShared i =>
      obtain ⟨hpc, ⟨⟩⟩ := Option.ite_none_right_eq_some.mp h
      exact Or.inl (unlockShared_effect hpc)

/-- The accesses of a fiber leave the others where they are, up to those that they make ready. -/
theorem Effect.others {l : Option (RwEvent ι)} (h : s.Effect i l s') {k : ι} (hk : k ≠ i) :
    s'.pc k = s.pc k ∨ ∃ what, s.pc k = .halted what ∧ s'.pc k = .resumed what := by
  cases h with
  | @ready who fiber rest what hpc hhalted =>
      rw [goto_pc_of_ne _ hk]
      by_cases hkf : k = fiber
      · subst hkf
        exact Or.inr ⟨what, hhalted, goto_pc_self s k _⟩
      · exact Or.inl (goto_pc_of_ne s hkf _)
  | _ => exact Or.inl (goto_pc_of_ne s hk _)

end Cases

end SharedSys

end ZhiCache
