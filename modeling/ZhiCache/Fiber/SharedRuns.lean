import ZhiCache.Fiber.SharedMutex
import ZhiCache.Lib.Machines
import ZhiCache.Lib.Run

/-!
# `Fiber.SharedRuns` — runs of the reader-writer lock

What holds of `SharedMutex` however the calls of its fibers interleave.

* The three numbers are a ledger of where the fibers stand, in each of the three phases of the writer: none has
  come, one waits for the readers, one writes (`Ledger.Ok`).
* No check fails, no number leaves its type, and what the calls do to the lock, in the order in which they take
  effect, is a run of an atomic reader-writer lock (`simulates_rwlock`).
-/

namespace ZhiCache

open Lib

/-! ## The ledger -/

/-- The three numbers of the lock, and how many fibers stand where. -/
structure Ledger where
  quota : Int
  granted : Int
  exited : Int
  /-- Readers that have the lock. -/
  active : Int
  /-- Readers that wait to be granted the lock. -/
  waiting : Int
  /-- Readers that have left and are not counted in `exited` yet. -/
  leaving : Int
  /-- Writers that wait for readers. -/
  draining : Int
  /-- For how many readers they wait. -/
  pending : Int
  /-- Writers that have the lock. -/
  writing : Int
  /-- What is to be written to `granted`. -/
  promised : Int

namespace Ledger

/-- **The accounts agree**: over all phases the quota, and in each phase who may come in and who is waited
    for. -/
structure Ok (l : Ledger) : Prop where
  quota : l.quota = kMaxReaders - l.active - l.waiting - kMaxReaders * (l.draining + l.writing)
  granted : 0 ≤ l.granted
  exited : 0 ≤ l.exited
  /-- No writer has come, or it has left. -/
  away : l.draining + l.writing = 0 → l.exited = 0 ∧ l.leaving = 0 ∧ l.waiting = l.granted + l.promised
  /-- A writer waits for the readers that were there when it came. Some of them may have been granted the lock
      and not know it yet, and a reader that has come later may go in their place. -/
  drain : l.draining = 1 →
    l.active + l.granted + l.exited + l.leaving = l.pending ∧ l.granted ≤ l.waiting ∧ l.promised = 0
  write : l.writing = 1 →
    l.active = 0 ∧ l.granted = 0 ∧ l.exited = 0 ∧ l.leaving = 0 ∧ l.pending = 0 ∧ l.promised = 0
  promise : 0 < l.promised → l.granted = 0
  pending : l.pending < kMaxReaders

/-- What holds of any fibers, whatever the numbers are: there are less than `kMaxReaders` fibers, and one of
    them at most is a writer. -/
structure Bounds (l : Ledger) : Prop where
  active : 0 ≤ l.active
  waiting : 0 ≤ l.waiting
  leaving : 0 ≤ l.leaving
  draining : 0 ≤ l.draining
  writing : 0 ≤ l.writing
  promised : 0 ≤ l.promised
  readers : l.active + l.waiting < kMaxReaders
  writer : l.draining + l.writing ≤ 1

variable {l : Ledger}

/-- The quota is positive exactly while no writer has come. -/
theorem Ok.quota_pos_iff (h : l.Ok) (hb : l.Bounds) : 0 < l.quota ↔ l.draining + l.writing = 0 := by
  have hquota := h.quota
  obtain ⟨ha, hw, hl, hd, hm, hp, hreaders, hwriter⟩ := hb
  unfold kMaxReaders at *
  omega

/-- A reader gets the lock at once. -/
theorem Ok.enter (h : l.Ok) (hb : l.Bounds) (hq : 0 < l.quota) :
    ({ l with quota := l.quota - 1, active := l.active + 1 } : Ledger).Ok := by
  have hnone := (h.quota_pos_iff hb).mp hq
  obtain ⟨hquota, hgranted, hexited, haway, hdrain, hwrite, hpromise, hpending⟩ := h
  obtain ⟨ha, hw, hl, hd, hm, hp, hreaders, hwriter⟩ := hb
  constructor <;> simp only <;> omega

/-- A reader has to wait. -/
theorem Ok.queue (h : l.Ok) (hb : l.Bounds) (hq : ¬ 0 < l.quota) :
    ({ l with quota := l.quota - 1, waiting := l.waiting + 1 } : Ledger).Ok := by
  have hsome := mt (h.quota_pos_iff hb).mpr hq
  obtain ⟨hquota, hgranted, hexited, haway, hdrain, hwrite, hpromise, hpending⟩ := h
  obtain ⟨ha, hw, hl, hd, hm, hp, hreaders, hwriter⟩ := hb
  constructor <;> simp only <;> omega

/-- A waiting reader has been granted the lock. -/
theorem Ok.letIn (h : l.Ok) (hb : l.Bounds) (hgrant : l.granted ≠ 0) :
    ({ l with granted := l.granted - 1, active := l.active + 1, waiting := l.waiting - 1 } : Ledger).Ok := by
  obtain ⟨hquota, hgranted, hexited, haway, hdrain, hwrite, hpromise, hpending⟩ := h
  obtain ⟨ha, hw, hl, hd, hm, hp, hreaders, hwriter⟩ := hb
  constructor <;> simp only <;> omega

/-- A reader leaves, and no writer waits for it. -/
theorem Ok.exit (h : l.Ok) (hb : l.Bounds) (hq : 0 < l.quota) :
    ({ l with quota := l.quota + 1, active := l.active - 1 } : Ledger).Ok := by
  have hnone := (h.quota_pos_iff hb).mp hq
  obtain ⟨hquota, hgranted, hexited, haway, hdrain, hwrite, hpromise, hpending⟩ := h
  obtain ⟨ha, hw, hl, hd, hm, hp, hreaders, hwriter⟩ := hb
  constructor <;> simp only <;> omega

/-- A reader leaves, and a writer waits for it. -/
theorem Ok.exitSlow (h : l.Ok) (hb : l.Bounds) (hq : ¬ 0 < l.quota) (hread : 1 ≤ l.active) :
    ({ l with quota := l.quota + 1, active := l.active - 1, leaving := l.leaving + 1 } : Ledger).Ok := by
  have hsome := mt (h.quota_pos_iff hb).mpr hq
  obtain ⟨hquota, hgranted, hexited, haway, hdrain, hwrite, hpromise, hpending⟩ := h
  obtain ⟨ha, hw, hl, hd, hm, hp, hreaders, hwriter⟩ := hb
  constructor <;> simp only <;> omega

/-- A reader that has left is counted. -/
theorem Ok.exiting (h : l.Ok) (hb : l.Bounds) (hleave : 1 ≤ l.leaving) :
    ({ l with exited := l.exited + 1, leaving := l.leaving - 1 } : Ledger).Ok := by
  obtain ⟨hquota, hgranted, hexited, haway, hdrain, hwrite, hpromise, hpending⟩ := h
  obtain ⟨ha, hw, hl, hd, hm, hp, hreaders, hwriter⟩ := hb
  constructor <;> simp only <;> omega

/-- A writer comes, and finds nobody. -/
theorem Ok.close (h : l.Ok) (hb : l.Bounds) (hq : l.quota = kMaxReaders)
    (hnone : l.draining = 0 ∧ l.writing = 0 ∧ l.pending = 0 ∧ l.promised = 0) :
    ({ l with quota := 0, writing := l.writing + 1 } : Ledger).Ok := by
  obtain ⟨hquota, hgranted, hexited, haway, hdrain, hwrite, hpromise, hpending⟩ := h
  obtain ⟨ha, hwait, hl, -, -, hp, hreaders, hwriter⟩ := hb
  unfold kMaxReaders at *
  constructor <;> simp only [kMaxReaders] <;> omega

/-- A writer comes, and finds readers. -/
theorem Ok.drain_start (h : l.Ok) (hb : l.Bounds)
    (hnone : l.draining = 0 ∧ l.writing = 0 ∧ l.pending = 0 ∧ l.promised = 0) :
    ({ l with quota := l.quota - kMaxReaders, draining := l.draining + 1,
              pending := l.pending + (kMaxReaders - l.quota) } : Ledger).Ok := by
  obtain ⟨hquota, hgranted, hexited, haway, hdrain, hwrite, hpromise, hpending⟩ := h
  obtain ⟨ha, hw, hl, hd, hm, hp, hreaders, hwriter⟩ := hb
  unfold kMaxReaders at *
  constructor <;> simp only [kMaxReaders] <;> omega

/-- The readers that a writer has waited for have left. -/
theorem Ok.drained (h : l.Ok) (hb : l.Bounds) (hd : l.draining = 1) (hw : l.writing = 0)
    (hall : l.exited = l.pending) :
    ({ l with exited := 0, draining := 0, pending := 0, writing := 1 } : Ledger).Ok := by
  obtain ⟨hquota, hgranted, hexited, haway, hdrain, hwrite, hpromise, hpending⟩ := h
  obtain ⟨ha, hwait, hl, -, -, hp, hreaders, hwriter⟩ := hb
  unfold kMaxReaders at *
  constructor <;> simp only [kMaxReaders, forall_const, true_and] <;> omega

/-- A writer leaves, and readers wait: how many there are is what it is about to grant. -/
theorem Ok.restore (h : l.Ok) (hm : l.writing = 1) (hd : l.draining = 0) :
    ({ l with quota := l.quota + kMaxReaders, writing := 0, promised := - l.quota } : Ledger).Ok := by
  obtain ⟨hquota, hgranted, hexited, haway, hdrain, hwrite, hpromise, hpending⟩ := h
  unfold kMaxReaders at *
  constructor <;> simp only [kMaxReaders] <;> omega

/-- The lock is granted to those who wait for it. -/
theorem Ok.grant (h : l.Ok) (hnone : l.draining = 0 ∧ l.writing = 0) (hpromised : 0 < l.promised) :
    ({ l with granted := l.promised, promised := 0 } : Ledger).Ok := by
  obtain ⟨hquota, hgranted, hexited, haway, hdrain, hwrite, hpromise, hpending⟩ := h
  constructor <;> simp only <;> omega

end Ledger

/-! ## The invariant -/

namespace SharedPc

variable {ι : Type}

@[simp] def active : SharedPc ι → Int
  | .reading | .passed .read => 1
  | _ => 0

@[simp] def waiting : SharedPc ι → Int
  | .wait .read | .test .read | .added .read | .halting .read | .halted .read | .resumed .read => 1
  | _ => 0

@[simp] def leaving : SharedPc ι → Int
  | .wakeupWriter | .exiting => 1
  | _ => 0

@[simp] def draining : SharedPc ι → Int
  | .wait (.write _) | .test (.write _) | .added (.write _) | .halting (.write _) | .halted (.write _)
  | .resumed (.write _) => 1
  | _ => 0

@[simp] def pending : SharedPc ι → Int
  | .wait (.write p) | .test (.write p) | .added (.write p) | .halting (.write p) | .halted (.write p)
  | .resumed (.write p) => p
  | _ => 0

@[simp] def exclusive : SharedPc ι → Int
  | .passed (.write _) | .writing | .unlock | .restore => 1
  | _ => 0

@[simp] def promised : SharedPc ι → Int
  | .grant was => - was
  | _ => 0

/-- What the fiber contributes to the ledger. -/
@[simp] def weigh (pc : SharedPc ι) : List Int :=
  [active pc, waiting pc, leaving pc, draining pc, pending pc, exclusive pc, promised pc]

theorem active_nonneg (pc : SharedPc ι) : 0 ≤ active pc := by unfold active; split <;> simp

theorem waiting_nonneg (pc : SharedPc ι) : 0 ≤ waiting pc := by unfold waiting; split <;> simp

theorem leaving_nonneg (pc : SharedPc ι) : 0 ≤ leaving pc := by unfold leaving; split <;> simp

theorem draining_nonneg (pc : SharedPc ι) : 0 ≤ draining pc := by unfold draining; split <;> simp

theorem exclusive_nonneg (pc : SharedPc ι) : 0 ≤ exclusive pc := by unfold exclusive; split <;> simp

/-- The fiber holds `wakeup_lock_`. -/
@[simp] def wakeupHeld : SharedPc ι → Bool
  | .test _ | .added _ | .passed _ | .exiting | .restore | .grant _ | .notifyAll _ _ | .readyFibers _ _
  | .unlockWriter | .leave => true
  | _ => false

/-- The fiber holds `writer_lock_`. -/
@[simp] def writerHeld : SharedPc ι → Bool
  | .wait (.write _) | .test (.write _) | .added (.write _) | .halting (.write _) | .halted (.write _)
  | .resumed (.write _) | .passed (.write _) | .subtract | .tryLoad | .tryCas | .tryFailed | .writing | .unlock
  | .restore | .grant _ | .notifyAll .unlock _ | .readyFibers .unlock _ | .unlockWriter => true
  | _ => false

theorem active_add_waiting_le_one (pc : SharedPc ι) : active pc + waiting pc ≤ 1 := by
  cases pc <;> (try cases ‹Waits›) <;> simp

theorem draining_add_exclusive_le_one (pc : SharedPc ι) : draining pc + exclusive pc ≤ 1 := by
  cases pc <;> (try cases ‹Waits›) <;> simp

/-- A writer holds `writer_lock_`. -/
theorem not_writer (pc : SharedPc ι) (h : writerHeld pc = false) :
    draining pc = 0 ∧ exclusive pc = 0 ∧ pending pc = 0 ∧ promised pc = 0 := by
  cases pc <;> (try cases ‹Waits›) <;> simp at h ⊢

/-- What a fiber in the wait chain waits for. -/
@[simp] def wants : SharedPc ι → Option Waits
  | .added what | .halting what | .halted what => some what
  | _ => none

/-- The fiber has been put into the wait chain. -/
@[simp] def chained (pc : SharedPc ι) : Bool := pc.wants.isSome

/-- The fiber halts, or has halted. -/
@[simp] def stopped : SharedPc ι → Bool
  | .halting _ | .halted _ => true
  | _ => false

/-- The fibers that are going to be made ready. -/
@[simp] def waking : SharedPc ι → List ι
  | .notifyAll _ fibers | .readyFibers _ fibers => fibers
  | _ => []

/-- The fiber is about to empty the wait chain. -/
@[simp] def notifying : SharedPc ι → Bool
  | .notifyAll _ _ => true
  | _ => false

/-- What a fiber has read of the quota is in its range, and no check has failed. -/
def Sound : SharedPc ι → Prop
  | .tryShared was => 1 < was
  | .grant was => was < 0
  | .aborted => False
  | _ => True

end SharedPc

namespace SharedSys

open SharedPc (active waiting leaving draining pending exclusive promised weigh wakeupHeld writerHeld wants
  chained stopped waking notifying Sound)

variable {ι : Type} [Fintype ι]

/-- The ledger of a state. -/
def ledger (s : SharedSys ι) : Ledger where
  quota := s.readerQuota
  granted := s.newlyGrantedReaders
  exited := s.exitedReaders
  active := tally active s.pc
  waiting := tally waiting s.pc
  leaving := tally leaving s.pc
  draining := tally draining s.pc
  pending := tally pending s.pc
  writing := tally exclusive s.pc
  promised := tally promised s.pc

/-- **The invariant.** -/
structure Inv (s : SharedSys ι) : Prop where
  ok : s.ledger.Ok
  wakeup : Owned s.wakeupLock wakeupHeld s.pc
  writer : Owned s.writerLock writerHeld s.pc
  waits : WaitChain chained stopped waking s.waiters s.pc
  /-- Where the time of somebody in the wait chain has come, `notify_all` is under way. -/
  awake : ∀ j ∈ s.waiters, ∀ what, wants (s.pc j) = some what → s.Due what → ∃ k, notifying (s.pc k) = true
  sound : ∀ j, Sound (s.pc j)

theorem inv_init : (init : SharedSys ι).Inv where
  ok := by
    constructor <;>
      simp [init, ledger, tally_const, kMaxReaders]
  wakeup := fun j => by simp [init]
  writer := fun j => by simp [init]
  waits := waitChain_start rfl rfl
  awake := fun j hj => absurd hj List.not_mem_nil
  sound := fun _ => trivial

section Steps

variable {s : SharedSys ι} {i : ι}

/-- A weight that only the holder of `writer_lock_` has. -/
theorem Inv.tally_le_one (h : s.Inv) {w : SharedPc ι → Int} (hw : ∀ pc, writerHeld pc = false → w pc = 0)
    (hone : ∀ pc, w pc ≤ 1) : tally w s.pc ≤ 1 := by
  cases hlock : s.writerLock with
  | none =>
      have hfree : Owned none writerHeld s.pc := hlock ▸ h.writer
      rw [hfree.tally_eq_zero hw]
      decide
  | some i =>
      rw [h.writer.tally_eq ((h.writer i).mp hlock) hw]
      exact hone _

theorem Inv.bounds (h : s.Inv) (hcard : Fintype.card ι < kMaxReaders) : s.ledger.Bounds where
  active := tally_nonneg SharedPc.active_nonneg s.pc
  waiting := tally_nonneg SharedPc.waiting_nonneg s.pc
  leaving := tally_nonneg SharedPc.leaving_nonneg s.pc
  draining := tally_nonneg SharedPc.draining_nonneg s.pc
  writing := tally_nonneg SharedPc.exclusive_nonneg s.pc
  promised := by
    refine Finset.sum_nonneg (fun j _ => ?_)
    have hj := h.sound j
    cases hpc : s.pc j <;> simp only [hpc, promised, Sound] at hj ⊢ <;> omega
  readers := by
    have hall : tally (fun pc => active pc + waiting pc) s.pc ≤ 1 * Fintype.card ι := by
      exact tally_le_card SharedPc.active_add_waiting_le_one s.pc
    rw [tally_add] at hall
    show tally active s.pc + tally waiting s.pc < kMaxReaders
    omega
  writer := by
    show tally draining s.pc + tally exclusive s.pc ≤ 1
    rw [← tally_add]
    refine h.tally_le_one (fun pc hpc => ?_) SharedPc.draining_add_exclusive_le_one
    obtain ⟨hdraining, hexclusive, -, -⟩ := pc.not_writer hpc
    rw [hdraining, hexclusive]
    rfl

/-- The holder of `writer_lock_` is the only writer. -/
theorem Inv.alone (h : s.Inv) (hi : writerHeld (s.pc i) = true) :
    s.ledger.draining = draining (s.pc i) ∧ s.ledger.writing = exclusive (s.pc i)
      ∧ s.ledger.pending = pending (s.pc i) ∧ s.ledger.promised = promised (s.pc i) :=
  ⟨h.writer.tally_eq hi (fun pc hpc => (pc.not_writer hpc).1),
    h.writer.tally_eq hi (fun pc hpc => (pc.not_writer hpc).2.1),
    h.writer.tally_eq hi (fun pc hpc => (pc.not_writer hpc).2.2.1),
    h.writer.tally_eq hi (fun pc hpc => (pc.not_writer hpc).2.2.2)⟩

/-- A fiber that is not a reader never finds the quota at 1, nor above `kMaxReaders`. -/
theorem Inv.quota_range (h : s.Inv) (hcard : Fintype.card ι < kMaxReaders)
    (hi : active (s.pc i) + waiting (s.pc i) = 0) : s.readerQuota ≤ kMaxReaders ∧ s.readerQuota ≠ 1 := by
  have hquota : s.readerQuota = _ := h.ok.quota
  obtain ⟨ha, hw, hl, hd, hm, hp, hreaders, hwriter⟩ := h.bounds hcard
  have hless : s.ledger.active + s.ledger.waiting < Fintype.card ι := by
    have hlt := tally_lt_card SharedPc.active_add_waiting_le_one hi
    rwa [tally_add] at hlt
  unfold kMaxReaders at *
  omega

variable [DecidableEq ι] {s' : SharedSys ι} {pc a : SharedPc ι}

/-- A move that leaves the ledger as it is. -/
theorem ledger_same (hs' : s'.pc = Function.update s.pc i a) (hpc : s.pc i = pc) (hw : weigh a = weigh pc)
    (hnumbers : s'.readerQuota = s.readerQuota ∧ s'.newlyGrantedReaders = s.newlyGrantedReaders
      ∧ s'.exitedReaders = s.exitedReaders) : s'.ledger = s.ledger := by
  obtain ⟨hquota, hgranted, hexited⟩ := hnumbers
  simp only [weigh, List.cons.injEq, and_true] at hw
  simp only [ledger, hs', tally_update, hpc, hw, hquota, hgranted, hexited, sub_add_cancel]

theorem Inv.ok_same (h : s.Inv) (hs' : s'.pc = Function.update s.pc i a) (hpc : s.pc i = pc)
    (hw : weigh a = weigh pc) (hnumbers : s'.readerQuota = s.readerQuota
      ∧ s'.newlyGrantedReaders = s.newlyGrantedReaders ∧ s'.exitedReaders = s.exitedReaders) :
    s'.ledger.Ok := by
  rw [ledger_same hs' hpc hw hnumbers]
  exact h.ok

omit [Fintype ι] [DecidableEq ι] in
theorem due_congr (hsame : s'.newlyGrantedReaders = s.newlyGrantedReaders ∧ s'.exitedReaders = s.exitedReaders)
    (what : Waits) : s'.Due what ↔ s.Due what := by
  cases what with
  | read => rw [Due, Due, hsame.1]
  | write pendingReaders => rw [Due, Due, hsame.2]

/-- A move that has nothing to do with the wait chain. -/
theorem Inv.quiet (h : s.Inv) (hs' : s'.pc = Function.update s.pc i a) (hpc : s.pc i = pc)
    (hsame : s'.waiters = s.waiters ∧ s'.newlyGrantedReaders = s.newlyGrantedReaders
      ∧ s'.exitedReaders = s.exitedReaders)
    (hchain : wants a = wants pc ∧ waking a = waking pc ∧ notifying a = notifying pc
      ∧ (stopped pc = true → stopped a = true))
    (hok : s'.ledger.Ok) (hwakeup : Owned s'.wakeupLock wakeupHeld (Function.update s.pc i a))
    (hwriter : Owned s'.writerLock writerHeld (Function.update s.pc i a)) (hsound : Sound a) : s'.Inv := by
  subst hpc
  obtain ⟨hwaiters, hnumbers⟩ := hsame
  obtain ⟨hwants, hwaking, hnotifying, hstopped⟩ := hchain
  constructor
  case ok => exact hok
  case wakeup => rwa [hs']
  case writer => rwa [hs']
  case waits =>
    rw [hs', hwaiters]
    exact h.waits.move (by rw [chained, hwants, chained]) hwaking hstopped
  case awake =>
    intro j hj what hwhat hdue
    rw [hs', shown_update hwants] at hwhat
    obtain ⟨k, hk⟩ := h.awake j (hwaiters ▸ hj) what hwhat ((due_congr hnumbers what).mp hdue)
    refine ⟨k, ?_⟩
    rwa [hs', shown_update hnotifying]
  case sound =>
    rw [hs']
    exact (Function.forall_update_iff s.pc (fun _ pc => Sound pc)).mpr ⟨hsound, fun j _ => h.sound j⟩

theorem Inv.silent (h : s.Inv) {pc' : SharedPc ι} (hpc : s.pc i = pc) (hmove : SharedPc.Silent pc pc') :
    (s.goto i pc').Inv := by
  have hsame : weigh pc' = weigh pc ∧ wakeupHeld pc' = wakeupHeld pc ∧ writerHeld pc' = writerHeld pc := by
    cases hmove <;> (try cases ‹Waits›) <;> (try cases ‹Notifier›) <;> simp
  obtain ⟨hweigh, hwakeup, hwriter⟩ := hsame
  refine h.quiet rfl hpc ⟨rfl, rfl, rfl⟩ ?_ ?_ ?_ ?_ ?_
  · cases hmove <;> (try cases ‹Notifier›) <;> simp
  · exact h.ok_same rfl hpc hweigh ⟨rfl, rfl, rfl⟩
  · exact h.wakeup.move (hwakeup.trans (by rw [hpc]))
  · exact h.writer.move (hwriter.trans (by rw [hpc]))
  · cases hmove <;> (try cases ‹Notifier›) <;> trivial

theorem Inv.look (h : s.Inv) (hcard : Fintype.card ι < kMaxReaders) (hpc : s.pc i = pc)
    (hfrom : pc = .idle ∨ ∃ was, pc = .tryShared was) : (s.goto i (tryShared s.readerQuota)).Inv := by
  have hrange : s.readerQuota ≤ kMaxReaders ∧ s.readerQuota ≠ 1 := by
    refine h.quota_range hcard (i := i) ?_
    rcases hfrom with rfl | ⟨was, rfl⟩ <;> simp [hpc]
  have hto : tryShared s.readerQuota = (.idle : SharedPc ι)
      ∨ 1 < s.readerQuota ∧ tryShared s.readerQuota = (.tryShared s.readerQuota : SharedPc ι) := by
    unfold tryShared
    rw [if_neg (not_not_intro hrange.1), if_neg hrange.2]
    split
    · exact Or.inl rfl
    · exact Or.inr ⟨by omega, rfl⟩
  have hplain : ∀ b : SharedPc ι, b = .idle ∨ (∃ was, b = .tryShared was) →
      weigh b = [0, 0, 0, 0, 0, 0, 0] ∧ wakeupHeld b = false ∧ writerHeld b = false ∧ wants b = none
        ∧ waking b = [] ∧ notifying b = false ∧ stopped b = false := by
    rintro b (rfl | ⟨was, rfl⟩) <;> simp
  obtain ⟨hweigh, hwakeup, hwriter, hwants, hwaking, hnotifying, hstopped⟩ := hplain pc hfrom
  obtain ⟨hweigh', hwakeup', hwriter', hwants', hwaking', hnotifying', hstopped'⟩ :=
    hplain (tryShared s.readerQuota) (hto.imp id (fun ⟨_, e⟩ => ⟨_, e⟩))
  refine h.quiet rfl hpc ⟨rfl, rfl, rfl⟩ ?_ ?_ ?_ ?_ ?_
  · refine ⟨hwants'.trans hwants.symm, hwaking'.trans hwaking.symm, hnotifying'.trans hnotifying.symm, ?_⟩
    intro hstop
    rw [hstopped] at hstop
    cases hstop
  · exact h.ok_same rfl hpc (hweigh'.trans hweigh.symm) ⟨rfl, rfl, rfl⟩
  · exact h.wakeup.move (by rw [hpc, hwakeup, hwakeup'])
  · exact h.writer.move (by rw [hpc, hwriter, hwriter'])
  · rcases hto with hto | ⟨hmore, hto⟩
    · rw [hto]
      trivial
    · rw [hto]
      exact hmore

theorem Inv.enter (h : s.Inv) (hcard : Fintype.card ι < kMaxReaders) (hpc : s.pc i = pc)
    (hfrom : pc = .idle ∧ 1 < s.readerQuota ∧ s.readerQuota ≤ kMaxReaders ∨ pc = .tryShared s.readerQuota) :
    ({ s.goto i .reading with readerQuota := s.readerQuota - 1 } : SharedSys ι).Inv := by
  have hmore : 1 < s.readerQuota := by
    rcases hfrom with ⟨-, hmore, -⟩ | rfl
    · exact hmore
    · have hsound := h.sound i
      rwa [hpc] at hsound
  have hok := h.ok.enter (h.bounds hcard) (show 0 < s.readerQuota by omega)
  have hfrom' : pc = .idle ∨ pc = .tryShared s.readerQuota := hfrom.imp And.left id
  rcases hfrom' with rfl | rfl
  all_goals
    refine h.quiet rfl hpc ⟨rfl, rfl, rfl⟩ ?_ ?_ ?_ ?_ trivial
    · simp
    · simpa [ledger, goto, tally_update, hpc] using hok
    · exact h.wakeup.move (by simp [hpc])
    · exact h.writer.move (by simp [hpc])

theorem Inv.queue (h : s.Inv) (hcard : Fintype.card ι < kMaxReaders) (hpc : s.pc i = .idle)
    (hnone : s.readerQuota < 1) :
    ({ s.goto i (.wait .read) with readerQuota := s.readerQuota - 1 } : SharedSys ι).Inv := by
  have hok := h.ok.queue (h.bounds hcard) (show ¬ 0 < s.readerQuota by omega)
  refine h.quiet rfl hpc ⟨rfl, rfl, rfl⟩ ?_ ?_ ?_ ?_ trivial
  · simp
  · simpa [ledger, goto, tally_update, hpc] using hok
  · exact h.wakeup.move (by simp [hpc])
  · exact h.writer.move (by simp [hpc])

theorem Inv.exit (h : s.Inv) (hcard : Fintype.card ι < kMaxReaders) (hpc : s.pc i = .reading)
    (hpos : 0 < s.readerQuota) :
    ({ s.goto i .idle with readerQuota := s.readerQuota + 1 } : SharedSys ι).Inv := by
  have hok := h.ok.exit (h.bounds hcard) hpos
  refine h.quiet rfl hpc ⟨rfl, rfl, rfl⟩ ?_ ?_ ?_ ?_ trivial
  · simp
  · simpa [ledger, goto, tally_update, hpc] using hok
  · exact h.wakeup.move (by simp [hpc])
  · exact h.writer.move (by simp [hpc])

omit [DecidableEq ι] in
/-- A reader is counted as one. -/
theorem one_le_active (hpc : s.pc i = .reading) : 1 ≤ s.ledger.active := by
  have hle := le_tally SharedPc.active_nonneg s.pc i
  rwa [hpc] at hle

theorem Inv.exitSlow (h : s.Inv) (hcard : Fintype.card ι < kMaxReaders) (hpc : s.pc i = .reading)
    (hneg : s.readerQuota ≤ 0) :
    ({ s.goto i .wakeupWriter with readerQuota := s.readerQuota + 1 } : SharedSys ι).Inv := by
  have hok := h.ok.exitSlow (h.bounds hcard) (show ¬ 0 < s.readerQuota by omega) (one_le_active hpc)
  refine h.quiet rfl hpc ⟨rfl, rfl, rfl⟩ ?_ ?_ ?_ ?_ trivial
  · simp
  · simpa [ledger, goto, tally_update, hpc] using hok
  · exact h.wakeup.move (by simp [hpc])
  · exact h.writer.move (by simp [hpc])

theorem Inv.takeWakeup (h : s.Inv) {pc' : SharedPc ι} (hpc : s.pc i = pc) (hmove : SharedPc.TakesWakeup pc pc')
    (hfree : s.wakeupLock = none) : ({ s.goto i pc' with wakeupLock := some i } : SharedSys ι).Inv := by
  have hwakeup : Owned none wakeupHeld s.pc := hfree ▸ h.wakeup
  have hsame : weigh pc' = weigh pc ∧ writerHeld pc' = writerHeld pc := by
    cases hmove <;> (try cases ‹Waits›) <;> simp
  refine h.quiet rfl hpc ⟨rfl, rfl, rfl⟩ ?_ ?_ ?_ ?_ ?_
  · cases hmove <;> simp
  · exact h.ok_same rfl hpc hsame.1 ⟨rfl, rfl, rfl⟩
  · exact hwakeup.acquire (by cases hmove <;> rfl)
  · exact h.writer.move (hsame.2.trans (by rw [hpc]))
  · cases hmove <;> trivial

theorem Inv.giveWakeup (h : s.Inv) {pc' : SharedPc ι} (hpc : s.pc i = pc)
    (hmove : SharedPc.GivesWakeup pc pc') :
    ({ s.goto i pc' with wakeupLock := none } : SharedSys ι).Inv := by
  have hsame : weigh pc' = weigh pc ∧ writerHeld pc' = writerHeld pc := by
    cases hmove <;> (try cases ‹Waits›) <;> simp
  refine h.quiet rfl hpc ⟨rfl, rfl, rfl⟩ ?_ ?_ ?_ ?_ ?_
  · cases hmove <;> simp
  · exact h.ok_same rfl hpc hsame.1 ⟨rfl, rfl, rfl⟩
  · exact h.wakeup.release (by cases hmove <;> simp [hpc]) (by cases hmove <;> rfl)
  · exact h.writer.move (hsame.2.trans (by rw [hpc]))
  · cases hmove <;> trivial

theorem Inv.resumed (h : s.Inv) {what : Waits} (hpc : s.pc i = .resumed what) :
    ({ s.goto i (.wait what) with waiters := s.waiters.erase i } : SharedSys ι).Inv := by
  have hout : i ∉ s.waiters := h.waits.not_mem (by simp [hpc])
  have hsame : weigh (SharedPc.wait (ι := ι) what) = weigh (SharedPc.resumed (ι := ι) what)
      ∧ writerHeld (SharedPc.wait (ι := ι) what) = writerHeld (SharedPc.resumed (ι := ι) what) := by
    cases what <;> simp
  refine h.quiet rfl hpc ⟨List.erase_of_not_mem hout, rfl, rfl⟩ ?_ ?_ ?_ ?_ trivial
  · simp
  · exact h.ok_same rfl hpc hsame.1 ⟨rfl, rfl, rfl⟩
  · exact h.wakeup.move (by simp [hpc])
  · exact h.writer.move (hsame.2.trans (by rw [hpc]))

theorem Inv.takeWriter (h : s.Inv) {pc' : SharedPc ι} (hpc : s.pc i = pc)
    (hmem : (pc, pc') ∈ [(SharedPc.lock, SharedPc.subtract), (.idle, .tryLoad)]) (hfree : s.writerLock = none) :
    ({ s.goto i pc' with writerLock := some i } : SharedSys ι).Inv := by
  have hwriter : Owned none writerHeld s.pc := hfree ▸ h.writer
  simp only [List.mem_cons, Prod.mk.injEq, List.not_mem_nil, or_false] at hmem
  rcases hmem with ⟨rfl, rfl⟩ | ⟨rfl, rfl⟩
  all_goals
    refine h.quiet rfl hpc ⟨rfl, rfl, rfl⟩ ?_ ?_ ?_ ?_ trivial
    · simp
    · exact h.ok_same rfl hpc rfl ⟨rfl, rfl, rfl⟩
    · exact h.wakeup.move (by simp [hpc])
    · exact hwriter.acquire rfl

theorem Inv.giveWriter (h : s.Inv) {pc' : SharedPc ι} (hpc : s.pc i = pc)
    (hmem : (pc, pc') ∈ [(SharedPc.tryFailed, SharedPc.idle), (.unlockWriter, .leave)]) :
    ({ s.goto i pc' with writerLock := none } : SharedSys ι).Inv := by
  simp only [List.mem_cons, Prod.mk.injEq, List.not_mem_nil, or_false] at hmem
  rcases hmem with ⟨rfl, rfl⟩ | ⟨rfl, rfl⟩
  all_goals
    refine h.quiet rfl hpc ⟨rfl, rfl, rfl⟩ ?_ ?_ ?_ ?_ trivial
    · simp
    · exact h.ok_same rfl hpc rfl ⟨rfl, rfl, rfl⟩
    · exact h.wakeup.move (by simp [hpc])
    · exact h.writer.release (by simp [hpc]) rfl

theorem Inv.close (h : s.Inv) (hcard : Fintype.card ι < kMaxReaders) (hpc : s.pc i = pc)
    (hmem : pc ∈ [SharedPc.subtract, .tryCas]) (hfree : s.readerQuota = kMaxReaders) :
    ({ s.goto i .writing with readerQuota := 0 } : SharedSys ι).Inv := by
  simp only [List.mem_cons, List.not_mem_nil, or_false] at hmem
  rcases hmem with rfl | rfl
  all_goals
    have halone := h.alone (i := i) (by simp [hpc])
    have hok := h.ok.close (h.bounds hcard) hfree (by simpa [hpc] using halone)
    refine h.quiet rfl hpc ⟨rfl, rfl, rfl⟩ ?_ ?_ ?_ ?_ trivial
    · simp
    · simpa [ledger, goto, tally_update, hpc] using hok
    · exact h.wakeup.move (by simp [hpc])
    · exact h.writer.move (by simp [hpc])

theorem Inv.drain (h : s.Inv) (hcard : Fintype.card ι < kMaxReaders) (hpc : s.pc i = .subtract) :
    ({ s.goto i (.wait (.write (kMaxReaders - s.readerQuota))) with
      readerQuota := s.readerQuota - kMaxReaders } : SharedSys ι).Inv := by
  have halone := h.alone (i := i) (by simp [hpc])
  have hok := h.ok.drain_start (h.bounds hcard) (by simpa [hpc] using halone)
  refine h.quiet rfl hpc ⟨rfl, rfl, rfl⟩ ?_ ?_ ?_ ?_ trivial
  · simp
  · simpa [ledger, goto, tally_update, hpc] using hok
  · exact h.wakeup.move (by simp [hpc])
  · exact h.writer.move (by simp [hpc])

omit [DecidableEq ι] in
/-- The writer that gives the quota back has the lock. -/
theorem Inv.restoring (h : s.Inv) (hpc : s.pc i = .restore) :
    tally draining s.pc = 0 ∧ tally exclusive s.pc = 1 ∧ tally promised s.pc = 0 := by
  obtain ⟨hdraining, hwriting, -, hpromised⟩ := h.alone (i := i) (by simp [hpc])
  rw [hpc] at hdraining hwriting hpromised
  exact ⟨hdraining, hwriting, hpromised⟩

theorem Inv.reopen (h : s.Inv) (hpc : s.pc i = .restore) (hzero : s.readerQuota = 0) :
    ({ s.goto i .unlockWriter with readerQuota := s.readerQuota + kMaxReaders } : SharedSys ι).Inv := by
  obtain ⟨hdraining, hwriting, hpromised⟩ := h.restoring hpc
  have hok := h.ok.restore hwriting hdraining
  refine h.quiet rfl hpc ⟨rfl, rfl, rfl⟩ ?_ ?_ ?_ ?_ trivial
  · simp
  · simpa [ledger, goto, tally_update, hpc, hwriting, hpromised, hzero] using hok
  · exact h.wakeup.move (by simp [hpc])
  · exact h.writer.move (by simp [hpc])

theorem Inv.restore (h : s.Inv) (hpc : s.pc i = .restore) (hneg : s.readerQuota < 0) :
    ({ s.goto i (.grant s.readerQuota) with
        readerQuota := s.readerQuota + kMaxReaders } : SharedSys ι).Inv := by
  obtain ⟨hdraining, hwriting, hpromised⟩ := h.restoring hpc
  have hok := h.ok.restore hwriting hdraining
  refine h.quiet rfl hpc ⟨rfl, rfl, rfl⟩ ?_ ?_ ?_ ?_ hneg
  · simp
  · simpa [ledger, goto, tally_update, hpc, hwriting, hpromised] using hok
  · exact h.wakeup.move (by simp [hpc])
  · exact h.writer.move (by simp [hpc])

/-! ### Moves that concern the wait chain -/

omit [DecidableEq ι] in
/-- While the holder of `wakeup_lock_` does not notify, nobody's time in the wait chain has come. -/
theorem Inv.not_due (h : s.Inv) (hheld : wakeupHeld (s.pc i) = true) (hquiet : notifying (s.pc i) = false)
    {j : ι} (hj : j ∈ s.waiters) {what : Waits} (hwhat : wants (s.pc j) = some what) : ¬ s.Due what := by
  intro hdue
  obtain ⟨k, hk⟩ := h.awake j hj what hwhat hdue
  have hki : k = i := by
    refine h.wakeup.unique ?_ hheld
    cases hkpc : s.pc k <;> simp [hkpc] at hk ⊢
  rw [hki, hquiet] at hk
  cases hk

theorem Inv.letIn (h : s.Inv) (hcard : Fintype.card ι < kMaxReaders) (hpc : s.pc i = .test .read)
    (hgranted : s.newlyGrantedReaders ≠ 0) :
    ({ s.goto i (.passed .read) with newlyGrantedReaders := s.newlyGrantedReaders - 1 } : SharedSys ι).Inv where
  ok := by simpa [ledger, goto, tally_update, hpc] using h.ok.letIn (h.bounds hcard) hgranted
  wakeup := h.wakeup.move (by simp [hpc])
  writer := h.writer.move (by simp [hpc])
  waits := h.waits.move (by simp [hpc]) (by simp [hpc]) (by simp [hpc])
  awake := by
    intro j hj what hwhat hdue
    have hold : wants (s.pc j) = some what := (shown_update (f := wants) (by simp [hpc]) j).symm.trans hwhat
    have hnot := h.not_due (i := i) (by simp [hpc]) (by simp [hpc]) hj hold
    cases what with
    | read => exact absurd hgranted hnot
    | write pendingReaders => exact absurd hdue hnot
  sound := (Function.forall_update_iff s.pc (fun _ pc => Sound pc)).mpr ⟨trivial, fun j _ => h.sound j⟩

theorem Inv.drained (h : s.Inv) (hcard : Fintype.card ι < kMaxReaders) {pendingReaders : Int}
    (hpc : s.pc i = .test (.write pendingReaders)) (hexited : s.exitedReaders = pendingReaders) :
    ({ s.goto i (.passed (.write pendingReaders)) with exitedReaders := 0 } : SharedSys ι).Inv where
  ok := by
    obtain ⟨hdraining, hwriting, hpending, -⟩ := h.alone (i := i) (by simp [hpc])
    simp only [ledger, hpc, draining, exclusive, pending] at hdraining hwriting hpending
    have hok := h.ok.drained (h.bounds hcard) hdraining hwriting (hexited.trans hpending.symm)
    simpa [ledger, goto, tally_update, hpc, hdraining, hwriting, hpending] using hok
  wakeup := h.wakeup.move (by simp [hpc])
  writer := h.writer.move (by simp [hpc])
  waits := h.waits.move (by simp [hpc]) (by simp [hpc]) (by simp [hpc])
  awake := by
    intro j hj what hwhat hdue
    have hold : wants (s.pc j) = some what := (shown_update (f := wants) (by simp [hpc]) j).symm.trans hwhat
    have hnot := h.not_due (i := i) (by simp [hpc]) (by simp [hpc]) hj hold
    cases what with
    | read => exact absurd hdue hnot
    | write other =>
        -- there is one writer, and it is not in the wait chain
        have hji : j = i := by
          refine h.writer.unique ?_ (by simp [hpc])
          cases hjpc : s.pc j <;> simp [hjpc] at hold ⊢ <;> simp [hold]
        rw [hji, hpc] at hold
        cases hold
  sound := (Function.forall_update_iff s.pc (fun _ pc => Sound pc)).mpr ⟨trivial, fun j _ => h.sound j⟩

theorem Inv.addWaiter (h : s.Inv) {what : Waits} (hpc : s.pc i = .test what) (hdue : ¬ s.Due what) :
    (s.addWaiter i what).Inv where
  ok := h.ok_same rfl hpc (by cases what <;> rfl) ⟨rfl, rfl, rfl⟩
  wakeup := h.wakeup.move (by simp [hpc])
  writer := h.writer.move (by cases what <;> simp [hpc])
  waits := h.waits.add (by simp [hpc]) (by simp [hpc]) (by simp) (by simp [hpc])
  awake := by
    refine (Function.forall_update_iff s.pc (fun j pc => j ∈ s.waiters ++ [i] → ∀ w, wants pc = some w →
      s.Due w → ∃ k, notifying (Function.update s.pc i (.added what) k) = true)).mpr ⟨?_, ?_⟩
    · intro _ w hw hw'
      obtain rfl : what = w := Option.some.inj hw
      exact absurd hw' hdue
    · intro j hji hj w hw hw'
      have hmem : j ∈ s.waiters := by
        rcases List.mem_append.mp hj with hj | hj
        · exact hj
        · exact absurd (List.mem_singleton.mp hj) hji
      exact absurd hw' (h.not_due (i := i) (by simp [hpc]) (by simp [hpc]) hmem hw)
  sound := (Function.forall_update_iff s.pc (fun _ pc => Sound pc)).mpr ⟨trivial, fun j _ => h.sound j⟩

theorem Inv.exiting (h : s.Inv) (hcard : Fintype.card ι < kMaxReaders) (hpc : s.pc i = .exiting) :
    ({ s.goto i (.notifyAll .wakeupWriter []) with
        exitedReaders := s.exitedReaders + 1 } : SharedSys ι).Inv where
  ok := by
    have hleave : 1 ≤ s.ledger.leaving := by
      have hle := le_tally SharedPc.leaving_nonneg s.pc i
      rwa [hpc] at hle
    simpa [ledger, goto, tally_update, hpc] using h.ok.exiting (h.bounds hcard) hleave
  wakeup := h.wakeup.move (by simp [hpc])
  writer := h.writer.move (by simp [hpc])
  waits := h.waits.move (by simp [hpc]) (by simp [hpc]) (by simp [hpc])
  awake := fun _ _ _ _ _ => ⟨i, by simp [goto]⟩
  sound := (Function.forall_update_iff s.pc (fun _ pc => Sound pc)).mpr ⟨trivial, fun j _ => h.sound j⟩

theorem Inv.grant (h : s.Inv) {was : Int} (hpc : s.pc i = .grant was) :
    ({ s.goto i (.notifyAll .unlock []) with newlyGrantedReaders := - was } : SharedSys ι).Inv where
  ok := by
    obtain ⟨hdraining, hwriting, -, hpromised⟩ := h.alone (i := i) (by simp [hpc])
    simp only [ledger, hpc, draining, exclusive, promised] at hdraining hwriting hpromised
    have hneg : was < 0 := by
      have hsound := h.sound i
      rwa [hpc] at hsound
    have hok := h.ok.grant ⟨hdraining, hwriting⟩ (show 0 < tally promised s.pc by omega)
    simpa [ledger, goto, tally_update, hpc, hpromised] using hok
  wakeup := h.wakeup.move (by simp [hpc])
  writer := h.writer.move (by simp [hpc])
  waits := h.waits.move (by simp [hpc]) (by simp [hpc]) (by simp [hpc])
  awake := fun _ _ _ _ _ => ⟨i, by simp [goto]⟩
  sound := (Function.forall_update_iff s.pc (fun _ pc => Sound pc)).mpr ⟨trivial, fun j _ => h.sound j⟩

theorem Inv.wakeOne (h : s.Inv) {who : Notifier} {fibers rest : List ι} {fiber : ι}
    (hpc : s.pc i = .notifyAll who fibers) (hwaiters : s.waiters = fiber :: rest) :
    ({ s.goto i (.notifyAll who (fibers ++ [fiber])) with waiters := rest } : SharedSys ι).Inv where
  ok := h.ok_same rfl hpc (by simp) ⟨rfl, rfl, rfl⟩
  wakeup := h.wakeup.move (by simp [hpc])
  writer := h.writer.move (by cases who <;> simp [hpc])
  waits := by
    have hwaits := hwaiters ▸ h.waits
    have hchained : chained (s.pc fiber) = true := hwaits.chain fiber List.mem_cons_self
    -- a fiber that is still before `lock.unlock()` would hold `wakeup_lock_`
    have hstopped : stopped (s.pc fiber) = true := by
      have hheld : wakeupHeld (s.pc fiber) ≠ true := by
        intro hheld
        have hfi : fiber = i := h.wakeup.unique hheld (by simp [hpc])
        simp [hfi, hpc] at hchained
      cases hfpc : s.pc fiber <;> simp [hfpc] at hchained hheld ⊢
    exact hwaits.take (by simp [hpc]) (by simp [hpc]) hstopped (by simp) (by simp [hpc])
  awake := fun _ _ _ _ _ => ⟨i, by simp [goto]⟩
  sound := (Function.forall_update_iff s.pc (fun _ pc => Sound pc)).mpr ⟨trivial, fun j _ => h.sound j⟩

theorem Inv.wokeAll (h : s.Inv) {who : Notifier} {fibers : List ι} (hpc : s.pc i = .notifyAll who fibers)
    (hnil : s.waiters = []) : (s.goto i (.readyFibers who fibers)).Inv where
  ok := h.ok_same rfl hpc (by simp) ⟨rfl, rfl, rfl⟩
  wakeup := h.wakeup.move (by simp [hpc])
  writer := h.writer.move (by cases who <;> simp [hpc])
  waits := h.waits.move (by simp [hpc]) (by simp [hpc]) (by simp [hpc])
  awake := by
    intro j hj
    rw [goto, hnil] at hj
    exact absurd hj List.not_mem_nil
  sound := (Function.forall_update_iff s.pc (fun _ pc => Sound pc)).mpr ⟨trivial, fun j _ => h.sound j⟩

theorem Inv.ready (h : s.Inv) {who : Notifier} {fiber : ι} {rest : List ι} {what : Waits}
    (hpc : s.pc i = .readyFibers who (fiber :: rest)) (hhalted : s.pc fiber = .halted what) :
    ((s.goto fiber (.resumed what)).goto i (.readyFibers who rest)).Inv := by
  have hne : i ≠ fiber := by
    rintro rfl
    rw [hpc] at hhalted
    cases hhalted
  have hi : (s.goto fiber (.resumed what)).pc i = .readyFibers who (fiber :: rest) := by
    rw [goto_pc_of_ne s hne, hpc]
  constructor
  case ok =>
    have hledger : ((s.goto fiber (.resumed what)).goto i (.readyFibers who rest)).ledger
        = (s.goto fiber (.resumed what)).ledger := ledger_same rfl hi (by simp) ⟨rfl, rfl, rfl⟩
    rw [hledger]
    exact h.ok_same rfl hhalted (by cases what <;> rfl) ⟨rfl, rfl, rfl⟩
  case wakeup =>
    refine Owned.move (h.wakeup.move (by simp [hhalted])) ?_
    show _ = wakeupHeld ((s.goto fiber (.resumed what)).pc i)
    simp [hi]
  case writer =>
    refine Owned.move (h.writer.move (by cases what <;> simp [hhalted])) ?_
    show _ = writerHeld ((s.goto fiber (.resumed what)).pc i)
    cases who <;> simp [hi]
  case waits =>
    have hwaking : waking (s.pc i) = fiber :: rest := by simp [hpc]
    exact h.waits.ready hwaking hne.symm (by simp [hpc]) (by simp [hpc]) rfl rfl (by simp [hhalted]) rfl
  case awake =>
    intro j hj w hw hdue
    have hheld : wakeupHeld (s.pc i) = true := by simp [hpc]
    -- whoever is in the wait chain stands where it stood
    have hji : j ≠ i := by
      rintro rfl
      exact h.waits.not_mem (by simp [hpc]) hj
    have hjf : j ≠ fiber := by
      rintro rfl
      exact (h.waits.target i j (by simp [hpc])).1 hj
    have hold : ((s.goto fiber (.resumed what)).goto i (.readyFibers who rest)).pc j = s.pc j := by
      rw [goto_pc_of_ne _ hji, goto_pc_of_ne s hjf]
    rw [hold] at hw
    exact absurd hdue (h.not_due hheld (by simp [hpc]) hj hw)
  case sound =>
    have hfirst : ∀ j, Sound ((s.goto fiber (.resumed what)).pc j) :=
      (Function.forall_update_iff s.pc (fun _ pc => Sound pc)).mpr ⟨trivial, fun j _ => h.sound j⟩
    exact (Function.forall_update_iff (s.goto fiber (.resumed what)).pc (fun _ pc => Sound pc)).mpr
      ⟨trivial, fun j _ => hfirst j⟩

omit [DecidableEq ι] in
/-- A fiber that is to be made ready halts, or has halted. -/
theorem Inv.target (h : s.Inv) {who : Notifier} {fiber : ι} {rest : List ι}
    (hpc : s.pc i = .readyFibers who (fiber :: rest)) :
    ∃ what, s.pc fiber = .halting what ∨ s.pc fiber = .halted what := by
  have hstopped := (h.waits.target i fiber (by simp [hpc])).2
  cases hfpc : s.pc fiber <;> simp [hfpc] at hstopped ⊢

/-- **Every access keeps the invariant**; in particular no check fails. -/
theorem Inv.effect {l : Option (RwEvent ι)} (h : s.Inv) (hcard : Fintype.card ι < kMaxReaders)
    (he : s.Effect i l s') : s'.Inv := by
  cases he with
  | silent hpc hmove => exact h.silent hpc hmove
  | look hpc hfrom => exact h.look hcard hpc (hfrom.imp id (fun ⟨was, e, _⟩ => ⟨was, e⟩))
  | enter hpc hfrom => exact h.enter hcard hpc hfrom
  | queue hpc hnone => exact h.queue hcard hpc hnone
  | badEnter hpc hbad =>
      have hrange := h.quota_range hcard (i := i) (by simp [hpc])
      omega
  | exit hpc hpos => exact h.exit hcard hpc hpos
  | exitSlow hpc hneg => exact h.exitSlow hcard hpc hneg
  | badExit hpc hbad =>
      have hquota : s.readerQuota = _ := h.ok.quota
      obtain ⟨ha, hw, hl, hd, hm, hp, hreaders, hwriter⟩ := h.bounds hcard
      have hread := one_le_active hpc
      unfold kMaxReaders at *
      omega
  | takeWakeup hpc hmove hfree => exact h.takeWakeup hpc hmove hfree
  | giveWakeup hpc hmove => exact h.giveWakeup hpc hmove
  | letIn hpc hgranted => exact h.letIn hcard hpc hgranted
  | drained hpc hexited => exact h.drained hcard hpc hexited
  | addWaiter hpc hdue => exact h.addWaiter hpc hdue
  | resumed hpc => exact h.resumed hpc
  | exiting hpc => exact h.exiting hcard hpc
  | badExiting hpc hbad => exact absurd h.ok.exited (not_le.mpr hbad)
  | takeWriter hpc hmem hfree => exact h.takeWriter hpc hmem hfree
  | giveWriter hpc hmem => exact h.giveWriter hpc hmem
  | close hpc hmem hfree => exact h.close hcard hpc hmem hfree
  | drain hpc => exact h.drain hcard hpc
  | badSubtract hpc hbad =>
      have hquota : s.readerQuota = _ := h.ok.quota
      obtain ⟨ha, hw, hl, hd, hm, hp, hreaders, hwriter⟩ := h.bounds hcard
      have halone := h.alone (i := i) (by simp [hpc])
      simp only [hpc, draining, exclusive] at halone
      unfold kMaxReaders at *
      omega
  | reopen hpc hzero => exact h.reopen hpc hzero
  | restore hpc hneg => exact h.restore hpc hneg
  | badRestore hpc hbad =>
      have hquota : s.readerQuota = _ := h.ok.quota
      obtain ⟨ha, hw, hl, hd, hm, hp, hreaders, hwriter⟩ := h.bounds hcard
      have halone := h.alone (i := i) (by simp [hpc])
      simp only [hpc, draining, exclusive] at halone
      unfold kMaxReaders at *
      omega
  | grant hpc => exact h.grant hpc
  | wakeOne hpc hwaiters => exact h.wakeOne hpc hwaiters
  | wokeAll hpc hnil => exact h.wokeAll hpc hnil
  | ready hpc hhalted => exact h.ready hpc hhalted
  | stray hpc hstray =>
      obtain ⟨what, hhalting | hhalted⟩ := h.target hpc
      · exact absurd hhalting (hstray what).1
      · exact absurd hhalted (hstray what).2

/-- A spurious failure changes nothing: the loop comes back to where it was. -/
theorem Inv.spurious (h : s.Inv) (hcard : Fintype.card ι < kMaxReaders) (hs : s.spurious i = some s') :
    s' = s := by
  have hself : s.goto i (s.pc i) = s := by rw [goto, Function.update_eq_self]
  rcases spurious_cases hs with ⟨hpc, rfl⟩ | ⟨hpc, rfl⟩
  · have hrange := h.quota_range hcard (i := i) (by simp [hpc])
    have hsound : 1 < s.readerQuota := by
      have hi := h.sound i
      rwa [hpc] at hi
    have hagain : tryShared s.readerQuota = s.pc i := by
      rw [hpc, tryShared, if_neg (not_not.mpr hrange.1), if_neg hrange.2, if_neg (by omega)]
    rw [hagain, hself]
  · rw [← hpc, hself]

/-- **What an event can do**: what an access can, or nothing. -/
theorem Inv.step_cases {e : SharedEvent ι} (h : s.Inv) (hcard : Fintype.card ι < kMaxReaders)
    (hs : s.step e = some s') :
    s.Effect e.fiber (s.commits e) s' ∨ (∃ i, e = .spurious i) ∧ s' = s := by
  rcases SharedSys.step_cases hs with he | ⟨i, rfl, hi⟩
  · exact Or.inl he
  · exact Or.inr ⟨⟨i, rfl⟩, h.spurious hcard hi⟩

theorem Inv.of_step {e : SharedEvent ι} (h : s.Inv) (hcard : Fintype.card ι < kMaxReaders)
    (hs : s.step e = some s') : s'.Inv := by
  rcases h.step_cases hcard hs with he | ⟨-, rfl⟩
  · exact h.effect hcard he
  · exact h

/-- An event of a fiber leaves the others where they are, up to those that it makes ready. -/
theorem Inv.others {e : SharedEvent ι} (h : s.Inv) (hcard : Fintype.card ι < kMaxReaders)
    (hs : s.step e = some s') {k : ι} (hk : k ≠ e.fiber) :
    s'.pc k = s.pc k ∨ ∃ what, s.pc k = .halted what ∧ s'.pc k = .resumed what := by
  rcases h.step_cases hcard hs with he | ⟨-, rfl⟩
  · exact he.others hk
  · exact Or.inl rfl

theorem run_inv (hcard : Fintype.card ι < kMaxReaders) {es : List (SharedEvent ι)}
    (h : Run step always init es s) : s.Inv :=
  h.invariant inv_init (fun _ _ _ hinv _ hs => hinv.of_step hcard hs)

end Steps

/-! ## The lock as an atomic reader-writer lock -/

/-- Who has the lock. -/
def abs (s : SharedSys ι) : RwLock ι where
  readers := Finset.univ.filter (fun j => active (s.pc j) = 1)
  writer := s.writerLock.filter (fun i => exclusive (s.pc i) = 1)

section Simulation

variable {s s' : SharedSys ι} {i : ι} {pc a : SharedPc ι}

theorem mem_readers {j : ι} : j ∈ s.abs.readers ↔ active (s.pc j) = 1 := by
  simp only [abs, Finset.mem_filter_univ]

theorem writer_eq_some (h : s.Inv) {j : ι} : s.abs.writer = some j ↔ exclusive (s.pc j) = 1 := by
  rw [abs, Option.filter_eq_some_iff]
  simp only [decide_eq_true_eq]
  refine and_iff_right_of_imp (fun hj => (h.writer j).mpr ?_)
  by_contra hfree
  have hnot := (s.pc j).not_writer (Bool.eq_false_iff.mpr hfree)
  omega

theorem writer_eq_none (h : s.Inv) (hw : s.ledger.writing = 0) : s.abs.writer = none := by
  rw [Option.eq_none_iff_forall_ne_some]
  intro j hj
  have hone := (writer_eq_some h).mp hj
  have hle := le_tally SharedPc.exclusive_nonneg s.pc j
  have hzero : tally exclusive s.pc = 0 := hw
  omega

theorem readers_eq_empty (h : s.ledger.active = 0) : s.abs.readers = ∅ := by
  rw [Finset.eq_empty_iff_forall_notMem]
  intro j hj
  have hle := le_tally SharedPc.active_nonneg s.pc j
  have hzero : tally active s.pc = 0 := h
  rw [mem_readers] at hj
  omega

variable [DecidableEq ι]

omit [DecidableEq ι] in
theorem writer_congr (h : s.Inv) (h' : s'.Inv) (hsame : ∀ j, exclusive (s'.pc j) = exclusive (s.pc j)) :
    s'.abs.writer = s.abs.writer := by
  ext j
  rw [writer_eq_some h, writer_eq_some h', hsame]

omit [DecidableEq ι] in
theorem readers_congr (hsame : ∀ j, active (s'.pc j) = active (s.pc j)) : s'.abs.readers = s.abs.readers := by
  ext j
  rw [mem_readers, mem_readers, hsame]

omit [Fintype ι] in
theorem same_after (hs' : s'.pc = Function.update s.pc i a) (hpc : s.pc i = pc) {f : SharedPc ι → Int}
    (ha : f a = f pc) (j : ι) : f (s'.pc j) = f (s.pc j) := by
  subst hpc
  rw [hs', shown_update ha]

/-- A move that changes nothing in who has the lock. -/
theorem abs_same (h : s.Inv) (h' : s'.Inv) (hs' : s'.pc = Function.update s.pc i a) (hpc : s.pc i = pc)
    (hactive : active a = active pc) (hexclusive : exclusive a = exclusive pc) :
    stepLabel rwStep s.abs none = some s'.abs :=
  congrArg some (RwLock.ext (readers_congr (same_after hs' hpc hactive))
    (writer_congr h h' (same_after hs' hpc hexclusive))).symm

/-- A reader comes in. -/
theorem reader_in (h : s.Inv) (h' : s'.Inv) (hs' : s'.pc = Function.update s.pc i a) (hpc : s.pc i = pc)
    (hout : active pc = 0) (hin : active a = 1) (hexclusive : exclusive a = exclusive pc)
    (hwriting : s.ledger.writing = 0) : rwStep s.abs (.acquireShared i) = some s'.abs := by
  have hnot : i ∉ s.abs.readers := by
    rw [mem_readers, hpc]
    omega
  rw [rwStep, if_pos ⟨writer_eq_none h hwriting, hnot⟩, Option.some.injEq, RwLock.ext_iff]
  refine ⟨?_, (writer_congr h h' (same_after hs' hpc hexclusive)).symm⟩
  ext j
  rw [Finset.mem_insert, mem_readers, mem_readers, hs']
  by_cases hj : j = i
  · subst hj
    rw [Function.update_self]
    exact iff_of_true (Or.inl rfl) hin
  · rw [Function.update_of_ne hj]
    exact or_iff_right hj

/-- A reader leaves. -/
theorem reader_out (h : s.Inv) (h' : s'.Inv) (hs' : s'.pc = Function.update s.pc i a) (hpc : s.pc i = pc)
    (hin : active pc = 1) (hout : active a = 0) (hexclusive : exclusive a = exclusive pc) :
    rwStep s.abs (.releaseShared i) = some s'.abs := by
  have hmem : i ∈ s.abs.readers := by
    rw [mem_readers, hpc, hin]
  rw [rwStep, if_pos hmem, Option.some.injEq, RwLock.ext_iff]
  refine ⟨?_, (writer_congr h h' (same_after hs' hpc hexclusive)).symm⟩
  ext j
  rw [Finset.mem_erase, mem_readers, mem_readers, hs']
  by_cases hj : j = i
  · subst hj
    rw [Function.update_self]
    exact iff_of_false (fun hm => hm.1 rfl) (by omega)
  · rw [Function.update_of_ne hj]
    exact and_iff_right hj

/-- A writer comes in. -/
theorem writer_in (h : s.Inv) (h' : s'.Inv) (hs' : s'.pc = Function.update s.pc i a) (hpc : s.pc i = pc)
    (hin : exclusive a = 1) (hactive : active a = active pc) (hwriting : s.ledger.writing = 0)
    (hempty : s'.ledger.active = 0) : rwStep s.abs (.acquire i) = some s'.abs := by
  have hreaders := readers_congr (same_after hs' hpc hactive)
  have hnobody : s.abs.readers = ∅ := by rw [← hreaders, readers_eq_empty hempty]
  rw [rwStep, if_pos ⟨writer_eq_none h hwriting, hnobody⟩, Option.some.injEq, RwLock.ext_iff]
  refine ⟨hreaders.symm, ((writer_eq_some h').mpr ?_).symm⟩
  rw [hs', Function.update_self, hin]

/-- A writer leaves. -/
theorem writer_out (h : s.Inv) (h' : s'.Inv) (hs' : s'.pc = Function.update s.pc i a) (hpc : s.pc i = pc)
    (hin : exclusive pc = 1) (hout : exclusive a = 0) (hactive : active a = active pc) :
    rwStep s.abs (.release i) = some s'.abs := by
  have hwriter : s.abs.writer = some i := (writer_eq_some h).mpr (by rw [hpc, hin])
  rw [rwStep, if_pos hwriter, Option.some.injEq, RwLock.ext_iff]
  refine ⟨(readers_congr (same_after hs' hpc hactive)).symm, (Option.eq_none_iff_forall_ne_some.mpr ?_).symm⟩
  intro j hj
  have hone := (writer_eq_some h').mp hj
  rw [hs'] at hone
  by_cases hji : j = i
  · subst hji
    rw [Function.update_self] at hone
    omega
  · rw [Function.update_of_ne hji] at hone
    exact hji (Option.some.inj (((writer_eq_some h).mpr hone).symm.trans hwriter))

omit [Fintype ι] in
theorem not_sound_aborted (hs' : s'.pc = Function.update s.pc i .aborted) : ¬ ∀ j, Sound (s'.pc j) := by
  intro hsound
  have hi := hsound i
  rw [hs', Function.update_self] at hi
  exact hi

/-- **What an access does to who has the lock** is what the atomic lock does. -/
theorem Inv.simulates {l : Option (RwEvent ι)} (h : s.Inv) (hcard : Fintype.card ι < kMaxReaders)
    (he : s.Effect i l s') : stepLabel rwStep s.abs l = some s'.abs := by
  have h' := h.effect hcard he
  have hquota : s.readerQuota = s.ledger.quota := rfl
  have hpos := h.ok.quota_pos_iff (h.bounds hcard)
  have hdraining : 0 ≤ s.ledger.draining := (h.bounds hcard).draining
  have hwriting : 0 ≤ s.ledger.writing := (h.bounds hcard).writing
  have hwriter : s.ledger.draining + s.ledger.writing ≤ 1 := (h.bounds hcard).writer
  cases he with
  | silent hpc hmove =>
      exact abs_same h h' rfl hpc (by cases hmove <;> (try cases ‹Notifier›) <;> rfl)
        (by cases hmove <;> (try cases ‹Notifier›) <;> rfl)
  | look hpc hfrom =>
      have hto : active (tryShared s.readerQuota : SharedPc ι) = 0
          ∧ exclusive (tryShared s.readerQuota : SharedPc ι) = 0 := by
        unfold tryShared
        split_ifs <;> exact ⟨rfl, rfl⟩
      rcases hfrom with rfl | ⟨was, rfl, -⟩ <;> exact abs_same h h' rfl hpc hto.1 hto.2
  | enter hpc hfrom =>
      refine reader_in h h' rfl hpc ?_ rfl ?_ ?_
      · rcases hfrom with ⟨rfl, -⟩ | rfl <;> rfl
      · rcases hfrom with ⟨rfl, -⟩ | rfl <;> rfl
      · have hsound := h.sound i
        have hmore : 0 < s.readerQuota := by
          rcases hfrom with ⟨-, hmore, -⟩ | rfl
          · omega
          · rw [hpc] at hsound
            exact lt_trans zero_lt_one hsound
        have hnone := hpos.mp hmore
        omega
  | queue hpc hnone => exact abs_same h h' rfl hpc rfl rfl
  | badEnter hpc hbad => exact absurd h'.sound (not_sound_aborted rfl)
  | exit hpc hpos => exact reader_out h h' rfl hpc rfl rfl rfl
  | exitSlow hpc hneg => exact reader_out h h' rfl hpc rfl rfl rfl
  | badExit hpc hbad => exact absurd h'.sound (not_sound_aborted rfl)
  | takeWakeup hpc hmove hfree =>
      exact abs_same h h' rfl hpc (by cases hmove <;> (try cases ‹Waits›) <;> rfl)
        (by cases hmove <;> (try cases ‹Waits›) <;> rfl)
  | giveWakeup hpc hmove =>
      exact abs_same h h' rfl hpc (by cases hmove <;> (try cases ‹Waits›) <;> rfl)
        (by cases hmove <;> (try cases ‹Waits›) <;> rfl)
  | letIn hpc hgranted =>
      refine reader_in h h' rfl hpc rfl rfl rfl ?_
      by_contra hsome
      exact hgranted (h.ok.write (by omega)).2.1
  | @drained pendingReaders hpc hexited =>
      obtain ⟨hone, hzero, -, -⟩ := h.alone (i := i) (by simp [hpc])
      rw [hpc] at hone hzero
      refine writer_in h h' rfl hpc rfl rfl hzero (h'.ok.write ?_).1
      rw [(h'.alone (i := i) (by simp [goto])).2.1]
      simp [goto]
  | addWaiter hpc hdue => exact abs_same h h' rfl hpc (by cases ‹Waits› <;> rfl) (by cases ‹Waits› <;> rfl)
  | resumed hpc => exact abs_same h h' rfl hpc (by cases ‹Waits› <;> rfl) (by cases ‹Waits› <;> rfl)
  | exiting hpc => exact abs_same h h' rfl hpc rfl rfl
  | badExiting hpc hbad => exact absurd h'.sound (not_sound_aborted rfl)
  | takeWriter hpc hmem hfree =>
      simp only [List.mem_cons, Prod.mk.injEq, List.not_mem_nil, or_false] at hmem
      rcases hmem with ⟨rfl, rfl⟩ | ⟨rfl, rfl⟩ <;> exact abs_same h h' rfl hpc rfl rfl
  | giveWriter hpc hmem =>
      simp only [List.mem_cons, Prod.mk.injEq, List.not_mem_nil, or_false] at hmem
      rcases hmem with ⟨rfl, rfl⟩ | ⟨rfl, rfl⟩ <;> exact abs_same h h' rfl hpc rfl rfl
  | @close pc hpc hmem hfree =>
      have hfrom : writerHeld pc = true ∧ active pc = 0 ∧ exclusive pc = 0 := by
        simp only [List.mem_cons, List.not_mem_nil, or_false] at hmem
        rcases hmem with rfl | rfl <;> exact ⟨rfl, rfl, rfl⟩
      have hzero := (h.alone (i := i) (by rw [hpc, hfrom.1])).2.1
      rw [hpc, hfrom.2.2] at hzero
      refine writer_in h h' rfl hpc rfl hfrom.2.1.symm hzero (h'.ok.write ?_).1
      rw [(h'.alone (i := i) (by simp [goto])).2.1]
      simp [goto]
  | drain hpc => exact abs_same h h' rfl hpc rfl rfl
  | badSubtract hpc hbad => exact absurd h'.sound (not_sound_aborted rfl)
  | reopen hpc hzero => exact writer_out h h' rfl hpc rfl rfl rfl
  | restore hpc hneg => exact writer_out h h' rfl hpc rfl rfl rfl
  | badRestore hpc hbad => exact absurd h'.sound (not_sound_aborted rfl)
  | grant hpc => exact abs_same h h' rfl hpc rfl rfl
  | wakeOne hpc hwaiters => exact abs_same h h' rfl hpc rfl rfl
  | wokeAll hpc hnil => exact abs_same h h' rfl hpc rfl rfl
  | @ready who fiber rest what hpc hhalted =>
      have hi : (s.goto fiber (.resumed what)).pc i = .readyFibers who (fiber :: rest) := by
        rw [goto_pc_of_ne s ?_, hpc]
        rintro rfl
        rw [hpc] at hhalted
        cases hhalted
      have hsame : ∀ f : SharedPc ι → Int, f (.resumed what) = f (.halted what) →
          f (.readyFibers who rest) = f (.readyFibers who (fiber :: rest)) →
          ∀ j, f (((s.goto fiber (.resumed what)).goto i (.readyFibers who rest)).pc j) = f (s.pc j) :=
        fun f hf hi' j => (same_after rfl hi hi' j).trans (same_after rfl hhalted hf j)
      refine congrArg some (RwLock.ext (readers_congr (hsame active ?_ rfl))
        (writer_congr h h' (hsame exclusive ?_ rfl))).symm
      · cases what <;> rfl
      · cases what <;> rfl
  | stray hpc hstray => exact absurd h'.sound (not_sound_aborted rfl)

/-- What an event does to who has the lock is what the atomic lock does. -/
theorem Inv.step_simulates {e : SharedEvent ι} (h : s.Inv) (hcard : Fintype.card ι < kMaxReaders)
    (hs : s.step e = some s') : stepLabel rwStep s.abs (s.commits e) = some s'.abs := by
  rcases h.step_cases hcard hs with he | ⟨⟨i, rfl⟩, rfl⟩
  · exact h.simulates hcard he
  · rfl

end Simulation

omit [Fintype ι] in
theorem ne_aborted {s : SharedSys ι} {j : ι} (h : Sound (s.pc j)) : s.pc j ≠ .aborted := by
  intro hpc
  rw [hpc] at h
  exact h

/-- The numbers are far from the ends of their type. -/
theorem Inv.in_range {s : SharedSys ι} (h : s.Inv) (hcard : Fintype.card ι < kMaxReaders) :
    ∀ n ∈ [s.readerQuota, s.exitedReaders, s.newlyGrantedReaders], - kMaxReaders ≤ n ∧ n ≤ kMaxReaders := by
  obtain ⟨hquota, hgranted, hexited, haway, hdrain, hwrite, hpromise, hpending⟩ := h.ok
  obtain ⟨ha, hw, hl, hd, hm, hp, hreaders, hwriter⟩ := h.bounds hcard
  have hquota' : s.readerQuota = s.ledger.quota := rfl
  have hexited' : s.exitedReaders = s.ledger.exited := rfl
  have hgranted' : s.newlyGrantedReaders = s.ledger.granted := rfl
  simp only [List.mem_cons, List.not_mem_nil, or_false, forall_eq_or_imp, forall_eq]
  unfold kMaxReaders at *
  omega

/-- **The lock is a reader-writer lock.** In every run no check fails, the numbers keep within 31 bits, and
    what the events of the run do to the lock is a run of the atomic reader-writer lock, to where those fibers
    have it whose `lock_shared` or `lock` has returned and no fiber outside of a call; a writer is alone. -/
theorem simulates_rwlock [DecidableEq ι] (hcard : Fintype.card ι < kMaxReaders) {es : List (SharedEvent ι)}
    {s : SharedSys ι} (h : Run step always init es s) :
    (∀ j, s.pc j ≠ .aborted)
      ∧ (∀ n ∈ [s.readerQuota, s.exitedReaders, s.newlyGrantedReaders], - kMaxReaders ≤ n ∧ n ≤ kMaxReaders)
      ∧ Run rwStep always ⟨∅, none⟩ (trace step commits init es) s.abs
      ∧ (∀ j, s.pc j = .reading → j ∈ s.abs.readers)
      ∧ (∀ j, s.pc j = .writing → s.abs.writer = some j ∧ s.abs.readers = ∅)
      ∧ (∀ j, s.pc j = .idle → j ∉ s.abs.readers ∧ s.abs.writer ≠ some j) := by
  have hinv := run_inv hcard h
  refine ⟨fun j => ne_aborted (hinv.sound j), hinv.in_range hcard, ?_, fun j hj => ?_, fun j hj => ⟨?_, ?_⟩,
    fun j hj => ⟨?_, ?_⟩⟩
  · have hstart : (init : SharedSys ι).abs = ⟨∅, none⟩ := by simp [abs, init]
    obtain ⟨lock, hrun, -, rfl⟩ := h.trace_run rwStep commits
      (R := fun s lock => s.Inv ∧ s.abs = lock) ⟨inv_init, hstart⟩ (by
        rintro s lock e s' ⟨hs, rfl⟩ - hstep
        exact ⟨s'.abs, hs.step_simulates hcard hstep, hs.of_step hcard hstep, rfl⟩)
    exact hrun
  · rw [mem_readers, hj]
    rfl
  · rw [writer_eq_some hinv, hj]
    rfl
  · refine readers_eq_empty (hinv.ok.write ?_).1
    rw [(hinv.alone (i := j) (by simp [hj])).2.1, hj]
    rfl
  · rw [mem_readers, hj]
    simp
  · rw [Ne, writer_eq_some hinv, hj]
    simp

/-- A writer waits for a reader, is made ready by it and writes; a `try_lock_shared` has come in before, after
    its `compare_exchange_weak` had failed once for no reason. -/
theorem simulates_rwlock_handOver : ∃ s : SharedSys (Fin 2),
    Run step always init [.tryLockShared 0, .spurious 0, .run 0, .lock 1, .run 1, .run 1, .run 1, .run 1,
      .run 1, .run 1, .unlockShared 0, .run 0, .run 0, .run 0, .run 0, .run 0, .run 0, .run 0, .run 1, .run 1,
      .run 1, .run 1] s
      ∧ s.pc 0 = .idle ∧ s.pc 1 = .writing ∧ s.abs.writer = some 1 ∧ s.abs.readers = ∅
      ∧ Run rwStep always ⟨∅, none⟩ [.acquireShared (0 : Fin 2), .releaseShared 0, .acquire 1] s.abs := by
  have hrun : Run step always (init : SharedSys (Fin 2))
      [.tryLockShared 0, .spurious 0, .run 0, .lock 1, .run 1, .run 1, .run 1, .run 1, .run 1, .run 1,
        .unlockShared 0, .run 0, .run 0, .run 0, .run 0, .run 0, .run 0, .run 0, .run 1, .run 1, .run 1,
        .run 1] _ :=
    run_of_forall (fun _ _ _ => trivial) rfl
  obtain ⟨-, -, hsim, -, hwriting, -⟩ := simulates_rwlock (by decide) hrun
  obtain ⟨hwriter, hreaders⟩ := hwriting 1 rfl
  exact ⟨_, hrun, rfl, rfl, hwriter, hreaders, hsim⟩

end SharedSys

end ZhiCache
