import ZhiCache.Fiber.WhenAll
import Mathlib.Data.Fintype.Option

/-!
# `Fiber.WhenAllCounts` — every promise is set once, every continuation runs once

Whatever order the fibers take turns in, every promise is set once and every continuation runs once, in one
fiber or the other. That is a matter of counting: a frame is a thing that is still to be done, and for each
thing the number of frames and what the shared state says about it add up to one (`Counts`). Every step keeps
the equations, and touches those of one part only: of one task, of the combined futures, or of the handler
that waits.
-/

namespace ZhiCache

open Lib

/-! ## Counting -/

/-- A truth as a number. -/
def bit (b : Bool) : Int := if b then 1 else 0

@[simp] theorem bit_true : bit true = 1 := rfl

@[simp] theorem bit_false : bit false = 0 := rfl

theorem bit_nonneg (b : Bool) : 0 ≤ bit b := by cases b <;> decide

theorem bit_le_one (b : Bool) : bit b ≤ 1 := by cases b <;> decide

theorem bit_beq_zero {k : Nat} (h : k ≠ 0) : bit (k == 0) = 0 := by simp [bit, h]

namespace Core

variable {β κ : Type}

/-- The value has come. -/
def set : Core β κ → Int
  | .waiting _ => 0
  | .satisfied _ _ => 1

/-- The continuation has come. -/
def chained : Core β κ → Int
  | .waiting action => bit action.isSome
  | .satisfied _ called => bit called

/-- Both have come. -/
def fired : Core β κ → Int
  | .waiting _ => 0
  | .satisfied _ called => bit called

@[simp] theorem set_waiting (action : Option κ) : (.waiting action : Core β κ).set = 0 := rfl

@[simp] theorem set_satisfied (value : β) (called : Bool) : (.satisfied value called : Core β κ).set = 1 := rfl

@[simp] theorem chained_waiting (action : Option κ) :
    (.waiting action : Core β κ).chained = bit action.isSome := rfl

@[simp] theorem chained_satisfied (value : β) (called : Bool) :
    (.satisfied value called : Core β κ).chained = bit called :=
  rfl

@[simp] theorem fired_waiting (action : Option κ) : (.waiting action : Core β κ).fired = 0 := rfl

@[simp] theorem fired_satisfied (value : β) (called : Bool) :
    (.satisfied value called : Core β κ).fired = bit called := rfl

theorem set_nonneg (c : Core β κ) : 0 ≤ c.set := by cases c <;> simp

/-- As long as the continuation is to come, there is none. -/
theorem action_eq_none {c : Core β κ} {action : Option κ} {k : Int} (hcore : c = .waiting action)
    (hchain : k + c.chained = 1) (hpos : 1 ≤ k) : bit action.isSome = 0 := by
  have hnonneg := bit_nonneg action.isSome
  rw [hcore, chained_waiting] at hchain
  omega

/-- The continuation runs when both have come. -/
theorem fired_eq (c : Core β κ) : c.fired ≤ c.set ∧ c.fired ≤ c.chained ∧ c.set + c.chained ≤ 1 + c.fired := by
  cases c with
  | waiting action =>
      have hnonneg := bit_nonneg action.isSome
      have hle := bit_le_one action.isSome
      simp
      omega
  | satisfied value called =>
      have hle := bit_le_one called
      simp
      omega

end Core

/-- The kinds of frames. -/
inductive Kind (n : Nat) where
  | startFiber (i : Fin n) | chainTask (i : Fin n) | chainAll | chainFlat | wait | halting | halted | get
  | call (i : Fin n) | setTask (i : Fin n) | save (i : Fin n) | decrement (i : Fin n) | takeValues | setAll
  | setSlot (i : Fin n) | unbox | setFlat | receive | setEvent | readyFiber | readied | setGot | aborted
  deriving DecidableEq

@[simp] def Frame.kind {n : Nat} {α : Type} : Frame n α → Kind n
  | .startFiber i => .startFiber i
  | .chainTask i => .chainTask i
  | .chainAll => .chainAll
  | .chainFlat => .chainFlat
  | .wait => .wait
  | .halting => .halting
  | .halted => .halted
  | .get => .get
  | .call i => .call i
  | .setTask i _ => .setTask i
  | .save i _ => .save i
  | .decrement i => .decrement i
  | .takeValues => .takeValues
  | .setAll _ => .setAll
  | .setSlot i => .setSlot i
  | .unbox _ => .unbox
  | .setFlat _ => .setFlat
  | .receive _ => .receive
  | .setEvent => .setEvent
  | .readyFibers [] => .readied
  | .readyFibers (_ :: _) => .readyFiber
  | .setGot => .setGot
  | .aborted => .aborted

theorem Frame.eq_halting {n : Nat} {α : Type} {x : Frame n α} (h : x.kind = .halting) : x = .halting := by
  cases x with
  | halting => rfl
  | readyFibers fibers => cases fibers <;> cases h
  | _ => cases h

theorem Frame.eq_halted {n : Nat} {α : Type} {x : Frame n α} (h : x.kind = .halted) : x = .halted := by
  cases x with
  | halted => rfl
  | readyFibers fibers => cases fibers <;> cases h
  | _ => cases h

theorem Frame.eq_startFiber {n : Nat} {α : Type} {x : Frame n α} {i : Fin n} (h : x.kind = .startFiber i) :
    x = .startFiber i := by
  cases x with
  | startFiber j =>
      cases h
      rfl
  | readyFibers fibers => cases fibers <;> cases h
  | _ => cases h

/-- The parts of what is to be done. -/
inductive Part (n : Nat) where
  | task (i : Fin n) | all | wait

@[simp] def Kind.part {n : Nat} : Kind n → Part n
  | .startFiber i | .chainTask i | .call i | .setTask i | .save i | .decrement i | .setSlot i => .task i
  | .chainAll | .takeValues | .setAll | .unbox | .setFlat | .chainFlat => .all
  | .wait | .halting | .halted | .get => .wait
  | .receive | .setEvent | .readyFiber | .readied | .setGot | .aborted => .wait

namespace WhenAllSys

variable {n : Nat} {α St : Type}

/-- How many frames of a kind there are. -/
def count (s : WhenAllSys n α St) (k : Kind n) : Int := marking Frame.kind s.stack k

/-- The continuation of the task's future has decremented the counter. -/
def decremented (s : WhenAllSys n α St) (i : Fin n) : Int := s.count (.setSlot i) + (s.slot i).set

/-- What is to be done for the task `i`. -/
structure TaskCounts (s : WhenAllSys n α St) (i : Fin n) : Prop where
  start : s.count (.startFiber i) + bit (s.started i) = 1
  set : s.count (.call i) + s.count (.setTask i) + (s.task i).set = 1
  ran : (s.order.count i : Int) = s.count (.setTask i) + (s.task i).set
  chain : s.count (.chainTask i) + (s.task i).chained = 1
  fired : s.count (.save i) + s.count (.decrement i) + s.decremented i = (s.task i).fired
  saved : s.count (.decrement i) + s.decremented i = bit (s.values i).isSome

/-- What is to be done for the combined futures. -/
structure AllCounts (s : WhenAllSys n α St) : Prop where
  set : s.count .takeValues + s.count .setAll + s.all.set = bit (s.left == 0)
  chain : s.count .chainAll + s.all.chained = 1
  setFlat : s.count .unbox + s.count .setFlat + s.flat.set = s.all.fired
  chainFlat : s.count .chainFlat + s.flat.chained = 1

/-- What is to be done to wake the handler up. -/
structure WaitCounts (s : WhenAllSys n α St) : Prop where
  fired : s.count .receive + s.count .setEvent + s.count .readyFiber + s.count .readied + s.count .setGot
    + s.got.set
    = s.flat.fired
  received : s.count .setEvent + s.count .readyFiber + s.count .readied + s.count .setGot + s.got.set
    = bit s.receiver.isSome
  awakened : s.count .readyFiber + s.count .readied + s.count .setGot + s.got.set = bit s.awakened
  wait : s.count .wait + s.count .halting + s.count .halted + s.count .get + bit s.returned.isSome = 1
  /-- Who goes on has been woken up, or has not had to sleep. -/
  woken : s.count .get + bit s.returned.isSome ≤ bit s.awakened
  /-- A sleeping handler is in the wait chain, or taken out of it, or ready. -/
  asleep : s.count .halting + s.count .halted = s.waiters.length + s.count .readyFiber + bit s.ready
  calm : s.awakened = true → s.waiters = []
  sound : s.count .aborted = 0
  ready : bit s.ready ≤ bit s.awakened

/-- **Everything is done once.** Each equation says where a thing that is to be done can be: in a frame, or in
    the shared state when it has been done. -/
structure Counts (s : WhenAllSys n α St) : Prop where
  task : ∀ i, s.TaskCounts i
  left : s.left + ∑ i, s.decremented i = (n : Int)
  all : s.AllCounts
  wait : s.WaitCounts

section Count

variable {s s' t : WhenAllSys n α St} {f : Option (Fin n)} {frame : Frame n α} {rest frames : List (Frame n α)}
  {i : Fin n} {k : Kind n}

theorem count_nonneg (s : WhenAllSys n α St) (k : Kind n) : 0 ≤ s.count k := marking_nonneg Frame.kind s.stack k

theorem count_pos (h : s.stack f = frame :: rest) (hk : frame.kind = k) : 1 ≤ s.count k := by
  rw [← hk]
  exact marking_pos (by rw [h]; exact List.mem_cons_self)

/-- What a step does to the numbers of frames. -/
theorem count_push (h : s.stack f = frame :: rest) (frames : List (Frame n α)) (t : WhenAllSys n α St)
    (ht : t.stack = s.stack) (k : Kind n) : (t.push f rest frames).count k
      = s.count k - (if frame.kind = k then 1 else 0) + (frames.countP (fun x => x.kind = k)) := by
  unfold count push
  rw [ht]
  exact marking_push h frames k

theorem count_apart (h : s.stack f = frame :: rest) (ht : t.stack = s.stack) (hframe : frame.kind.part ≠ k.part)
    (hframes : ∀ x ∈ frames, x.kind.part ≠ k.part) : (t.push f rest frames).count k = s.count k := by
  have hzero : frames.countP (fun x => x.kind = k) = 0 := by
    rw [List.countP_eq_zero]
    intro x hx hxk
    exact hframes x hx (congrArg Kind.part (of_decide_eq_true hxk))
  rw [count_push h frames t ht, hzero, if_neg (fun hk => hframe (congrArg Kind.part hk))]
  simp

/-- A step in one part leaves the numbers of the others as they are. -/
theorem count_other (h : s.stack f = frame :: rest) (ht : t.stack = s.stack) {p p' : Part n}
    (hframe : frame.kind.part = p) (hframes : ∀ x ∈ frames, x.kind.part = p) (hp : p' ≠ p) (hk : k.part = p') :
    (t.push f rest frames).count k = s.count k := by
  subst hk
  refine count_apart h ht (hframe ▸ hp.symm) (fun x hx => ?_)
  exact hframes x hx ▸ hp.symm

/-- What the counts of a part depend on, besides the frames. -/
def taskState (s : WhenAllSys n α St) (i : Fin n) : Bool × Core α (Fin n) × Nat × Core Unit Empty × Option α :=
  (s.started i, s.task i, s.order.count i, s.slot i, s.values i)

def allState (s : WhenAllSys n α St) : Nat × Core (List (Option α)) Unit × Core (List α) Unit :=
  (s.left, s.all, s.flat)

def waitState (s : WhenAllSys n α St) :
    Core Unit Empty × Option (List α) × Bool × List (Option (Fin n)) × Bool × Option (List α) :=
  (s.got, s.receiver, s.awakened, s.waiters, s.ready, s.returned)

theorem decremented_same (hcount : ∀ k, k.part = .task i → s'.count k = s.count k)
    (hstate : s'.taskState i = s.taskState i) : s'.decremented i = s.decremented i := by
  have hslot : s'.slot i = s.slot i := congrArg (fun state => state.2.2.2.1) hstate
  unfold decremented
  rw [hcount _ rfl, hslot]

theorem TaskCounts.same (h : s.TaskCounts i) (hcount : ∀ k, k.part = .task i → s'.count k = s.count k)
    (hstate : s'.taskState i = s.taskState i) : s'.TaskCounts i := by
  have hdecremented := decremented_same hcount hstate
  simp only [taskState, Prod.mk.injEq] at hstate
  obtain ⟨hstarted, htask, horder, -, hvalues⟩ := hstate
  constructor
  · rw [hcount _ rfl, hstarted, h.start]
  · rw [hcount _ rfl, hcount _ rfl, htask, h.set]
  · rw [hcount _ rfl, htask, horder, h.ran]
  · rw [hcount _ rfl, htask, h.chain]
  · rw [hcount _ rfl, hcount _ rfl, hdecremented, htask, h.fired]
  · rw [hcount _ rfl, hdecremented, hvalues, h.saved]

theorem AllCounts.same (h : s.AllCounts) (hcount : ∀ k, k.part = .all → s'.count k = s.count k)
    (hstate : s'.allState = s.allState) : s'.AllCounts := by
  simp only [allState, Prod.mk.injEq] at hstate
  obtain ⟨hleft, hall, hflat⟩ := hstate
  constructor
  · rw [hcount _ rfl, hcount _ rfl, hall, hleft, h.set]
  · rw [hcount _ rfl, hall, h.chain]
  · rw [hcount _ rfl, hcount _ rfl, hall, hflat, h.setFlat]
  · rw [hcount _ rfl, hflat, h.chainFlat]

theorem WaitCounts.same (h : s.WaitCounts) (hcount : ∀ k, k.part = .wait → s'.count k = s.count k)
    (hflat : s'.flat.fired = s.flat.fired) (hstate : s'.waitState = s.waitState) : s'.WaitCounts := by
  simp only [waitState, Prod.mk.injEq] at hstate
  obtain ⟨hgot, hreceiver, hawakened, hwaiters, hready, hreturned⟩ := hstate
  constructor
  · rw [hcount _ rfl, hcount _ rfl, hcount _ rfl, hcount _ rfl, hcount _ rfl, hgot, hflat, h.fired]
  · rw [hcount _ rfl, hcount _ rfl, hcount _ rfl, hcount _ rfl, hgot, hreceiver, h.received]
  · rw [hcount _ rfl, hcount _ rfl, hcount _ rfl, hgot, hawakened, h.awakened]
  · rw [hcount _ rfl, hcount _ rfl, hcount _ rfl, hcount _ rfl, hreturned, h.wait]
  · rw [hcount _ rfl, hreturned, hawakened]
    exact h.woken
  · rw [hcount _ rfl, hcount _ rfl, hcount _ rfl, hwaiters, hready, h.asleep]
  · rw [hawakened, hwaiters]
    exact h.calm
  · rw [hcount _ rfl, h.sound]
  · rw [hready, hawakened]
    exact h.ready

theorem Counts.left_same (h : s.Counts) (hleft : s'.left = s.left)
    (hsame : ∀ i, s'.decremented i = s.decremented i) :
    s'.left + ∑ i, s'.decremented i = (n : Int) := by
  simp only [hleft, hsame]
  exact h.left

/-- A step for the task `j`. -/
theorem Counts.ofTask (h : s.Counts) {j : Fin n} (hstack : s.stack f = frame :: rest) (ht : t.stack = s.stack)
    (hframe : frame.kind.part = .task j) (hframes : ∀ x ∈ frames, x.kind.part = .task j)
    (hothers : ∀ i, i ≠ j → t.taskState i = s.taskState i) (hall : t.allState = s.allState)
    (hwait : t.waitState = s.waitState) (hdecremented : (t.push f rest frames).decremented j = s.decremented j)
    (hj : (t.push f rest frames).TaskCounts j) : (t.push f rest frames).Counts := by
  have hflat : t.flat = s.flat := congrArg (fun state => state.2.2) hall
  refine ⟨fun i => ?_, h.left_same (congrArg Prod.fst hall) (fun i => ?_), ?_, ?_⟩
  · by_cases hij : i = j
    · exact hij ▸ hj
    · exact (h.task i).same (fun k => count_other hstack ht hframe hframes (by simpa using hij)) (hothers i hij)
  · by_cases hij : i = j
    · exact hij ▸ hdecremented
    · exact decremented_same (fun k => count_other hstack ht hframe hframes (by simpa using hij))
        (hothers i hij)
  · exact h.all.same (fun k => count_other hstack ht hframe hframes (by simp)) hall
  · exact h.wait.same (fun k => count_other hstack ht hframe hframes (by simp)) (by rw [push_flat, hflat]) hwait

/-- A step for the combined futures. -/
theorem Counts.ofAll (h : s.Counts) (hstack : s.stack f = frame :: rest) (ht : t.stack = s.stack)
    (hframe : frame.kind.part = .all) (hframes : ∀ x ∈ frames, x.kind.part = .all)
    (htask : t.taskState = s.taskState) (hleft : t.left = s.left) (hflat : t.flat.fired = s.flat.fired)
    (hwait : t.waitState = s.waitState) (hall : (t.push f rest frames).AllCounts) :
    (t.push f rest frames).Counts := by
  refine ⟨fun i => ?_, h.left_same hleft (fun i => ?_), hall, ?_⟩
  · exact (h.task i).same (fun k => count_other hstack ht hframe hframes (by simp)) (congrFun htask i)
  · exact decremented_same (fun k => count_other hstack ht hframe hframes (by simp)) (congrFun htask i)
  · exact h.wait.same (fun k => count_other hstack ht hframe hframes (by simp)) hflat hwait

/-- A step on the way to wake the handler up, or of the handler that waits. -/
theorem Counts.ofWait (h : s.Counts) (hstack : s.stack f = frame :: rest) (ht : t.stack = s.stack)
    (hframe : frame.kind.part = .wait) (hframes : ∀ x ∈ frames, x.kind.part = .wait)
    (htask : t.taskState = s.taskState) (hall : t.allState = s.allState)
    (hwait : (t.push f rest frames).WaitCounts) : (t.push f rest frames).Counts := by
  refine ⟨fun i => ?_, h.left_same (congrArg Prod.fst hall) (fun i => ?_), ?_, hwait⟩
  · exact (h.task i).same (fun k => count_other hstack ht hframe hframes (by simp)) (congrFun htask i)
  · exact decremented_same (fun k => count_other hstack ht hframe hframes (by simp)) (congrFun htask i)
  · exact h.all.same (fun k => count_other hstack ht hframe hframes (by simp)) hall

/-- A step for the last of the combined futures, that goes on with what wakes the handler up. -/
theorem Counts.ofFlat (h : s.Counts) (hstack : s.stack f = frame :: rest) (ht : t.stack = s.stack)
    (hframe : frame.kind.part = .all) (hframes : ∀ x ∈ frames, x.kind.part = .wait)
    (htask : t.taskState = s.taskState) (hleft : t.left = s.left) (hall : (t.push f rest frames).AllCounts)
    (hwait : (t.push f rest frames).WaitCounts) : (t.push f rest frames).Counts := by
  have hcount : ∀ i (k : Kind n), k.part = .task i → (t.push f rest frames).count k = s.count k := by
    intro i k hk
    refine count_apart hstack ht (by rw [hframe, hk]; simp) (fun x hx => ?_)
    rw [hframes x hx, hk]
    simp
  refine ⟨fun i => ?_, h.left_same hleft (fun i => ?_), hall, hwait⟩
  · exact (h.task i).same (hcount i) (congrFun htask i)
  · exact decremented_same (hcount i) (congrFun htask i)

/-- One of the two comes to a promise: a frame of the kind `k₁` with the value, or one of the kind `k₂` with the
    continuation. -/
theorem comes_cases {β κ : Type} {c c' : Core β κ} {k₁ k₂ : Kind n}
    (h : frame.kind = k₁ ∧ c'.set = c.set + 1 ∧ c'.chained = c.chained
      ∨ frame.kind = k₂ ∧ c'.set = c.set ∧ c'.chained = c.chained + 1) :
    ∃ sets chains : Int, c'.set = c.set + sets ∧ c'.chained = c.chained + chains ∧
      ∀ k, (if frame.kind = k then (1 : Int) else 0)
        = (if k₁ = k then sets else 0) + (if k₂ = k then chains else 0) := by
  rcases h with ⟨hkind, hset, hchained⟩ | ⟨hkind, hset, hchained⟩
  · exact ⟨1, 0, hset, by omega, fun k => by simp only [hkind, ite_self, add_zero]⟩
  · exact ⟨0, 1, by omega, hchained, fun k => by simp only [hkind, ite_self, zero_add]⟩

/-- The second one runs the continuation: it leaves a frame of the kind `k₀`. -/
theorem runs_cases {β κ ι : Type} {c c' : Core β κ} (k₀ : Kind n) (next : ι → Frame n α)
    (hnext : ∀ x, (next x).kind = k₀)
    (h : frames = [] ∧ c'.fired = c.fired ∨ (∃ x, frames = [next x]) ∧ c'.fired = c.fired + 1) :
    ∃ fires : Int, c'.fired = c.fired + fires ∧ (∀ x ∈ frames, x.kind = k₀) ∧
      ∀ k, (frames.countP (fun x => x.kind = k) : Int) = if k₀ = k then fires else 0 := by
  rcases h with ⟨rfl, hfired⟩ | ⟨⟨x, rfl⟩, hfired⟩
  · exact ⟨0, by omega, List.forall_mem_nil _, by simp [-Frame.kind]⟩
  · refine ⟨1, hfired, List.forall_mem_singleton.mpr (hnext x), fun k => ?_⟩
    rw [List.countP_singleton, hnext x]
    by_cases hk : k₀ = k <;> simp [hk]

end Count

/-! ### The tasks -/

section Task

variable {s : WhenAllSys n α St} {f : Option (Fin n)} {frame : Frame n α} {rest : List (Frame n α)} {i : Fin n}
  {value : α}

theorem Counts.startFiber (h : s.Counts) (hstack : s.stack f = .startFiber i :: rest) :
    ({ s with started := Function.update s.started i true }.push f rest []).Counts := by
  have hc := count_push hstack []
  simp only [Frame.kind, List.countP_nil] at hc
  have hpos : 1 ≤ s.count (.startFiber i) := count_pos hstack rfl
  have hstarted := bit_nonneg (s.started i)
  obtain ⟨hstart, hset, hran, hchain, hfired, hsaved⟩ := h.task i
  refine h.ofTask hstack rfl rfl (by simp) (fun k hk => by simp [taskState, hk]) rfl rfl
    (by simp [decremented, hc]) ?_
  simp only [decremented] at hfired hsaved
  constructor <;> simp [decremented, hc] <;> omega

theorem Counts.call (h : s.Counts) (hstack : s.stack f = .call i :: rest) (store : St) :
    ({ s with store := store, order := s.order ++ [i] }.push f rest [.setTask i value]).Counts := by
  have hc := count_push hstack [.setTask i value]
  simp only [Frame.kind, List.countP_cons, List.countP_nil] at hc
  obtain ⟨hstart, hset, hran, hchain, hfired, hsaved⟩ := h.task i
  refine h.ofTask hstack rfl rfl (by simp) (fun k hk => by simp [taskState, hk.symm]) rfl rfl
    (by simp [decremented, hc]) ?_
  simp only [decremented] at hfired hsaved
  constructor <;> simp [decremented, hc] <;> omega

/-- One of the two comes to the promise of a task; the second one runs the continuation. -/
theorem Counts.putTask (h : s.Counts) (hstack : s.stack f = frame :: rest) {core : Core α (Fin n)}
    {frames : List (Frame n α)}
    (hframe : frame.kind = .setTask i ∧ core.set = (s.task i).set + 1 ∧ core.chained = (s.task i).chained
      ∨ frame.kind = .chainTask i ∧ core.set = (s.task i).set ∧ core.chained = (s.task i).chained + 1)
    (hframes : frames = [] ∧ core.fired = (s.task i).fired
      ∨ (∃ value, frames = [.save i value]) ∧ core.fired = (s.task i).fired + 1) :
    ({ s with task := Function.update s.task i core }.push f rest frames).Counts := by
  obtain ⟨sets, chains, hcore, hchained, hold⟩ := comes_cases hframe
  obtain ⟨fires, hfires, hkinds, hnew⟩ := runs_cases (.save i) (.save i) (fun _ => rfl) hframes
  have hc := count_push hstack frames
  simp only [hold, hnew] at hc
  obtain ⟨hstart, hset, hran, hchain, hfired, hsaved⟩ := h.task i
  simp only [decremented] at hfired hsaved
  have hpart : frame.kind.part = .task i := by rcases hframe with ⟨hkind, -⟩ | ⟨hkind, -⟩ <;> rw [hkind] <;> rfl
  refine h.ofTask hstack rfl hpart (fun x hx => by rw [hkinds x hx]; rfl)
    (fun k hk => by simp [taskState, hk]) rfl rfl (by simp [decremented, hc]) ?_
  constructor <;> simp [decremented, hc, hcore, hchained, hfires] <;> omega

theorem Counts.save (h : s.Counts) (hstack : s.stack f = .save i value :: rest) :
    ({ s with values := Function.update s.values i (some value) }.push f rest [.decrement i]).Counts := by
  have hc := count_push hstack [.decrement i]
  simp only [Frame.kind, List.countP_cons, List.countP_nil] at hc
  have hpos : 1 ≤ s.count (.save i) := count_pos hstack rfl
  have hle := (s.task i).fired_eq
  obtain ⟨hstart, hset, hran, hchain, hfired, hsaved⟩ := h.task i
  have hcalls := count_nonneg s (.call i)
  have hsets := count_nonneg s (.setTask i)
  have hvalues := bit_nonneg (s.values i).isSome
  refine h.ofTask hstack rfl rfl (by simp) (fun k hk => by simp [taskState, hk]) rfl rfl
    (by simp [decremented, hc]) ?_
  simp only [decremented] at hfired hsaved
  constructor <;> simp [decremented, hc] <;> omega

theorem Counts.setSlot (h : s.Counts) (hstack : s.stack f = .setSlot i :: rest)
    (hcore : s.slot i = .waiting none) :
    ({ s with slot := Function.update s.slot i (.satisfied () false) }.push f rest []).Counts := by
  have hc := count_push hstack []
  simp only [Frame.kind, List.countP_nil] at hc
  obtain ⟨hstart, hset, hran, hchain, hfired, hsaved⟩ := h.task i
  simp only [decremented, hcore, Core.set_waiting] at hfired hsaved
  refine h.ofTask hstack rfl rfl (by simp) (fun k hk => by simp [taskState, hk]) rfl rfl
    (by simp [decremented, hc, hcore]) ?_
  constructor <;> simp [decremented, hc] <;> omega

theorem Counts.decremented_bounds (h : s.Counts) (i : Fin n) : 0 ≤ s.decremented i ∧ s.decremented i ≤ 1 := by
  have hsaved := (h.task i).saved
  have hle := bit_le_one (s.values i).isSome
  have hslots := count_nonneg s (.setSlot i)
  have hdecrements := count_nonneg s (.decrement i)
  have hset := (s.slot i).set_nonneg
  unfold decremented at *
  omega

/-- Who is about to decrement the counter finds it positive. -/
theorem Counts.left_pos (h : s.Counts) (hpos : 1 ≤ s.count (.decrement i)) : 1 ≤ s.left ∧ s.left ≤ n := by
  have hzero : s.decremented i = 0 := by
    have hsaved := (h.task i).saved
    have hle := bit_le_one (s.values i).isSome
    have hnonneg := (h.decremented_bounds i).1
    omega
  have hless : tally s.decremented id < Fintype.card (Fin n) :=
    tally_lt_card (fun j => (h.decremented_bounds j).2) hzero
  have hnonneg : 0 ≤ tally s.decremented id := tally_nonneg (fun j => (h.decremented_bounds j).1) id
  have hleft : s.left + tally s.decremented id = (n : Int) := h.left
  rw [Fintype.card_fin] at hless
  omega

/-- The counter is decremented, and the last one goes on to take the values. -/
theorem Counts.decrement (h : s.Counts) (hstack : s.stack f = .decrement i :: rest) {left : Nat}
    {more : List (Frame n α)} (hleft : left + 1 = s.left)
    (hmore : more = [] ∧ left ≠ 0 ∨ more = [.takeValues] ∧ left = 0) :
    ({ s with left := left }.push f rest (more ++ [Frame.setSlot i])).Counts := by
  have hc := count_push hstack
  have hmoves : ∀ j, ({ s with left := left }.push f rest (more ++ [Frame.setSlot i])).decremented j
      = s.decremented j + if i = j then 1 else 0 := by
    intro j
    rcases hmore with ⟨rfl, -⟩ | ⟨rfl, -⟩ <;> simp [decremented, hc] <;> omega
  have hparts : ∀ x ∈ more ++ [Frame.setSlot i], x.kind.part ≠ .wait ∧ ∀ j, j ≠ i → x.kind.part ≠ .task j := by
    rcases hmore with ⟨rfl, -⟩ | ⟨rfl, -⟩ <;> simp +contextual [eq_comm]
  refine ⟨fun j => ?_, ?_, ?_, ?_⟩
  · obtain ⟨hstart, hset, hran, hchain, hfired, hsaved⟩ := h.task j
    by_cases hj : j = i
    · subst hj
      simp only [decremented] at hfired hsaved
      rcases hmore with ⟨rfl, -⟩ | ⟨rfl, -⟩ <;> constructor <;> simp [decremented, hc] <;> omega
    · refine (h.task j).same (fun k hk => ?_) rfl
      refine count_apart hstack rfl (by rw [hk]; simpa using Ne.symm hj) (fun x hx => ?_)
      rw [hk]
      exact (hparts x hx).2 j hj
  · have hold := h.left
    simp only [hmoves, Finset.sum_add_distrib, Finset.sum_ite_eq, Finset.mem_univ, if_true, push_left]
    omega
  · obtain ⟨hset, hchain, hsetFlat, hchainFlat⟩ := h.all
    rw [bit_beq_zero (by omega)] at hset
    rcases hmore with ⟨rfl, hne⟩ | ⟨rfl, rfl⟩
    · constructor <;> simp [hc, bit_beq_zero hne] <;> omega
    · constructor <;> simp [hc] <;> omega
  · refine h.wait.same (fun k hk => ?_) rfl rfl
    refine count_apart hstack rfl (by rw [hk]; simp) (fun x hx => ?_)
    rw [hk]
    exact (hparts x hx).1

end Task

/-! ### The combined futures -/

section All

variable {s : WhenAllSys n α St} {f : Option (Fin n)} {frame : Frame n α} {rest : List (Frame n α)}

theorem Counts.takeValues (h : s.Counts) (hstack : s.stack f = .takeValues :: rest) (values : List (Option α)) :
    (s.push f rest [.setAll values]).Counts := by
  have hc := count_push hstack [.setAll values]
  simp only [Frame.kind, List.countP_cons, List.countP_nil] at hc
  obtain ⟨hset, hchain, hsetFlat, hchainFlat⟩ := h.all
  refine h.ofAll hstack rfl rfl (by simp) rfl rfl rfl rfl ?_
  constructor <;> simp [hc] <;> omega

theorem Counts.unbox (h : s.Counts) {values : List (Option α)} (hstack : s.stack f = .unbox values :: rest)
    (result : List α) : (s.push f rest [.setFlat result]).Counts := by
  have hc := count_push hstack [.setFlat result]
  simp only [Frame.kind, List.countP_cons, List.countP_nil] at hc
  obtain ⟨hset, hchain, hsetFlat, hchainFlat⟩ := h.all
  refine h.ofAll hstack rfl rfl (by simp) rfl rfl rfl rfl ?_
  constructor <;> simp [hc] <;> omega

/-- One of the two comes to the promise of all values; the second one runs the continuation. -/
theorem Counts.putAll (h : s.Counts) (hstack : s.stack f = frame :: rest) {core : Core (List (Option α)) Unit}
    {frames : List (Frame n α)}
    (hframe : frame.kind = .setAll ∧ core.set = s.all.set + 1 ∧ core.chained = s.all.chained
      ∨ frame.kind = .chainAll ∧ core.set = s.all.set ∧ core.chained = s.all.chained + 1)
    (hframes : frames = [] ∧ core.fired = s.all.fired
      ∨ (∃ values, frames = [.unbox values]) ∧ core.fired = s.all.fired + 1) :
    ({ s with all := core }.push f rest frames).Counts := by
  obtain ⟨sets, chains, hcore, hchained, hold⟩ := comes_cases hframe
  obtain ⟨fires, hfires, hkinds, hnew⟩ := runs_cases .unbox .unbox (fun _ => rfl) hframes
  have hc := count_push hstack frames
  simp only [hold, hnew] at hc
  obtain ⟨hset, hchain, hsetFlat, hchainFlat⟩ := h.all
  have hpart : frame.kind.part = .all := by rcases hframe with ⟨hkind, -⟩ | ⟨hkind, -⟩ <;> rw [hkind] <;> rfl
  refine h.ofAll hstack rfl hpart (fun x hx => by rw [hkinds x hx]; rfl) rfl rfl rfl rfl ?_
  constructor <;> simp [hc, hcore, hchained, hfires] <;> omega

/-- One of the two comes to the promise of the result; the second one runs the continuation. -/
theorem Counts.putFlat (h : s.Counts) (hstack : s.stack f = frame :: rest) {core : Core (List α) Unit}
    {frames : List (Frame n α)}
    (hframe : frame.kind = .setFlat ∧ core.set = s.flat.set + 1 ∧ core.chained = s.flat.chained
      ∨ frame.kind = .chainFlat ∧ core.set = s.flat.set ∧ core.chained = s.flat.chained + 1)
    (hframes : frames = [] ∧ core.fired = s.flat.fired
      ∨ (∃ result, frames = [.receive result]) ∧ core.fired = s.flat.fired + 1) :
    ({ s with flat := core }.push f rest frames).Counts := by
  obtain ⟨sets, chains, hcore, hchained, hold⟩ := comes_cases hframe
  obtain ⟨fires, hfires, hkinds, hnew⟩ := runs_cases .receive .receive (fun _ => rfl) hframes
  have hc := count_push hstack frames
  simp only [hold, hnew] at hc
  obtain ⟨hset, hchain, hsetFlat, hchainFlat⟩ := h.all
  obtain ⟨hfired, hreceived, hawakened, hwait, hwoken, hasleep, hcalm, hsound, honly⟩ := h.wait
  have hpart : frame.kind.part = .all := by rcases hframe with ⟨hkind, -⟩ | ⟨hkind, -⟩ <;> rw [hkind] <;> rfl
  refine h.ofFlat hstack rfl hpart (fun x hx => by rw [hkinds x hx]; rfl) rfl rfl ?_ ?_
  · constructor <;> simp [hc, hcore, hchained] <;> omega
  · constructor <;> simp [hc, hfires] <;> first | exact hcalm | omega

/-- Each promise is satisfied at most once. -/
theorem Counts.fired_le_one (h : s.Counts) : s.all.fired ≤ 1 ∧ s.flat.fired ≤ 1 := by
  have hset := h.all.set
  have hsetFlat := h.all.setFlat
  have hall := s.all.fired_eq
  have hflat := s.flat.fired_eq
  have hle := bit_le_one (s.left == 0)
  have htake := count_nonneg s .takeValues
  have hsetAll := count_nonneg s .setAll
  have hunbox := count_nonneg s .unbox
  have hflats := count_nonneg s .setFlat
  omega

end All

/-! ### Waking the handler up -/

section Wait

variable {s : WhenAllSys n α St} {f : Option (Fin n)} {rest : List (Frame n α)}

theorem Counts.receive (h : s.Counts) {result : List α} (hstack : s.stack f = .receive result :: rest) :
    ({ s with receiver := some result }.push f rest [.setEvent]).Counts := by
  have hc := count_push hstack [.setEvent]
  simp only [Frame.kind, List.countP_cons, List.countP_nil] at hc
  have hpos : 1 ≤ s.count .receive := count_pos hstack rfl
  obtain ⟨hfired, hreceived, hawakened, hwait, hwoken, hasleep, hcalm, hsound, honly⟩ := h.wait
  have hone := h.fired_le_one.2
  have hreceiver := bit_nonneg s.receiver.isSome
  refine h.ofWait hstack rfl rfl (by simp) rfl rfl ?_
  constructor <;> simp [hc] <;> first | exact hcalm | omega

/-- At most one fiber sleeps. -/
theorem Counts.sleepers (h : s.Counts) :
    s.waiters.length + s.count .readyFiber + bit s.ready + s.count .wait + s.count .get ≤ 1 := by
  have hwait := h.wait.wait
  have hasleep := h.wait.asleep
  have hreturned := bit_nonneg s.returned.isSome
  omega

theorem Counts.setEvent (h : s.Counts) (hstack : s.stack f = .setEvent :: rest) :
    ({ s with awakened := true, waiters := [] }.push f rest [.readyFibers s.waiters]).Counts := by
  have hpos : 1 ≤ s.count .setEvent := count_pos hstack rfl
  have hsleepers := h.sleepers
  obtain ⟨hfired, hreceived, hawakened, hwait, hwoken, hasleep, hcalm, hsound, honly⟩ := h.wait
  have hreceiver := bit_le_one s.receiver.isSome
  have hready := bit_nonneg s.ready
  have hreadyFiber := count_nonneg s .readyFiber
  have hwaits := count_nonneg s .wait
  have hgets := count_nonneg s .get
  have hbit := bit_nonneg s.awakened
  cases hwaiters : s.waiters with
  | nil =>
      have hc := count_push hstack [.readyFibers []]
      simp only [Frame.kind, List.countP_cons, List.countP_nil] at hc
      rw [hwaiters, List.length_nil] at hasleep
      refine h.ofWait hstack rfl rfl (by simp) rfl rfl ?_
      constructor <;> simp [hc] <;> omega
  | cons fiber fibers =>
      have hc := count_push hstack [.readyFibers (fiber :: fibers)]
      simp only [Frame.kind, List.countP_cons, List.countP_nil] at hc
      rw [hwaiters, List.length_cons] at hasleep hsleepers
      refine h.ofWait hstack rfl rfl (by simp) rfl rfl ?_
      constructor <;> simp [hc] <;> omega

theorem Counts.readied (h : s.Counts) (hstack : s.stack f = .readyFibers [] :: rest) :
    (s.push f rest [.setGot]).Counts := by
  have hc := count_push hstack [.setGot]
  simp only [Frame.kind, List.countP_cons, List.countP_nil] at hc
  obtain ⟨hfired, hreceived, hawakened, hwait, hwoken, hasleep, hcalm, hsound, honly⟩ := h.wait
  refine h.ofWait hstack rfl rfl (by simp) rfl rfl ?_
  constructor <;> simp [hc] <;> first | exact hcalm | omega

theorem Counts.readyFiber (h : s.Counts) {fiber : Option (Fin n)}
    (hstack : s.stack f = .readyFibers [fiber] :: rest) :
    ({ s with ready := true }.push f rest [.readyFibers []]).Counts := by
  have hc := count_push hstack [.readyFibers []]
  simp only [Frame.kind, List.countP_cons, List.countP_nil] at hc
  have hpos : 1 ≤ s.count .readyFiber := count_pos hstack rfl
  have hsleepers := h.sleepers
  obtain ⟨hfired, hreceived, hawakened, hwait, hwoken, hasleep, hcalm, hsound, honly⟩ := h.wait
  have hready := bit_nonneg s.ready
  have hwaits := count_nonneg s .wait
  have hgets := count_nonneg s .get
  have hreadied := count_nonneg s .readied
  have hsetGot := count_nonneg s .setGot
  have hgot := s.got.set_nonneg
  refine h.ofWait hstack rfl rfl (by simp) rfl rfl ?_
  constructor <;> simp [hc] <;> first | exact hcalm | omega

theorem Counts.setGot (h : s.Counts) (hstack : s.stack f = .setGot :: rest) (hcore : s.got = .waiting none) :
    ({ s with got := .satisfied () false }.push f rest []).Counts := by
  have hc := count_push hstack []
  simp only [Frame.kind, List.countP_nil] at hc
  obtain ⟨hfired, hreceived, hawakened, hwait, hwoken, hasleep, hcalm, hsound, honly⟩ := h.wait
  simp only [hcore, Core.set_waiting] at hfired hreceived hawakened
  refine h.ofWait hstack rfl rfl (by simp) rfl rfl ?_
  constructor <;> simp [hc] <;> first | exact hcalm | omega

theorem Counts.waited (h : s.Counts) (hstack : s.stack f = .wait :: rest) (hset : s.awakened = true) :
    (s.push f rest [.get]).Counts := by
  have hc := count_push hstack [.get]
  simp only [Frame.kind, List.countP_cons, List.countP_nil] at hc
  have hpos : 1 ≤ s.count .wait := count_pos hstack rfl
  obtain ⟨hfired, hreceived, hawakened, hwait, hwoken, hasleep, hcalm, hsound, honly⟩ := h.wait
  have hhalting := count_nonneg s .halting
  have hhalted := count_nonneg s .halted
  refine h.ofWait hstack rfl rfl (by simp) rfl rfl ?_
  constructor <;> simp [hc, hset] at * <;> first | assumption | omega

theorem Counts.addWaiter (h : s.Counts) (hstack : s.stack f = .wait :: rest) (hset : s.awakened = false) :
    ({ s with waiters := s.waiters ++ [f] }.push f rest [.halting]).Counts := by
  have hc := count_push hstack [.halting]
  simp only [Frame.kind, List.countP_cons, List.countP_nil] at hc
  obtain ⟨hfired, hreceived, hawakened, hwait, hwoken, hasleep, hcalm, hsound, honly⟩ := h.wait
  refine h.ofWait hstack rfl rfl (by simp) rfl rfl ?_
  constructor <;> simp [hc, hset] at * <;> omega

theorem Counts.halting (h : s.Counts) (hstack : s.stack f = .halting :: rest) :
    (s.push f rest [.halted]).Counts := by
  have hc := count_push hstack [.halted]
  simp only [Frame.kind, List.countP_cons, List.countP_nil] at hc
  obtain ⟨hfired, hreceived, hawakened, hwait, hwoken, hasleep, hcalm, hsound, honly⟩ := h.wait
  refine h.ofWait hstack rfl rfl (by simp) rfl rfl ?_
  constructor <;> simp [hc] <;> first | exact hcalm | omega

/-- Who has been put into the run queue has been taken out of the wait chain before. -/
theorem Counts.resumed (h : s.Counts) (hstack : s.stack f = .halted :: rest) (hready : s.ready = true) :
    ({ s with ready := false }.push f rest [.get]).Counts := by
  have hc := count_push hstack [.get]
  simp only [Frame.kind, List.countP_cons, List.countP_nil] at hc
  have hpos : 1 ≤ s.count .halted := count_pos hstack rfl
  have hset : s.awakened = true := by
    have honly := h.wait.ready
    rw [hready] at honly
    cases hawakened : s.awakened with
    | true => rfl
    | false => simp [hawakened] at honly
  obtain ⟨hfired, hreceived, hawakened, hwait, hwoken, hasleep, hcalm, hsound, honly⟩ := h.wait
  have hhalting := count_nonneg s .halting
  have hwaits := count_nonneg s .wait
  refine h.ofWait hstack rfl rfl (by simp) rfl rfl ?_
  constructor <;> simp [hc, hset, hready] at * <;> first | assumption | omega

theorem Counts.get (h : s.Counts) {result : List α} (hstack : s.stack f = .get :: rest) :
    ({ s with returned := some result }.push f rest []).Counts := by
  have hc := count_push hstack []
  simp only [Frame.kind, List.countP_nil] at hc
  have hpos : 1 ≤ s.count .get := count_pos hstack rfl
  obtain ⟨hfired, hreceived, hawakened, hwait, hwoken, hasleep, hcalm, hsound, honly⟩ := h.wait
  have hreturned := bit_nonneg s.returned.isSome
  have hwaits := count_nonneg s .wait
  have hhalting := count_nonneg s .halting
  have hhalted := count_nonneg s .halted
  refine h.ofWait hstack rfl rfl (by simp) rfl rfl ?_
  constructor <;> simp [hc] <;> first | exact hcalm | omega

end Wait

end WhenAllSys

end ZhiCache
