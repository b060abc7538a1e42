import ZhiCache.Fiber.WhenAllCounts
import Mathlib.Data.Fintype.BigOperators

/-!
# `Fiber.WhenAllRuns` — the handler waits for all its tasks

The counts, and what the frames carry, are an invariant of every run (`Inv`). From it follows that no check
fails, that the values are complete when they are taken, and that the handler does not sleep on.

* `whenAll_waits`: when `BlockingGet` returns, every task has run once, and its results are those of the tasks.
* `whenAll_returns`: the fibers take a bounded number of steps, and when none can go on, `BlockingGet` has
  returned.
* `exists_run_order`: the tasks may run in every order.
-/

namespace ZhiCache

open Lib

/-! ## The values -/

section Values

variable {n : Nat} {α St : Type}

/-- What the tasks return, and the store after them, when they run one after the other. -/
def outcome (body : Fin n → St → α × St) (store : St) (order : List (Fin n)) : (Fin n → Option α) × St :=
  order.foldl (fun state i => (Function.update state.1 i (some (body i state.2).1), (body i state.2).2))
    (fun _ => none, store)

theorem outcome_concat (body : Fin n → St → α × St) (store : St) (order : List (Fin n)) (i : Fin n) :
    outcome body store (order ++ [i])
      = (Function.update (outcome body store order).1 i (some (body i (outcome body store order).2).1),
        (body i (outcome body store order).2).2) :=
  List.foldl_concat ..

/-- A task that has not run has no result. -/
theorem outcome_eq_none {body : Fin n → St → α × St} {store : St} {order : List (Fin n)} {i : Fin n}
    (hi : i ∉ order) :
    (outcome body store order).1 i = none := by
  induction order using List.reverseRecOn with
  | nil => rfl
  | append_singleton order j ih =>
      rw [List.mem_append, List.mem_singleton, not_or] at hi
      rw [outcome_concat]
      exact (Function.update_of_ne hi.2 ..).trans (ih hi.1)

/-- All results are there, and the values are the results in the order of the tasks. -/
def Complete (results : Fin n → Option α) (values : List (Option α)) : Prop :=
  (∀ i, (results i).isSome) ∧ values = (List.finRange n).map results

/-- Results that are there stay. -/
def Grows (results results' : Fin n → Option α) : Prop := ∀ i a, results i = some a → results' i = some a

variable {results results' : Fin n → Option α}

theorem Complete.mono {values : List (Option α)} (h : Complete results values)
    (hgrows : Grows results results') :
    Complete results' values := by
  have hsame : results' = results := by
    funext i
    obtain ⟨a, ha⟩ := Option.isSome_iff_exists.mp (h.1 i)
    rw [ha, hgrows i a ha]
  rwa [hsame]

/-- Complete values can be unboxed. -/
theorem Complete.unbox {values : List (Option α)} (h : Complete results values) :
    ∃ result, values.mapM id = some result ∧ result.map some = values := by
  have hall : ∀ v ∈ values, v.isSome := by
    rw [h.2]
    intro v hv
    obtain ⟨i, -, rfl⟩ := List.mem_map.mp hv
    exact h.1 i
  clear h
  induction values with
  | nil => exact ⟨[], rfl, rfl⟩
  | cons v values ih =>
      obtain ⟨a, rfl⟩ := Option.isSome_iff_exists.mp (hall v List.mem_cons_self)
      obtain ⟨result, hresult, hmap⟩ := ih (fun w hw => hall w (List.mem_cons_of_mem _ hw))
      refine ⟨a :: result, ?_, ?_⟩
      · simp [List.mapM_cons, hresult]
      · rw [List.map_cons, hmap]

/-- What a frame carries is right, and the handler's frames are in the handler's fiber. -/
def Frame.Sound (results : Fin n → Option α) (f : Option (Fin n)) : Frame n α → Prop
  | .setTask i value | .save i value => results i = some value
  | .setAll values | .unbox values => Complete results values
  | .setFlat result | .receive result => Complete results (result.map some)
  | .readyFibers fibers => fibers = [] ∨ fibers = [none]
  | .call i => f = some i
  | .startFiber _ | .wait | .halting | .halted | .get => f = none
  | _ => True

theorem Frame.Sound.mono {f : Option (Fin n)} {x : Frame n α} (h : x.Sound results f)
    (hgrows : Grows results results') :
    x.Sound results' f := by
  cases x with
  | setTask i value | save i value => exact hgrows i value h
  | setAll values | unbox values => exact Complete.mono h hgrows
  | setFlat result | receive result => exact Complete.mono h hgrows
  | _ => exact h

/-- The frames of the handler that waits. -/
@[simp] def Frame.Waits : Frame n α → Prop
  | .wait | .halting | .halted | .get => True
  | _ => False

/-- The frames of the handler that has begun to wait. -/
@[simp] def Frame.Sleeps : Frame n α → Prop
  | .halting | .halted | .get => True
  | _ => False

/-- Waiting is the last thing to be done, and who has begun to wait does nothing else. -/
def Frame.Above (x y : Frame n α) : Prop := ¬ x.Waits ∧ ¬ y.Sleeps

end Values

/-- What is to be done at the start. -/
def Kind.first {n : Nat} : Kind n → Int
  | .startFiber _ | .chainTask _ | .chainAll | .chainFlat | .wait | .call _ => 1
  | _ => 0

/-- How many steps a frame may lead to. -/
def Frame.cost {n : Nat} {α : Type} : Frame n α → Nat
  | .aborted => 0
  | .startFiber _ | .setSlot _ | .setGot | .get => 1
  | .halted => 2
  | .halting => 3
  | .wait => 4
  | .readyFibers fibers => 2 + fibers.length
  | .setEvent => 4
  | .receive _ => 5
  | .setFlat _ | .chainFlat => 6
  | .unbox _ => 7
  | .setAll _ | .chainAll => 8
  | .takeValues => 9
  | .decrement _ => 11
  | .save _ _ => 12
  | .setTask _ _ | .chainTask _ => 13
  | .call _ => 14

namespace WhenAllSys

variable {n : Nat} {α St : Type}

/-- The results of the tasks that have run. -/
def results (s : WhenAllSys n α St) (store : St) : Fin n → Option α := (outcome s.body store s.order).1

/-- What the shared state holds is right. -/
structure StateSound (results : Fin n → Option α) (s : WhenAllSys n α St) : Prop where
  task : ∀ i value called, s.task i = .satisfied value called → results i = some value
  action : ∀ i index, s.task i = .waiting (some index) → index = i
  values : ∀ i value, s.values i = some value → results i = some value
  all : ∀ values called, s.all = .satisfied values called → Complete results values
  flat : ∀ result called, s.flat = .satisfied result called → Complete results (result.map some)
  receiver : ∀ result, s.receiver = some result → Complete results (result.map some)
  returned : ∀ result, s.returned = some result → Complete results (result.map some)
  waiters : ∀ f ∈ s.waiters, f = none

/-- **The invariant**, for a handler that began with `store`. -/
structure Inv (store : St) (s : WhenAllSys n α St) : Prop where
  counts : s.Counts
  frames : ∀ f, ∀ x ∈ s.stack f, x.Sound (s.results store) f
  tidy : ∀ f, (s.stack f).Pairwise Frame.Above
  state : s.StateSound (s.results store)
  store : s.store = (outcome s.body store s.order).2

section Keep

variable {store : St} {s s' t : WhenAllSys n α St} {f : Option (Fin n)} {frame : Frame n α}
  {rest frames : List (Frame n α)} {i : Fin n}

theorem StateSound.mono {results results' : Fin n → Option α} (h : s.StateSound results)
    (hgrows : Grows results results') :
    s.StateSound results' where
  task i value called htask := hgrows i value (h.task i value called htask)
  action := h.action
  values i value hvalue := hgrows i value (h.values i value hvalue)
  all values called hall := (h.all values called hall).mono hgrows
  flat result called hflat := (h.flat result called hflat).mono hgrows
  receiver result hresult := (h.receiver result hresult).mono hgrows
  returned result hresult := (h.returned result hresult).mono hgrows
  waiters := h.waiters

theorem tidy_push (h : ∀ g, (s.stack g).Pairwise Frame.Above) (hstack : s.stack f = frame :: rest)
    (ht : t.stack = s.stack) (hframes : frames.Pairwise Frame.Above)
    (hwaits : ¬ frame.Waits → ∀ x ∈ frames, ¬ x.Waits) (g : Option (Fin n)) :
    ((t.push f rest frames).stack g).Pairwise Frame.Above := by
  show (Function.update t.stack f (frames ++ rest) g).Pairwise _
  rw [ht]
  by_cases hg : g = f
  · subst hg
    have hold := h g
    rw [hstack, List.pairwise_cons] at hold
    rw [Function.update_self, List.pairwise_append]
    exact ⟨hframes, hold.2, fun x hx y hy => ⟨hwaits (hold.1 y hy).1 x hx, (hold.1 y hy).2⟩⟩
  · rw [Function.update_of_ne hg]
    exact h g

/-- A step that is not the call of a task. -/
theorem Inv.push (h : s.Inv store) (hstack : s.stack f = frame :: rest) (ht : t.stack = s.stack)
    (hsame : t.body = s.body ∧ t.order = s.order ∧ t.store = s.store) (hcounts : (t.push f rest frames).Counts)
    (hframes : ∀ x ∈ frames, x.Sound (s.results store) f) (htidy : frames.Pairwise Frame.Above)
    (hwaits : ¬ frame.Waits → ∀ x ∈ frames, ¬ x.Waits) (hstate : t.StateSound (s.results store)) :
    (t.push f rest frames).Inv store := by
  obtain ⟨hbody, horder, hstore⟩ := hsame
  have hresults : (t.push f rest frames).results store = s.results store := by
    unfold results
    rw [push_body, push_order, hbody, horder]
  refine ⟨hcounts, ?_, tidy_push h.tidy hstack ht htidy hwaits, ?_, ?_⟩
  · rw [hresults]
    intro g
    show ∀ x ∈ Function.update t.stack f (frames ++ rest) g, _
    rw [ht]
    exact forall_push hstack h.frames (fun _ _ => id) hframes g
  · rw [hresults]
    exact ⟨hstate.task, hstate.action, hstate.values, hstate.all, hstate.flat, hstate.receiver, hstate.returned,
      hstate.waiters⟩
  · rw [push_store, push_body, push_order, hbody, horder, hstore]
    exact h.store

theorem Inv.top (h : s.Inv store) (hstack : s.stack f = frame :: rest) : frame.Sound (s.results store) f :=
  h.frames f frame (by rw [hstack]; exact List.mem_cons_self)

/-- The task runs for the first time. -/
theorem Inv.call (h : s.Inv store) (hstack : s.stack f = .call i :: rest) :
    ({ s with store := (s.body i s.store).2, order := s.order ++ [i] }.push f rest
      [.setTask i (s.body i s.store).1]).Inv store := by
  have hnew : s.results store i = none := by
    refine outcome_eq_none (List.count_eq_zero.mp ?_)
    have hpos : 1 ≤ s.count (.call i) := count_pos hstack rfl
    have hset := (h.counts.task i).set
    have hran := (h.counts.task i).ran
    omega
  have houtcome := outcome_concat s.body store s.order i
  rw [← h.store] at houtcome
  have hresults : (outcome s.body store (s.order ++ [i])).1
      = Function.update (s.results store) i (some (s.body i s.store).1) := by rw [houtcome]; rfl
  have hgrows : Grows (s.results store) (outcome s.body store (s.order ++ [i])).1 := by
    intro j a hj
    rw [hresults, Function.update_of_ne ?_]
    · exact hj
    · rintro rfl
      rw [hnew] at hj
      cases hj
  refine ⟨h.counts.call hstack _, ?_, tidy_push h.tidy hstack rfl (List.pairwise_singleton ..)
    (by simp), ?_, ?_⟩
  · refine forall_push hstack h.frames (fun _ _ hx => hx.mono hgrows) ?_
    intro x hx
    rw [List.mem_singleton.mp hx]
    show (outcome s.body store (s.order ++ [i])).1 i = _
    rw [hresults, Function.update_self]
  · obtain ⟨htask, haction, hvalues, hall, hflat, hreceiver, hreturned, hwaiters⟩ := h.state.mono hgrows
    exact ⟨htask, haction, hvalues, hall, hflat, hreceiver, hreturned, hwaiters⟩
  · show (s.body i s.store).2 = (outcome s.body store (s.order ++ [i])).2
    rw [houtcome]

/-- A handler that has begun to wait has nothing else to do. -/
theorem Inv.alone (h : s.Inv store) {x : Frame n α} (hx : x ∈ s.stack none) (hsleeps : x.Sleeps) :
    s.stack none = [x] := by
  have hwaits : x.Waits := by cases x <;> simp_all
  obtain ⟨before, after, hsplit⟩ := List.append_of_mem hx
  have htidy := h.tidy none
  rw [hsplit, List.pairwise_append, List.pairwise_cons] at htidy
  obtain ⟨-, ⟨hafter, -⟩, hbefore⟩ := htidy
  have hnil : before = [] :=
    List.eq_nil_iff_forall_not_mem.mpr (fun y hy => (hbefore y hy x List.mem_cons_self).2 hsleeps)
  have hnil' : after = [] := List.eq_nil_iff_forall_not_mem.mpr (fun y hy => (hafter y hy).1 hwaits)
  rw [hsplit, hnil, hnil', List.nil_append]

theorem Inv.asleep (h : s.Inv store) (hcount : 1 ≤ s.count .halting + s.count .halted) :
    s.stack none = [.halting] ∨ s.stack none = [.halted] := by
  rcases Int.lt_or_le (s.count .halting) 1 with hless | hpos
  · obtain ⟨g, x, hx, hkind⟩ := exists_of_marking_pos (show 1 ≤ s.count .halted by omega)
    obtain rfl := Frame.eq_halted hkind
    obtain rfl : g = none := h.frames g _ hx
    exact Or.inr (h.alone hx trivial)
  · obtain ⟨g, x, hx, hkind⟩ := exists_of_marking_pos hpos
    obtain rfl := Frame.eq_halting hkind
    obtain rfl : g = none := h.frames g _ hx
    exact Or.inl (h.alone hx trivial)

/-- **No check fails.** -/
theorem Inv.not_fails (h : s.Inv store) (hstack : s.stack f = frame :: rest) : ¬ s.Fails frame := by
  intro hfails
  have hpos := count_pos hstack rfl
  have hone := h.counts.fired_le_one
  cases frame with
  | setTask i value =>
      obtain ⟨v, b, hcore⟩ := hfails
      have hset := (h.counts.task i).set
      have hcalls := count_nonneg s (.call i)
      simp only [hcore, Core.set_satisfied, Frame.kind] at hset hpos
      omega
  | chainTask i =>
      obtain ⟨v, hcore⟩ := hfails
      have hchain := (h.counts.task i).chain
      simp only [hcore, Core.chained_satisfied, bit_true, Frame.kind] at hchain hpos
      omega
  | setAll values =>
      obtain ⟨v, b, hcore⟩ := hfails
      have hset := h.counts.all.set
      have hle := bit_le_one (s.left == 0)
      have htake := count_nonneg s .takeValues
      simp only [hcore, Core.set_satisfied, Frame.kind] at hset hpos
      omega
  | chainAll =>
      obtain ⟨v, hcore⟩ := hfails
      have hchain := h.counts.all.chain
      simp only [hcore, Core.chained_satisfied, bit_true, Frame.kind] at hchain hpos
      omega
  | setSlot i =>
      obtain ⟨v, b, hcore⟩ := hfails
      have hle := (h.counts.decremented_bounds i).2
      simp only [decremented, hcore, Core.set_satisfied, Frame.kind] at hle hpos
      omega
  | unbox values =>
      obtain ⟨result, hresult, -⟩ := Complete.unbox (h.top hstack)
      rw [show values.mapM id = none from hfails] at hresult
      cases hresult
  | setFlat result =>
      obtain ⟨v, b, hcore⟩ := hfails
      have hsetFlat := h.counts.all.setFlat
      have hunbox := count_nonneg s .unbox
      simp only [hcore, Core.set_satisfied, Frame.kind] at hsetFlat hpos
      omega
  | chainFlat =>
      obtain ⟨v, hcore⟩ := hfails
      have hchain := h.counts.all.chainFlat
      simp only [hcore, Core.chained_satisfied, bit_true, Frame.kind] at hchain hpos
      omega
  | readyFibers fibers =>
      obtain ⟨fiber, rest', rfl, hawake⟩ := hfails
      obtain ⟨rfl, rfl⟩ : fiber = none ∧ rest' = [] := by simpa [Frame.Sound] using h.top hstack
      have hasleep := h.counts.wait.asleep
      have hready := bit_nonneg s.ready
      simp only [Frame.kind] at hpos
      rcases h.asleep (by omega) with hhalting | hhalted
      · exact (hawake []).1 hhalting
      · exact (hawake []).2 hhalted
  | setGot =>
      obtain ⟨v, b, hcore⟩ := hfails
      have hfired := h.counts.wait.fired
      have hreceive := count_nonneg s .receive
      have hsetEvent := count_nonneg s .setEvent
      have hreadyFiber := count_nonneg s .readyFiber
      have hreadied := count_nonneg s .readied
      simp only [hcore, Core.set_satisfied, Frame.kind] at hfired hpos
      omega
  | get =>
      have hwoken := h.counts.wait.woken
      have hreceived := h.counts.wait.received
      have hawakened := h.counts.wait.awakened
      have hreturned := bit_nonneg s.returned.isSome
      have hsetEvent := count_nonneg s .setEvent
      rw [show s.receiver = none from hfails] at hreceived
      simp only [Option.isSome_none, bit_false, Frame.kind] at hreceived hpos
      omega
  | _ => exact hfails

/-- Nobody but the handler is in the wait chain. -/
theorem Inv.waiters (h : s.Inv store) : s.waiters = [] ∨ s.waiters = [none] := by
  have hsleepers := h.counts.sleepers
  have hready := bit_nonneg s.ready
  have hreadyFiber := count_nonneg s .readyFiber
  have hwait := count_nonneg s .wait
  have hget := count_nonneg s .get
  have hnone := h.state.waiters
  match hwaiters : s.waiters with
  | [] => exact Or.inl rfl
  | [g] =>
      rw [hwaiters] at hnone
      rw [hnone g List.mem_cons_self]
      exact Or.inr rfl
  | _ :: _ :: _ =>
      rw [hwaiters, List.length_cons, List.length_cons] at hsleepers
      omega

/-- The values are complete when they are taken. -/
theorem Inv.complete (h : s.Inv store) (hpos : 1 ≤ s.count .takeValues) :
    Complete (s.results store) ((List.finRange n).map s.values) := by
  have hleft : s.left = 0 := by
    by_contra hne
    have hset := h.counts.all.set
    have hall := s.all.set_nonneg
    have hsetAll := count_nonneg s .setAll
    rw [bit_beq_zero hne] at hset
    omega
  have hzero : ∑ i, (1 - s.decremented i) = 0 := by
    have hsum := h.counts.left
    rw [Finset.sum_sub_distrib]
    simp
    omega
  have hall : ∀ i, (s.values i).isSome := by
    intro i
    have hone := (Finset.sum_eq_zero_iff_of_nonneg
      (fun j _ => Int.sub_nonneg_of_le (h.counts.decremented_bounds j).2)).mp hzero i (Finset.mem_univ i)
    have hsaved := (h.counts.task i).saved
    have hdecrements := count_nonneg s (.decrement i)
    by_contra hnone
    rw [Bool.eq_false_of_not_eq_true hnone, bit_false] at hsaved
    omega
  have hsame : s.results store = s.values := by
    funext i
    obtain ⟨value, hvalue⟩ := Option.isSome_iff_exists.mp (hall i)
    rw [hvalue, h.state.values i value hvalue]
  exact ⟨by rw [hsame]; exact hall, by rw [hsame]⟩

theorem Inv.putTask (h : s.Inv store) (hstack : s.stack f = frame :: rest) {core : Core α (Fin n)}
    (hframe : frame.kind = .setTask i ∧ core.set = (s.task i).set + 1 ∧ core.chained = (s.task i).chained
      ∨ frame.kind = .chainTask i ∧ core.set = (s.task i).set ∧ core.chained = (s.task i).chained + 1)
    (hframes : frames = [] ∧ core.fired = (s.task i).fired
      ∨ (∃ value, frames = [.save i value] ∧ s.results store i = some value)
        ∧ core.fired = (s.task i).fired + 1)
    (hvalue : ∀ value called, core = .satisfied value called → s.results store i = some value)
    (haction : ∀ index, core = .waiting (some index) → index = i) :
    ({ s with task := Function.update s.task i core }.push f rest frames).Inv store := by
  have hstate : { s with task := Function.update s.task i core }.StateSound (s.results store) := by
    refine { h.state with task := fun j => ?_, action := fun j => ?_ }
    · by_cases hj : j = i
      · subst hj
        simpa using hvalue
      · simpa [hj] using h.state.task j
    · by_cases hj : j = i
      · subst hj
        simpa using haction
      · simpa [hj] using h.state.action j
  rcases hframes with ⟨rfl, hfires⟩ | ⟨⟨value, rfl, hsound⟩, hfires⟩
  · exact h.push hstack rfl ⟨rfl, rfl, rfl⟩ (h.counts.putTask hstack hframe (.inl ⟨rfl, hfires⟩)) (by simp) .nil
      (by simp) hstate
  · exact h.push hstack rfl ⟨rfl, rfl, rfl⟩ (h.counts.putTask hstack hframe (.inr ⟨⟨value, rfl⟩, hfires⟩))
      (by simpa [Frame.Sound] using hsound) (List.pairwise_singleton ..) (by simp) hstate

theorem Inv.putAll (h : s.Inv store) (hstack : s.stack f = frame :: rest) {core : Core (List (Option α)) Unit}
    (hframe : frame.kind = .setAll ∧ core.set = s.all.set + 1 ∧ core.chained = s.all.chained
      ∨ frame.kind = .chainAll ∧ core.set = s.all.set ∧ core.chained = s.all.chained + 1)
    (hframes : frames = [] ∧ core.fired = s.all.fired
      ∨ (∃ values, frames = [.unbox values] ∧ Complete (s.results store) values) ∧ core.fired = s.all.fired + 1)
    (hvalues : ∀ values called, core = .satisfied values called → Complete (s.results store) values) :
    ({ s with all := core }.push f rest frames).Inv store := by
  have hstate : { s with all := core }.StateSound (s.results store) := { h.state with all := hvalues }
  rcases hframes with ⟨rfl, hfires⟩ | ⟨⟨values, rfl, hsound⟩, hfires⟩
  · exact h.push hstack rfl ⟨rfl, rfl, rfl⟩ (h.counts.putAll hstack hframe (.inl ⟨rfl, hfires⟩)) (by simp) .nil
      (by simp) hstate
  · exact h.push hstack rfl ⟨rfl, rfl, rfl⟩ (h.counts.putAll hstack hframe (.inr ⟨⟨values, rfl⟩, hfires⟩))
      (by simpa [Frame.Sound] using hsound) (List.pairwise_singleton ..) (by simp) hstate

theorem Inv.putFlat (h : s.Inv store) (hstack : s.stack f = frame :: rest) {core : Core (List α) Unit}
    (hframe : frame.kind = .setFlat ∧ core.set = s.flat.set + 1 ∧ core.chained = s.flat.chained
      ∨ frame.kind = .chainFlat ∧ core.set = s.flat.set ∧ core.chained = s.flat.chained + 1)
    (hframes : frames = [] ∧ core.fired = s.flat.fired
      ∨ (∃ result, frames = [.receive result] ∧ Complete (s.results store) (result.map some))
        ∧ core.fired = s.flat.fired + 1)
    (hresult : ∀ result called, core = .satisfied result called →
      Complete (s.results store) (result.map some)) :
    ({ s with flat := core }.push f rest frames).Inv store := by
  have hstate : { s with flat := core }.StateSound (s.results store) := { h.state with flat := hresult }
  rcases hframes with ⟨rfl, hfires⟩ | ⟨⟨result, rfl, hsound⟩, hfires⟩
  · exact h.push hstack rfl ⟨rfl, rfl, rfl⟩ (h.counts.putFlat hstack hframe (.inl ⟨rfl, hfires⟩)) (by simp) .nil
      (by simp) hstate
  · exact h.push hstack rfl ⟨rfl, rfl, rfl⟩ (h.counts.putFlat hstack hframe (.inr ⟨⟨result, rfl⟩, hfires⟩))
      (by simpa [Frame.Sound] using hsound) (List.pairwise_singleton ..) (by simp) hstate

/-- **Every step keeps the invariant.** The counter has as many values as a `std::size_t`. -/
theorem Inv.effect (h : s.Inv store) (hn : n < 2 ^ 64) (he : s.Effect f s') : s'.Inv store := by
  cases he with
  | startFiber hstack =>
      exact h.push hstack rfl ⟨rfl, rfl, rfl⟩ (h.counts.startFiber hstack) (by simp) .nil (by simp)
        { h.state with }
  | call hstack _ => exact h.call hstack
  | setTask hstack hcore =>
      refine h.putTask hstack (.inl ⟨rfl, ?_, ?_⟩) (.inl ⟨rfl, ?_⟩) ?_ ?_
      · simp [hcore]
      · simp [hcore]
      · simp [hcore]
      · intro value called heq
        cases heq
        exact h.top hstack
      · intro index heq
        cases heq
  | @fireTask i value rest index hstack hcore =>
      obtain rfl := h.state.action _ _ hcore
      refine h.putTask hstack (.inl ⟨rfl, ?_, ?_⟩) (.inr ⟨⟨value, rfl, h.top hstack⟩, ?_⟩) ?_ ?_
      · simp [hcore]
      · simp [hcore]
      · simp [hcore]
      · intro value called heq
        cases heq
        exact h.top hstack
      · intro index heq
        cases heq
  | @chainTask i rest action hstack hcore =>
      -- `ChainAction` would overwrite an action, but there is none
      have hnone := Core.action_eq_none hcore (h.counts.task i).chain (count_pos hstack rfl)
      refine h.putTask hstack (.inr ⟨rfl, ?_, ?_⟩) (.inl ⟨rfl, ?_⟩) ?_ ?_
      · simp [hcore]
      · simp [hcore, hnone]
      · simp [hcore]
      · intro value called heq
        cases heq
      · intro index heq
        cases heq
        rfl
  | @runTask i rest value hstack hcore =>
      have hvalue := h.state.task i value false hcore
      refine h.putTask hstack (.inr ⟨rfl, ?_, ?_⟩) (.inr ⟨⟨value, rfl, hvalue⟩, ?_⟩) ?_ ?_
      · simp [hcore]
      · simp [hcore]
      · simp [hcore]
      · intro value called heq
        cases heq
        exact hvalue
      · intro index heq
        cases heq
  | @save index boxed rest hstack =>
      refine h.push hstack rfl ⟨rfl, rfl, rfl⟩ (h.counts.save hstack) (by simp [Frame.Sound])
        (List.pairwise_singleton ..) (by simp) { h.state with values := fun j value hj => ?_ }
      change Function.update s.values index (some boxed) j = some value at hj
      rcases eq_or_ne j index with rfl | hne
      · rw [Function.update_self] at hj
        cases hj
        exact h.top hstack
      · rw [Function.update_of_ne hne] at hj
        exact h.state.values j value hj
  | decrement hstack hleft hne =>
      -- the counter does not wrap around
      have hbounds := h.counts.left_pos (count_pos hstack rfl)
      exact h.push hstack rfl ⟨rfl, rfl, rfl⟩ (h.counts.decrement hstack (by omega) (.inl ⟨rfl, hne⟩))
        (by simp [Frame.Sound]) (List.pairwise_singleton ..) (by simp) { h.state with }
  | last hstack hleft =>
      have hbounds := h.counts.left_pos (count_pos hstack rfl)
      exact h.push hstack rfl ⟨rfl, rfl, rfl⟩ (h.counts.decrement hstack (by omega) (.inr ⟨rfl, rfl⟩))
        (by simp [Frame.Sound]) (by simp [Frame.Above]) (by simp) { h.state with }
  | takeValues hstack =>
      exact h.push hstack rfl ⟨rfl, rfl, rfl⟩ (h.counts.takeValues hstack _)
        (by simpa [Frame.Sound] using h.complete (count_pos hstack rfl)) (List.pairwise_singleton ..) (by simp)
        { h.state with }
  | setAll hstack hcore =>
      refine h.putAll hstack (.inl ⟨rfl, ?_, ?_⟩) (.inl ⟨rfl, ?_⟩) ?_
      · simp [hcore]
      · simp [hcore]
      · simp [hcore]
      · intro values called heq
        cases heq
        exact h.top hstack
  | fireAll hstack hcore =>
      refine h.putAll hstack (.inl ⟨rfl, ?_, ?_⟩) (.inr ⟨⟨_, rfl, h.top hstack⟩, ?_⟩) ?_
      · simp [hcore]
      · simp [hcore]
      · simp [hcore]
      · intro values called heq
        cases heq
        exact h.top hstack
  | @chainAll rest action hstack hcore =>
      have hnone := Core.action_eq_none hcore h.counts.all.chain (count_pos hstack rfl)
      refine h.putAll hstack (.inr ⟨rfl, ?_, ?_⟩) (.inl ⟨rfl, ?_⟩) ?_
      · simp [hcore]
      · simp [hcore, hnone]
      · simp [hcore]
      · intro values called heq
        cases heq
  | runAll hstack hcore =>
      have hvalues := h.state.all _ _ hcore
      refine h.putAll hstack (.inr ⟨rfl, ?_, ?_⟩) (.inr ⟨⟨_, rfl, hvalues⟩, ?_⟩) ?_
      · simp [hcore]
      · simp [hcore]
      · simp [hcore]
      · intro values called heq
        cases heq
        exact hvalues
  | setSlot hstack hcore =>
      exact h.push hstack rfl ⟨rfl, rfl, rfl⟩ (h.counts.setSlot hstack hcore) (by simp) .nil (by simp)
        { h.state with }
  | unbox hstack hall =>
      obtain ⟨result, hresult, hmap⟩ := Complete.unbox (h.top hstack)
      obtain rfl := Option.some.inj (hall.symm.trans hresult)
      refine h.push hstack rfl ⟨rfl, rfl, rfl⟩ (h.counts.unbox hstack _) ?_ (List.pairwise_singleton ..)
        (by simp)
        { h.state with }
      simp only [List.mem_singleton, forall_eq, Frame.Sound, hmap]
      exact h.top hstack
  | setFlat hstack hcore =>
      refine h.putFlat hstack (.inl ⟨rfl, ?_, ?_⟩) (.inl ⟨rfl, ?_⟩) ?_
      · simp [hcore]
      · simp [hcore]
      · simp [hcore]
      · intro result called heq
        cases heq
        exact h.top hstack
  | fireFlat hstack hcore =>
      refine h.putFlat hstack (.inl ⟨rfl, ?_, ?_⟩) (.inr ⟨⟨_, rfl, h.top hstack⟩, ?_⟩) ?_
      · simp [hcore]
      · simp [hcore]
      · simp [hcore]
      · intro result called heq
        cases heq
        exact h.top hstack
  | @chainFlat rest action hstack hcore =>
      have hnone := Core.action_eq_none hcore h.counts.all.chainFlat (count_pos hstack rfl)
      refine h.putFlat hstack (.inr ⟨rfl, ?_, ?_⟩) (.inl ⟨rfl, ?_⟩) ?_
      · simp [hcore]
      · simp [hcore, hnone]
      · simp [hcore]
      · intro result called heq
        cases heq
  | runFlat hstack hcore =>
      have hresult := h.state.flat _ _ hcore
      refine h.putFlat hstack (.inr ⟨rfl, ?_, ?_⟩) (.inr ⟨⟨_, rfl, hresult⟩, ?_⟩) ?_
      · simp [hcore]
      · simp [hcore]
      · simp [hcore]
      · intro result called heq
        cases heq
        exact hresult
  | receive hstack =>
      refine h.push hstack rfl ⟨rfl, rfl, rfl⟩ (h.counts.receive hstack) (by simp [Frame.Sound])
        (List.pairwise_singleton ..) (by simp) { h.state with receiver := fun result hresult => ?_ }
      cases hresult
      exact h.top hstack
  | setEvent hstack =>
      exact h.push hstack rfl ⟨rfl, rfl, rfl⟩ (h.counts.setEvent hstack)
        (by simpa [Frame.Sound] using h.waiters)
        (List.pairwise_singleton ..) (by simp) { h.state with waiters := by simp }
  | readied hstack =>
      exact h.push hstack rfl ⟨rfl, rfl, rfl⟩ (h.counts.readied hstack) (by simp [Frame.Sound])
        (List.pairwise_singleton ..) (by simp) { h.state with }
  | @readyFiber fiber fibers rest after hstack _ =>
      obtain ⟨-, rfl⟩ : fiber = none ∧ fibers = [] := by simpa [Frame.Sound] using h.top hstack
      exact h.push hstack rfl ⟨rfl, rfl, rfl⟩ (h.counts.readyFiber hstack) (by simp [Frame.Sound])
        (List.pairwise_singleton ..) (by simp) { h.state with }
  | setGot hstack hcore =>
      exact h.push hstack rfl ⟨rfl, rfl, rfl⟩ (h.counts.setGot hstack hcore) (by simp) .nil (by simp)
        { h.state with }
  | waited hstack hset =>
      exact h.push hstack rfl ⟨rfl, rfl, rfl⟩ (h.counts.waited hstack hset)
        (by simpa [Frame.Sound] using h.top hstack) (List.pairwise_singleton ..) (by simp) { h.state with }
  | addWaiter hstack hset =>
      have hnone : f = none := h.top hstack
      refine h.push hstack rfl ⟨rfl, rfl, rfl⟩ (h.counts.addWaiter hstack hset)
        (by simpa [Frame.Sound] using hnone)
        (List.pairwise_singleton ..) (by simp) { h.state with waiters := fun g hg => ?_ }
      rcases List.mem_append.mp hg with hg | hg
      · exact h.state.waiters g hg
      · exact (List.mem_singleton.mp hg).trans hnone
  | halting hstack =>
      exact h.push hstack rfl ⟨rfl, rfl, rfl⟩ (h.counts.halting hstack)
        (by simpa [Frame.Sound] using h.top hstack) (List.pairwise_singleton ..) (by simp) { h.state with }
  | resumed hstack hready =>
      exact h.push hstack rfl ⟨rfl, rfl, rfl⟩ (h.counts.resumed hstack hready)
        (by simpa [Frame.Sound] using h.top hstack) (List.pairwise_singleton ..) (by simp) { h.state with }
  | get hstack hreceiver =>
      refine h.push hstack rfl ⟨rfl, rfl, rfl⟩ (h.counts.get hstack) (by simp) .nil (by simp)
        { h.state with returned := fun result hresult => ?_ }
      cases hresult
      exact h.state.receiver _ hreceiver
  | abort hstack hfails => exact absurd hfails (h.not_fails hstack)

end Keep

/-! ## The start -/

section Init

theorem one_finRange (i : Fin n) : (List.finRange n).countP (fun j => decide (j = i)) = 1 := by
  have h := List.count_eq_one_of_mem (List.nodup_finRange n) (List.mem_finRange i)
  simpa [List.count, beq_eq_decide] using h

theorem count_init (body : Fin n → St → α × St) (store : St) (k : Kind n) :
    (init body store).count k = k.first := by
  have hsplit : (init body store).count k
      = ((handler n α).countP (fun x => x.kind = k) : Int) + ∑ i, if Kind.call i = k then 1 else 0 := by
    unfold count marking tally
    rw [Fintype.sum_option]
    refine congrArg _ (Finset.sum_congr rfl (fun i _ => ?_))
    by_cases hk : Kind.call i = k <;> simp [init, hk]
  rw [hsplit]
  unfold handler
  cases k <;> simp [List.countP_append, List.countP_map, Function.comp_def, Kind.first, one_finRange]

theorem counts_init (body : Fin n → St → α × St) (store : St) : (init body store).Counts := by
  have hc := count_init body store
  refine ⟨fun i => ?_, ?_, ?_, ?_⟩
  · constructor <;> simp [decremented, hc, Kind.first] <;> simp [init]
  · simp [decremented, hc, Kind.first]
    simp [init]
  · rcases Nat.eq_zero_or_pos n with rfl | hpos
    · constructor <;> simp [hc, Kind.first] <;> simp [init]
    · have hne := Nat.ne_of_gt hpos
      constructor <;> simp [hc, Kind.first] <;> simp [init, hne, bit]
  · constructor <;> (try simp only [hc, Kind.first]) <;> simp [init]

theorem inv_init (body : Fin n → St → α × St) (store : St) : (init body store).Inv store := by
  refine ⟨counts_init body store, ?_, ?_, ?_, rfl⟩
  · intro f x hx
    cases f with
    | none =>
        change x ∈ handler n α at hx
        simp only [handler, List.mem_append, List.mem_map, List.mem_cons, List.not_mem_nil, or_false] at hx
        rcases hx with (⟨i, -, rfl⟩ | ⟨i, -, rfl⟩) | rfl | rfl | rfl <;> simp [Frame.Sound]
    | some i =>
        rw [List.mem_singleton.mp hx]
        rfl
  · intro f
    cases f with
    | none =>
        have hany : List.Pairwise (fun _ _ => True) (List.finRange n) :=
          List.pairwise_of_forall (fun _ _ => trivial)
        simp [init, handler, List.pairwise_append, List.pairwise_map, Frame.Above, hany, or_imp, forall_and]
    | some i => exact List.pairwise_singleton ..
  · have hall : ∀ values called, (init body store).all = .satisfied values called →
        Complete ((init body store).results store) values := by
      intro values called hall
      rcases Nat.eq_zero_or_pos n with rfl | hpos
      · obtain ⟨rfl, -⟩ : [] = values ∧ false = called := by simpa [init] using hall
        exact ⟨fun i => i.elim0, rfl⟩
      · simp [init, Nat.ne_of_gt hpos] at hall
    constructor <;> first | exact hall | simp [init]

end Init

/-! ## Whole runs -/

section Runs

variable {body : Fin n → St → α × St} {store : St} {s s' : WhenAllSys n α St} {f : Option (Fin n)}
  {es : List (Option (Fin n))}

theorem Effect.body_eq (h : s.Effect f s') : s'.body = s.body := by cases h <;> rfl

theorem run_inv (hn : n < 2 ^ 64) (hrun : Run step always (init body store) es s) :
    s.Inv store ∧ s.body = body := by
  refine hrun.invariant (I := fun s => s.Inv store ∧ s.body = body) ⟨inv_init body store, rfl⟩ ?_
  intro s f s' ⟨hinv, hbody⟩ _ hs
  have he := step_cases hs
  exact ⟨hinv.effect hn he, he.body_eq.trans hbody⟩

/-- When all results are there, every task has run once. -/
theorem Inv.order_perm (h : s.Inv store) {values : List (Option α)}
    (hcomplete : Complete (s.results store) values) :
    s.order.Perm (List.finRange n) := by
  rw [List.perm_iff_count]
  intro i
  rw [List.count_eq_one_of_mem (List.nodup_finRange n) (List.mem_finRange i)]
  have hmem : i ∈ s.order := by
    by_contra hi
    have hsome := hcomplete.1 i
    rw [results, outcome_eq_none hi] at hsome
    cases hsome
  have hpos : 0 < s.order.count i := List.count_pos_iff.mpr hmem
  have hran := (h.counts.task i).ran
  have hset := (h.counts.task i).set
  have hcalls := count_nonneg s (.call i)
  omega

/-- Once the handler goes on, nobody is about to use what is on its stack. -/
theorem Inv.released (h : s.Inv store) (hreturned : s.returned.isSome) :
    s.count .receive = 0 ∧ s.count .setEvent = 0 := by
  have hwoken := h.counts.wait.woken
  have hfired := h.counts.wait.fired
  have hawakened := h.counts.wait.awakened
  have hone := h.counts.fired_le_one
  have hle := bit_le_one s.awakened
  have hget := count_nonneg s .get
  have hreceive := count_nonneg s .receive
  have hsetEvent := count_nonneg s .setEvent
  rw [hreturned, bit_true] at hwoken
  omega

theorem not_mem_of_count {k : Kind n} (h : s.count k = 0) {x : Frame n α} (hx : x ∈ s.stack f) :
    x.kind ≠ k := by
  rintro rfl
  have hpos : 1 ≤ s.count x.kind := marking_pos hx
  omega

/-- **`BlockingGet(WhenAll(...))` waits for all tasks.** In whatever order the fibers take turns, no check
    fails. When the handler goes on, each task has run once; the store and the results are those of the tasks
    run one after the other, in the order in which they did; and no fiber is about to touch the handler's
    `receiver` or its event. -/
theorem whenAll_waits (hn : n < 2 ^ 64) (hrun : Run step always (init body store) es s) :
    (∀ f, ∀ x ∈ s.stack f, x.kind ≠ .aborted) ∧
    ∀ result, s.returned = some result →
      s.order.Perm (List.finRange n) ∧ s.store = (outcome body store s.order).2 ∧
      result.map some = (List.finRange n).map (outcome body store s.order).1 ∧
      ∀ f, ∀ x ∈ s.stack f, x.kind ≠ .receive ∧ x.kind ≠ .setEvent := by
  obtain ⟨hinv, rfl⟩ := run_inv hn hrun
  refine ⟨fun f x hx => not_mem_of_count hinv.counts.wait.sound hx, fun result hresult => ?_⟩
  have hcomplete := hinv.state.returned result hresult
  have hreleased := hinv.released (by rw [hresult]; rfl)
  exact ⟨hinv.order_perm hcomplete, hinv.store, hcomplete.2,
    fun f x hx => ⟨not_mem_of_count hreleased.1 hx, not_mem_of_count hreleased.2 hx⟩⟩

/-- The handler goes to sleep before its only task has run. -/
theorem whenAll_waits_asleep : ∃ (es : List (Option (Fin 1))) (s : WhenAllSys 1 Nat Nat),
    Run step always (init (fun _ k => (k, k + 1)) 5) es s ∧ s.returned = some [5] ∧ s.order.Perm [0]
      ∧ s.store = 6 := by
  let es : List (Option (Fin 1)) := List.replicate 6 none ++ List.replicate 13 (some 0) ++ [none, none]
  have hruns : (es.foldlM step (init (fun _ k => (k, k + 1)) 5)).map
      (fun s : WhenAllSys 1 Nat Nat => (s.returned, s.store)) = some (some [5], 6) := by decide
  obtain ⟨s, hs, hreturned⟩ := Option.map_eq_some_iff.mp hruns
  obtain ⟨hreturned, hstore⟩ := Prod.mk.inj hreturned
  have hrun := run_of_forall (fun _ _ _ => trivial) hs
  exact ⟨_, s, hrun, hreturned, ((whenAll_waits (by decide) hrun).2 [5] hreturned).1, hstore⟩

/-! ### Termination -/

/-- How many steps the fibers may still take. -/
def work (s : WhenAllSys n α St) : Int := effort (fun x => (x.cost : Int)) s.stack

/-- Frames that lead to fewer steps than the one they replace. -/
theorem work_push {t : WhenAllSys n α St} {frame : Frame n α} {rest frames : List (Frame n α)}
    (h : s.stack f = frame :: rest) (ht : t.stack = s.stack)
    (hcost : (frames.map Frame.cost).sum < frame.cost) :
    (t.push f rest frames).work + 1 ≤ s.work := by
  have hpush : (t.push f rest frames).work
      = s.work - frame.cost + (frames.map (fun x => (x.cost : Int))).sum := by
    unfold work push
    rw [ht]
    exact effort_push h _ frames
  have hsum : (frames.map (fun x => (x.cost : Int))).sum = ((frames.map Frame.cost).sum : Nat) := by
    rw [Nat.cast_list_sum, List.map_map]
    rfl
  omega

theorem work_init (body : Fin n → St → α × St) (store : St) : (init body store).work = 28 * n + 18 := by
  unfold work effort tally
  rw [Fintype.sum_option]
  simp [init, handler, Function.comp_def, Frame.cost]
  omega

/-- A step makes less to be done. -/
theorem Inv.work_lt (h : s.Inv store) (he : s.Effect f s') : s'.work + 1 ≤ s.work := by
  cases he with
  | setEvent hstack =>
      refine work_push hstack rfl ?_
      rcases h.waiters with hnil | hone
      · simp [hnil, Frame.cost]
      · simp [hone, Frame.cost]
  | abort hstack hfails => exact absurd hfails (h.not_fails hstack)
  | startFiber hstack | call hstack _ | setTask hstack _ | fireTask hstack _ | chainTask hstack _
  | runTask hstack _ | save hstack | decrement hstack _ _ | last hstack _ | takeValues hstack
  | setAll hstack _ | fireAll hstack _ | chainAll hstack _ | runAll hstack _ | setSlot hstack _
  | unbox hstack _ | setFlat hstack _ | fireFlat hstack _ | chainFlat hstack _ | runFlat hstack _
  | receive hstack | readied hstack | readyFiber hstack _ | setGot hstack _ | waited hstack _
  | addWaiter hstack _ | halting hstack | resumed hstack _ | get hstack _ =>
      exact work_push hstack rfl (by simp [Frame.cost])

/-- The fiber has to wait for another one. -/
def Blocked (s : WhenAllSys n α St) : Frame n α → Prop
  | .call i => s.started i = false
  | .readyFibers fibers => ∃ g gs after, fibers = g :: gs ∧ s.stack g = .halting :: after
  | .halted => s.ready = false
  | .aborted => True
  | _ => False

/-- A fiber that does not go on has ended, or has to wait. -/
theorem blocked_of_step {frame : Frame n α} {rest : List (Frame n α)} (h : s.step f = none)
    (hstack : s.stack f = frame :: rest) : s.Blocked frame := by
  simp only [step, hstack] at h
  cases frame with
  | call i =>
      simp only [exec] at h
      split at h
      · cases h
      · rename_i hstarted
        exact Bool.eq_false_of_not_eq_true hstarted
  | readyFibers fibers =>
      cases fibers with
      | nil => cases h
      | cons g gs =>
          simp only [exec] at h
          split at h
          · rename_i hhalting
            exact ⟨g, gs, _, rfl, hhalting⟩
          · cases h
          · cases h
  | halted =>
      simp only [exec] at h
      split at h
      · cases h
      · rename_i hready
        exact Bool.eq_false_of_not_eq_true hready
  | aborted => trivial
  | unbox values | wait | get =>
      simp only [exec] at h
      split at h <;> cases h
  | _ => cases h

theorem Inv.idle_top (h : s.Inv store) (hidle : ∀ f, s.step f = none) {frame : Frame n α}
    {rest : List (Frame n α)} (hstack : s.stack f = frame :: rest) :
    f = none ∧ frame = .halted ∧ s.ready = false ∨ ∃ i, f = some i ∧ s.started i = false := by
  have hblocked := blocked_of_step (hidle f) hstack
  cases frame with
  | halted => exact Or.inl ⟨h.top hstack, rfl, hblocked⟩
  | call i => exact Or.inr ⟨i, h.top hstack, hblocked⟩
  | readyFibers fibers =>
      obtain ⟨g, gs, after, rfl, hhalting⟩ := hblocked
      exact (blocked_of_step (hidle g) hhalting).elim
  | aborted => exact absurd rfl (not_mem_of_count h.counts.wait.sound (hstack ▸ List.mem_cons_self))
  | _ => exact hblocked.elim

theorem Inv.idle_handler (h : s.Inv store) (hidle : ∀ f, s.step f = none) :
    s.stack none = [] ∨ s.stack none = [.halted] ∧ s.ready = false := by
  cases hstack : s.stack none with
  | nil => exact Or.inl rfl
  | cons frame rest =>
      obtain ⟨-, rfl, hready⟩ | ⟨i, hi, -⟩ := h.idle_top hidle hstack
      · rw [← hstack]
        exact Or.inr ⟨h.alone (hstack ▸ List.mem_cons_self) trivial, hready⟩
      · cases hi

/-- Where no fiber can go on, those of the tasks have ended. -/
theorem Inv.idle_task (h : s.Inv store) (hidle : ∀ f, s.step f = none) (i : Fin n) : s.stack (some i) = [] := by
  have hstarted : s.started i = true := by
    by_contra hno
    -- then it is still to be started, by the handler, which has nothing to do but to sleep
    have hstart := (h.counts.task i).start
    rw [Bool.eq_false_of_not_eq_true hno, bit_false] at hstart
    obtain ⟨g, x, hx, hkind⟩ := exists_of_marking_pos (show 1 ≤ s.count (.startFiber i) by omega)
    obtain rfl := Frame.eq_startFiber hkind
    obtain rfl : g = none := h.frames g _ hx
    rcases h.idle_handler hidle with hnil | ⟨hhalted, -⟩
    · simp [hnil] at hx
    · simp [hhalted] at hx
  cases hstack : s.stack (some i) with
  | nil => rfl
  | cons frame rest =>
      obtain ⟨hnone, -⟩ | ⟨j, hj, hno⟩ := h.idle_top hidle hstack
      · cases hnone
      · cases hj
        rw [hstarted] at hno
        cases hno

/-- When nothing is left to be done but for a handler that sleeps, it has been woken up. -/
theorem Counts.woken (h : s.Counts) (hzero : ∀ k, k ≠ .halted → s.count k = 0) (hready : s.ready = false) :
    s.count .halted = 0 := by
  have hdecremented : ∀ i, s.decremented i = 1 := by
    intro i
    have hset := (h.task i).set
    have hchain := (h.task i).chain
    have hfired := (h.task i).fired
    have hcore := (s.task i).fired_eq
    simp only [hzero, ne_eq, reduceCtorEq, not_false_eq_true] at hset hchain hfired
    omega
  have hleft : s.left = 0 := by
    have hsum := h.left
    simp only [hdecremented] at hsum
    simp at hsum
    omega
  -- so all promises are satisfied, down to the event
  have hset := h.all.set
  have hchain := h.all.chain
  have hsetFlat := h.all.setFlat
  have hchainFlat := h.all.chainFlat
  have hfired := h.wait.fired
  have hawakened := h.wait.awakened
  have hasleep := h.wait.asleep
  have hall := s.all.fired_eq
  have hflat := s.flat.fired_eq
  simp only [hzero, ne_eq, reduceCtorEq, not_false_eq_true, hleft, hready, BEq.rfl, bit_true, bit_false]
    at hset hchain hsetFlat hchainFlat hfired hawakened hasleep
  have hawake : s.awakened = true := by
    by_contra hno
    rw [Bool.eq_false_of_not_eq_true hno, bit_false] at hawakened
    omega
  rw [h.wait.calm hawake, List.length_nil] at hasleep
  omega

/-- **Where no fiber can go on, all have ended** and `BlockingGet` has returned. -/
theorem Inv.ended (h : s.Inv store) (hidle : ∀ f, s.step f = none) :
    (∀ f, s.stack f = []) ∧ s.returned.isSome := by
  have hhandler : s.stack none = [] := by
    rcases h.idle_handler hidle with hnil | ⟨hhalted, hready⟩
    · exact hnil
    · have hzero : ∀ k, k ≠ .halted → s.count k = 0 := by
        intro k hk
        refine marking_eq_zero (fun f x hx => ?_)
        cases f with
        | none =>
            rw [hhalted] at hx
            rw [List.mem_singleton.mp hx]
            exact hk.symm
        | some i =>
            rw [h.idle_task hidle i] at hx
            cases hx
      have hpos : 1 ≤ s.count .halted := count_pos hhalted rfl
      have hnone := h.counts.woken hzero hready
      omega
  have hall : ∀ f, s.stack f = [] := by
    intro f
    cases f with
    | none => exact hhandler
    | some i => exact h.idle_task hidle i
  have hzero : ∀ k, s.count k = 0 := by
    intro k
    refine marking_eq_zero (fun f x hx => ?_)
    rw [hall f] at hx
    cases hx
  refine ⟨hall, ?_⟩
  by_contra hno
  have hwait := h.counts.wait.wait
  rw [Bool.eq_false_of_not_eq_true hno] at hwait
  simp [hzero] at hwait

/-- **`BlockingGet(WhenAll(...))` returns.** The fibers take at most so many steps, and when none of them can
    go on, all have ended and the handler has its results. -/
theorem whenAll_returns (hn : n < 2 ^ 64) (hrun : Run step always (init body store) es s) :
    es.length ≤ 28 * n + 18 ∧
    ((∀ f, s.step f = none) → (∀ f, s.stack f = []) ∧ s.returned.isSome) := by
  refine ⟨?_, (run_inv hn hrun).1.ended⟩
  have hwork : s.Inv store ∧ (es.length : Int) + s.work ≤ 28 * n + 18 := by
    refine hrun.history (I := fun es s => s.Inv store ∧ (es.length : Int) + s.work ≤ 28 * n + 18) ?_ ?_
    · exact ⟨inv_init body store, by simp [work_init]⟩
    · intro es s f s' ⟨hinv, hle⟩ _ hs
      have he := step_cases hs
      have hlt := hinv.work_lt he
      refine ⟨hinv.effect hn he, ?_⟩
      rw [List.length_append, List.length_singleton]
      omega
  have hnonneg : 0 ≤ s.work := effort_nonneg (fun _ _ _ => Int.natCast_nonneg _)
  omega

/-- The task has run before the handler comes to its future. -/
theorem whenAll_returns_early : ∃ (es : List (Option (Fin 1))) (s : WhenAllSys 1 Nat Nat),
    Run step always (init (fun _ k => (k, k + 1)) 5) es s ∧ es.length ≤ 28 * 1 + 18 ∧ s.returned.isSome := by
  let es : List (Option (Fin 1)) := [none, some 0, some 0] ++ List.replicate 16 none
  have hruns : (es.foldlM step (init (fun _ k => (k, k + 1)) 5)).map
      (fun s : WhenAllSys 1 Nat Nat => (s.step none).isNone && (s.step (some 0)).isNone)
        = some true := by decide
  obtain ⟨s, hs, hidle⟩ := Option.map_eq_some_iff.mp hruns
  obtain ⟨hhandler, htask⟩ := Bool.and_eq_true_iff.mp hidle
  have hrun := run_of_forall (fun _ _ _ => trivial) hs
  obtain ⟨hlength, hends⟩ := whenAll_returns (by decide) hrun
  refine ⟨_, s, hrun, hlength, (hends (fun f => ?_)).2⟩
  match f with
  | none => exact Option.isNone_iff_eq_none.mp hhandler
  | some 0 => exact Option.isNone_iff_eq_none.mp htask

end Runs

/-! ## Every order is possible -/

section Orders

variable {store : St} {s s' : WhenAllSys n α St} {f : Option (Fin n)} {es : List (Option (Fin n))}
  {order : List (Fin n)}

theorem Effect.order_grows (h : s.Effect f s') : s.order <+: s'.order := by
  cases h with
  | call => exact List.prefix_append ..
  | _ => exact List.prefix_rfl

theorem order_grows_of_run (hrun : Run step always s es s') : s.order <+: s'.order :=
  hrun.invariant (I := fun t => s.order <+: t.order) List.prefix_rfl
    (fun _ _ _ h _ hs => h.trans (step_cases hs).order_grows)

/-- The fibers can be run until none can go on. -/
theorem Inv.exists_idle (h : s.Inv store) (hn : n < 2 ^ 64) :
    ∃ es s', Run step always s es s' ∧ s'.Inv store ∧ ∀ f, s'.step f = none := by
  induction hk : s.work.toNat using Nat.strong_induction_on generalizing s with
  | _ k ih =>
      by_cases hidle : ∀ f, s.step f = none
      · exact ⟨[], s, .nil, h, hidle⟩
      · obtain ⟨f, hf⟩ := not_forall.mp hidle
        obtain ⟨t, ht⟩ := Option.ne_none_iff_exists'.mp hf
        have he := step_cases ht
        have hlt := h.work_lt he
        have hnonneg : 0 ≤ t.work := effort_nonneg (fun _ _ _ => Int.natCast_nonneg _)
        obtain ⟨es, s', hrun, hrest⟩ := ih t.work.toNat (by omega) (h.effect hn he) rfl
        exact ⟨f :: es, s', Run.cons trivial ht hrun, hrest⟩

/-- The handler can start its tasks before any of them runs. -/
theorem run_startFibers {rest : List (Frame n α)} (tasks : List (Fin n))
    (hstack : s.stack none = tasks.map .startFiber ++ rest) :
    ∃ es s', Run step always s es s' ∧ s'.order = s.order ∧ (∀ i, s'.stack (some i) = s.stack (some i)) ∧
      ∀ i, i ∈ tasks ∨ s.started i = true → s'.started i = true := by
  induction tasks generalizing s with
  | nil => exact ⟨[], s, .nil, rfl, fun _ => rfl, by simp⟩
  | cons i tasks ih =>
      let t := { s with started := Function.update s.started i true }.push none
        (tasks.map Frame.startFiber ++ rest) []
      have hs : s.step none = some t := by simp [step, hstack, exec, t]
      obtain ⟨es, s', hrun, horder, hothers, hstarted⟩ := ih (s := t) (by simp [push, t])
      refine ⟨none :: es, s', Run.cons trivial hs hrun, horder, fun j => ?_, fun j hj => hstarted j ?_⟩
      · rw [hothers j]
        simp [push, t]
      · rcases eq_or_ne j i with rfl | hne
        · exact Or.inr (by simp [t])
        · simpa [hne, t] using hj

/-- Tasks that have been started can run in any order. -/
theorem run_calls (hnodup : order.Nodup) (hstack : ∀ i ∈ order, s.stack (some i) = [.call i])
    (hstarted : ∀ i, s.started i = true) : ∃ es s', Run step always s es s' ∧ s'.order = s.order ++ order := by
  induction order generalizing s with
  | nil => exact ⟨[], s, .nil, by simp⟩
  | cons i order ih =>
      obtain ⟨hi, hnodup⟩ := List.nodup_cons.mp hnodup
      let t := { s with store := (s.body i s.store).2, order := s.order ++ [i] }.push (some i) []
        [Frame.setTask i (s.body i s.store).1]
      have hs : s.step (some i) = some t := by simp [step, hstack i List.mem_cons_self, exec, hstarted i, t]
      have hkept : ∀ j ∈ order, t.stack (some j) = [.call j] := by
        intro j hj
        have hne : j ≠ i := by
          rintro rfl
          exact hi hj
        simpa [push, hne, t] using hstack j (List.mem_cons_of_mem i hj)
      obtain ⟨es, s', hrun, horder⟩ := ih hnodup hkept hstarted
      exact ⟨some i :: es, s', Run.cons trivial hs hrun, by simpa [t] using horder⟩

/-- **The tasks can run in every order**, and the handler then goes on. -/
theorem exists_run_order (body : Fin n → St → α × St) (store : St) (hn : n < 2 ^ 64)
    (hperm : order.Perm (List.finRange n)) :
    ∃ es s, Run step always (init body store) es s ∧ s.returned.isSome ∧ s.order = order := by
  obtain ⟨es, s, hrun, horder, hstack, hstarted⟩ := run_startFibers (s := init body store) (List.finRange n)
    (List.append_assoc ..)
  obtain ⟨es', s', hrun', horder'⟩ :=
    run_calls (hperm.nodup_iff.mpr (List.nodup_finRange n)) (fun i _ => hstack i)
    (fun i => hstarted i (Or.inl (List.mem_finRange i)))
  have hinv := (run_inv hn (hrun.trans hrun')).1
  obtain ⟨es'', t, hrun'', hinv', hidle⟩ := hinv.exists_idle hn
  have hreturned := (hinv'.ended hidle).2
  refine ⟨_, t, (hrun.trans hrun').trans hrun'', hreturned, ?_⟩
  -- nothing can have run after them
  have hgrows : order <+: t.order := by
    have hnil : s.order = [] := horder
    simpa [horder', hnil] using order_grows_of_run hrun''
  obtain ⟨result, hresult⟩ := Option.isSome_iff_exists.mp hreturned
  have hall := hinv'.order_perm (hinv'.state.returned result hresult)
  exact (hgrows.eq_of_length (hperm.length_eq.trans hall.length_eq.symm)).symm

end Orders

end WhenAllSys

end ZhiCache
