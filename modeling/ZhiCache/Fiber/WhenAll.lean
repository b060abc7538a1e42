import ZhiCache.Lib.Frames
import ZhiCache.Lib.Run
import Mathlib.Data.List.FinRange

/-!
# `Fiber.WhenAll` — a fiber that starts tasks and waits for all of them

`BatchAddKeyHandler` starts a fiber per entry (`fiber::Async`), combines their futures (`WhenAll`) and blocks
until the combined future is satisfied (`fiber::BlockingGet`). Nothing of that is a single step. A `Future`
shares a `Core` with its `Promise`; whoever comes second, the value (`SetBoxed`) or the continuation
(`ChainAction`), runs the continuation, there and then, for the default executor is the `InlineExecutor`. So
the continuations of the tasks' futures run in the tasks' fibers or in the handler's. Each of them decrements
a counter; the last one satisfies the combined future, whose continuations wake the handler up, if it has
already gone to sleep.

A fiber is the stack of what it still has to do (`Frame`). A step is one critical section of a `Core`, one
access of the shared `Context`, or one of the `Event` that the handler waits for.
-/

namespace ZhiCache

open Lib

/-! ## Futures -/

/-- `Core<...>`: the state that a promise and its future share. An action is known by what it captures. -/
inductive Core (β κ : Type) where
  /-- `WaitingForSingleObject`, with the action if there is one. -/
  | waiting (onSatisfied : Option κ)
  /-- `Satisfied`. -/
  | satisfied (value : β) (everCalledContinuation : Bool)
  deriving DecidableEq

namespace Core

variable {β κ : Type}

/-- `SetBoxed`: the state after it, and the action to be executed. None when there is a value already:
    `std::get` throws out of a `noexcept` function. -/
def setBoxed : Core β κ → β → Option (Core β κ × Option κ)
  | .waiting action, value => some (.satisfied value action.isSome, action)
  | .satisfied _ _, _ => none

/-- `ChainAction`: the state after it, and the value with which the action is to be executed. None when a
    continuation has been called already. -/
def chainAction : Core β κ → κ → Option (Core β κ × Option β)
  | .waiting _, action => some (.waiting (some action), none)
  | .satisfied value false, _ => some (.satisfied value true, some value)
  | .satisfied _ true, _ => none

end Core

/-! ## The handler and its tasks -/

/-- What a fiber has still to do, up to the next place where others can see it. -/
inductive Frame (n : Nat) (α : Type) where
  /-- `Async`: `StartFiberDetached` with the task. -/
  | startFiber (i : Fin n)
  /-- `Then` on the future of a task, in `WhenAllPreservingErrors`. -/
  | chainTask (index : Fin n)
  /-- `Then` on the future of all values, in `WhenAll`. -/
  | chainAll
  /-- `Then` on the future of the result, in `BlockingGet`. -/
  | chainFlat
  /-- `Event::Wait`. -/
  | wait
  /-- In the wait chain, with the `scheduler_lock`. -/
  | halting
  | halted
  /-- `std::move(*receiver).Get()`. -/
  | get
  /-- The task's function. -/
  | call (i : Fin n)
  /-- `p.SetValue` of the task. -/
  | setTask (i : Fin n) (value : α)
  /-- The continuation of a task's future: `context->values[index] = std::move(boxed)`. -/
  | save (index : Fin n) (boxed : α)
  /-- `if (!--context->left)`. -/
  | decrement (index : Fin n)
  /-- `std::move(context->values)`. -/
  | takeValues
  /-- `context->promise.SetValue`. -/
  | setAll (values : List (Option α))
  /-- `p.SetBoxed` at the end of the continuation of a task's future. -/
  | setSlot (index : Fin n)
  /-- The continuation of `WhenAll`: `result.emplace_back(std::move(e).Get())` for all values. For tasks that
      return nothing it leaves the values alone; their results are units here. -/
  | unbox (values : List (Option α))
  /-- `p.SetBoxed` at its end. -/
  | setFlat (result : List α)
  /-- The continuation of `BlockingGet`: `receiver.Init(std::move(boxed))`. -/
  | receive (result : List α)
  /-- `ev.Set()`: `SetPersistentAwakened`. -/
  | setEvent
  /-- `ReadyFiber` on the fibers that have been in the wait chain. -/
  | readyFibers (fibers : List (Option (Fin n)))
  /-- `p.SetBoxed` at the end of the continuation of `BlockingGet`. -/
  | setGot
  /-- A check has failed. -/
  | aborted

/-- The handler, its `n` tasks and what they share. The handler's fiber is `none`, the fiber of the task `i`
    is `some i`. -/
structure WhenAllSys (n : Nat) (α St : Type) where
  /-- What the task `i` does to the store, and what it returns. -/
  body : Fin n → St → α × St
  store : St
  started : Fin n → Bool
  task : Fin n → Core α (Fin n)
  /-- `context->promise`. -/
  all : Core (List (Option α)) Unit
  /-- The promise of the future that `WhenAll` returns. -/
  flat : Core (List α) Unit
  /-- The promises of the futures that nobody keeps: of the `Then` on a task's future, and of that in
      `BlockingGet`. -/
  slot : Fin n → Core Unit Empty
  got : Core Unit Empty
  /-- `context->values`. -/
  values : Fin n → Option α
  /-- `context->left`. -/
  left : Nat
  receiver : Option (List α)
  /-- `persistent_awakened_` of the event. -/
  awakened : Bool
  waiters : List (Option (Fin n))
  /-- The handler has been put into the run queue. -/
  ready : Bool
  /-- What `BlockingGet` has returned. -/
  returned : Option (List α)
  /-- The tasks in the order in which they have run. -/
  order : List (Fin n)
  stack : Option (Fin n) → List (Frame n α)

namespace WhenAllSys

variable {n : Nat} {α St : Type}

/-- What the handler does: it starts the tasks, calls `WhenAll` and `BlockingGet`. -/
def handler (n : Nat) (α : Type) : List (Frame n α) :=
  (List.finRange n).map .startFiber ++ (List.finRange n).map .chainTask ++ [.chainAll, .chainFlat, .wait]

/-- The handler begins. Without tasks `WhenAllPreservingErrors` returns a satisfied future. -/
def init (body : Fin n → St → α × St) (store : St) : WhenAllSys n α St where
  body := body
  store := store
  started := fun _ => false
  task := fun _ => .waiting none
  all := if n = 0 then .satisfied [] false else .waiting none
  flat := .waiting none
  slot := fun _ => .waiting none
  got := .waiting none
  values := fun _ => none
  left := n
  receiver := none
  awakened := false
  waiters := []
  ready := false
  returned := none
  order := []
  stack := fun
    | none => handler n α
    | some i => [.call i]

/-- The fiber goes on with `frames`, and after them with the rest of its stack. -/
def push (s : WhenAllSys n α St) (f : Option (Fin n)) (rest frames : List (Frame n α)) : WhenAllSys n α St :=
  { s with stack := Function.update s.stack f (frames ++ rest) }

section Push

variable (s : WhenAllSys n α St) (f : Option (Fin n)) (rest frames : List (Frame n α))

@[simp] theorem push_body : (s.push f rest frames).body = s.body := rfl

@[simp] theorem push_store : (s.push f rest frames).store = s.store := rfl

@[simp] theorem push_started : (s.push f rest frames).started = s.started := rfl

@[simp] theorem push_task : (s.push f rest frames).task = s.task := rfl

@[simp] theorem push_all : (s.push f rest frames).all = s.all := rfl

@[simp] theorem push_flat : (s.push f rest frames).flat = s.flat := rfl

@[simp] theorem push_slot : (s.push f rest frames).slot = s.slot := rfl

@[simp] theorem push_got : (s.push f rest frames).got = s.got := rfl

@[simp] theorem push_values : (s.push f rest frames).values = s.values := rfl

@[simp] theorem push_left : (s.push f rest frames).left = s.left := rfl

@[simp] theorem push_receiver : (s.push f rest frames).receiver = s.receiver := rfl

@[simp] theorem push_awakened : (s.push f rest frames).awakened = s.awakened := rfl

@[simp] theorem push_waiters : (s.push f rest frames).waiters = s.waiters := rfl

@[simp] theorem push_ready : (s.push f rest frames).ready = s.ready := rfl

@[simp] theorem push_returned : (s.push f rest frames).returned = s.returned := rfl

@[simp] theorem push_order : (s.push f rest frames).order = s.order := rfl

end Push

/-- The end of `SetBoxed` or `ChainAction`: `put` stores the new state of the core, and `next` is executed
    with what the other side has left there. -/
def settle {β κ γ : Type} (s : WhenAllSys n α St) (f : Option (Fin n)) (rest : List (Frame n α))
    (put : Core β κ → WhenAllSys n α St) (next : γ → Frame n α) : Option (Core β κ × Option γ) →
    WhenAllSys n α St
  | none => s.push f rest [.aborted]
  | some (core, none) => (put core).push f rest []
  | some (core, some c) => (put core).push f rest [next c]

/-- The fiber `f` takes the first frame of its stack; none when it has to wait. -/
def exec (s : WhenAllSys n α St) (f : Option (Fin n)) (rest : List (Frame n α)) :
    Frame n α → Option (WhenAllSys n α St)
  | .startFiber i => some ({ s with started := Function.update s.started i true }.push f rest [])
  | .call i =>
    if s.started i then
      let (value, store) := s.body i s.store
      some ({ s with store := store, order := s.order ++ [i] }.push f rest [.setTask i value])
    else none
  | .setTask i value =>
    some (s.settle f rest (fun core => { s with task := Function.update s.task i core })
      (fun index => .save index value) ((s.task i).setBoxed value))
  | .chainTask i =>
    some (s.settle f rest (fun core => { s with task := Function.update s.task i core })
      (fun value => .save i value) ((s.task i).chainAction i))
  | .save index boxed =>
    some ({ s with values := Function.update s.values index (some boxed) }.push f rest [.decrement index])
  | .decrement index =>
    let left := (s.left + (2 ^ 64 - 1)) % 2 ^ 64
    some ({ s with left := left }.push f rest
      (if left = 0 then [.takeValues, .setSlot index] else [.setSlot index]))
  | .takeValues => some (s.push f rest [.setAll ((List.finRange n).map s.values)])
  | .setAll values =>
    some (s.settle f rest (fun core => { s with all := core }) (fun _ => .unbox values) (s.all.setBoxed values))
  | .chainAll => some (s.settle f rest (fun core => { s with all := core }) .unbox (s.all.chainAction ()))
  | .setSlot index =>
    some (s.settle f rest (fun core => { s with slot := Function.update s.slot index core }) Empty.elim
      ((s.slot index).setBoxed ()))
  | .unbox values =>
    match values.mapM id with
    | none => some (s.push f rest [.aborted])
    | some result => some (s.push f rest [.setFlat result])
  | .setFlat result =>
    some (s.settle f rest (fun core => { s with flat := core }) (fun _ => .receive result)
      (s.flat.setBoxed result))
  | .chainFlat => some (s.settle f rest (fun core => { s with flat := core }) .receive (s.flat.chainAction ()))
  | .receive result => some ({ s with receiver := some result }.push f rest [.setEvent])
  | .setEvent => some ({ s with awakened := true, waiters := [] }.push f rest [.readyFibers s.waiters])
  | .readyFibers [] => some (s.push f rest [.setGot])
  | .readyFibers (fiber :: fibers) =>
    match s.stack fiber with
    -- the fiber still has its `scheduler_lock`
    | .halting :: _ => none
    | .halted :: _ => some ({ s with ready := true }.push f rest [.readyFibers fibers])
    -- a fiber that is not waiting is put into the run queue
    | _ => some (s.push f rest [.aborted])
  | .setGot => some (s.settle f rest (fun core => { s with got := core }) Empty.elim (s.got.setBoxed ()))
  | .wait =>
    if s.awakened then some (s.push f rest [.get])
    else some ({ s with waiters := s.waiters ++ [f] }.push f rest [.halting])
  | .halting => some (s.push f rest [.halted])
  | .halted => if s.ready then some ({ s with ready := false }.push f rest [.get]) else none
  | .get =>
    match s.receiver with
    | none => some (s.push f rest [.aborted])
    | some result => some ({ s with returned := some result }.push f rest [])
  | .aborted => none

/-- The next step of a fiber; none when it has to wait, or has ended. -/
def step (s : WhenAllSys n α St) (f : Option (Fin n)) : Option (WhenAllSys n α St) :=
  match s.stack f with
  | [] => none
  | frame :: rest => s.exec f rest frame

end WhenAllSys

/-! ## What a step can do -/

/-- The frame goes into a check that fails. -/
def WhenAllSys.Fails {n : Nat} {α St : Type} (s : WhenAllSys n α St) : Frame n α → Prop
  | .setTask i _ => ∃ v b, s.task i = .satisfied v b
  | .chainTask i => ∃ v, s.task i = .satisfied v true
  | .setAll _ => ∃ v b, s.all = .satisfied v b
  | .chainAll => ∃ v, s.all = .satisfied v true
  | .setSlot i => ∃ v b, s.slot i = .satisfied v b
  | .unbox values => values.mapM id = none
  | .setFlat _ => ∃ v b, s.flat = .satisfied v b
  | .chainFlat => ∃ v, s.flat = .satisfied v true
  | .readyFibers fibers => ∃ fiber rest, fibers = fiber :: rest
      ∧ ∀ after, s.stack fiber ≠ .halting :: after ∧ s.stack fiber ≠ .halted :: after
  | .setGot => ∃ v b, s.got = .satisfied v b
  | .get => s.receiver = none
  | _ => False

/-- The possible steps and their effects, as a relation. -/
inductive WhenAllSys.Effect {n : Nat} {α St : Type} (s : WhenAllSys n α St) (f : Option (Fin n)) :
    WhenAllSys n α St → Prop where
  | startFiber {i rest} : s.stack f = .startFiber i :: rest →
      Effect s f ({ s with started := Function.update s.started i true }.push f rest [])
  | call {i rest} : s.stack f = .call i :: rest → s.started i = true →
      Effect s f ({ s with store := (s.body i s.store).2, order := s.order ++ [i] }.push f rest
        [.setTask i (s.body i s.store).1])
  | setTask {i value rest} : s.stack f = .setTask i value :: rest → s.task i = .waiting none →
      Effect s f ({ s with task := Function.update s.task i (.satisfied value false) }.push f rest [])
  | fireTask {i value rest index} : s.stack f = .setTask i value :: rest → s.task i = .waiting (some index) →
      Effect s f ({ s with task := Function.update s.task i (.satisfied value true) }.push f rest
        [.save index value])
  | chainTask {i rest action} : s.stack f = .chainTask i :: rest → s.task i = .waiting action →
      Effect s f ({ s with task := Function.update s.task i (.waiting (some i)) }.push f rest [])
  | runTask {i rest value} : s.stack f = .chainTask i :: rest → s.task i = .satisfied value false →
      Effect s f ({ s with task := Function.update s.task i (.satisfied value true) }.push f rest
        [.save i value])
  | save {index boxed rest} : s.stack f = .save index boxed :: rest →
      Effect s f ({ s with values := Function.update s.values index (some boxed) }.push f rest
        [.decrement index])
  | decrement {index rest left} : s.stack f = .decrement index :: rest →
      left = (s.left + (2 ^ 64 - 1)) % 2 ^ 64 →
      left ≠ 0 → Effect s f ({ s with left := left }.push f rest [.setSlot index])
  | last {index rest} : s.stack f = .decrement index :: rest → (s.left + (2 ^ 64 - 1)) % 2 ^ 64 = 0 →
      Effect s f ({ s with left := 0 }.push f rest [.takeValues, .setSlot index])
  | takeValues {rest} : s.stack f = .takeValues :: rest →
      Effect s f (s.push f rest [.setAll ((List.finRange n).map s.values)])
  | setAll {values rest} : s.stack f = .setAll values :: rest → s.all = .waiting none →
      Effect s f ({ s with all := .satisfied values false }.push f rest [])
  | fireAll {values rest} : s.stack f = .setAll values :: rest → s.all = .waiting (some ()) →
      Effect s f ({ s with all := .satisfied values true }.push f rest [.unbox values])
  | chainAll {rest action} : s.stack f = .chainAll :: rest → s.all = .waiting action →
      Effect s f ({ s with all := .waiting (some ()) }.push f rest [])
  | runAll {rest values} : s.stack f = .chainAll :: rest → s.all = .satisfied values false →
      Effect s f ({ s with all := .satisfied values true }.push f rest [.unbox values])
  | setSlot {index rest} : s.stack f = .setSlot index :: rest → s.slot index = .waiting none →
      Effect s f ({ s with slot := Function.update s.slot index (.satisfied () false) }.push f rest [])
  | unbox {values result rest} : s.stack f = .unbox values :: rest → values.mapM id = some result →
      Effect s f (s.push f rest [.setFlat result])
  | setFlat {result rest} : s.stack f = .setFlat result :: rest → s.flat = .waiting none →
      Effect s f ({ s with flat := .satisfied result false }.push f rest [])
  | fireFlat {result rest} : s.stack f = .setFlat result :: rest → s.flat = .waiting (some ()) →
      Effect s f ({ s with flat := .satisfied result true }.push f rest [.receive result])
  | chainFlat {rest action} : s.stack f = .chainFlat :: rest → s.flat = .waiting action →
      Effect s f ({ s with flat := .waiting (some ()) }.push f rest [])
  | runFlat {rest result} : s.stack f = .chainFlat :: rest → s.flat = .satisfied result false →
      Effect s f ({ s with flat := .satisfied result true }.push f rest [.receive result])
  | receive {result rest} : s.stack f = .receive result :: rest →
      Effect s f ({ s with receiver := some result }.push f rest [.setEvent])
  | setEvent {rest} : s.stack f = .setEvent :: rest →
      Effect s f ({ s with awakened := true, waiters := [] }.push f rest [.readyFibers s.waiters])
  | readied {rest} : s.stack f = .readyFibers [] :: rest → Effect s f (s.push f rest [.setGot])
  | readyFiber {fiber fibers rest after} : s.stack f = .readyFibers (fiber :: fibers) :: rest →
      s.stack fiber = .halted :: after → Effect s f ({ s with ready := true }.push f rest [.readyFibers fibers])
  | setGot {rest} : s.stack f = .setGot :: rest → s.got = .waiting none →
      Effect s f ({ s with got := .satisfied () false }.push f rest [])
  | waited {rest} : s.stack f = .wait :: rest → s.awakened = true → Effect s f (s.push f rest [.get])
  | addWaiter {rest} : s.stack f = .wait :: rest → s.awakened = false →
      Effect s f ({ s with waiters := s.waiters ++ [f] }.push f rest [.halting])
  | halting {rest} : s.stack f = .halting :: rest → Effect s f (s.push f rest [.halted])
  | resumed {rest} : s.stack f = .halted :: rest → s.ready = true →
      Effect s f ({ s with ready := false }.push f rest [.get])
  | get {result rest} : s.stack f = .get :: rest → s.receiver = some result →
      Effect s f ({ s with returned := some result }.push f rest [])
  | abort {frame rest} : s.stack f = frame :: rest → s.Fails frame → Effect s f (s.push f rest [.aborted])

namespace WhenAllSys

variable {n : Nat} {α St : Type} {s s' : WhenAllSys n α St} {f : Option (Fin n)}

/-- The three ends of `SetBoxed`. -/
theorem settle_setBoxed {β κ : Type} {c : Core β κ} {value : β} {rest : List (Frame n α)}
    {put : Core β κ → WhenAllSys n α St} {next : κ → Frame n α} {P : WhenAllSys n α St → Prop}
    (hset : c = .waiting none → P ((put (.satisfied value false)).push f rest []))
    (hfire : ∀ k, c = .waiting (some k) → P ((put (.satisfied value true)).push f rest [next k]))
    (hbad : (∃ v b, c = .satisfied v b) → P (s.push f rest [.aborted])) :
    P (s.settle f rest put next (c.setBoxed value)) := by
  cases c with
  | waiting action =>
      cases action with
      | none => exact hset rfl
      | some k => exact hfire k rfl
  | satisfied v b => exact hbad ⟨v, b, rfl⟩

/-- The three ends of `ChainAction`. -/
theorem settle_chainAction {β κ : Type} {c : Core β κ} {action : κ} {rest : List (Frame n α)}
    {put : Core β κ → WhenAllSys n α St} {next : β → Frame n α} {P : WhenAllSys n α St → Prop}
    (hchain : ∀ old, c = .waiting old → P ((put (.waiting (some action))).push f rest []))
    (hrun : ∀ value, c = .satisfied value false → P ((put (.satisfied value true)).push f rest [next value]))
    (hbad : (∃ v, c = .satisfied v true) → P (s.push f rest [.aborted])) :
    P (s.settle f rest put next (c.chainAction action)) := by
  cases c with
  | waiting old => exact hchain old rfl
  | satisfied value b =>
      cases b with
      | false => exact hrun value rfl
      | true => exact hbad ⟨value, rfl⟩

/-- **Inversion of a step.** -/
theorem step_cases (h : s.step f = some s') : s.Effect f s' := by
  unfold step at h
  cases hstack : s.stack f with
  | nil => simp [hstack] at h
  | cons frame rest =>
      simp only [hstack] at h
      cases frame with
      | startFiber i =>
          obtain rfl := Option.some.inj h
          exact .startFiber hstack
      | call i =>
          obtain ⟨hstarted, hs⟩ := Option.ite_none_right_eq_some.mp h
          obtain rfl := Option.some.inj hs
          exact .call hstack hstarted
      | setTask i value =>
          obtain rfl := Option.some.inj h
          apply settle_setBoxed
          · exact .setTask hstack
          · exact fun _ => .fireTask hstack
          · exact .abort hstack
      | chainTask i =>
          obtain rfl := Option.some.inj h
          apply settle_chainAction
          · exact fun _ => .chainTask hstack
          · exact fun _ => .runTask hstack
          · exact .abort hstack
      | save index boxed =>
          obtain rfl := Option.some.inj h
          exact .save hstack
      | decrement index =>
          obtain rfl := Option.some.inj h
          split
          · rename_i hzero
            rw [hzero]
            exact .last hstack hzero
          · rename_i hne
            exact .decrement hstack rfl hne
      | takeValues =>
          obtain rfl := Option.some.inj h
          exact .takeValues hstack
      | setAll values =>
          obtain rfl := Option.some.inj h
          apply settle_setBoxed
          · exact .setAll hstack
          · exact fun _ => .fireAll hstack
          · exact .abort hstack
      | chainAll =>
          obtain rfl := Option.some.inj h
          apply settle_chainAction
          · exact fun _ => .chainAll hstack
          · exact fun _ => .runAll hstack
          · exact .abort hstack
      | setSlot index =>
          obtain rfl := Option.some.inj h
          apply settle_setBoxed
          · exact .setSlot hstack
          · exact fun k => k.elim
          · exact .abort hstack
      | unbox values =>
          cases hall : values.mapM id with
          | none =>
              obtain rfl : s.push f rest [.aborted] = s' := by simpa [exec, hall] using h
              exact .abort hstack hall
          | some result =>
              obtain rfl : s.push f rest [.setFlat result] = s' := by simpa [exec, hall] using h
              exact .unbox hstack hall
      | setFlat result =>
          obtain rfl := Option.some.inj h
          apply settle_setBoxed
          · exact .setFlat hstack
          · exact fun _ => .fireFlat hstack
          · exact .abort hstack
      | chainFlat =>
          obtain rfl := Option.some.inj h
          apply settle_chainAction
          · exact fun _ => .chainFlat hstack
          · exact fun _ => .runFlat hstack
          · exact .abort hstack
      | receive result =>
          obtain rfl := Option.some.inj h
          exact .receive hstack
      | setEvent =>
          obtain rfl := Option.some.inj h
          exact .setEvent hstack
      | readyFibers fibers =>
          cases fibers with
          | nil =>
              obtain rfl := Option.some.inj h
              exact .readied hstack
          | cons fiber fibers =>
              simp only [exec] at h
              split at h
              · cases h
              · rename_i hhalted
                obtain rfl := Option.some.inj h
                exact .readyFiber hstack hhalted
              · rename_i hhalting hhalted
                obtain rfl := Option.some.inj h
                exact .abort hstack ⟨fiber, fibers, rfl, fun after => ⟨hhalting after, hhalted after⟩⟩
      | setGot =>
          obtain rfl := Option.some.inj h
          apply settle_setBoxed
          · exact .setGot hstack
          · exact fun k => k.elim
          · exact .abort hstack
      | wait =>
          simp only [exec] at h
          split at h
          · rename_i hawakened
            obtain rfl := Option.some.inj h
            exact .waited hstack hawakened
          · rename_i hawakened
            obtain rfl := Option.some.inj h
            exact .addWaiter hstack (by simpa using hawakened)
      | halting =>
          obtain rfl := Option.some.inj h
          exact .halting hstack
      | halted =>
          obtain ⟨hready, hs⟩ := Option.ite_none_right_eq_some.mp h
          obtain rfl := Option.some.inj hs
          exact .resumed hstack hready
      | get =>
          cases hreceiver : s.receiver with
          | none =>
              obtain rfl : s.push f rest [.aborted] = s' := by simpa [exec, hreceiver] using h
              exact .abort hstack hreceiver
          | some result =>
              obtain rfl : { s with returned := some result }.push f rest [] = s' := by
                simpa [exec, hreceiver] using h
              exact .get hstack hreceiver
      | aborted => cases h

end WhenAllSys

end ZhiCache
