import ZhiCache.Handler.KvHandler
import ZhiCache.Lib.Run

/-!
# `Server.System` — the server, with everything that runs beside its requests

`Entry` starts to listen and only then starts the fiber that runs `LocaldbManager::Init`; the handlers do
not ask whether it has finished. So requests, the startup load, the fibers of `/batch` requests and the
persistence tasks all interleave. One event is one operation on `KvManager` or on the database:

* a request of `/add` or `/del`, handled by its handler; `/query` changes nothing;
* a `/batch` request is accepted, each of its fibers stores one entry, and when all have run the request is
  answered and its task spawned;
* `LocaldbManager::Init` opens the database or fails to, creates the iterator, stores one record after
  another into `KvManager`, and sets `_inited`;
* a persistence task runs. `_db` is not initialised before the database is opened, so a task that runs
  earlier takes the process down (`crashed`).

What `KvManager` holds is the replay of the writes of the events (`run_view`).
-/

namespace ZhiCache

open Lib

/-- Where `LocaldbManager::Init` stands. -/
inductive InitPc where
  | waiting
  /-- `DB::Open` has succeeded. -/
  | opened
  /-- The iterator has these records ahead. -/
  | loading (rest : List (String × String))
  | finished
  /-- `DB::Open` has failed. -/
  | failed
  deriving DecidableEq

/-- Whether `_db` is an opened database. -/
def InitPc.hasDb : InitPc → Bool
  | opened => true
  | loading _ => true
  | finished => true
  | _ => false

/-- A `/batch` request that is being handled, and the entries whose fibers have not run. -/
structure Batch where
  requests : List InsertRequest
  todo : List InsertRequest

/-- The server. -/
structure Server where
  kv : KvManager
  db : LevelDb
  init : InitPc
  /-- `_inited`. -/
  inited : Bool
  batches : Nat → Option Batch
  /-- The tasks that have been spawned and have not run. -/
  tasks : List Task
  crashed : Bool

/-- What can happen. -/
inductive ServerEvent where
  | add (request : InsertRequest)
  | del (key : Option String)
  | query (key : Option String)
  | batch (b : Nat) (requests : List InsertRequest)
  /-- The fiber of an entry of the batch runs. -/
  | fiber (b : Nat) (request : InsertRequest)
  /-- All fibers of the batch have run, and the request is answered. -/
  | batchDone (b : Nat)
  | task (t : Task)
  | openDb
  | openFailed
  /-- The iterator is created and will visit the records in this order. -/
  | newIterator (records : List (String × String))
  /-- The next record is stored into `KvManager`. -/
  | load (key value : String)
  /-- The iterator is at its end, and `_inited` is set. -/
  | loadDone

namespace Server

/-- A process that has just been started. -/
def boot (hash : String → Nat) (db : LevelDb) : Server :=
  ⟨KvManager.init hash, db, .waiting, false, fun _ => none, [], false⟩

/-- A request that a handler has served at once. -/
def serve (s : Server) (served : Served) : Server :=
  { s with kv := served.kv, tasks := s.tasks ++ served.task.toList }

/-- The server after an event; none when the event is not possible. -/
def apply (s : Server) : ServerEvent → Option Server
  | .add request => some (s.serve (AddKeyHandler.onPost s.kv request))
  | .del key => some (s.serve (DelKeyHandler.onGet s.kv key))
  | .query _ => some s
  | .batch b requests =>
    match s.batches b with
    | some _ => none
    | none => some { s with batches := Function.update s.batches b (some ⟨requests, requests⟩) }
  | .fiber b request =>
    match s.batches b with
    | none => none
    | some batch =>
      if request ∈ batch.todo then
        some { s with
          kv := s.kv.add request.key request.value
          batches := Function.update s.batches b (some { batch with todo := batch.todo.erase request }) }
      else none
  | .batchDone b =>
    match s.batches b with
    | none => none
    | some batch =>
      if batch.todo = [] then
        some { s with
          batches := Function.update s.batches b none, tasks := s.tasks ++ [.batch batch.requests] }
      else none
  | .task t =>
    if t ∈ s.tasks then
      if s.init.hasDb then some { s with db := t.run s.db, tasks := s.tasks.erase t }
      else some { s with crashed := true }
    else none
  | .openDb => if s.init = .waiting then some { s with init := .opened } else none
  | .openFailed => if s.init = .waiting then some { s with init := .failed } else none
  | .newIterator records =>
    if s.init = .opened ∧ records.Perm s.db.records then some { s with init := .loading records } else none
  | .load key value =>
    match s.init with
    | .loading (r :: rest) =>
      if r = (key, value) then some { s with kv := s.kv.add key value, init := .loading rest } else none
    | _ => none
  | .loadDone => if s.init = .loading [] then some { s with init := .finished, inited := true } else none

/-- The same, of a process that is still running. -/
def step (s : Server) (e : ServerEvent) : Option Server := if s.crashed then none else s.apply e

end Server

/-! ## What an event can do -/

/-- The possible events and their effects, as a relation. -/
inductive Server.Effect (s : Server) : ServerEvent → Server → Prop where
  | add (request) : Effect s (.add request) (s.serve (AddKeyHandler.onPost s.kv request))
  | del (key) : Effect s (.del key) (s.serve (DelKeyHandler.onGet s.kv key))
  | query (key) : Effect s (.query key) s
  | batch {b} (requests) : s.batches b = none →
      Effect s (.batch b requests)
        { s with batches := Function.update s.batches b (some ⟨requests, requests⟩) }
  | fiber {b batch request} : s.batches b = some batch → request ∈ batch.todo →
      Effect s (.fiber b request) { s with
        kv := s.kv.add request.key request.value
        batches := Function.update s.batches b (some { batch with todo := batch.todo.erase request }) }
  | batchDone {b batch} : s.batches b = some batch → batch.todo = [] →
      Effect s (.batchDone b) { s with
        batches := Function.update s.batches b none, tasks := s.tasks ++ [.batch batch.requests] }
  | task {t} : t ∈ s.tasks → s.init.hasDb = true →
      Effect s (.task t) { s with db := t.run s.db, tasks := s.tasks.erase t }
  | crash {t} : t ∈ s.tasks → s.init.hasDb = false → Effect s (.task t) { s with crashed := true }
  | openDb : s.init = .waiting → Effect s .openDb { s with init := .opened }
  | openFailed : s.init = .waiting → Effect s .openFailed { s with init := .failed }
  | newIterator {records} : s.init = .opened → records.Perm s.db.records →
      Effect s (.newIterator records) { s with init := .loading records }
  | load {key value rest} : s.init = .loading ((key, value) :: rest) →
      Effect s (.load key value) { s with kv := s.kv.add key value, init := .loading rest }
  | loadDone : s.init = .loading [] → Effect s .loadDone { s with init := .finished, inited := true }

namespace Server

variable {s s' : Server} {e : ServerEvent}

theorem step_running (hs : s.crashed = false) (e : ServerEvent) : s.step e = s.apply e := by
  unfold step
  rw [hs]
  rfl

/-- **Inversion of a step.** -/
theorem step_cases (h : s.step e = some s') : s.crashed = false ∧ s.Effect e s' := by
  obtain ⟨hrunning, h⟩ := Option.ite_none_left_eq_some.mp h
  refine ⟨Bool.eq_false_iff.mpr hrunning, ?_⟩
  cases e with
  | add request => exact Option.some.inj h ▸ .add request
  | del key => exact Option.some.inj h ▸ .del key
  | query key => exact Option.some.inj h ▸ .query key
  | batch b requests =>
      simp only [apply] at h
      split at h
      · exact absurd h (by simp)
      · rename_i hfree
        exact Option.some.inj h ▸ .batch requests hfree
  | fiber b request =>
      simp only [apply] at h
      split at h
      · exact absurd h (by simp)
      · rename_i batch hb
        obtain ⟨hmem, h⟩ := Option.ite_none_right_eq_some.mp h
        exact Option.some.inj h ▸ .fiber hb hmem
  | batchDone b =>
      simp only [apply] at h
      split at h
      · exact absurd h (by simp)
      · rename_i batch hb
        obtain ⟨hnil, h⟩ := Option.ite_none_right_eq_some.mp h
        exact Option.some.inj h ▸ .batchDone hb hnil
  | task t =>
      obtain ⟨hmem, h⟩ := Option.ite_none_right_eq_some.mp h
      split at h
      · rename_i hdb
        exact Option.some.inj h ▸ .task hmem hdb
      · rename_i hdb
        exact Option.some.inj h ▸ .crash hmem (Bool.eq_false_iff.mpr hdb)
  | openDb =>
      obtain ⟨hw, h⟩ := Option.ite_none_right_eq_some.mp h
      exact Option.some.inj h ▸ .openDb hw
  | openFailed =>
      obtain ⟨hw, h⟩ := Option.ite_none_right_eq_some.mp h
      exact Option.some.inj h ▸ .openFailed hw
  | newIterator records =>
      obtain ⟨⟨ho, hperm⟩, h⟩ := Option.ite_none_right_eq_some.mp h
      exact Option.some.inj h ▸ .newIterator ho hperm
  | load key value =>
      simp only [apply] at h
      split at h
      · rename_i r rest hl
        obtain ⟨rfl, hs⟩ := Option.ite_none_right_eq_some.mp h
        exact Option.some.inj hs ▸ .load hl
      · exact absurd h (by simp)
  | loadDone =>
      obtain ⟨hl, h⟩ := Option.ite_none_right_eq_some.mp h
      exact Option.some.inj h ▸ .loadDone hl

end Server

/-! ## The writes of the events -/

namespace ServerEvent

/-- What a client does to `KvManager` with the event. -/
def clientWrite : ServerEvent → Option (String × Option String)
  | add request => request.write
  | del key => delWrite key
  | fiber _ request => some (request.key, some request.value)
  | _ => none

/-- The record that the startup load stores with the event. -/
def record : ServerEvent → Option (String × String)
  | load key value => some (key, value)
  | _ => none

/-- What the event writes into `KvManager`: an event is a client's or one of the load. -/
def write (e : ServerEvent) : Option (String × Option String) :=
  match e.record with
  | some r => some (r.1, some r.2)
  | none => e.clientWrite

theorem write_of_clientWrite {e : ServerEvent} {w : String × Option String} (h : e.clientWrite = some w) :
    e.write = some w := by
  cases e with
  | load key value => exact absurd h (by simp [clientWrite])
  | _ => exact h

end ServerEvent

namespace Server

variable {s s' : Server} {e : ServerEvent} {es : List ServerEvent}

/-- **What an event does to `KvManager`.** -/
theorem Effect.view (h : s.Effect e s') : s'.kv.view = replay s.kv.view e.write.toList := by
  cases h with
  | add request => exact AddKeyHandler.view_onPost s.kv request
  | del key => exact DelKeyHandler.view_onGet s.kv key
  | fiber _ _ => exact KvManager.view_add s.kv _ _
  | load _ => exact KvManager.view_add s.kv _ _
  | _ => rfl

/-- **What `KvManager` holds.** In every state that a process reaches, it holds the replay of what clients and
    the startup load have written. -/
theorem run_view {hash : String → Nat} {db : LevelDb} (h : Run step always (boot hash db) es s) :
    s.kv.view = replay (fun _ => none) (es.filterMap ServerEvent.write) := by
  refine h.history (I := fun es s => s.kv.view = replay (fun _ => none) (es.filterMap ServerEvent.write))
    (KvManager.view_init hash) ?_
  intro es s e s' hs _ hstep
  rw [(step_cases hstep).2.view, hs, List.filterMap_append, replay_append]
  rw [List.filterMap_eq_flatMap_toList ServerEvent.write [e], List.flatMap_singleton]

end Server

end ZhiCache
