import ZhiCache.Server.System

/-!
# `Server.Restart` — what a restart brings back

Requests handled one at a time change `KvManager` and spawn persistence tasks; a restart forgets
`KvManager` and loads the database into an empty one. Such a session is a run of the server in which nothing
else interleaves (`session_run`). Both stores are replays of logs of writes on what the database held at the
start (`session_view`, `session_pairs`), which reduces the two questions of this module to comparing logs:

* the tasks run in the order of the requests: the database misses exactly the removals, because `/del`
  spawns no task (`restart_iff`);
* only `/add` requests, but the tasks run in any order: what counts is which task on a key runs last
  (`persisted_iff`).
-/

namespace ZhiCache

open Lib

/-- A `/batch` request with pairwise distinct keys, and the schedule of its fibers. -/
structure DistinctBatch where
  requests : List InsertRequest
  schedule : List InsertRequest
  scheduled : schedule.Perm requests
  distinct : (requests.map InsertRequest.key).Nodup

/-- A request that changes keys and values. -/
inductive KvRequest where
  | add (request : InsertRequest)
  | batch (b : DistinctBatch)
  | del (key : Option String)

/-- The request goes to its handler. -/
def KvRequest.handle (kv : KvManager) : KvRequest → Served
  | add request => AddKeyHandler.onPost kv request
  | batch b => BatchAddKeyHandler.onPost kv b.requests b.schedule
  | del key => DelKeyHandler.onGet kv key

/-- Requests handled one at a time: what `KvManager` is then, and the tasks spawned, in order. -/
def session (kv : KvManager) (reqs : List KvRequest) : KvManager × List Task :=
  reqs.foldl (fun s r => ((r.handle s.1).kv, s.2 ++ (r.handle s.1).task.toList)) (kv, [])

/-! ## The logs -/

/-- The operations of a request on keys and values, where it is accepted. -/
def KvRequest.writes : KvRequest → List (String × Option String)
  | add request => request.write.toList
  | batch b => stores (b.requests.map (fun r => (r.key, r.value)))
  | del key => (delWrite key).toList

/-- The stores in a log of writes. -/
def persisted (ws : List (String × Option String)) : List (String × String) :=
  ws.filterMap (fun w => w.2.map (fun v => (w.1, v)))

theorem persisted_stores (pairs : List (String × String)) : persisted (stores pairs) = pairs := by
  unfold persisted stores
  rw [List.filterMap_map]
  exact List.filterMap_some

theorem stores_persisted (ws : List (String × Option String)) :
    stores (persisted ws) = ws.filter (fun w => w.2.isSome) := by
  induction ws with
  | nil => rfl
  | cons w ws ih =>
      obtain ⟨key, o⟩ := w
      cases o with
      | none => simpa [persisted, stores] using ih
      | some v => simpa [persisted, stores] using ih

theorem KvRequest.view_handle (kv : KvManager) (r : KvRequest) :
    (r.handle kv).kv.view = replay kv.view r.writes := by
  cases r with
  | add request => exact AddKeyHandler.view_onPost kv request
  | del key => exact DelKeyHandler.view_onGet kv key
  | batch b =>
      have hnd : ((stores (b.schedule.map (fun r => (r.key, r.value)))).map Prod.fst).Nodup := by
        rw [stores_keys, List.map_map]
        exact (b.scheduled.map InsertRequest.key).nodup_iff.mpr b.distinct
      have hperm : (stores (b.schedule.map (fun r => (r.key, r.value)))).Perm
          (stores (b.requests.map (fun r => (r.key, r.value)))) := (b.scheduled.map _).map _
      show _ = replay kv.view (stores (b.requests.map (fun r => (r.key, r.value))))
      rw [← replay_perm hnd hperm kv.view]
      exact BatchAddKeyHandler.view_onPost kv b.requests b.schedule

/-- A handler's task stores what the handler has stored, and nothing of what it has removed. -/
theorem KvRequest.pairs_handle (kv : KvManager) (r : KvRequest) :
    (r.handle kv).task.toList.flatMap Task.pairs = persisted r.writes := by
  cases r with
  | add request =>
      show (AddKeyHandler.onPost kv request).task.toList.flatMap Task.pairs = persisted request.write.toList
      unfold AddKeyHandler.onPost InsertRequest.write
      split <;> rfl
  | batch b =>
      show [Task.batch b.requests].flatMap Task.pairs
        = persisted (stores (b.requests.map (fun r => (r.key, r.value))))
      rw [persisted_stores, List.flatMap_singleton]
      rfl
  | del key => cases key <;> rfl

theorem session_snoc (kv : KvManager) (reqs : List KvRequest) (r : KvRequest) :
    session kv (reqs ++ [r]) = ((r.handle (session kv reqs).1).kv,
      (session kv reqs).2 ++ (r.handle (session kv reqs).1).task.toList) := by
  unfold session
  rw [List.foldl_append]
  rfl

/-- Memory after a session: the log of all requests replayed. -/
theorem session_view (kv : KvManager) (reqs : List KvRequest) :
    (session kv reqs).1.view = replay kv.view (reqs.flatMap KvRequest.writes) := by
  induction reqs using List.reverseRecOn with
  | nil => rfl
  | append_singleton reqs r ih =>
      rw [session_snoc, KvRequest.view_handle, ih, List.flatMap_append, replay_append]
      simp

/-- The tasks of a session: its stores, in the order of the requests. -/
theorem session_pairs (kv : KvManager) (reqs : List KvRequest) :
    (session kv reqs).2.flatMap Task.pairs = persisted (reqs.flatMap KvRequest.writes) := by
  induction reqs using List.reverseRecOn with
  | nil => rfl
  | append_singleton reqs r ih =>
      rw [session_snoc, List.flatMap_append, ih, KvRequest.pairs_handle, List.flatMap_append]
      simp [persisted, List.filterMap_append]

/-- `KvManager` of a server that has just started on a database. -/
def startup (hash : String → Nat) {db : LevelDb} (it : db.Iterator) : KvManager :=
  LocaldbManager.init (KvManager.init hash) it.1

/-- An order in which tasks may run. -/
abbrev Schedule (ts : List Task) := { order : List Task // order.Perm ts }

/-! ## Sessions are runs of the server -/

namespace Server

variable {s : Server}

/-- The loop of `LocaldbManager::Init`. -/
theorem load_run (hs : s.crashed = false) {records : List (String × String)} (hl : s.init = .loading records) :
    Run step always s (records.map (fun r => .load r.1 r.2))
      { s with kv := LocaldbManager.init s.kv records, init := .loading [] } := by
  induction records generalizing s with
  | nil =>
      have hself : { s with kv := LocaldbManager.init s.kv [], init := .loading [] } = s := by
        rw [← hl]
        rfl
      rw [hself]
      exact .nil
  | cons r rest ih =>
      have hstep : s.step (.load r.1 r.2)
          = some { s with kv := s.kv.add r.1 r.2, init := .loading rest } := by
        rw [step_running hs]
        simp [apply, hl]
      exact Run.cons trivial hstep
        (ih (s := { s with kv := s.kv.add r.1 r.2, init := .loading rest }) hs rfl)

/-- A process that starts while no request comes. -/
theorem startup_run (hash : String → Nat) {db : LevelDb} (it : db.Iterator) :
    ∃ es, Run step always (boot hash db) es
      ⟨startup hash it, db, .finished, true, fun _ => none, [], false⟩ := by
  have hopen : (boot hash db).step .openDb = some { boot hash db with init := .opened } := rfl
  have hit : step { boot hash db with init := .opened } (.newIterator it.1)
      = some { boot hash db with init := .loading it.1 } := by
    rw [step_running rfl]
    simp [apply, boot, it.2]
  have hload := load_run (s := { boot hash db with init := .loading it.1 }) rfl rfl
  exact ⟨_, Run.cons trivial hopen (Run.cons trivial hit (hload.snoc trivial (e := .loadDone) rfl))⟩

/-- The fibers of a batch, in the order of a schedule. -/
theorem fibers_run (hs : s.crashed = false) {b : Nat} {requests schedule todo : List InsertRequest}
    (hb : s.batches b = some ⟨requests, todo⟩) (hperm : schedule.Perm todo) :
    Run step always s (schedule.map (.fiber b)) { s with
      kv := schedule.foldl (fun kv r => kv.add r.key r.value) s.kv
      batches := Function.update s.batches b (some ⟨requests, []⟩) } := by
  induction schedule generalizing s todo with
  | nil =>
      rw [List.nil_perm.mp hperm] at hb
      have hself : { s with batches := Function.update s.batches b (some ⟨requests, []⟩) } = s := by
        rw [← hb, Function.update_eq_self]
      show Run step always s [] { s with batches := Function.update s.batches b (some ⟨requests, []⟩) }
      rw [hself]
      exact .nil
  | cons r rest ih =>
      have hstep : s.step (.fiber b r) = some { s with
          kv := s.kv.add r.key r.value
          batches := Function.update s.batches b (some ⟨requests, todo.erase r⟩) } := by
        have hmem : r ∈ todo := hperm.subset List.mem_cons_self
        rw [step_running hs]
        simp [apply, hb, hmem]
      have hrest := ih (s := { s with
          kv := s.kv.add r.key r.value
          batches := Function.update s.batches b (some ⟨requests, todo.erase r⟩) }) hs
        (Function.update_self b _ s.batches) (List.cons_perm_iff_perm_erase.mp hperm).2
      simp only [Function.update_idem] at hrest
      exact Run.cons trivial hstep hrest

/-- A request that is handled while no other is. -/
theorem handle_run (hs : s.crashed = false) (hb : s.batches = fun _ => none) (r : KvRequest) :
    ∃ es, Run step always s es (s.serve (r.handle s.kv)) := by
  cases r with
  | add request => exact ⟨[.add request], Run.cons trivial (step_running hs _) .nil⟩
  | del key => exact ⟨[.del key], Run.cons trivial (step_running hs _) .nil⟩
  | batch b =>
      have hstart : s.step (.batch 0 b.requests) = some { s with
          batches := Function.update s.batches 0 (some ⟨b.requests, b.requests⟩) } := by
        rw [step_running hs]
        simp [apply, hb]
      have hbatch : Function.update s.batches 0 (some ⟨b.requests, b.requests⟩) 0
          = some ⟨b.requests, b.requests⟩ := by simp
      have hfibers := fibers_run (b := 0) (s := { s with
        batches := Function.update s.batches 0 (some ⟨b.requests, b.requests⟩) }) hs hbatch b.scheduled
      simp only [Function.update_idem] at hfibers
      refine ⟨_, Run.cons trivial hstart (hfibers.snoc trivial (e := .batchDone 0) ?_)⟩
      simp [step, hs, apply, serve, KvRequest.handle, BatchAddKeyHandler.onPost, hb]

/-- Requests that are handled one at a time. -/
theorem requests_run (hs : s.crashed = false) (hb : s.batches = fun _ => none) (reqs : List KvRequest) :
    ∃ es, Run step always s es
      { s with kv := (session s.kv reqs).1, tasks := s.tasks ++ (session s.kv reqs).2 } := by
  induction reqs using List.reverseRecOn with
  | nil =>
      refine ⟨[], ?_⟩
      show Run step always s [] { s with tasks := s.tasks ++ [] }
      rw [List.append_nil]
      exact .nil
  | append_singleton reqs r ih =>
      obtain ⟨es, hes⟩ := ih
      obtain ⟨es', hes'⟩ := handle_run (s := { s with
        kv := (session s.kv reqs).1, tasks := s.tasks ++ (session s.kv reqs).2 }) hs hb r
      refine ⟨es ++ es', ?_⟩
      rw [session_snoc, ← List.append_assoc]
      exact hes.trans hes'

/-- Tasks that run one after another, on an opened database. -/
theorem tasks_run (hs : s.crashed = false) (hdb : s.init.hasDb = true) {order : List Task}
    (hperm : order.Perm s.tasks) :
    Run step always s (order.map .task) { s with db := order.foldl Task.run s.db, tasks := [] } := by
  induction order generalizing s with
  | nil =>
      show Run step always s [] { s with tasks := [] }
      rw [← List.nil_perm.mp hperm]
      exact .nil
  | cons t rest ih =>
      have hstep : s.step (.task t) = some { s with db := t.run s.db, tasks := s.tasks.erase t } := by
        have hmem : t ∈ s.tasks := hperm.subset List.mem_cons_self
        rw [step_running hs]
        simp [apply, hmem, hdb]
      exact Run.cons trivial hstep (ih (s := { s with db := t.run s.db, tasks := s.tasks.erase t }) hs hdb
        (List.cons_perm_iff_perm_erase.mp hperm).2)

/-- **A session is a run of the server**: the startup, the requests one at a time, and then their tasks in some
    order. -/
theorem session_run (hash : String → Nat) {db : LevelDb} (it : db.Iterator) (reqs : List KvRequest)
    (order : Schedule (session (startup hash it) reqs).2) :
    ∃ es, Run step always (boot hash db) es ⟨(session (startup hash it) reqs).1,
      order.1.foldl Task.run db, .finished, true, fun _ => none, [], false⟩ := by
  obtain ⟨es₁, h₁⟩ := startup_run hash it
  obtain ⟨es₂, h₂⟩ := requests_run
    (s := ⟨startup hash it, db, .finished, true, fun _ => none, [], false⟩) rfl rfl reqs
  have h₃ := tasks_run (s := ⟨(session (startup hash it) reqs).1, db, .finished, true, fun _ => none,
    [] ++ (session (startup hash it) reqs).2, false⟩) rfl rfl order.2
  exact ⟨_, (h₁.trans h₂).trans h₃⟩

end Server

/-! ## Tasks in the order of the requests -/

/-- **What a restart brings back.** After any requests handled one at a time, with their tasks run in the same
    order, a restart yields the map that `KvManager` held exactly when no key was left deleted that had been
    in the database from the start or had been stored by a request. -/
theorem restart_iff (hash : String → Nat) (db₀ : LevelDb) (it₀ : db₀.Iterator) (reqs : List KvRequest)
    (it : LevelDb.Iterator ((session (startup hash it₀) reqs).2.foldl Task.run db₀)) :
    (startup hash it).view = (session (startup hash it₀) reqs).1.view ↔
      ∀ key, latest (fun w => decide (w.1 = key)) (reqs.flatMap KvRequest.writes) = some (key, none) →
        LevelDb.view db₀ key = none ∧ ∀ value, (key, some value) ∉ reqs.flatMap KvRequest.writes := by
  have hdisk : (startup hash it).view
      = replay (LevelDb.view db₀) ((reqs.flatMap KvRequest.writes).filter (fun w => w.2.isSome)) := by
    unfold startup
    rw [LocaldbManager.view_init_empty, Task.view_runAll, session_pairs, stores_persisted]
  have hmem : (session (startup hash it₀) reqs).1.view
      = replay (LevelDb.view db₀) (reqs.flatMap KvRequest.writes) := by
    rw [session_view]
    unfold startup
    rw [LocaldbManager.view_init_empty]
  rw [hdisk, hmem]
  exact replay_filter_isSome_iff

/-- A key that is added and then deleted is back after a restart. -/
theorem restart_brings_back_deleted_key :
    ¬ ∀ (hash : String → Nat) (db₀ : LevelDb) (it₀ : db₀.Iterator) (reqs : List KvRequest)
        (it : LevelDb.Iterator ((session (startup hash it₀) reqs).2.foldl Task.run db₀)),
        (startup hash it).view = (session (startup hash it₀) reqs).1.view := by
  intro hall
  have hkey := congrFun (hall String.length ∅ ⟨_, List.Perm.refl _⟩ [.add ⟨"k", "v"⟩, .del (some "k")]
    ⟨_, List.Perm.refl _⟩) "k"
  revert hkey
  decide +kernel

/-! ## Tasks in any order -/

theorem add_writes (reqs : List InsertRequest) :
    (reqs.map KvRequest.add).flatMap KvRequest.writes = reqs.filterMap InsertRequest.write := by
  rw [List.flatMap_map, List.filterMap_eq_flatMap_toList]
  rfl

/-- `/add` only stores. -/
theorem add_writes_isSome {reqs : List InsertRequest} {w : String × Option String}
    (h : w ∈ reqs.filterMap InsertRequest.write) : w.2.isSome = true := by
  obtain ⟨request, _, hw⟩ := List.mem_filterMap.mp h
  unfold InsertRequest.write at hw
  split at hw
  · exact absurd hw (by simp)
  · rw [← Option.some.inj hw]
    rfl

/-- **What the database holds after `/add` requests.** Once all tasks have run, in whatever order, the
    database agrees with `KvManager` exactly when, on every key, the task that ran last is one that carries
    the value of the last accepted request. -/
theorem persisted_iff (hash : String → Nat) (db₀ : LevelDb) (it₀ : db₀.Iterator)
    (reqs : List InsertRequest) (order : Schedule (session (startup hash it₀) (reqs.map .add)).2) :
    LevelDb.view (order.1.foldl Task.run db₀) = (session (startup hash it₀) (reqs.map .add)).1.view ↔
      ∀ key, latest (fun w => decide (w.1 = key)) (stores (order.1.flatMap Task.pairs))
        = latest (fun w => decide (w.1 = key)) (reqs.filterMap InsertRequest.write) := by
  -- the tasks store, in another order, what the requests have stored
  have hperm : (stores (order.1.flatMap Task.pairs)).Perm (reqs.filterMap InsertRequest.write) := by
    have htasks : (stores (order.1.flatMap Task.pairs)).Perm
        (stores ((session (startup hash it₀) (reqs.map .add)).2.flatMap Task.pairs)) :=
      (order.2.flatMap_right Task.pairs).map _
    rw [session_pairs, stores_persisted, add_writes,
      List.filter_eq_self.mpr (fun w hw => add_writes_isSome hw)] at htasks
    exact htasks
  have hmem : (session (startup hash it₀) (reqs.map .add)).1.view
      = replay (LevelDb.view db₀) (reqs.filterMap InsertRequest.write) := by
    rw [session_view, add_writes]
    unfold startup
    rw [LocaldbManager.view_init_empty]
  rw [Task.view_runAll, hmem]
  exact replay_eq_iff_of_perm hperm

/-- The tasks of two updates of one key run in the wrong order: the older value stays in the database. -/
theorem persisted_keeps_older_value :
    ¬ ∀ (hash : String → Nat) (db₀ : LevelDb) (it₀ : db₀.Iterator) (reqs : List InsertRequest)
        (order : Schedule (session (startup hash it₀) (reqs.map .add)).2),
        LevelDb.view (order.1.foldl Task.run db₀) = (session (startup hash it₀) (reqs.map .add)).1.view := by
  intro hall
  have hkey := congrFun (hall String.length ∅ ⟨_, List.Perm.refl _⟩ [⟨"k", "v1"⟩, ⟨"k", "v2"⟩]
    ⟨[.add ⟨"k", "v2"⟩, .add ⟨"k", "v1"⟩], by decide +kernel⟩) "k"
  revert hkey
  decide +kernel

end ZhiCache
