import ZhiCache.Server.System

/-!
# `Server.EarlyTasks` — persistence tasks before the database is open

`Entry` starts to listen before it starts the fiber that opens the database, and goes on when `DB::Open`
fails. `AddKeyHandler` and `BatchAddKeyHandler` spawn their persistence tasks all the same, and
`LocaldbManager::Add` and `Batch` use `_db` without a look at it, where the destructor does compare it with
`nullptr`. So whether a task finds an opened database is a matter of when it runs.

The scheduler decides when a task runs; the clients and `DB::Open` decide the rest of the run, which is what
`inputs` keeps. A task is possible once an input has spawned it (`exists_spawns`, `exists_task`), and the
database is open once `DB::Open` has succeeded (`hasDb_iff`). So no schedule can go wrong exactly when every
input that spawns a task comes after the opening (`tasks_find_db_iff`).
-/

namespace ZhiCache

open Lib

namespace ServerEvent

/-- The event spawns a persistence task. -/
def Spawns : ServerEvent → Prop
  | add request => request.key ≠ "" ∧ request.value ≠ ""
  | batchDone _ => True
  | _ => False

/-- The event is the run of a persistence task. -/
def isTask : ServerEvent → Bool
  | task _ => true
  | _ => false

end ServerEvent

namespace Server

variable {hash : String → Nat} {db : LevelDb} {s s' : Server} {e : ServerEvent} {es : List ServerEvent}

/-- What has happened apart from the runs of the tasks. -/
def inputs (es : List ServerEvent) : List ServerEvent := es.filter (fun e => !e.isTask)

theorem mem_inputs : e ∈ inputs es ↔ e ∈ es ∧ e.isTask = false := by
  rw [inputs, List.mem_filter, Bool.not_eq_true']

theorem inputs_append (es es' : List ServerEvent) : inputs (es ++ es') = inputs es ++ inputs es' :=
  List.filter_append es es'

/-- Every task of the run finds an opened database. -/
def TasksFindDb (hash : String → Nat) (db : LevelDb) (es : List ServerEvent) : Prop :=
  ∀ es₁ t es₂ s₁, es = es₁ ++ .task t :: es₂ → Run step always (boot hash db) es₁ s₁ → s₁.init.hasDb = true

/-- Every event that spawns a task comes after the opening of the database. -/
def SpawnsAfterOpen (es : List ServerEvent) : Prop :=
  ∀ es₁ e es₂, es = es₁ ++ e :: es₂ → e.Spawns → .openDb ∈ es₁

/-! ## The database -/

/-- What an event does to `_db`. -/
theorem Effect.hasDb (h : s.Effect e s') : s'.init.hasDb = true ↔ s.init.hasDb = true ∨ e = .openDb := by
  cases h with
  | openDb hw => simp [InitPc.hasDb]
  | openFailed hw => simp [InitPc.hasDb, hw]
  | newIterator ho _ => simp [InitPc.hasDb, ho]
  | load hl => simp [InitPc.hasDb, hl]
  | loadDone hl => simp [InitPc.hasDb, hl]
  | _ => simp [serve]

theorem hasDb_iff (h : Run step always (boot hash db) es s) : s.init.hasDb = true ↔ .openDb ∈ es := by
  refine h.history (I := fun es s => s.init.hasDb = true ↔ .openDb ∈ es) (by simp [boot, InitPc.hasDb]) ?_
  intro es s e s' ih _ hstep
  rw [(step_cases hstep).2.hasDb, ih, List.mem_append, List.mem_singleton, eq_comm (a := e)]

/-! ## The tasks -/

/-- An accepted `/add` and no other spawns a task. -/
theorem addTask_ne_nil (kv : KvManager) (request : InsertRequest) :
    (AddKeyHandler.onPost kv request).task.toList ≠ [] ↔ (ServerEvent.add request).Spawns := by
  show _ ↔ request.key ≠ "" ∧ request.value ≠ ""
  unfold AddKeyHandler.onPost
  split
  · rename_i hempty
    simpa using fun hk => hempty.resolve_left hk
  · rename_i hne
    simpa using not_or.mp hne

/-- **What an event does to the tasks.** There are some after it only when there were some before it, or when
    it spawns one. -/
theorem Effect.spawns (h : s.Effect e s') (htasks : s'.tasks ≠ []) : s.tasks ≠ [] ∨ e.Spawns := by
  cases h with
  | add request =>
      rw [← addTask_ne_nil s.kv]
      by_contra hnone
      obtain ⟨hs, hadd⟩ := not_or.mp hnone
      exact htasks (List.append_eq_nil_iff.mpr ⟨not_not.mp hs, not_not.mp hadd⟩)
  | del key =>
      left
      simpa [serve, DelKeyHandler.task_onGet] using htasks
  | batchDone _ _ => exact Or.inr trivial
  | task hmem _ => exact Or.inl (List.ne_nil_of_mem hmem)
  | _ => exact Or.inl htasks

/-- An event that spawns a task leaves the server running, with a task to run. -/
theorem Effect.exists_task (h : s.Effect e s') (he : e.Spawns) :
    (∃ t, t ∈ s'.tasks) ∧ s'.crashed = s.crashed := by
  cases h with
  | add request =>
      obtain ⟨t, ht⟩ := List.exists_mem_of_ne_nil _ ((addTask_ne_nil s.kv request).mpr he)
      exact ⟨⟨t, List.mem_append_right _ ht⟩, rfl⟩
  | batchDone _ _ => exact ⟨⟨_, List.mem_append_right _ (List.mem_singleton.mpr rfl)⟩, rfl⟩
  | _ => exact he.elim

/-- A task that can run has been spawned. -/
theorem exists_spawns (h : Run step always (boot hash db) es s) (htasks : s.tasks ≠ []) :
    ∃ e ∈ es, e.Spawns := by
  refine h.history (I := fun es s => s.tasks ≠ [] → ∃ e ∈ es, e.Spawns) (fun hne => absurd rfl hne) ?_ htasks
  intro es s e s' ih _ hstep hne
  rcases (step_cases hstep).2.spawns hne with hold | hnew
  · obtain ⟨e', he', hspawns⟩ := ih hold
    exact ⟨e', List.mem_append_left _ he', hspawns⟩
  · exact ⟨e, by simp, hnew⟩

/-! ## The schedules -/

/-- When the inputs spawn only after the opening, a task that can run finds the database open. -/
theorem hasDb_of_task (h : Run step always (boot hash db) es s) {all : List ServerEvent}
    (hpre : inputs es <+: all) (hall : SpawnsAfterOpen all) (htasks : s.tasks ≠ []) : s.init.hasDb = true := by
  rw [hasDb_iff h]
  obtain ⟨e, he, hspawns⟩ := exists_spawns h htasks
  have hinput : e.isTask = false := by
    cases e with
    | task t => exact hspawns.elim
    | _ => rfl
  obtain ⟨es₁, es₂, hes⟩ := List.append_of_mem (mem_inputs.mpr ⟨he, hinput⟩)
  obtain ⟨rest, rfl⟩ := hpre
  -- the opening stands before the spawning event among the inputs, so it stands in the run
  have hopen : .openDb ∈ es₁ := hall es₁ e (es₂ ++ rest) (by simp [hes]) hspawns
  have hmem : .openDb ∈ inputs es := by
    rw [hes]
    exact List.mem_append_left _ hopen
  exact (mem_inputs.mp hmem).1

/-- A task that an event has spawned can be run at once. -/
theorem exists_task_run (h : Run step always (boot hash db) (es ++ [e]) s) (he : e.Spawns) :
    ∃ t s', Run step always (boot hash db) (es ++ [e] ++ [.task t]) s' := by
  obtain ⟨s₀, -, -, hstep⟩ := h.last
  obtain ⟨hrunning, heffect⟩ := step_cases hstep
  obtain ⟨⟨t, ht⟩, hcrashed⟩ := heffect.exists_task he
  have htask : ∃ s', s.step (.task t) = some s' := by
    rw [step_running (hcrashed.trans hrunning)]
    show ∃ s', (if t ∈ s.tasks then _ else none) = some s'
    rw [if_pos ht]
    split
    · exact ⟨_, rfl⟩
    · exact ⟨_, rfl⟩
  obtain ⟨s', hs'⟩ := htask
  exact ⟨t, s', h.snoc trivial hs'⟩

/-- **Which runs are safe.** Take a run of the server. In every run that has its inputs or a beginning of
    them, with the tasks run at any moment, all tasks find an opened database, exactly when the inputs that
    spawn a task come after `DB::Open` has succeeded. -/
theorem tasks_find_db_iff (h : Run step always (boot hash db) es s) :
    (∀ es' s', Run step always (boot hash db) es' s' → inputs es' <+: inputs es → TasksFindDb hash db es') ↔
      SpawnsAfterOpen (inputs es) := by
  constructor
  · intro hall es₁ e es₂ hes hspawns
    -- stop the given run right after the event, and run its task
    obtain ⟨p, q, rfl, rfl, hq⟩ := List.filter_eq_append_iff.mp hes
    obtain ⟨q₁, q₂, rfl, hq₁, -, -⟩ := List.filter_eq_cons_iff.mp hq
    have hnone : inputs q₁ = [] := List.filter_eq_nil_iff.mpr hq₁
    have hsplit : Run step always (boot hash db) ((p ++ q₁ ++ [e]) ++ q₂) s := by simpa using h
    obtain ⟨s₁, hrun, -⟩ := hsplit.split
    obtain ⟨t, s', hrun'⟩ := exists_task_run hrun hspawns
    have hpre : inputs (p ++ q₁ ++ [e] ++ [.task t]) <+: inputs (p ++ (q₁ ++ e :: q₂)) := by
      have hall : p ++ (q₁ ++ e :: q₂) = p ++ q₁ ++ [e] ++ q₂ := by simp
      rw [hall, inputs_append, inputs_append (p ++ q₁ ++ [e])]
      exact (List.prefix_append_right_inj _).mpr List.nil_prefix
    have hdb : s₁.init.hasDb = true := hall _ s' hrun' hpre _ t [] s₁ rfl hrun
    -- the opening is in the run, and neither the event nor a task
    have hmem : .openDb ∈ inputs (p ++ q₁ ++ [e]) := mem_inputs.mpr ⟨(hasDb_iff hrun).mp hdb, rfl⟩
    rw [inputs_append, inputs_append, hnone, List.append_nil] at hmem
    rcases List.mem_append.mp hmem with hp | he
    · exact hp
    · obtain rfl : .openDb = e := List.mem_singleton.mp (mem_inputs.mp he).1
      exact hspawns.elim
  · intro hspawns es' s' hrun hpre es₁ t es₂ s₁ hes hrun₁
    subst hes
    obtain ⟨s₂, hrun₂, hrest⟩ := hrun.split
    obtain ⟨s₃, -, hstep, -⟩ := hrest.uncons
    have hmem : t ∈ s₂.tasks := by
      cases (step_cases hstep).2 with
      | task hmem _ => exact hmem
      | crash hmem _ => exact hmem
    rw [inputs_append] at hpre
    have hdb := hasDb_of_task hrun₂ ((List.prefix_append _ _).trans hpre) hspawns (List.ne_nil_of_mem hmem)
    exact (hasDb_iff hrun₁).mpr ((hasDb_iff hrun₂).mp hdb)

/-- A client that adds an entry to an opened database. -/
theorem tasks_find_db_after_open :
    (∃ s, Run step always (boot String.length ∅) [.openDb, .add ⟨"k", "v"⟩] s) ∧
      ∀ es s, Run step always (boot String.length ∅) es s →
        inputs es <+: [.openDb, .add ⟨"k", "v"⟩] → TasksFindDb String.length ∅ es := by
  have hrun : Run step always (boot String.length ∅) [.openDb, .add ⟨"k", "v"⟩] _ :=
    Run.cons trivial rfl (Run.cons trivial rfl .nil)
  refine ⟨⟨_, hrun⟩, (tasks_find_db_iff hrun).mpr ?_⟩
  intro es₁ e es₂ hes hspawns
  cases es₁ with
  | nil =>
      obtain ⟨rfl, -⟩ := List.cons.inj hes
      exact hspawns.elim
  | cons e' es₁ =>
      obtain ⟨rfl, -⟩ := List.cons.inj hes
      exact List.mem_cons_self

/-- **A task can come too early.** A client adds an entry before the startup fiber has run, and the task of
    the request does not wait for it. -/
theorem early_task_finds_no_db :
    ¬ ∀ (hash : String → Nat) (db : LevelDb) (es : List ServerEvent) (s : Server),
        Run step always (boot hash db) es s → TasksFindDb hash db es := by
  intro hall
  have hadd : Run step always (boot String.length ∅) [.add ⟨"k", "v"⟩] _ := Run.cons trivial rfl .nil
  have htask : Run step always (boot String.length ∅) ([.add ⟨"k", "v"⟩] ++ [.task (.add ⟨"k", "v"⟩)]) _ :=
    hadd.snoc trivial rfl
  exact Bool.false_ne_true (hall _ _ _ _ htask _ _ _ _ rfl hadd)

end Server

end ZhiCache
