import ZhiCache.Server.System

/-!
# `Server.Validity` — keys and values that are not empty

`/add` refuses an empty key or value with 400. Nothing below the handlers repeats the check, so that every
path by which an entry reaches `KvManager` has to make it for itself: `/add` does, the startup load brings
back what was persisted, and `/batch` does not.

`Clean` says of the whole server that nothing empty is on its way: not in memory, on disk, in a task or with
the iterator, and among the entries of a batch only where the fiber has not run. Every event keeps it, unless
it is a fiber that stores something empty (`Clean.step`).
-/

namespace ZhiCache

open Lib

/-- The condition that `/add` enforces. -/
def NonEmpty (key value : String) : Prop := key ≠ "" ∧ value ≠ ""

/-- No entry of the map has an empty key or value. -/
def NoEmptyEntry (m : String → Option String) : Prop := ∀ key value, m key = some value → NonEmpty key value

namespace Server

/-- Nothing empty is anywhere, or can come from anywhere but a fiber. -/
structure Clean (s : Server) : Prop where
  kv : NoEmptyEntry s.kv.view
  db : NoEmptyEntry (LevelDb.view s.db)
  tasks : ∀ t ∈ s.tasks, ∀ p ∈ t.pairs, NonEmpty p.1 p.2
  batches : ∀ b batch, s.batches b = some batch →
    ∀ r ∈ batch.requests, r ∈ batch.todo ∨ NonEmpty r.key r.value
  loading : ∀ rest, s.init = .loading rest → ∀ p ∈ rest, NonEmpty p.1 p.2

/-- The event is not a fiber that stores something empty. -/
def fiberOk : ServerEvent → Prop
  | .fiber _ request => NonEmpty request.key request.value
  | _ => True

theorem clean_boot (hash : String → Nat) : (boot hash ∅).Clean where
  kv := by
    intro key value h
    have hnone : (boot hash ∅).kv.view key = none := congrFun (KvManager.view_init hash) key
    rw [hnone] at h
    exact absurd h (by simp)
  db := by
    intro key value h
    exact absurd h (by simp [boot, LevelDb.view])
  tasks := fun t ht => absurd ht (by simp [boot])
  batches := fun b batch h => absurd h (by simp [boot])
  loading := fun rest h => absurd h (by simp [boot])

variable {s s' : Server} {e : ServerEvent} {es : List ServerEvent}

/-- What an event other than such a fiber writes into `KvManager` is not empty. -/
theorem Clean.write (h : s.Clean) (hs : s.Effect e s') (he : fiberOk e) {key value : String}
    (hw : e.write = some (key, some value)) : NonEmpty key value := by
  cases hs with
  | add request =>
      have hw' : request.write = some (key, some value) := hw
      unfold InsertRequest.write at hw'
      split at hw'
      · exact absurd hw' (by simp)
      · rename_i hne
        obtain ⟨rfl, hv⟩ := Prod.mk.inj (Option.some.inj hw')
        obtain rfl := Option.some.inj hv
        exact not_or.mp hne
  | del k =>
      have hw' : delWrite k = some (key, some value) := hw
      cases k with
      | none => exact absurd hw' (by simp [delWrite])
      | some k => exact absurd hw' (by simp [delWrite])
  | fiber _ _ =>
      obtain ⟨rfl, hv⟩ := Prod.mk.inj (Option.some.inj hw)
      obtain rfl := Option.some.inj hv
      exact he
  | load hl =>
      obtain ⟨rfl, hv⟩ := Prod.mk.inj (Option.some.inj hw)
      obtain rfl := Option.some.inj hv
      exact h.loading _ hl _ List.mem_cons_self
  | _ => exact absurd hw (by simp [ServerEvent.write, ServerEvent.record, ServerEvent.clientWrite])

/-- Memory stays free of empty entries. -/
theorem Clean.kv_step (h : s.Clean) (hs : s.Effect e s') (he : fiberOk e) : NoEmptyEntry s'.kv.view := by
  intro key value hv
  rw [hs.view] at hv
  refine replay_forall (P := NonEmpty) h.kv ?_ hv
  intro k v hmem
  exact h.write hs he (Option.mem_toList.mp hmem)

/-- The task of an accepted `/add`. -/
theorem nonEmpty_addTask {kv : KvManager} {request : InsertRequest} {t : Task}
    (ht : t ∈ (AddKeyHandler.onPost kv request).task.toList) : ∀ p ∈ t.pairs, NonEmpty p.1 p.2 := by
  unfold AddKeyHandler.onPost at ht
  split at ht
  · exact absurd ht (by simp)
  · rename_i hne
    obtain rfl : t = .add request := by simpa using ht
    intro p hp
    obtain rfl : p = (request.key, request.value) := by simpa [Task.pairs] using hp
    exact not_or.mp hne

/-- The task of a batch whose fibers have all run. -/
theorem Clean.batchTask (h : s.Clean) {b : Nat} {batch : Batch} (hb : s.batches b = some batch)
    (hnil : batch.todo = []) : ∀ p ∈ (Task.batch batch.requests).pairs, NonEmpty p.1 p.2 := by
  intro p hp
  obtain ⟨r, hr, rfl⟩ := List.mem_map.mp hp
  rcases h.batches b batch hb r hr with htodo | hne
  · rw [hnil] at htodo
    exact absurd htodo List.not_mem_nil
  · exact hne

/-- The database after a task. -/
theorem Clean.db_task (h : s.Clean) {t : Task} (ht : t ∈ s.tasks) :
    NoEmptyEntry (LevelDb.view (t.run s.db)) := by
  intro key value hv
  rw [Task.view_run] at hv
  refine replay_forall (P := NonEmpty) h.db ?_ hv
  intro k v hmem
  obtain ⟨p, hp, heq⟩ := List.mem_map.mp hmem
  obtain ⟨rfl, hv⟩ := Prod.mk.inj heq
  obtain rfl := Option.some.inj hv
  exact h.tasks t ht p hp

/-- **An event keeps the server clean**, unless it is a fiber that stores something empty. -/
theorem Clean.step (h : s.Clean) (hs : s.Effect e s') (he : fiberOk e) : s'.Clean := by
  have hkv := h.kv_step hs he
  cases hs with
  | add request =>
      refine ⟨hkv, h.db, ?_, h.batches, h.loading⟩
      intro t ht
      rcases List.mem_append.mp ht with hold | hnew
      · exact h.tasks t hold
      · exact nonEmpty_addTask hnew
  | del key =>
      refine ⟨hkv, h.db, ?_, h.batches, h.loading⟩
      intro t ht
      have ht' : t ∈ s.tasks := by simpa [serve, DelKeyHandler.task_onGet] using ht
      exact h.tasks t ht'
  | query key => exact h
  | @batch b requests hfree =>
      refine ⟨hkv, h.db, h.tasks, ?_, h.loading⟩
      intro b' batch' hb' r hr
      rcases update_cases hb' with ⟨_, rfl⟩ | ⟨_, hold⟩
      · exact Or.inl hr
      · exact h.batches b' batch' hold r hr
  | @fiber b batch request hb hmem =>
      refine ⟨hkv, h.db, h.tasks, ?_, h.loading⟩
      intro b' batch' hb' r hr
      rcases update_cases hb' with ⟨_, rfl⟩ | ⟨_, hold⟩
      · -- the entry that was stored is not empty; the others have moved nowhere
        by_cases hrr : r = request
        · exact Or.inr (hrr ▸ he)
        · rcases h.batches b batch hb r hr with htodo | hne
          · exact Or.inl ((List.mem_erase_of_ne hrr).mpr htodo)
          · exact Or.inr hne
      · exact h.batches b' batch' hold r hr
  | @batchDone b batch hb hnil =>
      refine ⟨hkv, h.db, ?_, ?_, h.loading⟩
      · intro t ht p hp
        rcases List.mem_append.mp ht with hold | hnew
        · exact h.tasks t hold p hp
        · obtain rfl := List.mem_singleton.mp hnew
          exact h.batchTask hb hnil p hp
      · intro b' batch' hb' r hr
        by_cases hbb : b' = b
        · subst hbb
          exact absurd hb' (by simp)
        · have hold : s.batches b' = some batch' := (Function.update_of_ne hbb _ _).symm.trans hb'
          exact h.batches b' batch' hold r hr
  | @task t ht hdb =>
      exact ⟨hkv, h.db_task ht, fun t' ht' => h.tasks t' (List.mem_of_mem_erase ht'), h.batches, h.loading⟩
  | crash ht hdb => exact ⟨hkv, h.db, h.tasks, h.batches, h.loading⟩
  | openDb hw => exact ⟨hkv, h.db, h.tasks, h.batches, fun rest hr => absurd hr (by simp)⟩
  | openFailed hw => exact ⟨hkv, h.db, h.tasks, h.batches, fun rest hr => absurd hr (by simp)⟩
  | newIterator ho hperm =>
      refine ⟨hkv, h.db, h.tasks, h.batches, ?_⟩
      intro rest hr p hp
      obtain rfl := InitPc.loading.inj hr
      obtain ⟨key, value⟩ := p
      exact h.db key value (LevelDb.mem_records.mp (hperm.subset hp))
  | load hl =>
      refine ⟨hkv, h.db, h.tasks, h.batches, ?_⟩
      intro rest hr p hp
      obtain rfl := InitPc.loading.inj hr
      exact h.loading _ hl p (List.mem_cons_of_mem _ hp)
  | loadDone hl => exact ⟨hkv, h.db, h.tasks, h.batches, fun rest hr => absurd hr (by simp)⟩

/-- **When no empty entry is ever held.** A process is started on an empty database. In every state that it
    passes through, `KvManager` is free of empty keys and values exactly when none of the fibers of `/batch`
    requests that have run had an empty key or value to store. -/
theorem no_empty_entry_iff (hash : String → Nat) (hrun : Run step always (boot hash ∅) es s) :
    (∀ es₁ es₂ s₁, es = es₁ ++ es₂ → Run step always (boot hash ∅) es₁ s₁ → NoEmptyEntry s₁.kv.view) ↔
      ∀ b request, .fiber b request ∈ es → NonEmpty request.key request.value := by
  constructor
  · intro hall b request hmem
    -- right after the fiber the entry is there
    obtain ⟨es₁, es₂, rfl⟩ := List.append_of_mem hmem
    have hsplit : es₁ ++ .fiber b request :: es₂ = (es₁ ++ [.fiber b request]) ++ es₂ := by simp
    rw [hsplit] at hrun hall
    obtain ⟨s₁, hrun₁, _⟩ := hrun.split
    obtain ⟨s₀, _, _, hs⟩ := hrun₁.last
    have hview := (step_cases hs).2.view
    have hentry : s₁.kv.view request.key = some request.value := by
      rw [hview]
      exact Function.update_self ..
    exact hall _ es₂ s₁ rfl hrun₁ _ _ hentry
  · rintro hfibers es₁ es₂ s₁ rfl hrun₁
    have hok : ∀ e ∈ es₁, fiberOk e := by
      intro e he
      cases e with
      | fiber b request => exact hfibers b request (List.mem_append_left _ he)
      | _ => trivial
    have hclean : s₁.Clean :=
      (hrun₁.of_mem hok).invariant (clean_boot hash) (fun _ _ _ hI he hs => hI.step (step_cases hs).2 he)
    exact hclean.kv

/-- A batch with one entry. -/
def oneEntry : List ServerEvent := [.batch 0 [⟨"k", "v"⟩], .fiber 0 ⟨"k", "v"⟩, .batchDone 0]

theorem no_empty_entry_one_batch :
    ∃ s, Run step always (boot String.length ∅) oneEntry s ∧ NoEmptyEntry s.kv.view := by
  obtain ⟨s, hs⟩ : ∃ s, oneEntry.foldlM step (boot String.length ∅) = some s := ⟨_, rfl⟩
  have hrun : Run step always (boot String.length ∅) oneEntry s := run_of_forall (fun _ _ _ => trivial) hs
  refine ⟨s, hrun, (no_empty_entry_iff String.length hrun).mpr ?_ oneEntry [] s (by simp) hrun⟩
  intro b request hmem
  obtain ⟨rfl, rfl⟩ : b = 0 ∧ request = ⟨"k", "v"⟩ := by simpa [oneEntry] using hmem
  exact ⟨by decide, by decide⟩

/-- `/batch` stores an entry with an empty key. -/
theorem batch_stores_empty_key :
    ¬ ∀ (hash : String → Nat) (es : List ServerEvent) (s : Server), Run step always (boot hash ∅) es s →
        NoEmptyEntry s.kv.view := by
  intro hall
  obtain ⟨s, hs, hentry⟩ : ∃ s, [ServerEvent.batch 0 [⟨"", "v"⟩], .fiber 0 ⟨"", "v"⟩].foldlM step
      (boot String.length ∅) = some s ∧ s.kv.view "" = some "v" := ⟨_, rfl, by decide +kernel⟩
  exact (hall String.length _ s (run_of_forall (fun _ _ _ => trivial) hs) "" "v" hentry).1 rfl

end Server

end ZhiCache
