import ZhiCache.Server.System

/-!
# `Server.Startup` — the startup load beside the requests

Requests are served while `LocaldbManager::Init` still loads the database. The load visits the records of
one iterator, each once (`LoadProgress`), so of the writes that `KvManager` replays, the load contributes at
most one on each key. Two results follow:

* once `/init` answers "ok", every key that no client has touched holds what it held in the database that
  the iterator was created over (`untouched_after_init`);
* what a client has done is not safe from the load: an operation on a key is undone by a load of that key
  that comes after it, and by nothing else (`client_operations_stand_iff`).
-/

namespace ZhiCache

open Lib

namespace Server

variable {s₀ s s' : Server} {e : ServerEvent} {es : List ServerEvent}

/-! ## The progress of the load -/

/-- The records that have been loaded, in order. -/
def loaded (es : List ServerEvent) : List (String × String) := es.filterMap ServerEvent.record

/-- The load has created this iterator, when the database was `db`. -/
def IteratesOver (s₀ : Server) (es : List ServerEvent) {db : LevelDb} (it : db.Iterator) : Prop :=
  ∃ es₁ es₂ s₁, es = es₁ ++ .newIterator it.1 :: es₂ ∧ Run step always s₀ es₁ s₁ ∧ s₁.db = db

theorem IteratesOver.snoc {db : LevelDb} {it : db.Iterator} (h : IteratesOver s₀ es it) (e : ServerEvent) :
    IteratesOver s₀ (es ++ [e]) it := by
  obtain ⟨es₁, es₂, s₁, rfl, hrun, hdb⟩ := h
  exact ⟨es₁, es₂ ++ [e], s₁, by simp, hrun, hdb⟩

end Server

/-- The records ahead of the iterator, once there is one. -/
def InitPc.ahead : InitPc → Option (List (String × String))
  | loading rest => some rest
  | finished => some []
  | _ => none

namespace Server

variable {s₀ s s' : Server} {e : ServerEvent} {es : List ServerEvent}

/-- How far the load is. -/
structure LoadProgress (s₀ : Server) (es : List ServerEvent) (s : Server) : Prop where
  run : Run step always s₀ es s
  flag : s.inited = true → s.init = .finished
  /-- Without an iterator nothing has been loaded. -/
  before : s.init.ahead = none → loaded es = []
  /-- With one, what has been loaded and what is ahead are the records of one database. -/
  during : ∀ rest, s.init.ahead = some rest →
    ∃ (db : LevelDb) (it : db.Iterator), IteratesOver s₀ es it ∧ loaded es ++ rest = it.1

theorem loaded_snoc_of_none (es : List ServerEvent) (h : e.record = none) : loaded (es ++ [e]) = loaded es := by
  unfold loaded
  rw [List.filterMap_append, List.filterMap_cons_none h, List.filterMap_nil, List.append_nil]

/-- An event that neither loads nor moves `LocaldbManager::Init`. -/
theorem LoadProgress.frame (h : LoadProgress s₀ es s) (hstep : s.step e = some s') (hrec : e.record = none)
    (hinit : s'.init = s.init) (hflag : s'.inited = s.inited) : LoadProgress s₀ (es ++ [e]) s' where
  run := h.run.snoc trivial hstep
  flag := by
    rw [hinit, hflag]
    exact h.flag
  before := by
    rw [hinit, loaded_snoc_of_none es hrec]
    exact h.before
  during := by
    rw [hinit, loaded_snoc_of_none es hrec]
    intro rest hrest
    obtain ⟨db, it, hit, heq⟩ := h.during rest hrest
    exact ⟨db, it, hit.snoc e, heq⟩

/-- `DB::Open` has succeeded or failed. -/
theorem LoadProgress.opening (h : LoadProgress s₀ es s) (hstep : s.step e = some s') (hrec : e.record = none)
    (hw : s.init = .waiting) (hahead : s'.init.ahead = none) (hflag : s'.inited = s.inited) :
    LoadProgress s₀ (es ++ [e]) s' where
  run := h.run.snoc trivial hstep
  flag := by
    rw [hflag]
    intro hin
    exact absurd (hw.symm.trans (h.flag hin)) (by simp)
  before := by
    rw [loaded_snoc_of_none es hrec]
    exact fun _ => h.before (by rw [hw]; rfl)
  during := by
    rw [hahead]
    exact fun _ hrest => absurd hrest (by simp)

/-- **One step of the load.** -/
theorem LoadProgress.step (h : LoadProgress s₀ es s) (hstep : s.step e = some s') :
    LoadProgress s₀ (es ++ [e]) s' := by
  have hrun := h.run.snoc trivial hstep
  -- before `_inited` is set it is false: the load is not finished in any of the states below
  have hflag : s.init ≠ .finished → s.inited = true → False := fun hne hin => hne (h.flag hin)
  cases (step_cases hstep).2 with
  | openDb hw => exact h.opening hstep rfl hw rfl rfl
  | openFailed hw => exact h.opening hstep rfl hw rfl rfl
  | @newIterator records ho hperm =>
      refine ⟨hrun, fun hin => (hflag (by rw [ho]; simp) hin).elim, fun hnone => ?_, fun rest hrest => ?_⟩
      · exact absurd hnone (by simp [InitPc.ahead])
      · have hrest' : records = rest := Option.some.inj hrest
        subst hrest'
        refine ⟨s.db, ⟨records, hperm⟩, ⟨es, [], s, rfl, h.run, rfl⟩, ?_⟩
        rw [loaded_snoc_of_none es rfl, h.before (by rw [ho]; rfl)]
        rfl
  | @load key value rest' hl =>
      refine ⟨hrun, fun hin => (hflag (by rw [hl]; simp) hin).elim, fun hnone => ?_, fun rest hrest => ?_⟩
      · exact absurd hnone (by simp [InitPc.ahead])
      · have hrest' : rest' = rest := Option.some.inj hrest
        subst hrest'
        obtain ⟨db, it, hit, heq⟩ := h.during ((key, value) :: rest') (by rw [hl]; rfl)
        refine ⟨db, it, hit.snoc _, ?_⟩
        rw [← heq]
        unfold loaded
        simp [ServerEvent.record]
  | loadDone hl =>
      refine ⟨hrun, fun _ => rfl, fun hnone => ?_, fun rest hrest => ?_⟩
      · exact absurd hnone (by simp [InitPc.ahead])
      · have hrest' : [] = rest := Option.some.inj hrest
        subst hrest'
        obtain ⟨db, it, hit, heq⟩ := h.during [] (by rw [hl]; rfl)
        refine ⟨db, it, hit.snoc _, ?_⟩
        rw [loaded_snoc_of_none es rfl]
        exact heq
  | _ => exact h.frame hstep rfl rfl rfl

theorem loadProgress {hash : String → Nat} {db : LevelDb} (h : Run step always (boot hash db) es s) :
    LoadProgress (boot hash db) es s :=
  h.history (I := LoadProgress (boot hash db))
    ⟨.nil, fun hin => absurd hin Bool.false_ne_true, fun _ => rfl, fun _ hrest => by cases hrest⟩
    (fun _ _ _ _ hI _ hstep => hI.step hstep)

/-- No key is loaded twice. -/
theorem LoadProgress.keys_nodup (h : LoadProgress s₀ es s) : ((loaded es).map Prod.fst).Nodup := by
  cases hahead : s.init.ahead with
  | none =>
      rw [h.before hahead]
      exact List.nodup_nil
  | some rest =>
      obtain ⟨db, it, _, heq⟩ := h.during rest hahead
      have hnd : (it.1.map Prod.fst).Nodup :=
        (it.2.map Prod.fst).nodup_iff.mpr (LevelDb.records_keys_nodup db)
      rw [← heq, List.map_append] at hnd
      exact hnd.of_append_left

/-! ## Keys that no client touches -/

/-- On a key that no client writes, events write what they load. -/
theorem replay_of_untouched (m : String → Option String) {key : String}
    (hkey : ∀ w ∈ es.filterMap ServerEvent.clientWrite, w.1 ≠ key) :
    replay m (es.filterMap ServerEvent.write) key = replay m (stores (loaded es)) key := by
  induction es using List.reverseRecOn with
  | nil => rfl
  | append_singleton es e ih =>
      have ih' := ih (fun w hw => hkey w (by simp [hw]))
      cases hrec : e.record with
      | none =>
          rw [loaded_snoc_of_none es hrec, List.filterMap_append, replay_append, ← ih']
          refine replay_of_not_mem (fun w hw => hkey w ?_)
          have hwrite : e.write = e.clientWrite := by simp [ServerEvent.write, hrec]
          simpa [hwrite] using Or.inr hw
      | some r =>
          have hwrite : e.write = some (r.1, some r.2) := by simp [ServerEvent.write, hrec]
          have hload : loaded (es ++ [e]) = loaded es ++ [r] := by simp [loaded, hrec]
          have hlog : (es ++ [e]).filterMap ServerEvent.write
              = es.filterMap ServerEvent.write ++ [(r.1, some r.2)] := by simp [hwrite]
          rw [hload, stores_append, hlog, replay_snoc]
          show _ = replay m (stores (loaded es) ++ [(r.1, some r.2)]) key
          rw [replay_snoc]
          by_cases hk : key = r.1
          · rw [hk, Function.update_self, Function.update_self]
          · rw [Function.update_of_ne hk, Function.update_of_ne hk, ih']

/-- **What `/init` promises.** Whenever it answers "ok", every key that no client request has added or deleted
    since the process was started holds what it held in the database that the load iterated over, and is
    missing where it was missing there. -/
theorem untouched_after_init (hash : String → Nat) (db : LevelDb)
    (h : Run step always (boot hash db) es s) (hok : InitQueryHandler.onGet s.inited = (.ok, "ok")) :
    ∃ (db₁ : LevelDb) (it : db₁.Iterator), IteratesOver (boot hash db) es it ∧
      ∀ key, (∀ w ∈ es.filterMap ServerEvent.clientWrite, w.1 ≠ key) →
        s.kv.view key = LevelDb.view db₁ key := by
  have hinited : s.inited = true := by
    cases hin : s.inited with
    | true => rfl
    | false =>
        rw [hin] at hok
        exact absurd hok (by decide)
  have hload := loadProgress h
  obtain ⟨db₁, it, hit, heq⟩ := hload.during [] (by rw [hload.flag hinited]; rfl)
  refine ⟨db₁, it, hit, fun key hkey => ?_⟩
  rw [run_view h, replay_of_untouched _ hkey, ← LevelDb.replay_records it, ← heq, List.append_nil]

/-- Requests on another key come in between, and a task changes the database behind the iterator. -/
theorem untouched_after_init_one_record :
    ∃ es s, Run step always (boot String.length (LevelDb.put ∅ "k" "v")) es s ∧
      s.kv.view "k" = some "v" ∧ LevelDb.view s.db "x" = some "1" ∧
      ∃ (db₁ : LevelDb) (it : db₁.Iterator),
        IteratesOver (boot String.length (LevelDb.put ∅ "k" "v")) es it ∧
        s.kv.view "k" = LevelDb.view db₁ "k" := by
  let es : List ServerEvent := [.openDb, .newIterator [("k", "v")], .add ⟨"x", "1"⟩,
    .task (.add ⟨"x", "1"⟩), .load "k" "v", .loadDone, .del (some "x")]
  have hcheck : (es.foldlM step (boot String.length (LevelDb.put ∅ "k" "v"))).map
      (fun s => (InitQueryHandler.onGet s.inited, s.kv.view "k", LevelDb.view s.db "x"))
      = some ((.ok, "ok"), some "v", some "1") := by
    decide +kernel
  obtain ⟨s, hs, hres⟩ := Option.map_eq_some_iff.mp hcheck
  obtain ⟨hok, hres⟩ := Prod.mk.inj hres
  obtain ⟨hk, hx⟩ := Prod.mk.inj hres
  have hrun : Run step always (boot String.length (LevelDb.put ∅ "k" "v")) es s :=
    run_of_forall (fun _ _ _ => trivial) hs
  obtain ⟨db₁, it, hit, hview⟩ := untouched_after_init _ _ hrun hok
  exact ⟨es, s, hrun, hk, hx, db₁, it, hit, hview "k" (by decide)⟩

/-! ## Keys that clients touch -/

/-- Every key that clients have touched holds what the last operation of a client on it put there. -/
def ClientOperationsStand (es : List ServerEvent) (s : Server) : Prop :=
  ∀ key w, latest (fun w => decide (w.1 = key)) (es.filterMap ServerEvent.clientWrite) = some w →
    s.kv.view key = w.2

/-- A key is not loaded after the last operation of a client on it, unless with the value that this operation
    has stored. -/
def LoadsFirst (es : List ServerEvent) : Prop :=
  ∀ es₁ c es₂ w, es = es₁ ++ c :: es₂ → c.clientWrite = some w →
    (∀ w' ∈ es₂.filterMap ServerEvent.clientWrite, w'.1 ≠ w.1) →
    ∀ value, ServerEvent.load w.1 value ∈ es₂ → w.2 = some value

/-- What is left of the last operation of a client on a key is decided by the loads after it. -/
theorem view_after_client {hash : String → Nat} {db : LevelDb} {es₁ es₂ : List ServerEvent} {c : ServerEvent}
    {w : String × Option String} (h : Run step always (boot hash db) (es₁ ++ c :: es₂) s)
    (hc : c.clientWrite = some w) (hlast : ∀ w' ∈ es₂.filterMap ServerEvent.clientWrite, w'.1 ≠ w.1) :
    ∃ m, m w.1 = w.2 ∧ s.kv.view w.1 = replay m (stores (loaded es₂)) w.1 := by
  refine ⟨replay (fun _ => none) (es₁.filterMap ServerEvent.write ++ [w]), ?_, ?_⟩
  · rw [replay_snoc, Function.update_self]
  · rw [run_view h, List.filterMap_append,
      List.filterMap_cons_some (ServerEvent.write_of_clientWrite hc), List.append_cons, replay_append]
    exact replay_of_untouched _ hlast

theorem mem_stores_loaded {key value : String} :
    (key, some value) ∈ stores (loaded es) ↔ ServerEvent.load key value ∈ es := by
  constructor
  · intro h
    obtain ⟨r, hr, heq⟩ := List.mem_map.mp h
    obtain ⟨hk, hv⟩ := Prod.mk.inj heq
    obtain ⟨e, he, hrec⟩ := List.mem_filterMap.mp hr
    cases e with
    | load key' value' =>
        obtain rfl : (key', value') = r := Option.some.inj hrec
        rw [← hk, ← Option.some.inj hv]
        exact he
    | _ => exact absurd hrec (by simp [ServerEvent.record])
  · intro h
    exact List.mem_map.mpr ⟨(key, value), List.mem_filterMap.mpr ⟨_, h, rfl⟩, rfl⟩

/-- **When the load undoes nothing.** In every run, what clients have done stands exactly when no key is loaded
    after the last operation of a client on it, unless with the value that this operation has stored. -/
theorem client_operations_stand_iff (hash : String → Nat) (db : LevelDb)
    (h : Run step always (boot hash db) es s) : ClientOperationsStand es s ↔ LoadsFirst es := by
  -- the loads after an event are among all loads, so they load no key twice either
  have hnd : ∀ es₁ c es₂, es = es₁ ++ c :: es₂ → ((stores (loaded es₂)).map Prod.fst).Nodup := by
    intro es₁ c es₂ hes
    have hsub : es₂.Sublist es := by
      rw [hes]
      exact (List.sublist_cons_self c es₂).trans (List.sublist_append_right es₁ _)
    rw [stores_keys]
    exact (loadProgress h).keys_nodup.sublist ((hsub.filterMap _).map _)
  constructor
  · rintro hstand es₁ c es₂ w rfl hc hlast value hload
    have hview := hstand w.1 w (latest_filterMap_eq_some_iff.mpr
      ⟨by simp, es₁, c, es₂, rfl, hc, fun w' hw' => by simpa using hlast w' hw'⟩)
    obtain ⟨m, _, hafter⟩ := view_after_client h hc hlast
    rw [← hview, hafter]
    exact replay_of_mem (hnd es₁ c es₂ rfl) (mem_stores_loaded.mpr hload)
  · intro hfirst key w hlatest
    obtain ⟨hwk, es₁, c, es₂, rfl, hc, hlast⟩ := latest_filterMap_eq_some_iff.mp hlatest
    have hk : w.1 = key := of_decide_eq_true hwk
    subst hk
    have hlast' : ∀ w' ∈ es₂.filterMap ServerEvent.clientWrite, w'.1 ≠ w.1 :=
      fun w' hw' => of_decide_eq_false (hlast w' hw')
    obtain ⟨m, hm, hafter⟩ := view_after_client h hc hlast'
    rw [hafter]
    by_cases hload : ∃ value, ServerEvent.load w.1 value ∈ es₂
    · obtain ⟨value, hload⟩ := hload
      rw [hfirst es₁ c es₂ w rfl hc hlast' value hload]
      exact replay_of_mem (hnd es₁ c es₂ rfl) (mem_stores_loaded.mpr hload)
    · rw [← hm]
      refine replay_of_not_mem (fun w' hw' hk => ?_)
      obtain ⟨r, _, rfl⟩ := List.mem_map.mp hw'
      have hk' : r.1 = w.1 := hk
      rw [hk'] at hw'
      exact hload ⟨r.2, mem_stores_loaded.mp hw'⟩

/-- A client replaces a value whose record has been loaded. -/
theorem client_operations_stand_after_load :
    ∃ es s, Run step always (boot String.length (LevelDb.put ∅ "k" "old")) es s ∧ s.init = .finished ∧
      s.kv.view "k" = some "new" ∧ LoadsFirst es := by
  let es : List ServerEvent := [.openDb, .newIterator [("k", "old")], .load "k" "old", .add ⟨"k", "new"⟩,
    .loadDone]
  have hcheck : (es.foldlM step (boot String.length (LevelDb.put ∅ "k" "old"))).map
      (fun s => (s.init, s.kv.view "k")) = some (.finished, some "new") := by
    decide +kernel
  obtain ⟨s, hs, hres⟩ := Option.map_eq_some_iff.mp hcheck
  obtain ⟨hfin, hview⟩ := Prod.mk.inj hres
  have hrun : Run step always (boot String.length (LevelDb.put ∅ "k" "old")) es s :=
    run_of_forall (fun _ _ _ => trivial) hs
  refine ⟨es, s, hrun, hfin, hview, (client_operations_stand_iff _ _ hrun).mp ?_⟩
  intro key w hlatest
  obtain ⟨hmem, hwk⟩ := latest_some hlatest
  have hw : w = ("k", some "new") := List.mem_singleton.mp hmem
  have hk : w.1 = key := of_decide_eq_true hwk
  rw [← hk, hw]
  exact hview

/-- **The load can undo an operation.** A client replaces a value while its record is ahead of the iterator:
    once the load is over, the old value is back. -/
theorem load_undoes_an_add :
    ¬ ∀ (hash : String → Nat) (db : LevelDb) (es : List ServerEvent) (s : Server),
        Run step always (boot hash db) es s → s.init = .finished → ClientOperationsStand es s := by
  intro hall
  let es : List ServerEvent := [.openDb, .newIterator [("k", "old")], .add ⟨"k", "new"⟩, .load "k" "old",
    .loadDone]
  have hcheck : (es.foldlM step (boot String.length (LevelDb.put ∅ "k" "old"))).map
      (fun s => (s.init, s.kv.view "k")) = some (.finished, some "old") := by
    decide +kernel
  obtain ⟨s, hs, hres⟩ := Option.map_eq_some_iff.mp hcheck
  obtain ⟨hfin, hview⟩ := Prod.mk.inj hres
  have hnew := hall _ _ es s (run_of_forall (fun _ _ _ => trivial) hs) hfin "k" ("k", some "new") (by decide)
  rw [hview] at hnew
  exact absurd hnew (by decide)

end Server

end ZhiCache
