import ZhiCache.Manager.LocaldbManager

/-!
# `Handler.KvHandler` — the handlers of keys and values

What the handlers of `/add`, `/del`, `/batch`, `/query`, `/list` and `/init` do with a decoded request. A
handler that writes changes `KvManager` itself; writing to the database is left to a task that it hands to
`flare::fiber::Async` (`Task`), detached and in no order with other tasks. `/del` hands over no task.

`/batch` stores its entries from one fiber each and waits for all of them, so the order in which they are
stored, the schedule, is any permutation of the entries; the task that it then hands over stores them in
their own order.
-/

namespace ZhiCache

open Lib

/-- The statuses that handlers answer with. -/
inductive HttpStatus where
  | ok
  | badRequest
  | notFound
  deriving DecidableEq, Repr

/-! ## Tasks -/

/-- A persistence task, detached from the request that spawned it. -/
inductive Task where
  | add (request : InsertRequest)
  | batch (requests : List InsertRequest)
  deriving DecidableEq, Repr

namespace Task

/-- What the task does to the database. -/
def run (db : LevelDb) : Task → LevelDb
  | add request => LocaldbManager.add db request.key request.value
  | batch requests => LocaldbManager.batch db requests

/-- The pairs that the task stores, in order. -/
def pairs : Task → List (String × String)
  | add request => [(request.key, request.value)]
  | batch requests => requests.map (fun r => (r.key, r.value))

theorem view_run (db : LevelDb) (t : Task) :
    LevelDb.view (t.run db) = replay (LevelDb.view db) (stores t.pairs) := by
  cases t with
  | add request => exact LevelDb.view_put db request.key request.value
  | batch requests => exact LevelDb.view_write db _

/-- Tasks that run one after another. -/
theorem view_runAll (db : LevelDb) (ts : List Task) :
    LevelDb.view (ts.foldl run db) = replay (LevelDb.view db) (stores (ts.flatMap pairs)) := by
  induction ts using List.reverseRecOn with
  | nil => rfl
  | append_singleton ts t ih =>
      rw [List.foldl_append, List.flatMap_append, stores_append, replay_append, ← ih]
      simpa using view_run (ts.foldl run db) t

end Task

/-! ## The handlers that write -/

/-- What a handler leaves behind: its status, `KvManager`, and the task it has spawned. -/
structure Served where
  status : HttpStatus
  kv : KvManager
  task : Option Task

/-- `AddKeyHandler::OnPost`. An empty key or value is refused. -/
def AddKeyHandler.onPost (kv : KvManager) (request : InsertRequest) : Served :=
  if request.key = "" ∨ request.value = "" then ⟨.badRequest, kv, none⟩
  else ⟨.ok, kv.add request.key request.value, some (.add request)⟩

/-- `DelKeyHandler::OnGet`; no key when the path has none. -/
def DelKeyHandler.onGet (kv : KvManager) : Option String → Served
  | none => ⟨.badRequest, kv, none⟩
  | some key => ⟨.ok, kv.del key, none⟩

/-- `/del` has no persistence task. -/
theorem DelKeyHandler.task_onGet (kv : KvManager) (key : Option String) : (onGet kv key).task = none := by
  cases key with
  | none => rfl
  | some key => rfl

/-- `BatchAddKeyHandler::OnPost`, with its fibers run in the order of the schedule. -/
def BatchAddKeyHandler.onPost (kv : KvManager) (requests schedule : List InsertRequest) : Served :=
  ⟨.ok, schedule.foldl (fun kv r => kv.add r.key r.value) kv, some (.batch requests)⟩

/-! ## The handlers that read

`KvManager::Query` returns a pointer, and the handler reads through it later, without a lock. -/

/-- `QueryKeyHandler::OnGet`. -/
inductive QueryPc where
  /-- `KvManager::Query` is next. -/
  | asked (key : String)
  /-- The pointer is to be read. -/
  | holding (key : String) (value : Addr)
  | answered (status : HttpStatus) (body : String)
  /-- The pointer has been read after its element was destroyed. -/
  | fault
  deriving DecidableEq, Repr

namespace QueryPc

/-- The request arrives; no key when the path has none. -/
def start : Option String → QueryPc
  | none => .answered .badRequest ""
  | some key => .asked key

/-- `KvManager::Query`. -/
def get (kv : KvManager) : QueryPc → Option QueryPc
  | asked key =>
    match kv.query key with
    | none => some (.answered .notFound "")
    | some value => some (.holding key value)
  | _ => none

/-- `*value`. -/
def read (kv : KvManager) : QueryPc → Option QueryPc
  | holding _ value =>
    match kv.memdb.deref value with
    | none => some .fault
    | some v => some (.answered .ok v)
  | _ => none

end QueryPc

/-- `QueryKeyHandler::OnGet` without interruption: the status and the body. -/
def QueryKeyHandler.onGet (kv : KvManager) : Option String → Option (HttpStatus × String)
  | none => some (.badRequest, "")
  | some key =>
    match kv.query key with
    | none => some (.notFound, "")
    | some value => (kv.memdb.deref value).map (fun v => (.ok, v))

/-- Taken step by step, it answers the same. -/
theorem QueryKeyHandler.onGet_steps (kv : KvManager) (key : String) :
    (∃ pc, (QueryPc.start (some key)).get kv = some pc ∧
      (∃ status body, onGet kv (some key) = some (status, body) ∧
        (pc = .answered status body ∨ pc.read kv = some (.answered status body)))) := by
  cases hq : kv.query key with
  | none =>
      refine ⟨.answered .notFound "", ?_, .notFound, "", ?_, Or.inl rfl⟩
      · simp [QueryPc.start, QueryPc.get, hq]
      · simp [onGet, hq]
  | some value =>
      obtain ⟨v, hv⟩ := Option.isSome_iff_exists.mp (HashKv.view_isSome hq)
      rw [← HashKv.deref_of_get hq] at hv
      refine ⟨.holding key value, ?_, .ok, v, ?_, Or.inr ?_⟩
      · simp [QueryPc.start, QueryPc.get, hq]
      · simp [onGet, hq, hv]
      · simp [QueryPc.read, hv]

/-- It answers with the value of the key. -/
theorem QueryKeyHandler.onGet_eq (kv : KvManager) (key : String) :
    onGet kv (some key) = match kv.view key with
      | none => some (.notFound, "")
      | some v => some (.ok, v) := by
  cases hq : kv.query key with
  | none =>
      have hv : kv.view key = none := HashKv.view_eq_none_iff.mpr hq
      simp [onGet, hq, hv]
  | some value =>
      obtain ⟨v, hv⟩ := Option.isSome_iff_exists.mp (HashKv.view_isSome hq)
      have hd : kv.memdb.deref value = some v := (HashKv.deref_of_get hq).trans hv
      have hview : kv.view key = some v := hv
      simp [onGet, hq, hd, hview]

/-- `BatchQueryKeyHandler::OnPost`. -/
inductive BatchQueryPc where
  /-- The loop that collects the values is at `index`; `values` is what the fibers have returned. -/
  | collecting (keys : List String) (values : Nat → Option (Option Addr)) (index : Nat)
      (results : List InsertRequest)
  | answered (status : HttpStatus) (results : List InsertRequest)
  /-- A pointer has been read after its element was destroyed. -/
  | fault

namespace BatchQueryPc

/-- The request arrives, and a fiber is started for every key. -/
def start (keys : List String) : BatchQueryPc :=
  if keys = [] then .answered .badRequest [] else .collecting keys (fun _ => none) 0 []

/-- The fiber of the key at `i` runs `KvManager::Query`. -/
def get (kv : KvManager) (i : Nat) : BatchQueryPc → Option BatchQueryPc
  | collecting keys values index results => do
    let key ← keys[i]?
    match values i with
    | some _ => none
    | none => some (.collecting keys (Function.update values i (some (kv.query key))) index results)
  | _ => none

/-- The loop waits for the fiber at its index and takes the value that its pointer leads to; at the end it
    answers. -/
def read (kv : KvManager) (i : Nat) : BatchQueryPc → Option BatchQueryPc
  | collecting keys values index results =>
    if i = index then
      match keys[index]? with
      | none => some (.answered (if results = [] then .notFound else .ok) results)
      | some key =>
        match values index with
        | none => none
        | some none => some (.collecting keys values (index + 1) results)
        | some (some value) =>
          match kv.memdb.deref value with
          | none => some .fault
          | some v => some (.collecting keys values (index + 1) (results ++ [⟨key, v⟩]))
    else none
  | _ => none

end BatchQueryPc

/-- `BatchQueryKeyHandler::OnPost` without interruption: the status and the list in the body. -/
def BatchQueryKeyHandler.onPost (kv : KvManager) (keys : List String) : HttpStatus × List InsertRequest :=
  if keys = [] then (.badRequest, [])
  else
    let results := keys.filterMap (fun key => (kv.view key).map (fun v => ⟨key, v⟩))
    (if results = [] then .notFound else .ok, results)

/-! ## `/init` -/

/-- `InitQueryHandler::OnGet`: the status and the body. -/
def InitQueryHandler.onGet (inited : Bool) : HttpStatus × String :=
  if inited then (.ok, "ok") else (.badRequest, "")

/-! ## What the handlers write -/

/-- What `/add` writes into `KvManager`, if it accepts the request. -/
def InsertRequest.write (request : InsertRequest) : Option (String × Option String) :=
  if request.key = "" ∨ request.value = "" then none else some (request.key, some request.value)

theorem AddKeyHandler.view_onPost (kv : KvManager) (request : InsertRequest) :
    (onPost kv request).kv.view = replay kv.view request.write.toList := by
  unfold onPost InsertRequest.write
  split
  · rfl
  · exact KvManager.view_add kv request.key request.value

/-- What `/del` writes into `KvManager`. -/
def delWrite (key : Option String) : Option (String × Option String) := key.map (fun key => (key, none))

theorem DelKeyHandler.view_onGet (kv : KvManager) (key : Option String) :
    (onGet kv key).kv.view = replay kv.view (delWrite key).toList := by
  cases key with
  | none => rfl
  | some key => exact KvManager.view_del kv key

/-- What `/batch` writes into `KvManager`, in the order of the schedule. -/
theorem BatchAddKeyHandler.view_onPost (kv : KvManager) (requests schedule : List InsertRequest) :
    (onPost kv requests schedule).kv.view
      = replay kv.view (stores (schedule.map (fun r => (r.key, r.value)))) := by
  have hloop : (onPost kv requests schedule).kv
      = LocaldbManager.init kv (schedule.map (fun r => (r.key, r.value))) := by
    unfold onPost LocaldbManager.init
    rw [List.foldl_map]
  rw [hloop]
  exact LocaldbManager.view_init kv _

/-! ## `/batch` with repeated keys -/

namespace BatchAddKeyHandler

variable {kv : KvManager} {db : LevelDb} {requests schedule : List InsertRequest} {key : String}

/-- The last entry with this key. -/
def lastWith (key : String) (entries : List InsertRequest) : Option InsertRequest :=
  latest (fun r => decide (r.key = key)) entries

theorem lastWith_some {r : InsertRequest} (h : lastWith key requests = some r) : r ∈ requests ∧ r.key = key :=
  ⟨(latest_some h).1, of_decide_eq_true (latest_some h).2⟩

/-- A reordering has the same last entries, if they have the same values. -/
theorem lastWith_eq_of_perm (hperm : schedule.Perm requests)
    (hvalue : ∀ key r r', lastWith key requests = some r → lastWith key schedule = some r' →
      r'.value = r.value) (key : String) : lastWith key schedule = lastWith key requests := by
  cases hl : lastWith key requests with
  | none =>
      refine latest_eq_none_iff.mpr ?_
      intro r hr
      exact latest_eq_none_iff.mp hl r (hperm.subset hr)
  | some r =>
      obtain ⟨hmem, hkey⟩ := lastWith_some hl
      cases hl' : lastWith key schedule with
      | none =>
          have hno := latest_eq_none_iff.mp hl' r (hperm.symm.subset hmem)
          exact absurd hkey (of_decide_eq_false hno)
      | some r' =>
          -- the two entries have the same key and the same value
          have hk : r'.key = r.key := (lastWith_some hl').2.trans hkey.symm
          have hv : r'.value = r.value := hvalue key r r' hl hl'
          obtain ⟨k', v'⟩ := r'
          obtain ⟨k, v⟩ := r
          obtain rfl : k' = k := hk
          obtain rfl : v' = v := hv
          rfl

/-- The order of the entries decides what is stored under a key: the last one. -/
theorem replay_stores (m : String → Option String) {r : InsertRequest} (h : lastWith key requests = some r) :
    replay m (stores (requests.map (fun r => (r.key, r.value)))) key = some r.value := by
  have hlatest : latest (fun w : String × Option String => decide (w.1 = key))
      (stores (requests.map (fun r => (r.key, r.value)))) = some (r.key, some r.value) := by
    unfold stores
    rw [List.map_map, latest_map]
    exact Option.map_eq_some_iff.mpr ⟨r, h, rfl⟩
  exact replay_of_latest hlatest

/-- `/batch` answers 200, and then every key of the list has the value of its last entry, in memory and,
    once the task has run, in the database. -/
def LastWins (kv : KvManager) (db : LevelDb) (requests schedule : List InsertRequest) : Prop :=
  (onPost kv requests schedule).status = .ok ∧
    ∀ key r, lastWith key requests = some r →
      (onPost kv requests schedule).kv.view key = some r.value ∧
      ∀ t, (onPost kv requests schedule).task = some t → LevelDb.view (t.run db) key = some r.value

/-- The database takes the entries in the order of the list, memory in the order of the fibers. -/
theorem lastWins_iff (hperm : schedule.Perm requests) :
    LastWins kv db requests schedule ↔ ∀ key, lastWith key schedule = lastWith key requests := by
  constructor
  · rintro ⟨_, hwins⟩
    apply lastWith_eq_of_perm hperm
    intro key r r' hl hl'
    have hvalue : some r'.value = some r.value := by
      rw [← (hwins key r hl).1, view_onPost, replay_stores kv.view hl']
    exact Option.some.inj hvalue
  · intro hsame
    refine ⟨rfl, ?_⟩
    intro key r hl
    refine ⟨?_, ?_⟩
    · rw [view_onPost, replay_stores kv.view ((hsame key).trans hl)]
    · rintro t ht
      rw [← Option.some.inj ht, Task.view_run]
      exact replay_stores (LevelDb.view db) hl

/-- Any entry may be stored last. -/
theorem lastWith_moved {r : InsertRequest} (h : r ∈ requests) :
    (requests.erase r ++ [r]).Perm requests ∧ lastWith r.key (requests.erase r ++ [r]) = some r := by
  refine ⟨?_, ?_⟩
  · exact (List.perm_append_singleton r _).trans (List.perm_cons_erase h).symm
  · unfold lastWith
    rw [latest_snoc]
    exact if_pos (decide_eq_true rfl)

/-- **When the last entry wins.** For a list of entries and an order of its fibers, every key ends up with the
    value of its last entry exactly when, among the fibers of each key, the one that runs last is that of such
    an entry. It does so in every order exactly when no two entries give one key different values. -/
theorem last_entry_wins_iff (kv : KvManager) (db : LevelDb) (requests : List InsertRequest) :
    (∀ schedule : List InsertRequest, schedule.Perm requests →
      (LastWins kv db requests schedule ↔ ∀ key, lastWith key schedule = lastWith key requests)) ∧
    ((∀ schedule : List InsertRequest, schedule.Perm requests → LastWins kv db requests schedule) ↔
      ∀ r ∈ requests, ∀ r' ∈ requests, r.key = r'.key → r.value = r'.value) := by
  refine ⟨fun schedule hperm => lastWins_iff hperm, ?_, ?_⟩
  · intro hall r hr r' hr' hkey
    -- the two orders that end with the one and with the other entry
    obtain ⟨hperm, hlast⟩ := lastWith_moved hr
    obtain ⟨hperm', hlast'⟩ := lastWith_moved hr'
    have hsame := (lastWins_iff hperm).mp (hall _ hperm) r.key
    have hsame' := (lastWins_iff hperm').mp (hall _ hperm') r.key
    rw [hlast] at hsame
    rw [hkey, hlast', ← hkey, ← hsame] at hsame'
    rw [Option.some.inj hsame']
  · intro hone schedule hperm
    refine (lastWins_iff hperm).mpr (lastWith_eq_of_perm hperm ?_)
    intro key r r' hl hl'
    obtain ⟨hmem', hkey'⟩ := lastWith_some hl'
    obtain ⟨hmem, hkey⟩ := lastWith_some hl
    exact hone r' (hperm.subset hmem') r hmem (hkey'.trans hkey.symm)

/-- Two entries for one key, the fiber of the first of which runs last. -/
theorem earlier_entry_wins :
    ¬ ∀ (kv : KvManager) (db : LevelDb) (requests schedule : List InsertRequest), schedule.Perm requests →
        LastWins kv db requests schedule := by
  intro hall
  have hperm : List.Perm [⟨"k", "v2"⟩, ⟨"k", "v1"⟩] [(⟨"k", "v1"⟩ : InsertRequest), ⟨"k", "v2"⟩] :=
    List.Perm.swap _ _ _
  have hwins := hall (KvManager.init String.length) ∅ _ _ hperm
  have hlast := (lastWins_iff hperm).mp hwins "k"
  exact absurd hlast (by decide)

end BatchAddKeyHandler

end ZhiCache
