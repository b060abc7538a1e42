import ZhiCache.Storage.HashKv
import ZhiCache.Model.RequestModel
import ZhiCache.Lib.WriteLog

/-!
# `Manager.LocaldbManager` — the keys and values, in memory and on disk

`KvManager` keeps the keys and values in memory, `LocaldbManager` writes them to a leveldb database and
loads them from there when the server starts. leveldb is taken to be a durable finite map (`LevelDb`) whose
iterator visits every record once, in any order: a list that `records` is a permutation of.

Seen on plain maps from keys to values, every operation is a replay of writes (`Lib.replay`): the startup
load replays the records of the database (`view_init`), an `Add` or a `Batch` replays its pairs on the
database (`view_write`). `LocaldbManager` has no operation that removes a record.
-/

namespace ZhiCache

open Lib

/-! ## Memory -/

/-- `KvManager`. -/
structure KvManager where
  memdb : HashKv String

namespace KvManager

/-- `Init`. -/
def init (hash : String → Nat) : KvManager := ⟨HashKv.init hash 1403641⟩

/-- `Query`: the address of the value. -/
def query (kv : KvManager) (key : String) : Option Addr := kv.memdb.get key

/-- `Add`. -/
def add (kv : KvManager) (key value : String) : KvManager := ⟨kv.memdb.add key value⟩

/-- `Del`. -/
def del (kv : KvManager) (key : String) : KvManager := ⟨kv.memdb.del key⟩

/-- The plain map from keys to values. -/
def view (kv : KvManager) : String → Option String := kv.memdb.view

theorem view_init (hash : String → Nat) : (init hash).view = fun _ => none :=
  funext (fun _ => HashKv.view_init hash 1403641)

theorem view_add (kv : KvManager) (key value : String) :
    (kv.add key value).view = Function.update kv.view key (some value) :=
  HashKv.view_add _ _ _

theorem view_del (kv : KvManager) (key : String) :
    (kv.del key).view = Function.update kv.view key none :=
  HashKv.view_del _ _

end KvManager

/-! ## Disk -/

/-- A leveldb database. -/
abbrev LevelDb := AList (fun _ : String => String)

/-- Pairs to be stored, as writes. -/
def stores (pairs : List (String × String)) : List (String × Option String) :=
  pairs.map (fun p => (p.1, some p.2))

theorem stores_append (ps qs : List (String × String)) : stores (ps ++ qs) = stores ps ++ stores qs :=
  List.map_append

theorem stores_keys (pairs : List (String × String)) :
    (stores pairs).map Prod.fst = pairs.map Prod.fst := by
  unfold stores
  rw [List.map_map]
  rfl

namespace LevelDb

/-- `DB::Put`. -/
def put (db : LevelDb) (key value : String) : LevelDb := db.insert key value

/-- `DB::Write` of a `WriteBatch`, whose puts are applied in order. -/
def write (db : LevelDb) (batch : List (String × String)) : LevelDb :=
  batch.foldl (fun db p => db.put p.1 p.2) db

/-- The records that an iterator visits. -/
def records (db : LevelDb) : List (String × String) := db.entries.map (fun r => (r.1, r.2))

/-- What an iterator over the database visits: its records, in some order. -/
abbrev Iterator (db : LevelDb) := { records : List (String × String) // records.Perm db.records }

/-- The plain map from keys to values. -/
def view (db : LevelDb) : String → Option String := fun key => db.lookup key

theorem view_put (db : LevelDb) (key value : String) :
    view (db.put key value) = Function.update (view db) key (some value) := by
  funext key'
  unfold view put
  by_cases hk : key' = key
  · subst hk
    rw [Function.update_self, AList.lookup_insert]
  · rw [Function.update_of_ne hk, AList.lookup_insert_ne hk]

theorem view_write (db : LevelDb) (batch : List (String × String)) :
    view (db.write batch) = replay (view db) (stores batch) := by
  induction batch using List.reverseRecOn with
  | nil => rfl
  | append_singleton batch p ih =>
      have hstep : db.write (batch ++ [p]) = (db.write batch).put p.1 p.2 := by
        unfold write
        rw [List.foldl_append]
        rfl
      rw [hstep, view_put, ih, stores_append]
      exact (replay_snoc (view db) (stores batch) (p.1, some p.2)).symm

theorem records_keys_nodup (db : LevelDb) : (db.records.map Prod.fst).Nodup := by
  have hkeys : db.records.map Prod.fst = db.keys := by
    unfold records AList.keys List.keys
    rw [List.map_map]
    rfl
  rw [hkeys]
  exact db.keys_nodup

theorem mem_records {db : LevelDb} {key value : String} :
    (key, value) ∈ db.records ↔ view db key = some value := by
  have hiff : view db key = some value ↔ ⟨key, value⟩ ∈ db.entries := AList.mem_lookup_iff
  rw [hiff, records, List.mem_map]
  constructor
  · rintro ⟨⟨key', value'⟩, hmem, heq⟩
    obtain ⟨rfl, rfl⟩ := Prod.mk.inj heq
    exact hmem
  · exact fun hmem => ⟨⟨key, value⟩, hmem, rfl⟩

/-- Replaying the records of a database on the empty map gives the database back, in whatever order the
    iterator visits them. -/
theorem replay_records {db : LevelDb} (it : db.Iterator) :
    replay (fun _ => none) (stores it.1) = view db := by
  have hnd : ((stores db.records).map Prod.fst).Nodup := by
    rw [stores_keys]
    exact records_keys_nodup db
  have hperm : (stores db.records).Perm (stores it.1) := it.2.symm.map _
  rw [← replay_perm hnd hperm]
  funext key
  cases hv : view db key with
  | some value =>
      have hmem : (key, some value) ∈ stores db.records :=
        List.mem_map.mpr ⟨(key, value), mem_records.mpr hv, rfl⟩
      exact replay_of_mem hnd hmem
  | none =>
      refine replay_of_not_mem (fun w hw hk => ?_)
      obtain ⟨⟨key', value⟩, hr, rfl⟩ := List.mem_map.mp hw
      have hk' : key' = key := hk
      subst hk'
      rw [mem_records.mp hr] at hv
      exact absurd hv (by simp)

end LevelDb

/-! ## `LocaldbManager` -/

namespace LocaldbManager

/-- The loop of `Init`, over the records in the order of the iterator. -/
def init (kv : KvManager) (records : List (String × String)) : KvManager :=
  records.foldl (fun kv r => kv.add r.1 r.2) kv

/-- `Add`. -/
def add (db : LevelDb) (key value : String) : LevelDb := db.put key value

/-- `Batch`. -/
def batch (db : LevelDb) (requests : List InsertRequest) : LevelDb :=
  db.write (requests.map (fun r => (r.key, r.value)))

theorem view_init (kv : KvManager) (records : List (String × String)) :
    (init kv records).view = replay kv.view (stores records) := by
  induction records using List.reverseRecOn with
  | nil => rfl
  | append_singleton records r ih =>
      have hstep : init kv (records ++ [r]) = (init kv records).add r.1 r.2 := by
        unfold init
        rw [List.foldl_append]
        rfl
      rw [hstep, KvManager.view_add, ih, stores_append]
      exact (replay_snoc kv.view (stores records) (r.1, some r.2)).symm

/-- **The startup load** on an empty `KvManager` makes it hold what the database holds. -/
theorem view_init_empty (hash : String → Nat) {db : LevelDb} (it : db.Iterator) :
    (init (KvManager.init hash) it.1).view = LevelDb.view db := by
  rw [view_init, KvManager.view_init]
  exact LevelDb.replay_records it

end LocaldbManager

end ZhiCache
