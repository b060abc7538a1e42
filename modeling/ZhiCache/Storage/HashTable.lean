import ZhiCache.Storage.HashKvRuns
import Mathlib.Data.Finmap
import Mathlib.Data.PNat.Basic

/-!
# `Storage.HashTable` — the table of chains

`HashTable<Key, Value>` is a vector of singly linked chains. `Add` walks the chain of the key's bucket and
stores into the node that has the key, or puts a new node in front; `Get` walks the same chain. Nodes are never
unlinked: the `Del` for strings **blanks** the node, setting its key and its value to the empty string, and it
does so without a look at whether the walk has found one. A chain is the list of its nodes here, with `next`
the rest of the list; the calls come one after another, so that the exchange that publishes a node succeeds
with what was loaded before.

* `Add` is an update of what `Get` gives (`get_add`), whatever the chains hold.
* `Del` of a key without a node goes through a null pointer (`delString_eq_none_iff`); with a node, it leaves
  the counter as it is (`size_delString`) and a node with an empty key in the chain.
* So the table behaves as a finite map just as long as nothing is deleted (`agrees_iff`). On keys that are
  not empty, the lookups alone would still be right (`callAll_of_ne_empty`).
-/

namespace ZhiCache

/-- A node; its `next` is the rest of the chain. -/
structure HashNode (K V : Type) where
  key : K
  value : V
  deriving DecidableEq, Repr

/-- The table. `hash` is `std::hash<Key>`, and `size` is `_size`. -/
structure HashTable (K V : Type) where
  hash : K → Nat
  bucketSize : ℕ+
  bucket : Nat → List (HashNode K V)
  size : Int32

namespace HashTable

/-! ## The constructor -/

/-- The bucket counts to choose from. -/
def primes : List ℕ+ :=
  [17, 37, 79, 163, 331, 673, 1361, 2729, 5471, 10949, 21911, 43853, 87719, 175447, 350899, 701819, 1403641,
   2807303, 5614657, 11229331, 22458671, 44917381, 89834777, 179669557, 359339171, 718678369, 1437356741,
   2147483647]

/-- `for (i = 1; primes[i] < hint; ++i)`, and then `primes[i - 1]`; none when the loop leaves the array. -/
def choosePrime (hint : Nat) : List ℕ+ → Option ℕ+
  | p :: q :: rest => if q < hint then choosePrime hint (q :: rest) else some p
  | _ => none

variable {K V : Type}

/-- A table of empty buckets. -/
def ofBucketSize (hash : K → Nat) (bucketSize : ℕ+) : HashTable K V := ⟨hash, bucketSize, fun _ => [], 0⟩

/-- `HashTable(int hint)`. The comparison with a `size_t` turns the hint into one. -/
def new (hash : K → Nat) (hint : Int32) : Option (HashTable K V) :=
  (choosePrime (hint.toInt % 2 ^ 64).toNat primes).map (ofBucketSize hash)

/-- The loop stays inside of the array when a prime behind the first is large enough. -/
theorem choosePrime_isSome_iff (hint : Nat) (p : ℕ+) (rest : List ℕ+) :
    (choosePrime hint (p :: rest)).isSome ↔ ∃ q ∈ rest, hint ≤ q := by
  induction rest generalizing p with
  | nil => simp [choosePrime]
  | cons q rest ih =>
      rw [choosePrime]
      split
      · rename_i hlt
        rw [ih q, List.exists_mem_cons_iff]
        exact (or_iff_right (Nat.not_le.mpr hlt)).symm
      · rename_i hge
        exact iff_of_true rfl ⟨q, List.mem_cons_self, Nat.le_of_not_lt hge⟩

/-- **Which hints the constructor takes.** A negative hint becomes a number above all primes, so that the loop
    leaves the array; with every other hint there is a table. -/
theorem new_isSome_iff (hash : K → Nat) (hint : Int32) : (new (V := V) hash hint).isSome ↔ 0 ≤ hint := by
  have hlow : -2147483648 ≤ hint.toInt := hint.minValue_le_toInt
  have hhigh : hint.toInt ≤ 2147483647 := hint.toInt_le
  have hmax : ∀ q ∈ primes.tail, (q : Nat) ≤ 2147483647 := by decide
  have hlast : 2147483647 ∈ primes.tail := by decide
  have hsplit : primes = 17 :: primes.tail := rfl
  rw [new, Option.isSome_map, hsplit, choosePrime_isSome_iff, Int32.le_iff_toInt_le]
  show _ ↔ 0 ≤ hint.toInt
  constructor
  · rintro ⟨q, hq, hle⟩
    have hq := hmax q hq
    omega
  · intro hpos
    refine ⟨2147483647, hlast, ?_⟩
    show (hint.toInt % 2 ^ 64).toNat ≤ 2147483647
    omega

/-! ## The calls -/

variable [DecidableEq K]

/-- `std::hash<Key>{}(key) % _bucketSize`, as an `unsigned int`. -/
def index (t : HashTable K V) (key : K) : Nat := t.hash key % t.bucketSize % 2 ^ 32

/-- The walk to the first node that has the key, and a change of that node; none when there is no such node. -/
def atNode (key : K) (change : HashNode K V → HashNode K V) : List (HashNode K V) → Option (List (HashNode K V))
  | [] => none
  | p :: next => if key = p.key then some (change p :: next) else (atNode key change next).map (p :: ·)

/-- The table with another chain in one bucket. -/
def setBucket (t : HashTable K V) (i : Nat) (chain : List (HashNode K V)) : HashTable K V :=
  { t with bucket := Function.update t.bucket i chain }

/-- `Add`. -/
def add (t : HashTable K V) (key : K) (value : V) : Bool × HashTable K V :=
  match atNode key (fun p => { p with value := value }) (t.bucket (t.index key)) with
  | some chain => (true, t.setBucket (t.index key) chain)
  | none =>
    (true, { t.setBucket (t.index key) (⟨key, value⟩ :: t.bucket (t.index key)) with size := t.size + 1 })

/-- `Get`, and what is read through the pointer that it returns. -/
def get (t : HashTable K V) (key : K) : Option V :=
  ((t.bucket (t.index key)).find? (fun p => key = p.key)).map HashNode.value

/-- `Del` for strings; none when it goes through a null pointer. -/
def delString (t : HashTable String String) (key : String) : Option (Bool × HashTable String String) :=
  (atNode key (fun _ => ⟨"", ""⟩) (t.bucket (t.index key))).map
    (fun chain => (true, t.setBucket (t.index key) chain))

/-! ## What the walk finds -/

section Chains

variable {key key' : K} {p : HashNode K V} {u w chain chain' : List (HashNode K V)}
  {change : HashNode K V → HashNode K V}

/-- The walk finds no node exactly when none has the key. -/
theorem atNode_eq_none_iff : atNode key change chain = none ↔ ∀ p ∈ chain, key ≠ p.key := by
  induction chain with
  | nil => exact iff_of_true rfl (fun p hp => absurd hp List.not_mem_nil)
  | cons p next ih =>
      rw [List.forall_mem_cons, ← ih, atNode]
      split
      · rename_i hp
        exact iff_of_false (by simp) (fun h => h.1 hp)
      · rename_i hp
        rw [Option.map_eq_none_iff]
        exact (and_iff_right hp).symm

/-- The walk changes the first node that has the key, and no other. -/
theorem exists_of_atNode (h : atNode key change chain = some chain') :
    ∃ u p w, chain = u ++ p :: w ∧ key = p.key ∧ (∀ q ∈ u, key ≠ q.key) ∧ chain' = u ++ change p :: w := by
  induction chain generalizing chain' with
  | nil => exact absurd h (by simp [atNode])
  | cons p next ih =>
      rw [atNode] at h
      split at h
      · rename_i hp
        exact ⟨[], p, next, rfl, hp, fun q hq => absurd hq List.not_mem_nil, (Option.some.inj h).symm⟩
      · rename_i hp
        obtain ⟨rest, hrest, rfl⟩ := Option.map_eq_some_iff.mp h
        obtain ⟨u, q, w, rfl, hq, hu, rfl⟩ := ih hrest
        exact ⟨p :: u, q, w, rfl, hq, List.forall_mem_cons.mpr ⟨hp, hu⟩, rfl⟩

theorem find?_of_first (hp : key = p.key) (hu : ∀ q ∈ u, key ≠ q.key) :
    (u ++ p :: w).find? (fun p => key = p.key) = some p := by
  have hnone : u.find? (fun p => key = p.key) = none :=
    List.find?_eq_none.mpr (fun q hq => by simpa using hu q hq)
  rw [List.find?_append, hnone, Option.none_or, List.find?_cons_of_pos (by simpa using hp)]

/-- A node with another key makes no difference. -/
theorem find?_skip (hp : key ≠ p.key) :
    (u ++ p :: w).find? (fun p => key = p.key) = (u ++ w).find? (fun p => key = p.key) := by
  rw [List.find?_append, List.find?_append, List.find?_cons_of_neg (by simpa using hp)]

end Chains

/-! ## What a call does -/

variable {t : HashTable K V} {key key' : K} {value : V}

omit [DecidableEq K] in
/-- The buckets are not left. -/
theorem index_lt (t : HashTable K V) (key : K) : t.index key < t.bucketSize :=
  Nat.lt_of_le_of_lt (Nat.mod_le _ _) (Nat.mod_lt _ t.bucketSize.pos)

theorem get_eq_none_iff : t.get key = none ↔ ∀ p ∈ t.bucket (t.index key), key ≠ p.key := by
  rw [get, Option.map_eq_none_iff, List.find?_eq_none]
  simp

/-- What is found after a change in the bucket of `key`. -/
theorem get_setBucket (t : HashTable K V) (chain : List (HashNode K V)) (key' : K) {i : Nat} :
    (t.setBucket i chain).get key' =
      if t.index key' = i then (chain.find? (fun p => key' = p.key)).map HashNode.value else t.get key' := by
  show ((Function.update t.bucket i chain (t.index key')).find? (fun p => key' = p.key)).map HashNode.value = _
  rw [Function.update_apply]
  split
  · rfl
  · rfl

/-- A change of the bucket that only concerns nodes without the key. -/
theorem get_setBucket_of_find? {chain : List (HashNode K V)} {i : Nat}
    (h : chain.find? (fun p => key' = p.key) = (t.bucket i).find? (fun p => key' = p.key)) :
    (t.setBucket i chain).get key' = t.get key' := by
  rw [get_setBucket]
  split
  · rename_i hi
    rw [h, ← hi, get]
  · rfl

/-- **`Add` is an update of what `Get` gives.** -/
theorem get_add (t : HashTable K V) (key : K) (value : V) :
    (t.add key value).2.get = Function.update t.get key (some value) := by
  funext key'
  unfold add
  cases hwalk : atNode key (fun p => { p with value := value }) (t.bucket (t.index key)) with
  | some chain =>
      obtain ⟨u, p, w, hchain, hp, hu, rfl⟩ := exists_of_atNode hwalk
      by_cases hk : key' = key
      · subst hk
        have hfirst : (u ++ ⟨p.key, value⟩ :: w).find? (fun p => key' = p.key) = some ⟨p.key, value⟩ :=
          find?_of_first hp hu
        rw [Function.update_self, get_setBucket, if_pos rfl, hfirst]
        rfl
      · rw [Function.update_of_ne hk]
        have hother : key' ≠ p.key := fun h => hk (h.trans hp.symm)
        refine get_setBucket_of_find? ?_
        rw [hchain, find?_skip hother]
        exact find?_skip hother
  | none =>
      show (t.setBucket (t.index key) (⟨key, value⟩ :: t.bucket (t.index key))).get key' = _
      by_cases hk : key' = key
      · subst hk
        rw [Function.update_self, get_setBucket, if_pos rfl, List.find?_cons_of_pos (by simp)]
        rfl
      · rw [Function.update_of_ne hk]
        exact get_setBucket_of_find? (find?_skip (u := []) hk)

theorem fst_add (t : HashTable K V) (key : K) (value : V) : (t.add key value).1 = true := by
  unfold add
  split
  · rfl
  · rfl

/-- `Add` counts a key that has no node. -/
theorem size_add (t : HashTable K V) (key : K) (value : V) :
    (t.add key value).2.size = if t.get key = none then t.size + 1 else t.size := by
  unfold add
  cases hwalk : atNode key (fun p => { p with value := value }) (t.bucket (t.index key)) with
  | some chain =>
      have hfound : t.get key ≠ none := by
        intro hnone
        rw [atNode_eq_none_iff.mpr (get_eq_none_iff.mp hnone)] at hwalk
        exact absurd hwalk.symm (Option.some_ne_none chain)
      rw [if_neg hfound]
      rfl
  | none =>
      rw [if_pos (get_eq_none_iff.mpr (atNode_eq_none_iff.mp hwalk))]

theorem delString_eq_none_iff {t : HashTable String String} {key : String} :
    t.delString key = none ↔ t.get key = none := by
  rw [delString, Option.map_eq_none_iff, atNode_eq_none_iff, get_eq_none_iff]

/-- What `Del` does when there is a node: it blanks the first one that has the key. -/
theorem exists_of_delString {t t' : HashTable String String} {key : String} {done : Bool}
    (h : t.delString key = some (done, t')) :
    done = true ∧ ∃ u p w, t.bucket (t.index key) = u ++ p :: w ∧ key = p.key ∧ (∀ q ∈ u, key ≠ q.key) ∧
      t' = t.setBucket (t.index key) (u ++ ⟨"", ""⟩ :: w) := by
  obtain ⟨chain, hwalk, hres⟩ := Option.map_eq_some_iff.mp h
  obtain ⟨hdone, rfl⟩ := Prod.mk.inj hres
  obtain ⟨u, p, w, hchain, hp, hu, rfl⟩ := exists_of_atNode hwalk
  exact ⟨hdone.symm, u, p, w, hchain, hp, hu, rfl⟩

theorem size_delString {t t' : HashTable String String} {key : String} {done : Bool}
    (h : t.delString key = some (done, t')) : t'.size = t.size := by
  obtain ⟨-, u, p, w, -, -, -, rfl⟩ := exists_of_delString h
  rfl

end HashTable

/-! ## Sequences of calls, beside a finite map -/

/-- A call on a table of strings. -/
inductive TableCall where
  | add (key value : String)
  | get (key : String)
  | del (key : String)
  deriving DecidableEq, Repr

/-- What a call returns. -/
inductive TableResult where
  | flag (done : Bool)
  | value (found : Option String)
  deriving DecidableEq, Repr

namespace TableCall

/-- The key that the call adds. -/
def addedKey : TableCall → Option String
  | add key _ => some key
  | _ => none

/-- The keys that the calls add. -/
def addedKeys (calls : List TableCall) : Finset String := (calls.filterMap addedKey).toFinset

/-- The call on a finite map: what it returns, and the map after it. -/
def plain (m : HashKv.Plain String) : TableCall → TableResult × HashKv.Plain String
  | add key value => (.flag true, m.insert key value)
  | get key => (.value (m.lookup key), m)
  | del key => (.flag true, m.erase key)

end TableCall

namespace HashTable

/-- A call on the table; none when it goes through a null pointer. -/
def call (t : HashTable String String) : TableCall → Option (TableResult × HashTable String String)
  | .add key value => some (.flag (t.add key value).1, (t.add key value).2)
  | .get key => some (.value (t.get key), t)
  | .del key => (t.delString key).map (fun r => (.flag r.1, r.2))

/-- `size()` is the number of keys in the map. -/
def Counts (t : HashTable String String) (m : HashKv.Plain String) : Prop := t.size.toInt = m.keys.card

/-- The table and the map go through the calls together: none of them meets a null pointer, each returns the
    same on both sides, and before and after each of them `size()` is the number of keys. -/
def Agrees (t : HashTable String String) (m : HashKv.Plain String) : List TableCall → Prop
  | [] => t.Counts m
  | c :: calls => t.Counts m ∧ ∃ t', t.call c = some ((c.plain m).1, t') ∧ Agrees t' (c.plain m).2 calls

variable {t : HashTable String String} {m : HashKv.Plain String} {calls : List TableCall}

theorem Agrees.counts (h : Agrees t m calls) : t.Counts m := by
  cases calls with
  | nil => exact h
  | cons c calls => exact h.1

theorem keys_insert (m : HashKv.Plain String) (key value : String) :
    (m.insert key value).keys = insert key m.keys := by
  ext key'
  rw [Finmap.mem_keys, Finmap.mem_insert, Finset.mem_insert, Finmap.mem_keys]

theorem get_eq_none_iff_keys {key : String} (h : t.get key = m.lookup key) :
    t.get key = none ↔ key ∉ m.keys := by
  rw [h, Finmap.lookup_eq_none, Finmap.mem_keys]

/-- An `int` that has been counted up to `n` shows `n` as long as `n` fits. -/
theorem toInt_ofNat_eq_iff (n : Nat) : (Int32.ofNat n).toInt = n ↔ n < 2 ^ 31 := by
  have hsize : Int32.size = 4294967296 := rfl
  rw [Int32.toInt_ofNat', hsize, Int.bmod]
  omega

/-- The table holds what the map holds, and has counted its keys. -/
structure Tracks (t : HashTable String String) (m : HashKv.Plain String) : Prop where
  get : t.get = m.lookup
  size : t.size = Int32.ofNat m.keys.card

theorem Tracks.counts_iff (h : t.Tracks m) : t.Counts m ↔ m.keys.card < 2 ^ 31 := by
  rw [Counts, h.size]
  exact toInt_ofNat_eq_iff _

theorem tracks_ofBucketSize (hash : String → Nat) (bucketSize : ℕ+) :
    (ofBucketSize hash bucketSize).Tracks ∅ where
  get := rfl
  size := rfl

/-- `Add` counts the key as the map does, if it finds a node just when the map has the key. -/
theorem size_add_of_iff {key : String} {n : Nat} (hkey : t.get key = none ↔ key ∉ m.keys)
    (hsize : t.size = Int32.ofNat (m.keys.card + n)) (value : String) :
    (t.add key value).2.size = Int32.ofNat ((m.insert key value).keys.card + n) := by
  rw [size_add, keys_insert, hsize]
  by_cases hk : key ∈ m.keys
  · rw [if_neg (fun hnone => hkey.mp hnone hk), Finset.insert_eq_of_mem hk]
  · rw [if_pos (hkey.mpr hk), Finset.card_insert_of_notMem hk, Nat.add_right_comm, Int32.ofNat_add _ 1]
    rfl

/-- `Add` keeps the table beside the map. -/
theorem Tracks.add (h : t.Tracks m) (key value : String) : (t.add key value).2.Tracks (m.insert key value) where
  get := by rw [get_add, HashKv.Plain.lookup_insert_eq_update, h.get]
  size := size_add_of_iff (n := 0) (get_eq_none_iff_keys (congrFun h.get key)) h.size value

/-- **A `Del` ends the agreement.** Without a node of the key, it goes through a null pointer; with one, the
    map has a key less afterwards, and `size()` is what it was. -/
theorem not_agrees_del (h : t.Tracks m) (key : String) (calls : List TableCall) :
    ¬ Agrees t m (.del key :: calls) := by
  rintro ⟨hbefore, t', hcall, hrest⟩
  obtain ⟨⟨done, t''⟩, hdel, hres⟩ := Option.map_eq_some_iff.mp hcall
  obtain rfl : t'' = t' := (Prod.mk.inj hres).2
  have hmem : key ∈ m.keys := by
    by_contra hk
    have hnone : t.get key = none := (get_eq_none_iff_keys (congrFun h.get key)).mpr hk
    rw [delString_eq_none_iff.mpr hnone] at hdel
    exact absurd hdel (by simp)
  have hafter : t''.size.toInt = (m.erase key).keys.card := hrest.counts
  have hbefore : t.size.toInt = m.keys.card := hbefore
  have hcard := Finset.card_erase_add_one hmem
  rw [size_delString hdel, hbefore, Finmap.keys_erase] at hafter
  omega

/-- One more call in front, which returns the same on both sides and is no `Del`. -/
theorem Tracks.agrees_cons_iff (h : t.Tracks m) {t' : HashTable String String} {c : TableCall}
    (hcall : t.call c = some ((c.plain m).1, t')) (hdel : ∀ key, .del key ≠ c)
    (hkeys : (c.plain m).2.keys ∪ TableCall.addedKeys calls = m.keys ∪ TableCall.addedKeys (c :: calls))
    (hnext : Agrees t' (c.plain m).2 calls ↔ (∀ key, .del key ∉ calls) ∧
      ((c.plain m).2.keys ∪ TableCall.addedKeys calls).card < 2 ^ 31) :
    Agrees t m (c :: calls) ↔
      (∀ key, .del key ∉ c :: calls) ∧ (m.keys ∪ TableCall.addedKeys (c :: calls)).card < 2 ^ 31 := by
  rw [hkeys] at hnext
  constructor
  · rintro ⟨-, t'', hcall'', hrest⟩
    obtain rfl : t'' = t' := (Prod.mk.inj (Option.some.inj (hcall''.symm.trans hcall))).2
    obtain ⟨hno, hlt⟩ := hnext.mp hrest
    exact ⟨fun key hmem => (List.mem_cons.mp hmem).elim (hdel key) (hno key), hlt⟩
  · rintro ⟨hno, hlt⟩
    -- the keys that are there already are among those counted in the end
    have hcard : m.keys.card < 2 ^ 31 :=
      Nat.lt_of_le_of_lt (Finset.card_le_card Finset.subset_union_left) hlt
    refine ⟨h.counts_iff.mpr hcard, t', hcall, hnext.mpr ⟨?_, hlt⟩⟩
    exact fun key hmem => hno key (List.mem_cons_of_mem c hmem)

theorem agrees_iff_of_tracks (h : t.Tracks m) :
    Agrees t m calls ↔
      (∀ key, .del key ∉ calls) ∧ (m.keys ∪ TableCall.addedKeys calls).card < 2 ^ 31 := by
  induction calls generalizing t m with
  | nil =>
      have hnil : m.keys ∪ TableCall.addedKeys [] = m.keys := Finset.union_empty _
      rw [hnil]
      exact h.counts_iff.trans (and_iff_right (fun key => List.not_mem_nil)).symm
  | cons c calls ih =>
      cases c with
      | add key value =>
          have hcall : t.call (.add key value) = some (.flag true, (t.add key value).2) := by
            rw [call, fst_add]
          have hadded : TableCall.addedKeys (.add key value :: calls)
              = insert key (TableCall.addedKeys calls) :=
            List.toFinset_cons
          refine h.agrees_cons_iff hcall (fun key' => by simp) ?_ (ih (h.add key value))
          rw [hadded, Finset.union_insert, ← Finset.insert_union, ← keys_insert m key value]
          rfl
      | get key =>
          have hcall : t.call (.get key) = some (.value (m.lookup key), t) := by rw [call, h.get]
          exact h.agrees_cons_iff hcall (fun key' => by simp) rfl (ih h)
      | del key => exact iff_of_false (not_agrees_del h key calls) (fun hno => hno.1 key List.mem_cons_self)

/-- **When the table is a finite map.** For every hash function, every number of buckets and every sequence of
    calls: the table goes through the calls as a finite map does, with no null pointer met, the same results,
    and `size()` the number of keys at every moment, exactly when no call is a `Del` and the keys added are
    so few that an `int` can count them. -/
theorem agrees_iff (hash : String → Nat) (bucketSize : ℕ+) (calls : List TableCall) :
    Agrees (ofBucketSize hash bucketSize) ∅ calls ↔
      (∀ key, .del key ∉ calls) ∧ (TableCall.addedKeys calls).card < 2 ^ 31 := by
  rw [agrees_iff_of_tracks (tracks_ofBucketSize hash bucketSize), Finmap.keys_empty, Finset.empty_union]

/-- `Del` of a key that is not there goes through a null pointer. -/
theorem del_meets_null_node :
    ¬ ∀ (hash : String → Nat) (bucketSize : ℕ+) (calls : List TableCall),
        Agrees (ofBucketSize hash bucketSize) ∅ calls := by
  intro hall
  obtain ⟨-, t', hcall, -⟩ := hall String.length 17 [.del "a"]
  have hnull : (ofBucketSize String.length 17).call (.del "a") = none := rfl
  rw [hnull] at hcall
  exact absurd hcall (by simp)

/-! ## Keys that are not empty -/

/-- No key but the empty one has two nodes in a chain. -/
def Once (t : HashTable String String) : Prop :=
  ∀ i, ((t.bucket i).map HashNode.key).Pairwise (fun a b => a ≠ "" → a ≠ b)

theorem Once.setBucket (h : t.Once) {i : Nat} {chain : List (HashNode String String)}
    (hchain : (chain.map HashNode.key).Pairwise (fun a b => a ≠ "" → a ≠ b)) : (t.setBucket i chain).Once := by
  intro j
  show ((Function.update t.bucket i chain j).map HashNode.key).Pairwise _
  rw [Function.update_apply]
  split
  · exact hchain
  · exact h j

theorem Once.add (h : t.Once) (key value : String) : (t.add key value).2.Once := by
  unfold HashTable.add
  cases hwalk : atNode key (fun p => { p with value := value }) (t.bucket (t.index key)) with
  | some chain =>
      obtain ⟨u, p, w, hchain, -, -, rfl⟩ := exists_of_atNode hwalk
      refine h.setBucket ?_
      have hold := h (t.index key)
      rw [hchain, List.map_append, List.map_cons] at hold
      rw [List.map_append, List.map_cons]
      exact hold
  | none =>
      have hnone := atNode_eq_none_iff.mp hwalk
      refine h.setBucket (List.pairwise_cons.mpr ⟨?_, h _⟩)
      intro b hb _
      obtain ⟨p, hp, rfl⟩ := List.mem_map.mp hb
      exact hnone p hp

theorem Once.del (h : t.Once) {key : String} {done : Bool} {t' : HashTable String String}
    (hdel : t.delString key = some (done, t')) : t'.Once := by
  obtain ⟨-, u, p, w, hchain, -, -, rfl⟩ := exists_of_delString hdel
  have hold := h (t.index key)
  rw [hchain, List.map_append, List.map_cons, List.pairwise_append] at hold
  obtain ⟨hu, hpw, hcross⟩ := hold
  refine h.setBucket ?_
  rw [List.map_append, List.map_cons, List.pairwise_append]
  refine ⟨hu, List.pairwise_cons.mpr ⟨fun b _ hne => absurd rfl hne, (List.pairwise_cons.mp hpw).2⟩, ?_⟩
  intro a ha b hb hne
  rcases List.mem_cons.mp hb with rfl | hb
  · exact hne
  · exact hcross a ha b (List.mem_cons_of_mem _ hb) hne

/-- **On keys that are not empty, `Del` is an update of what `Get` gives.** -/
theorem Once.get_del (h : t.Once) {key : String} {done : Bool} {t' : HashTable String String}
    (hdel : t.delString key = some (done, t')) (hkey : key ≠ "") {key' : String} (hkey' : key' ≠ "") :
    t'.get key' = Function.update t.get key none key' := by
  obtain ⟨-, u, p, w, hchain, hp, hu, rfl⟩ := exists_of_delString hdel
  by_cases hk : key' = key
  · subst hk
    rw [Function.update_self, get_setBucket, if_pos rfl, Option.map_eq_none_iff, find?_skip hkey',
      List.find?_eq_none]
    -- the nodes behind the one that was blanked have other keys
    have hold := h (t.index key')
    rw [hchain, List.map_append, List.map_cons, List.pairwise_append] at hold
    have hw := (List.pairwise_cons.mp hold.2.1).1
    intro q hq
    rcases List.mem_append.mp hq with hq | hq
    · simpa using hu q hq
    · have hne := hw q.key (List.mem_map_of_mem hq) (hp ▸ hkey')
      simpa [hp] using hne
  · rw [Function.update_of_ne hk]
    refine get_setBucket_of_find? ?_
    have hother : key' ≠ p.key := fun he => hk (he.trans hp.symm)
    rw [hchain, find?_skip hother]
    exact find?_skip hkey'

end HashTable

namespace TableCall

/-- The key that the call is about. -/
def key : TableCall → String
  | add key _ => key
  | get key => key
  | del key => key

/-- 1 for a `Del`. -/
def dels : TableCall → Nat
  | del _ => 1
  | _ => 0

/-- A `Del` is of a key that is there. -/
def Present (m : HashKv.Plain String) : TableCall → Prop
  | del key => key ∈ m
  | _ => True

/-- Every `Del` of the calls is of a key that is there. -/
def AllPresent (m : HashKv.Plain String) : List TableCall → Prop
  | [] => True
  | c :: calls => c.Present m ∧ AllPresent (c.plain m).2 calls

/-- What the calls return on a finite map, and the map after them. -/
def plainAll (m : HashKv.Plain String) : List TableCall → List TableResult × HashKv.Plain String
  | [] => ([], m)
  | c :: calls => ((c.plain m).1 :: (plainAll (c.plain m).2 calls).1, (plainAll (c.plain m).2 calls).2)

end TableCall

namespace HashTable

/-- What the calls return on the table, and the table after them. -/
def callAll (t : HashTable String String) : List TableCall → Option (List TableResult × HashTable String String)
  | [] => some ([], t)
  | c :: calls => do
    let res ← t.call c
    let rest ← res.2.callAll calls
    return (res.1 :: rest.1, rest.2)

variable {t : HashTable String String} {m : HashKv.Plain String} {calls : List TableCall} {dels : Nat}

/-- The table holds what the map holds, the empty key apart, and has counted the deleted keys too. -/
structure Follows (t : HashTable String String) (m : HashKv.Plain String) (dels : Nat) : Prop where
  once : t.Once
  get : ∀ key, key ≠ "" → t.get key = m.lookup key
  size : t.size = Int32.ofNat (m.keys.card + dels)

theorem follows_ofBucketSize (hash : String → Nat) (bucketSize : ℕ+) :
    (ofBucketSize hash bucketSize).Follows ∅ 0 where
  once := fun _ => List.Pairwise.nil
  get := fun _ _ => rfl
  size := rfl

theorem Follows.get_eq_none_iff (h : t.Follows m dels) {key : String} (hkey : key ≠ "") :
    t.get key = none ↔ key ∉ m.keys :=
  get_eq_none_iff_keys (h.get key hkey)

/-- An update on both sides. -/
theorem Follows.update (h : t.Follows m dels) (key : String) (value : Option String) {key' : String}
    (hkey' : key' ≠ "") : Function.update t.get key value key' = Function.update m.lookup key value key' := by
  by_cases hk : key' = key
  · rw [hk, Function.update_self, Function.update_self]
  · rw [Function.update_of_ne hk, Function.update_of_ne hk, h.get key' hkey']

/-- **A call on a key that is not empty**, when a `Del` finds its key. -/
theorem Follows.step (h : t.Follows m dels) {c : TableCall} (hkey : c.key ≠ "") (hpresent : c.Present m) :
    ∃ t', t.call c = some ((c.plain m).1, t') ∧ t'.Follows (c.plain m).2 (dels + c.dels) := by
  cases c with
  | add key value =>
      refine ⟨(t.add key value).2, by rw [call, fst_add]; rfl, h.once.add key value, ?_, ?_⟩
      · intro key' hkey'
        rw [get_add, h.update key _ hkey', ← HashKv.Plain.lookup_insert_eq_update]
        rfl
      · exact size_add_of_iff (h.get_eq_none_iff hkey) h.size value
  | get key =>
      have hget : t.get key = m.lookup key := h.get key hkey
      exact ⟨t, by rw [call, hget]; rfl, h⟩
  | del key =>
      have hmem : key ∈ m.keys := Finmap.mem_keys.mpr hpresent
      have hsome : t.delString key ≠ none := by
        intro hnone
        exact (h.get_eq_none_iff hkey).mp (delString_eq_none_iff.mp hnone) hmem
      obtain ⟨⟨done, t'⟩, hdel⟩ := Option.ne_none_iff_exists'.mp hsome
      obtain ⟨rfl, -⟩ := exists_of_delString hdel
      refine ⟨t', by rw [call, hdel]; rfl, h.once.del hdel, ?_, ?_⟩
      · intro key' hkey'
        rw [h.once.get_del hdel hkey hkey', h.update key _ hkey', ← HashKv.Plain.lookup_erase_eq_update]
        rfl
      · -- the counter stays, and what the map has less is counted as deleted
        have hcard := Finset.card_erase_add_one hmem
        show _ = Int32.ofNat ((m.erase key).keys.card + (dels + 1))
        rw [size_delString hdel, h.size, Finmap.keys_erase]
        congr 1
        omega

/-- A `Del` of a key that is not there. -/
theorem Follows.call_eq_none (h : t.Follows m dels) {c : TableCall} (hkey : c.key ≠ "")
    (habsent : ¬ c.Present m) :
    t.call c = none := by
  cases c with
  | add key value => exact absurd trivial habsent
  | get key => exact absurd trivial habsent
  | del key =>
      have hnone : t.get key = none :=
        (h.get_eq_none_iff hkey).mpr (fun hmem => habsent (Finmap.mem_keys.mp hmem))
      rw [call, delString_eq_none_iff.mpr hnone]
      rfl

theorem Follows.callAll (h : t.Follows m dels) (hkeys : ∀ c ∈ calls, c.key ≠ "") :
    (TableCall.AllPresent m calls → ∃ t', t.callAll calls = some ((TableCall.plainAll m calls).1, t') ∧
      t'.Follows (TableCall.plainAll m calls).2 (dels + (calls.map TableCall.dels).sum)) ∧
    (¬ TableCall.AllPresent m calls → t.callAll calls = none) := by
  induction calls generalizing t m dels with
  | nil => exact ⟨fun _ => ⟨t, rfl, h⟩, fun hno => absurd trivial hno⟩
  | cons c calls ih =>
      obtain ⟨hkey, hkeys⟩ := List.forall_mem_cons.mp hkeys
      by_cases hpresent : c.Present m
      · obtain ⟨t', hcall, hfollows⟩ := h.step hkey hpresent
        obtain ⟨hyes, hno⟩ := ih hfollows hkeys
        constructor
        · intro hall
          obtain ⟨t'', hrest, hfollows''⟩ := hyes hall.2
          refine ⟨t'', ?_, ?_⟩
          · simp [HashTable.callAll, TableCall.plainAll, hcall, hrest]
          · rw [List.map_cons, List.sum_cons, ← Nat.add_assoc]
            exact hfollows''
        · intro hall
          have hrest := hno (fun hrest => hall ⟨hpresent, hrest⟩)
          simp [HashTable.callAll, hcall, hrest]
      · refine ⟨fun hall => absurd hall.1 hpresent, fun _ => ?_⟩
        simp [HashTable.callAll, h.call_eq_none hkey hpresent]

/-- **Calls on keys that are not empty.** They go through without a null pointer exactly when every `Del` is of
    a key that is there. Then every call returns what it does on a finite map, and `size()` counts the keys
    that are there and, once more, every deletion. -/
theorem callAll_of_ne_empty (hash : String → Nat) (bucketSize : ℕ+) (hkeys : ∀ c ∈ calls, c.key ≠ "") :
    ((callAll (ofBucketSize hash bucketSize) calls).isSome ↔ TableCall.AllPresent ∅ calls) ∧
    ∀ results t, callAll (ofBucketSize hash bucketSize) calls = some (results, t) →
      results = (TableCall.plainAll ∅ calls).1 ∧
      t.size = Int32.ofNat ((TableCall.plainAll ∅ calls).2.keys.card + (calls.map TableCall.dels).sum) := by
  obtain ⟨hyes, hno⟩ := (follows_ofBucketSize hash bucketSize).callAll hkeys
  by_cases hall : TableCall.AllPresent ∅ calls
  · obtain ⟨t', hrun, hfollows⟩ := hyes hall
    rw [hrun]
    refine ⟨iff_of_true rfl hall, ?_⟩
    intro results t hres
    obtain ⟨rfl, rfl⟩ := Prod.mk.inj (Option.some.inj hres)
    rw [hfollows.size, Nat.zero_add]
    exact ⟨rfl, rfl⟩
  · rw [hno hall]
    exact ⟨iff_of_false (by simp) hall, fun results t hres => absurd hres (by simp)⟩

end HashTable

end ZhiCache
