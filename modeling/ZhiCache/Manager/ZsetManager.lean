import ZhiCache.Storage.Zset

/-!
# `Manager.ZsetManager` — all sorted sets of the server

`ZsetManager` maps a key to its sorted set. `Add` creates the set of a key that has none; `Del` and `Range`
do not, so the set of a key exists from its first `Add` on. The map holds shared pointers to sets that
`Zset::Add` and `Zset::Del` modify in place; here such a call is a write through the pointer that the map
returned.

The operations on one key reach one set and no other (`add_spec`, `del_spec`), so a run leaves under each
key what the operations on that key alone make of a new set (`After`, `run_spec`).
-/

namespace ZhiCache

open Lib SkipList

/-- `ZsetManager`. -/
structure ZsetManager where
  zsetMap : HashKv Zset

namespace ZsetManager

/-- `Init`. -/
def init (hash : String → Nat) : ZsetManager := ⟨HashKv.init hash 87719⟩

/-- `Add`: the set is looked up, and created when there is none. -/
def add (m : ZsetManager) (key : String) (score : Int32) (value : String) : Option ZsetManager := do
  let (zset, zsetMap) :=
    match m.zsetMap.get key with
    | some zset => (zset, m.zsetMap)
    | none => m.zsetMap.getOrCreate key (Zset.new m.zsetMap.hash)
  let z ← zsetMap.deref zset
  let z ← z.add score value
  return ⟨zsetMap.write zset z⟩

/-- `Range`: whether the key has a set, and what that set returns. -/
def range (m : ZsetManager) (key : String) (minScore maxScore : Int32) : Option (Bool × List ZaddRequest) :=
  match m.zsetMap.get key with
  | none => some (false, [])
  | some zset => do
    let z ← m.zsetMap.deref zset
    let result ← z.range minScore maxScore
    return (true, result)

/-- `Del`. -/
def del (m : ZsetManager) (key value : String) : Option ZsetManager :=
  match m.zsetMap.get key with
  | none => some m
  | some zset => do
    let z ← m.zsetMap.deref zset
    return ⟨m.zsetMap.write zset (z.del value)⟩

/-! ## One call, seen on the plain map from keys to sets -/

variable {m : ZsetManager} {key : String}

/-- `Add` adds to the key's set, or to a new one, and touches no other set. -/
theorem add_spec {score : Int32} {value : String} {z' : Zset}
    (h : ((m.zsetMap.view key).getD (Zset.new m.zsetMap.hash)).add score value = some z') :
    ∃ m', m.add key score value = some m' ∧
      m'.zsetMap.view = Function.update m.zsetMap.view key (some z') := by
  cases hg : m.zsetMap.get key with
  | some a =>
      obtain ⟨z, hz⟩ := Option.isSome_iff_exists.mp (HashKv.view_isSome hg)
      have hd : m.zsetMap.deref a = some z := (HashKv.deref_of_get hg).trans hz
      rw [hz, Option.getD_some] at h
      refine ⟨⟨m.zsetMap.write a z'⟩, ?_, HashKv.view_write hg⟩
      simp [add, hg, hd, h]
  | none =>
      have hview := HashKv.view_getOrCreate m.zsetMap key (Zset.new m.zsetMap.hash)
      have hget := HashKv.get_getOrCreate m.zsetMap key (Zset.new m.zsetMap.hash)
      obtain ⟨a, zsetMap, hc⟩ :
          ∃ a zsetMap, m.zsetMap.getOrCreate key (Zset.new m.zsetMap.hash) = (a, zsetMap) := ⟨_, _, rfl⟩
      rw [hc] at hview hget
      rw [HashKv.view_eq_none_iff.mpr hg, Option.getD_none] at h hview
      have hd : zsetMap.deref a = some (Zset.new m.zsetMap.hash) := by
        rw [HashKv.deref_of_get hget, hview, Function.update_self]
      refine ⟨⟨zsetMap.write a z'⟩, ?_, ?_⟩
      · simp [add, hg, hc, hd, h]
      · show (zsetMap.write a z').view = _
        rw [HashKv.view_write hget, hview, Function.update_idem]

/-- `Del` deletes from the key's set, if there is one, and touches no other set. -/
theorem del_spec (m : ZsetManager) (key value : String) :
    ∃ m', m.del key value = some m' ∧
      m'.zsetMap.view
        = Function.update m.zsetMap.view key ((m.zsetMap.view key).map (fun z => z.del value)) := by
  cases hg : m.zsetMap.get key with
  | some a =>
      obtain ⟨z, hz⟩ := Option.isSome_iff_exists.mp (HashKv.view_isSome hg)
      have hd : m.zsetMap.deref a = some z := (HashKv.deref_of_get hg).trans hz
      refine ⟨⟨m.zsetMap.write a (z.del value)⟩, ?_, ?_⟩
      · simp [del, hg, hd]
      · rw [hz, Option.map_some]
        exact HashKv.view_write hg
  | none =>
      have hnone := HashKv.view_eq_none_iff.mpr hg
      refine ⟨m, by simp [del, hg], ?_⟩
      rw [hnone, Option.map_none, ← hnone, Function.update_eq_self]

/-- `Del` keeps every pointer to a set, and deletes from the set of its key only. -/
theorem del_deref {m' : ZsetManager} {key' value : String} (h : m.del key' value = some m') {zset : Addr}
    {z : Zset} (hg : m.zsetMap.get key = some zset) (hz : m.zsetMap.deref zset = some z) :
    m'.zsetMap.get key = some zset ∧
      m'.zsetMap.deref zset = some (if key' = key then z.del value else z) := by
  unfold del at h
  cases hg' : m.zsetMap.get key' with
  | none =>
      rw [hg'] at h
      have hk : key' ≠ key := by
        rintro rfl
        exact absurd (hg'.symm.trans hg) (by simp)
      rw [← Option.some.inj h, if_neg hk]
      exact ⟨hg, hz⟩
  | some zset' =>
      rw [hg'] at h
      obtain ⟨z', hz', h⟩ := Option.bind_eq_some_iff.mp h
      rw [← Option.some.inj h]
      refine ⟨HashKv.get_write.trans hg, (HashKv.deref_write (HashKv.get_lt hg')).trans ?_⟩
      by_cases hk : key' = key
      · subst hk
        have hsame : zset = zset' := Option.some.inj (hg.symm.trans hg')
        subst hsame
        rw [if_pos rfl, if_pos rfl, Option.some.inj (hz.symm.trans hz')]
      · have hne : zset ≠ zset' := by
          rintro rfl
          exact hk (HashKv.get_injective hg' hg)
        rw [if_neg hne, if_neg hk]
        exact hz

/-- `Range` asks the key's set. -/
theorem range_spec (m : ZsetManager) (key : String) (minScore maxScore : Int32) :
    m.range key minScore maxScore
      = match m.zsetMap.view key with
        | none => some (false, [])
        | some z => (z.range minScore maxScore).map (fun result => (true, result)) := by
  unfold range
  cases hg : m.zsetMap.get key with
  | none => rw [HashKv.view_eq_none_iff.mpr hg]
  | some a =>
      obtain ⟨z, hz⟩ := Option.isSome_iff_exists.mp (HashKv.view_isSome hg)
      have hd : m.zsetMap.deref a = some z := (HashKv.deref_of_get hg).trans hz
      rw [hz]
      cases hr : z.range minScore maxScore with
      | none => simp [hd, hr]
      | some L => simp [hd, hr]

end ZsetManager

/-! ## Runs -/

/-- A call of `Add` or of `Del`. -/
inductive ZsetManagerOp where
  | add (key : String) (score : Int32) (value : String)
  | del (key value : String)
  deriving DecidableEq, Repr

namespace ZsetManagerOp

/-- The key whose set is meant. -/
def key : ZsetManagerOp → String
  | add key _ _ => key
  | del key _ => key

/-- What is done to that set. -/
def op : ZsetManagerOp → ZsetOp
  | add _ score value => .add score value
  | del _ value => .del value

end ZsetManagerOp

namespace ZsetManager

/-- One call. -/
def apply (m : ZsetManager) : ZsetManagerOp → Option ZsetManager
  | .add key score value => m.add key score value
  | .del key value => m.del key value

/-- A run of calls on a new manager. -/
def run (hash : String → Nat) (ops : List ZsetManagerOp) : Option ZsetManager := ops.foldlM apply (init hash)

/-- The most recent call on a member of a key's set. -/
def mostRecent (ops : List ZsetManagerOp) (key value : String) : Option ZsetManagerOp :=
  latest (fun o => decide (o.key = key ∧ o.op.value = value)) ops

/-- The calls on one key, as operations on its set. -/
def opsOn (key : String) (ops : List ZsetManagerOp) : List ZsetOp :=
  (ops.filter (fun o => o.key = key)).map ZsetManagerOp.op

/-- Whether the key has been added to. -/
def Added (key : String) (ops : List ZsetManagerOp) : Prop := ∃ score value, .add key score value ∈ ops

theorem opsOn_snoc (key : String) (ops : List ZsetManagerOp) (o : ZsetManagerOp) :
    opsOn key (ops ++ [o]) = if o.key = key then opsOn key ops ++ [o.op] else opsOn key ops := by
  unfold opsOn
  rw [List.filter_append]
  by_cases ho : o.key = key <;> simp [ho]

/-- The calls on a key do not change when the others are left out. -/
theorem opsOn_filter (key : String) (ops : List ZsetManagerOp) :
    opsOn key (ops.filter (fun o => o.key = key)) = opsOn key ops := by
  unfold opsOn
  rw [List.filter_filter]
  simp

theorem added_iff {key : String} {ops : List ZsetManagerOp} :
    Added key ops ↔ ∃ score value, ZsetOp.add score value ∈ opsOn key ops := by
  unfold Added opsOn
  refine exists_congr fun score => exists_congr fun value => ?_
  rw [List.mem_map]
  constructor
  · exact fun h => ⟨_, List.mem_filter.mpr ⟨h, by simp [ZsetManagerOp.key]⟩, rfl⟩
  · rintro ⟨o, ho, hop⟩
    obtain ⟨hmem, hkey⟩ := List.mem_filter.mp ho
    cases o with
    | del k v => exact absurd hop (by simp [ZsetManagerOp.op])
    | add k s v =>
        have hk : k = key := of_decide_eq_true hkey
        have hsv : s = score ∧ v = value := by simpa [ZsetManagerOp.op] using hop
        rw [← hk, ← hsv.1, ← hsv.2]
        exact hmem

/-- The most recent call on a member is the most recent operation on it among those on its key. -/
theorem mostRecent_opsOn (key value : String) (ops : List ZsetManagerOp) :
    Zset.mostRecent (opsOn key ops) value = (mostRecent ops key value).map ZsetManagerOp.op := by
  unfold Zset.mostRecent opsOn mostRecent
  rw [latest_map, latest_filter]
  simp only [Bool.decide_and]

/-! ## What a run leaves under each key -/

/-- The manager after the calls `ops`: a key has a set once it has been added to, and that set has seen the
    calls on the key. -/
def After (ops : List ZsetManagerOp) (m : ZsetManager) : Prop :=
  ∀ key, (m.zsetMap.view key = none ∧ ¬ Added key ops) ∨
    ∃ z T, m.zsetMap.view key = some z ∧ Added key ops ∧ Zset.After (opsOn key ops) z T

/-- Deletions from a set that does not exist yet leave nothing: the set that the first `Add` creates is as
    one that has seen them. -/
theorem after_new {ops : List ZsetOp} (hash : String → Nat) (h : ∀ score value, .add score value ∉ ops) :
    Zset.After ops (Zset.new hash) emptyLevels := by
  have hdel : ∀ op ∈ ops, op.node = none ∧ op.write.2 = none := by
    intro op hop
    cases op with
    | add s v => exact absurd hop (h s v)
    | del v => exact ⟨rfl, rfl⟩
  refine ⟨new_levels, ?_, ?_⟩
  · have hnil : ops.filterMap ZsetOp.node = [] := List.filterMap_eq_nil_iff.mpr (fun op hop => (hdel op hop).1)
    unfold Zset.plainKeys
    rw [hnil]
    rfl
  · funext value
    have hview : (Zset.new hash).valueMap.view value = none := HashKv.view_init hash 87719
    rw [hview]
    rcases latest_key_cases (ops.map ZsetOp.write) value with ⟨-, hno⟩ | ⟨o, hl, hmem⟩
    · rw [replay_of_not_mem hno]
    · obtain ⟨op, hop, hw⟩ := List.mem_map.mp hmem
      have ho : o = none := (congrArg Prod.snd hw).symm.trans (hdel op hop).2
      rw [replay_of_latest hl, ho]

/-- The set that a call on the key works on has seen the earlier calls on it. -/
theorem After.getD {ops : List ZsetManagerOp} {m : ZsetManager} (h : After ops m) (key : String)
    (hash : String → Nat) : ∃ T, Zset.After (opsOn key ops) ((m.zsetMap.view key).getD (Zset.new hash)) T := by
  rcases h key with ⟨hview, hno⟩ | ⟨z, T, hview, _, hz⟩
  · rw [hview]
    exact ⟨emptyLevels, after_new hash (fun s v hop => hno (added_iff.mpr ⟨s, v, hop⟩))⟩
  · rw [hview]
    exact ⟨T, hz⟩

theorem added_snoc {key : String} {ops : List ZsetManagerOp} {o : ZsetManagerOp} :
    Added key (ops ++ [o]) ↔ Added key ops ∨ ∃ score value, o = .add key score value := by
  unfold Added
  simp only [List.mem_append, List.mem_singleton, exists_or, eq_comm (b := o)]

/-- A call leaves the other keys as they are. -/
theorem After.other {ops : List ZsetManagerOp} {m m' : ZsetManager} (h : After ops m) {o : ZsetManagerOp}
    {key : String} (hkey : key ≠ o.key) (hview : m'.zsetMap.view key = m.zsetMap.view key) :
    (m'.zsetMap.view key = none ∧ ¬ Added key (ops ++ [o])) ∨
      ∃ z T, m'.zsetMap.view key = some z ∧ Added key (ops ++ [o]) ∧
        Zset.After (opsOn key (ops ++ [o])) z T := by
  have hadd : Added key (ops ++ [o]) ↔ Added key ops := by
    rw [added_snoc]
    refine or_iff_left ?_
    rintro ⟨s, v, rfl⟩
    exact hkey rfl
  rw [hview, opsOn_snoc, if_neg (fun e => hkey e.symm), hadd]
  exact h key

/-- **One more call.** -/
theorem After.apply {ops : List ZsetManagerOp} {m : ZsetManager} (h : After ops m) (o : ZsetManagerOp) :
    ∃ m', m.apply o = some m' ∧ After (ops ++ [o]) m' := by
  cases o with
  | add key score value =>
      obtain ⟨T, hz⟩ := h.getD key m.zsetMap.hash
      obtain ⟨z', T', hz', hafter⟩ := hz.apply (.add score value)
      obtain ⟨m', hm', hview⟩ := add_spec hz'
      refine ⟨m', hm', fun key' => ?_⟩
      by_cases hk : key' = key
      · subst hk
        refine Or.inr ⟨z', T', ?_, added_snoc.mpr (Or.inr ⟨score, value, rfl⟩), ?_⟩
        · rw [hview, Function.update_self]
        · have hops : opsOn key' (ops ++ [.add key' score value]) = opsOn key' ops ++ [.add score value] :=
            (opsOn_snoc _ _ _).trans (if_pos rfl)
          rw [hops]
          exact hafter
      · exact h.other hk (by rw [hview, Function.update_of_ne hk])
  | del key value =>
      obtain ⟨m', hm', hview⟩ := del_spec m key value
      refine ⟨m', hm', fun key' => ?_⟩
      by_cases hk : key' = key
      · subst hk
        have hadd : Added key' (ops ++ [.del key' value]) ↔ Added key' ops := by simp [added_snoc]
        have hops : opsOn key' (ops ++ [.del key' value]) = opsOn key' ops ++ [.del value] :=
          (opsOn_snoc _ _ _).trans (if_pos rfl)
        rw [hview, Function.update_self, hops, hadd]
        rcases h key' with ⟨hnone, hno⟩ | ⟨z, T, hsome, hyes, hz⟩
        · exact Or.inl ⟨by rw [hnone]; rfl, hno⟩
        · obtain ⟨z', T', hz', hafter⟩ := hz.apply (.del value)
          have hdel : z.del value = z' := Option.some.inj hz'
          refine Or.inr ⟨z', T', ?_, hyes, hafter⟩
          rw [hsome, Option.map_some, hdel]
      · exact h.other hk (by rw [hview, Function.update_of_ne hk])

/-- **Every sequential run succeeds.** -/
theorem run_spec (hash : String → Nat) (ops : List ZsetManagerOp) :
    ∃ m, run hash ops = some m ∧ After ops m := by
  induction ops using List.reverseRecOn with
  | nil =>
      refine ⟨init hash, rfl, fun key => Or.inl ⟨HashKv.view_init hash 87719, ?_⟩⟩
      rintro ⟨score, value, hmem⟩
      exact absurd hmem List.not_mem_nil
  | append_singleton ops o ih =>
      obtain ⟨m, hm, hafter⟩ := ih
      obtain ⟨m', hm', hafter'⟩ := hafter.apply o
      refine ⟨m', ?_, hafter'⟩
      have hm₀ : ops.foldlM apply (init hash) = some m := hm
      unfold run
      rw [List.foldlM_append, hm₀]
      simpa using hm'

/-- What `Range` returns, by the calls on the key alone. -/
theorem After.range_eq {ops : List ZsetManagerOp} {m : ZsetManager} (h : After ops m) (key : String)
    (minScore maxScore : Int32) [Decidable (Added key ops)] :
    m.range key minScore maxScore
      = some (if Added key ops then (true, Zset.rangeOf (opsOn key ops) minScore maxScore)
        else (false, [])) := by
  rw [range_spec]
  rcases h key with ⟨hnone, hno⟩ | ⟨z, T, hsome, hyes, hz⟩
  · rw [hnone, if_neg hno]
  · rw [hsome, if_pos hyes]
    simp only [hz.range_eq, Option.map_some]

open Classical in
/-- **`Range` after any run of `Add` and `Del`.** It reports no set exactly when the key was never added to.
    Otherwise it returns, in order of their scores, exactly the members whose most recent call was an `Add`
    with a score in the interval; the calls on other keys make no difference. -/
theorem range_after_run (hash : String → Nat) (ops : List ZsetManagerOp) :
    ∃ m, run hash ops = some m ∧ ∀ (key : String) (minScore maxScore : Int32),
      ∃ found L, m.range key minScore maxScore = some (found, L) ∧
        ((found, L) = (false, []) ↔ ∀ score value, .add key score value ∉ ops) ∧
        ((∃ score value, .add key score value ∈ ops) →
          found = true ∧ L.Pairwise (fun a b => a.score ≤ b.score) ∧
          ∀ score value, ⟨score, value⟩ ∈ L ↔
            mostRecent ops key value = some (.add key score value) ∧ minScore ≤ score ∧ score ≤ maxScore) ∧
        ∃ m', run hash (ops.filter (fun o => o.key = key)) = some m' ∧
          m'.range key minScore maxScore = some (found, L) := by
  obtain ⟨m, hm, hafter⟩ := run_spec hash ops
  refine ⟨m, hm, fun key minScore maxScore => ?_⟩
  obtain ⟨m', hm', hafter'⟩ := run_spec hash (ops.filter (fun o => o.key = key))
  have hadd : Added key (ops.filter (fun o => o.key = key)) ↔ Added key ops := by
    rw [added_iff, added_iff, opsOn_filter]
  have hrange := hafter.range_eq key minScore maxScore
  have hrange' := hafter'.range_eq key minScore maxScore
  rw [opsOn_filter] at hrange'
  simp only [hadd] at hrange'
  by_cases hyes : Added key ops
  · rw [if_pos hyes] at hrange hrange'
    refine ⟨true, _, hrange, ?_, fun _ => ⟨rfl, ?_, fun score value => ?_⟩, m', hm', hrange'⟩
    · refine iff_of_false (by simp) (fun hno => ?_)
      obtain ⟨score, value, hmem⟩ := hyes
      exact hno score value hmem
    · obtain ⟨T, hz⟩ := hafter.getD key hash
      exact hz.rangeOf_sorted minScore maxScore
    · rw [Zset.mem_rangeOf, mostRecent_opsOn]
      refine and_congr_left' ?_
      -- the operation determines the call, since the key is known
      cases hrec : mostRecent ops key value with
      | none => simp
      | some o =>
          have ho : o.key = key ∧ o.op.value = value := of_decide_eq_true (latest_some hrec).2
          cases o with
          | add k s v =>
              have hk : k = key := ho.1
              simp [ZsetManagerOp.op, hk]
          | del k v => simp [ZsetManagerOp.op]
  · rw [if_neg hyes] at hrange hrange'
    refine ⟨false, _, hrange, ?_, fun h => absurd h hyes, m', hm', hrange'⟩
    exact iff_of_true rfl (fun score value hmem => hyes ⟨score, value, hmem⟩)

end ZsetManager

end ZhiCache
