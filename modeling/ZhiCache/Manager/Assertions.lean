import ZhiCache.Manager.ZsetManager
import ZhiCache.Storage.Searches

/-!
# `Manager.Assertions` — the assertion at the start of `Insert`

`SkipList::Insert` requires that nothing in the list compares equal to the new key, and asserts it of the
node that `FindGreaterOrEqual` returns. `insertAssert` evaluates that assertion; on a well-formed list it
says of the one node it looks at what the requirement says of all of them (`insertAssert_spec`), because
`Contains` looks at the same node.

The comparator looks at scores only and no node is ever removed, so the assertion of an `Add` holds exactly
when the set of its key has never seen the score before (`After.asserts_iff`).
-/

namespace ZhiCache

open Lib

namespace SkipList

variable {Key : Type} [Comparator Key]

/-- The assertion of `Insert`: `x == nullptr || !Equal(key, x->key)`. -/
def insertAssert (l : SkipList Key) (key : Key) : Option Bool := do
  let (x, _) ← l.findGreaterOrEqual key
  return match x with
    | none => true
    | some x => !equal key (l.key x)

/-- The assertion looks at the node that `Contains` looks at. -/
theorem insertAssert_eq (l : SkipList Key) (key : Key) : l.insertAssert key = (l.contains key).map not := by
  unfold insertAssert contains
  cases l.findGreaterOrEqual key with
  | none => rfl
  | some found =>
      obtain ⟨x, prev⟩ := found
      cases x <;> rfl

/-- **The assertion is the documented requirement**: nothing in the list compares equal to the key. -/
theorem Threaded.insertAssert_spec [LawfulComparator Key] {l : SkipList Key} {T : Nat → List NodeId}
    (h : Threaded l T) (key : Key) :
    ∃ b, l.insertAssert key = some b ∧ (b = true ↔ ∀ n ∈ (T 0).tail, compare key (l.key n) ≠ 0) := by
  refine ⟨_, by rw [insertAssert_eq, h.contains_spec]; rfl, ?_⟩
  simp [equal]

end SkipList

open SkipList

namespace ZsetManager

/-- The assertion that a call of `Add` evaluates in `Insert`. -/
def addAssert (m : ZsetManager) (key : String) (score : Int32) (value : String) : Option Bool := do
  let (zset, zsetMap) :=
    match m.zsetMap.get key with
    | some zset => (zset, m.zsetMap)
    | none => m.zsetMap.getOrCreate key (Zset.new m.zsetMap.hash)
  let z ← zsetMap.deref zset
  z.scoreRangeMap.insertAssert ⟨score, value⟩

/-- The assertion of a call; `Del` inserts nothing. -/
def asserts (m : ZsetManager) : ZsetManagerOp → Option Bool
  | .add key score value => m.addAssert key score value
  | .del _ _ => some true

/-- The scores that have been added under the key, one for each `Add`. -/
def scoresAdded (key : String) (ops : List ZsetManagerOp) : List Int32 :=
  ((opsOn key ops).filterMap ZsetOp.node).map ZaddRequest.score

/-- The assertion is evaluated in the set of the key, or in a new one. -/
theorem addAssert_eq (m : ZsetManager) (key : String) (score : Int32) (value : String) :
    m.addAssert key score value
      = ((m.zsetMap.view key).getD (Zset.new m.zsetMap.hash)).scoreRangeMap.insertAssert ⟨score, value⟩ := by
  unfold addAssert
  cases hg : m.zsetMap.get key with
  | some a =>
      obtain ⟨z, hz⟩ := Option.isSome_iff_exists.mp (HashKv.view_isSome hg)
      have hd : m.zsetMap.deref a = some z := (HashKv.deref_of_get hg).trans hz
      simp [hd, hz]
  | none =>
      have hview := congrFun (HashKv.view_getOrCreate m.zsetMap key (Zset.new m.zsetMap.hash)) key
      have hget := HashKv.get_getOrCreate m.zsetMap key (Zset.new m.zsetMap.hash)
      rw [HashKv.view_eq_none_iff.mpr hg, Option.getD_none, Function.update_self,
        ← HashKv.deref_of_get hget] at hview
      simp [HashKv.view_eq_none_iff.mpr hg, hview]

/-- **When the assertion of a call holds**: an `Add` must bring a score that the set of its key has never
    seen. -/
theorem After.asserts_iff {ops : List ZsetManagerOp} {m : ZsetManager} (h : After ops m) (o : ZsetManagerOp) :
    m.asserts o = some true ↔
      ∀ key score value, o = .add key score value → score ∉ scoresAdded key ops := by
  cases o with
  | del key value => simp [asserts]
  | add key score value =>
      obtain ⟨T, hz⟩ := h.getD key m.zsetMap.hash
      obtain ⟨b, hb, hiff⟩ := hz.levels.threaded.insertAssert_spec ⟨score, value⟩
      have hscores : (∀ n ∈ (T 0).tail, compare (⟨score, value⟩ : ZsetSkipListNode)
            (((m.zsetMap.view key).getD (Zset.new m.zsetMap.hash)).scoreRangeMap.key n) ≠ 0) ↔
          score ∉ scoresAdded key ops := by
        have hkeys : ∀ k, k ∈ Zset.plainKeys (opsOn key ops) ↔ k ∈ (opsOn key ops).filterMap ZsetOp.node :=
          fun k => (Zset.plainKeys_perm _).mem_iff
        have hzero : ∀ k : ZsetSkipListNode, compare (⟨score, value⟩ : ZsetSkipListNode) k ≠ 0 ↔
            k.score ≠ score := by
          intro k
          rw [not_iff_not, compare_eq_zero, Int32.lt_iff_toInt_lt, Int32.lt_iff_toInt_lt, ← Int32.toInt_inj]
          show ¬ score.toInt < _ ∧ ¬ _ < score.toInt ↔ _
          omega
        unfold scoresAdded
        rw [← List.forall_mem_map (f := _) (P := fun k => compare (⟨score, value⟩ : ZsetSkipListNode) k ≠ 0),
          hz.keys]
        simp only [hkeys, hzero, List.mem_map, not_exists, not_and]
      show m.addAssert key score value = some true ↔ _
      rw [addAssert_eq, hb, Option.some.injEq, hiff, hscores]
      constructor
      · rintro hno key' score' value' heq
        obtain ⟨rfl, rfl, rfl⟩ := ZsetManagerOp.add.inj heq
        exact hno
      · intro hall
        exact hall key score value rfl

/-! ## Whole runs -/

theorem scoresAdded_snoc (key : String) (ops : List ZsetManagerOp) (o : ZsetManagerOp) :
    scoresAdded key (ops ++ [o]) = scoresAdded key ops ++
      if o.key = key then (o.op.node.map ZaddRequest.score).toList else [] := by
  unfold scoresAdded
  rw [opsOn_snoc]
  by_cases hk : o.key = key
  · rw [if_pos hk, if_pos hk, List.filterMap_append, List.map_append]
    cases o with
    | add k s v => rfl
    | del k v => rfl
  · rw [if_neg hk, if_neg hk, List.append_nil]

/-- One more call keeps the scores distinct exactly when it brings no score its set has seen. -/
theorem nodup_scoresAdded_snoc (ops : List ZsetManagerOp) (o : ZsetManagerOp) :
    (∀ key, (scoresAdded key (ops ++ [o])).Nodup) ↔
      (∀ key, (scoresAdded key ops).Nodup) ∧
        ∀ key score value, o = .add key score value → score ∉ scoresAdded key ops := by
  cases o with
  | del k v =>
      have hsame : ∀ key, scoresAdded key (ops ++ [.del k v]) = scoresAdded key ops := by
        intro key
        rw [scoresAdded_snoc]
        simp [ZsetManagerOp.op, ZsetOp.node]
      simp [hsame]
  | add k s v =>
      have hone : ∀ key, scoresAdded key (ops ++ [.add k s v])
          = scoresAdded key ops ++ if k = key then [s] else [] := fun key => scoresAdded_snoc key ops _
      constructor
      · intro hall
        refine ⟨fun key => ?_, ?_⟩
        · have hk := hall key
          rw [hone] at hk
          exact (List.nodup_append.mp hk).1
        · rintro key score value heq hmem
          obtain ⟨rfl, rfl, rfl⟩ := ZsetManagerOp.add.inj heq
          have hk := hall k
          rw [hone, if_pos rfl] at hk
          exact (List.nodup_append.mp hk).2.2 s hmem s (by simp) rfl
      · rintro ⟨hold, hnew⟩ key
        rw [hone]
        by_cases hk : k = key
        · subst hk
          rw [if_pos rfl]
          refine List.nodup_append.mpr ⟨hold k, by simp, ?_⟩
          rintro a ha b hb rfl
          rw [List.mem_singleton.mp hb] at ha
          exact hnew k s v rfl ha
        · rw [if_neg hk, List.append_nil]
          exact hold key

/-- Every call of a run finds its assertion true. -/
def AssertsHold (hash : String → Nat) (ops : List ZsetManagerOp) : Prop :=
  ∀ ops₁ o ops₂, ops = ops₁ ++ o :: ops₂ → ∃ m, run hash ops₁ = some m ∧ m.asserts o = some true

theorem assertsHold_snoc (hash : String → Nat) (ops : List ZsetManagerOp) (o : ZsetManagerOp) :
    AssertsHold hash (ops ++ [o]) ↔
      AssertsHold hash ops ∧ ∃ m, run hash ops = some m ∧ m.asserts o = some true := by
  constructor
  · intro hall
    refine ⟨?_, hall ops o [] rfl⟩
    rintro ops₁ o' ops₂ rfl
    exact hall ops₁ o' (ops₂ ++ [o]) (by simp)
  · rintro ⟨hold, hlast⟩ ops₁ o' ops₂ hsplit
    -- the call meant is the last one, or one of the earlier ones
    rcases List.eq_nil_or_concat ops₂ with rfl | ⟨ops₃, o₃, rfl⟩
    · obtain ⟨rfl, ho⟩ := List.append_inj' hsplit rfl
      obtain rfl : o = o' := by simpa using ho
      exact hlast
    · have hsplit' : ops ++ [o] = (ops₁ ++ o' :: ops₃) ++ [o₃] := by simpa using hsplit
      exact hold ops₁ o' ops₃ (List.append_inj' hsplit' rfl).1

/-- **When no assertion fails.** In a sequential run of `Add` and `Del`, with any keys, scores and values,
    every call of `Insert` finds its assertion true exactly when no two `Add`s on the same key bring the same
    score. Deleting a member or giving it another score does not help: its node stays in the list. -/
theorem asserts_hold_iff (hash : String → Nat) (ops : List ZsetManagerOp) :
    AssertsHold hash ops ↔ ∀ key, (scoresAdded key ops).Nodup := by
  induction ops using List.reverseRecOn with
  | nil =>
      constructor
      · intro _ key
        exact List.nodup_nil
      · intro _ ops₁ o ops₂ hsplit
        exact absurd hsplit (by simp)
  | append_singleton ops o ih =>
      obtain ⟨m, hm, hafter⟩ := run_spec hash ops
      have hlast : (∃ m, run hash ops = some m ∧ m.asserts o = some true) ↔
          ∀ key score value, o = .add key score value → score ∉ scoresAdded key ops := by
        rw [← hafter.asserts_iff o, hm]
        simp
      rw [assertsHold_snoc, nodup_scoresAdded_snoc, ih, hlast]

/-- Two members of equal score under one key. -/
theorem assert_fails_on_equal_scores :
    ¬ ∀ (hash : String → Nat) (ops : List ZsetManagerOp), AssertsHold hash ops := by
  intro hall
  obtain ⟨m, hm, hassert⟩ := hall String.length [.add "k" 5 "a", .add "k" 5 "b"] [.add "k" 5 "a"]
    (.add "k" 5 "b") []
    rfl
  have hfails : (run String.length [.add "k" 5 "a"]).bind (fun m => m.asserts (.add "k" 5 "b"))
      = some false := by
    decide +kernel
  rw [hm, Option.bind_some, hassert] at hfails
  exact absurd hfails (by decide)

end ZsetManager

end ZhiCache
