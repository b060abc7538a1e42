import ZhiCache.Storage.InsertRuns
import ZhiCache.Storage.HashKv
import ZhiCache.Lib.WriteLog

/-!
# `Storage.Zset` — the sorted set

A `Zset` keeps two structures: the value map, from each member to its current score, and the skip list, into
which every `Add` inserts a node and from which none is ever removed. A node counts only while the value map
gives its member exactly its score; the others are stale and `Range` skips them.

`Range` is one filter of the keys of level 0 (`range_eq`), for any memory that `Threaded` describes. For a
sequential run the keys of level 0 are the plain list of all pairs ever added and the value map is the replay
of the operations (`run_spec`), so that everything about `Range` after a run is a fact about lists.
-/

namespace ZhiCache

open Lib SkipList

/-- The sorted set. -/
structure Zset where
  valueMap : HashKv Int32
  scoreRangeMap : SkipList ZsetSkipListNode

namespace Zset

/-- The constructor. -/
def new (hash : String → Nat) : Zset := ⟨HashKv.init hash 87719, SkipList.new⟩

/-- `Add`: the value map first, then the skip list. -/
def add (z : Zset) (score : Int32) (value : String) : Option Zset := do
  let valueMap := z.valueMap.add value score
  let scoreRangeMap ← z.scoreRangeMap.insert ⟨score, value⟩
  return ⟨valueMap, scoreRangeMap⟩

/-- `Del`: the value map only. -/
def del (z : Zset) (value : String) : Zset := { z with valueMap := z.valueMap.del value }

/-- The test of the loop of `Range`: the value map gives the node's member exactly the node's score. -/
def isLive (z : Zset) (node : ZsetSkipListNode) : Bool :=
  match z.valueMap.get node.value with
  | none => false
  | some score => z.valueMap.deref score == some node.score

/-- The loop of `Range` from the node the iterator stands at, for a given number of iterations. -/
def rangeLoop (z : Zset) (maxScore : Int32) : Nat → Option NodeId → Option (List ZaddRequest)
  | 0, _ => none
  | _ + 1, none => some []
  | fuel + 1, some n =>
    let node := z.scoreRangeMap.key n
    if node.score ≤ maxScore then do
      let next ← z.scoreRangeMap.iterNext n
      let rest ← z.rangeLoop maxScore fuel next
      return if z.isLive node then node :: rest else rest
    else some []

/-- `Range`. -/
def range (z : Zset) (minScore maxScore : Int32) : Option (List ZaddRequest) := do
  let start ← z.scoreRangeMap.seek ⟨minScore, ""⟩
  z.rangeLoop maxScore (z.scoreRangeMap.count + 1) start

/-- What one iteration of the loop returns: nothing above the maximum, and otherwise what the rest of the loop
    does, behind the node if it is live. -/
theorem rangeLoop_cases {z : Zset} {maxScore : Int32} {fuel : Nat} {n : NodeId} {result : List ZaddRequest}
    (h : z.rangeLoop maxScore (fuel + 1) (some n) = some result) :
    (¬ (z.scoreRangeMap.key n).score ≤ maxScore ∧ result = []) ∨
      ((z.scoreRangeMap.key n).score ≤ maxScore ∧ ∃ next rest, z.scoreRangeMap.iterNext n = some next ∧
        z.rangeLoop maxScore fuel next = some rest ∧
        result = if z.isLive (z.scoreRangeMap.key n) then z.scoreRangeMap.key n :: rest else rest) := by
  unfold rangeLoop at h
  by_cases hle : (z.scoreRangeMap.key n).score ≤ maxScore
  · rw [if_pos hle] at h
    obtain ⟨next, hnext, h⟩ := Option.bind_eq_some_iff.mp h
    obtain ⟨rest, hrest, h⟩ := Option.bind_eq_some_iff.mp h
    exact Or.inr ⟨hle, next, rest, hnext, hrest, (Option.some.inj h).symm⟩
  · rw [if_neg hle] at h
    exact Or.inl ⟨hle, (Option.some.inj h).symm⟩

/-! ## `Range` is a filter of level 0 -/

theorem isLive_iff {z : Zset} {node : ZsetSkipListNode} :
    z.isLive node = true ↔ z.valueMap.view node.value = some node.score := by
  unfold isLive HashKv.view
  cases z.valueMap.get node.value with
  | none => simp
  | some a => simp

/-- What `Range` keeps of the keys of level 0. -/
def keeps (z : Zset) (minScore maxScore : Int32) (node : ZsetSkipListNode) : Bool :=
  decide (minScore ≤ node.score) && (decide (node.score ≤ maxScore) && z.isLive node)

/-- The loop, started anywhere on level 0, keeps the live nodes up to the maximum. It may stop at the first
    score above it because the scores only grow from there. -/
theorem rangeLoop_eq {z : Zset} {maxScore : Int32} (N : List NodeId) (fuel : Nat)
    (hlink : Linked (z.scoreRangeMap.level 0) N) (hsorted : N.Pairwise z.scoreRangeMap.InOrder)
    (hf : N.length < fuel) :
    z.rangeLoop maxScore fuel N.head? = some ((N.map z.scoreRangeMap.key).filter
      (fun node => decide (node.score ≤ maxScore) && z.isLive node)) := by
  induction N generalizing fuel with
  | nil =>
      obtain ⟨f, rfl⟩ := Nat.exists_eq_succ_of_ne_zero (Nat.ne_of_gt hf)
      rfl
  | cons n N ih =>
      obtain ⟨f, rfl⟩ := Nat.exists_eq_succ_of_ne_zero (Nat.ne_of_gt (Nat.lt_of_le_of_lt (Nat.zero_le _) hf))
      obtain ⟨hn, hN⟩ := List.pairwise_cons.mp hsorted
      have hnext : z.scoreRangeMap.iterNext n = some N.head? := Linked.next_eq (u := []) hlink
      have hlen : N.length < f := by simpa using hf
      by_cases hle : (z.scoreRangeMap.key n).score ≤ maxScore
      · have hrest := ih f hlink.tail hN hlen
        simp only [rangeLoop, List.head?_cons, hle, if_true, hnext, List.map_cons, List.filter_cons]
        cases z.isLive (z.scoreRangeMap.key n) <;> simp [hrest]
      · -- nothing behind `n` is within the maximum
        have hrest : ((n :: N).map z.scoreRangeMap.key).filter
            (fun node => decide (node.score ≤ maxScore) && z.isLive node) = [] := by
          rw [List.filter_eq_nil_iff]
          intro node hnode
          obtain ⟨b, hb, rfl⟩ := List.mem_map.mp hnode
          have hge : ¬ (z.scoreRangeMap.key b).score ≤ maxScore := by
            rcases List.mem_cons.mp hb with rfl | hb
            · exact hle
            · exact fun hb' => hle (Int32.le_trans (inOrder_iff.mp (hn b hb)) hb')
          simp [hge]
        rw [hrest]
        simp [rangeLoop, hle]

/-- **`Range` is a filter of the keys of level 0**, in whatever shape the upper levels are. -/
theorem range_eq {z : Zset} {T : Nat → List NodeId} (h : Threaded z.scoreRangeMap T)
    (minScore maxScore : Int32) :
    z.range minScore maxScore
      = some (((T 0).tail.map z.scoreRangeMap.key).filter (z.keeps minScore maxScore)) := by
  obtain ⟨A, B, hT, hseek, hA, hB⟩ := h.seek_spec ⟨minScore, ""⟩
  have hlink : Linked (z.scoreRangeMap.level 0) ((head :: A) ++ B) := by
    have hl := h.linked
    rw [hT] at hl
    exact hl
  have hsorted : (A ++ B).Pairwise z.scoreRangeMap.InOrder := by
    have hs := h.sorted
    rw [hT] at hs
    exact hs
  have hlen : B.length < z.scoreRangeMap.count + 1 := by
    have hle := length_le_of_alloc (h.nodup 0) (h.alloc 0)
    rw [hT] at hle
    simp only [List.length_cons, List.length_append] at hle
    omega
  have hloop : z.rangeLoop maxScore (z.scoreRangeMap.count + 1) B.head?
      = some ((B.map z.scoreRangeMap.key).filter
          (fun node => decide (node.score ≤ maxScore) && z.isLive node)) :=
    rangeLoop_eq B _ hlink.suffix (List.pairwise_append.mp hsorted).2.1 hlen
  have hlow : (A.map z.scoreRangeMap.key).filter (z.keeps minScore maxScore) = [] := by
    rw [List.filter_eq_nil_iff]
    intro node hnode
    obtain ⟨n, hn, rfl⟩ := List.mem_map.mp hnode
    have hlt : (z.scoreRangeMap.key n).score < minScore :=
      (compare_lt_zero (z.scoreRangeMap.key n) ⟨minScore, ""⟩).mp (hA n hn)
    have hge : ¬ minScore ≤ (z.scoreRangeMap.key n).score := Int32.not_le.mpr hlt
    simp [keeps, hge]
  have hhigh : (B.map z.scoreRangeMap.key).filter (z.keeps minScore maxScore)
      = (B.map z.scoreRangeMap.key).filter
          (fun node => decide (node.score ≤ maxScore) && z.isLive node) := by
    refine List.filter_congr ?_
    intro node hnode
    obtain ⟨n, hn, rfl⟩ := List.mem_map.mp hnode
    have hnlt : ¬ (z.scoreRangeMap.key n).score < minScore  :=
      fun hlt => hB n hn ((compare_lt_zero _ _).mpr hlt)
    have hle : minScore ≤ (z.scoreRangeMap.key n).score := Int32.not_lt.mp hnlt
    simp [keeps, hle]
  rw [hT, List.tail_cons, List.map_append, List.filter_append, hlow, hhigh, List.nil_append]
  simp only [range, hseek]
  exact hloop

/-! ## Sequential runs -/

end Zset

/-- An operation on one sorted set. -/
inductive ZsetOp where
  | add (score : Int32) (value : String)
  | del (value : String)
  deriving DecidableEq, Repr

namespace ZsetOp

/-- The member that the operation is about. -/
def value : ZsetOp → String
  | add _ value => value
  | del value => value

/-- What the operation writes into the value map. -/
def write : ZsetOp → String × Option Int32
  | add score value => (value, some score)
  | del value => (value, none)

/-- The node that the operation inserts. -/
def node : ZsetOp → Option ZsetSkipListNode
  | add score value => some ⟨score, value⟩
  | del _ => none

end ZsetOp

namespace Zset

/-- One operation. -/
def apply (z : Zset) : ZsetOp → Option Zset
  | .add score value => z.add score value
  | .del value => some (z.del value)

/-- A run of operations on a new set. -/
def run (hash : String → Nat) (ops : List ZsetOp) : Option Zset := ops.foldlM apply (new hash)

/-- The most recent operation on a member. -/
def mostRecent (ops : List ZsetOp) (value : String) : Option ZsetOp :=
  latest (fun op => decide (op.value = value)) ops

/-- The pairs added, as the plain list that knows nothing of heights or of stale nodes. -/
def plainKeys (ops : List ZsetOp) : List ZsetSkipListNode :=
  (ops.filterMap ZsetOp.node).foldl plainInsert []

/-- The set after the operations `ops`: level 0 holds every pair ever added, the value map the replay of
    the operations. -/
structure After (ops : List ZsetOp) (z : Zset) (T : Nat → List NodeId) : Prop where
  levels : Levels z.scoreRangeMap T
  keys : (T 0).tail.map z.scoreRangeMap.key = plainKeys ops
  scores : z.valueMap.view = replay (fun _ => none) (ops.map ZsetOp.write)

/-- One more operation. -/
theorem After.apply {ops : List ZsetOp} {z : Zset} {T : Nat → List NodeId} (h : After ops z T)
    (op : ZsetOp) : ∃ z' T', z.apply op = some z' ∧ After (ops ++ [op]) z' T' := by
  have hscores : ∀ m : HashKv Int32, m.view = Function.update z.valueMap.view op.write.1 op.write.2 →
      m.view = replay (fun _ => none) ((ops ++ [op]).map ZsetOp.write) := by
    intro m hm
    rw [hm, h.scores, List.map_append, List.map_singleton, replay_snoc]
  cases op with
  | add score value =>
      obtain ⟨l', T', hl', hlev, hkeys, _, _⟩ := h.levels.insert ⟨score, value⟩
      refine ⟨⟨z.valueMap.add value score, l'⟩, T', ?_, hlev, ?_, ?_⟩
      · simp [Zset.apply, Zset.add, hl']
      · rw [hkeys, h.keys, plainInsert_eq]
        simp [plainKeys, ZsetOp.node]
      · exact hscores _ (HashKv.view_add _ _ _)
  | del value =>
      refine ⟨z.del value, T, rfl, h.levels, ?_, hscores _ (HashKv.view_del _ _)⟩
      have hsame : plainKeys (ops ++ [ZsetOp.del value]) = plainKeys ops := by
        unfold plainKeys
        rw [List.filterMap_append, List.foldl_append]
        rfl
      rw [hsame]
      exact h.keys

/-- **Every sequential run succeeds.** -/
theorem run_spec (hash : String → Nat) (ops : List ZsetOp) :
    ∃ z T, run hash ops = some z ∧ After ops z T := by
  induction ops using List.reverseRecOn with
  | nil =>
      refine ⟨new hash, emptyLevels, rfl, new_levels, rfl, ?_⟩
      funext value
      exact HashKv.view_init hash 87719
  | append_singleton ops op ih =>
      obtain ⟨z, T, hz, hafter⟩ := ih
      obtain ⟨z', T', hz', hafter'⟩ := hafter.apply op
      refine ⟨z', T', ?_, hafter'⟩
      have hz₀ : ops.foldlM apply (new hash) = some z := hz
      unfold run
      rw [List.foldlM_append, hz₀]
      simpa using hz'

/-! ## What `Range` returns after a run -/

/-- Every pair added is in the plain list as often as it was added. -/
theorem plainKeys_perm (ops : List ZsetOp) : (plainKeys ops).Perm (ops.filterMap ZsetOp.node) :=
  foldl_orderedInsert_perm _ _

theorem mem_plainKeys {ops : List ZsetOp} {score : Int32} {value : String} :
    ⟨score, value⟩ ∈ plainKeys ops ↔ .add score value ∈ ops := by
  rw [(plainKeys_perm ops).mem_iff, List.mem_filterMap]
  constructor
  · rintro ⟨op, hop, hnode⟩
    cases op with
    | add s v =>
        have hsv : s = score ∧ v = value := by simpa [ZsetOp.node] using hnode
        rw [← hsv.1, ← hsv.2]
        exact hop
    | del v => exact absurd hnode (by simp [ZsetOp.node])
  · exact fun hop => ⟨_, hop, rfl⟩

theorem count_plainKeys (ops : List ZsetOp) (score : Int32) (value : String) :
    (plainKeys ops).count ⟨score, value⟩ = ops.count (.add score value) := by
  rw [(plainKeys_perm ops).count_eq]
  induction ops with
  | nil => rfl
  | cons op ops ih =>
      cases op with
      | add s v => simp [ZsetOp.node, List.count_cons, ih]
      | del v => rw [List.filterMap_cons_none rfl, ih, List.count_cons_of_ne (by simp)]

variable {ops : List ZsetOp} {z : Zset} {T : Nat → List NodeId}

/-- The plain list is sorted by score. -/
theorem After.sorted (h : After ops z T) : (plainKeys ops).Pairwise (fun a b => a.score ≤ b.score) := by
  rw [← h.keys, List.pairwise_map]
  exact h.levels.sorted.imp (fun hab => inOrder_iff.mp hab)

/-- The value map gives a member the score of its most recent `Add`, unless it was deleted since. -/
theorem After.view_iff (h : After ops z T) {score : Int32} {value : String} :
    z.valueMap.view value = some score ↔ mostRecent ops value = some (.add score value) := by
  have hwrite : ∀ op : ZsetOp, op.write.1 = op.value := fun op => by cases op <;> rfl
  have hlatest : latest (fun w : String × Option Int32 => decide (w.1 = value)) (ops.map ZsetOp.write)
      = (mostRecent ops value).map ZsetOp.write := by
    rw [latest_map]
    simp only [hwrite]
    rfl
  rw [h.scores, replay_apply, hlatest]
  cases hop : mostRecent ops value with
  | none => simp
  | some op =>
      have hval : op.value = value := by simpa using (latest_some hop).2
      cases op with
      | add s v =>
          have hv : v = value := hval
          simp [ZsetOp.write, hv]
      | del v => simp [ZsetOp.write]

/-- The pairs that `Range` is to return after the operations `ops`: those that the most recent operation on
    their member added, with a score in the interval. -/
def isCurrent (ops : List ZsetOp) (minScore maxScore : Int32) (node : ZsetSkipListNode) : Bool :=
  decide (minScore ≤ node.score ∧ node.score ≤ maxScore ∧
    mostRecent ops node.value = some (.add node.score node.value))

/-- The specification of `Range` after the operations `ops`. -/
def rangeOf (ops : List ZsetOp) (minScore maxScore : Int32) : List ZaddRequest :=
  (plainKeys ops).filter (isCurrent ops minScore maxScore)

/-- **`Range` meets its specification** after every run. -/
theorem After.range_eq (h : After ops z T) (minScore maxScore : Int32) :
    z.range minScore maxScore = some (rangeOf ops minScore maxScore) := by
  rw [Zset.range_eq h.levels.threaded, h.keys]
  refine congrArg some (List.filter_congr (fun node _ => ?_))
  rw [Bool.eq_iff_iff, isCurrent, decide_eq_true_iff, ← h.view_iff, ← isLive_iff]
  simp [keeps]

/-- `Range` returns exactly the members whose most recent operation added them with a score in the
    interval. -/
theorem mem_rangeOf {minScore maxScore score : Int32} {value : String} :
    ⟨score, value⟩ ∈ rangeOf ops minScore maxScore ↔
      mostRecent ops value = some (.add score value) ∧ minScore ≤ score ∧ score ≤ maxScore := by
  unfold rangeOf isCurrent
  rw [List.mem_filter, decide_eq_true_iff, mem_plainKeys]
  constructor
  · rintro ⟨_, hmin, hmax, hrec⟩
    exact ⟨hrec, hmin, hmax⟩
  · rintro ⟨hrec, hmin, hmax⟩
    exact ⟨(latest_some hrec).1, hmin, hmax, hrec⟩

/-- Cutting a list at a place up to which `low` holds, and from which it fails, before or after filtering. -/
theorem filter_append_filter {α : Type} {L : List α} {low p : α → Bool}
    (h : L.Pairwise (fun a b => low b = true → low a = true)) :
    L.filter (fun x => low x && p x) ++ L.filter (fun x => !low x && p x) = L.filter p := by
  induction L with
  | nil => rfl
  | cons x L ih =>
      obtain ⟨hx, hL⟩ := List.pairwise_cons.mp h
      cases hlow : low x with
      | true =>
          rw [List.filter_cons, List.filter_cons_of_neg (by simp [hlow]), List.filter_cons, hlow, Bool.true_and,
            ← ih hL]
          split <;> rfl
      | false =>
          -- nothing behind `x` is low either
          have hno : ∀ y ∈ x :: L, low y = false := by
            intro y hy
            rcases List.mem_cons.mp hy with rfl | hy
            · exact hlow
            · exact Bool.eq_false_iff.mpr (fun hy' => Bool.eq_false_iff.mp hlow (hx y hy hy'))
          have hleft : (x :: L).filter (fun x => low x && p x) = [] :=
            List.filter_eq_nil_iff.mpr (fun y hy => by simp [hno y hy])
          rw [hleft, List.nil_append]
          exact List.filter_congr (fun y hy => by simp [hno y hy])

/-- The pairs up to `b` and those above it make up the whole: the plain list is sorted, so the former all come
    first. -/
theorem After.rangeOf_append (h : After ops z T) {a b c : Int32} (hab : a ≤ b) (hbc : b < c) :
    rangeOf ops a b ++ rangeOf ops (b + 1) c = rangeOf ops a c := by
  rw [Int32.le_iff_toInt_le] at hab
  rw [Int32.lt_iff_toInt_lt] at hbc
  -- `b` is below another score, so that `b + 1` does not wrap
  have hb : (b + 1).toInt = b.toInt + 1 := by
    have hmax := Int32.toInt_lt c
    have hmin := Int32.le_toInt b
    rw [Int32.toInt_add]
    exact Int.bmod_eq_of_le (by simp; omega) (by simp; omega)
  have hcut : (plainKeys ops).Pairwise
      (fun x y => decide (y.score ≤ b) = true → decide (x.score ≤ b) = true) := by
    refine h.sorted.imp ?_
    intro x y hxy hy
    exact decide_eq_true (Int32.le_trans hxy (of_decide_eq_true hy))
  have hlow : ∀ node, isCurrent ops a b node = (decide (node.score ≤ b) && isCurrent ops a c node) := by
    intro node
    rw [Bool.eq_iff_iff, Bool.and_eq_true]
    simp only [isCurrent, decide_eq_true_iff, Int32.le_iff_toInt_le]
    constructor
    · rintro ⟨hmin, hmax, hrec⟩
      exact ⟨hmax, hmin, by omega, hrec⟩
    · rintro ⟨hmax, hmin, _, hrec⟩
      exact ⟨hmin, hmax, hrec⟩
  have hhigh : ∀ node, isCurrent ops (b + 1) c node = (!decide (node.score ≤ b) && isCurrent ops a c node) := by
    intro node
    rw [Bool.eq_iff_iff, Bool.and_eq_true, Bool.not_eq_true', decide_eq_false_iff_not]
    simp only [isCurrent, decide_eq_true_iff, Int32.le_iff_toInt_le, hb]
    constructor
    · rintro ⟨hmin, hmax, hrec⟩
      exact ⟨by omega, by omega, hmax, hrec⟩
    · rintro ⟨habove, _, hmax, hrec⟩
      exact ⟨by omega, hmax, hrec⟩
  unfold rangeOf
  rw [List.filter_congr (fun node _ => hlow node), List.filter_congr (fun node _ => hhigh node)]
  exact filter_append_filter hcut

/-- **Adjacent ranges concatenate.** After any run, `Range` over an interval is `Range` over its lower part
    followed by `Range` over its upper part, wherever it is cut, and `Range` over an empty interval is empty. -/
theorem range_append_range (hash : String → Nat) (ops : List ZsetOp) :
    ∃ z, run hash ops = some z ∧
      (∀ a b c : Int32, a ≤ b → b < c → ∃ lower upper, z.range a b = some lower ∧
        z.range (b + 1) c = some upper ∧ z.range a c = some (lower ++ upper)) ∧
      ∀ a b : Int32, b < a → z.range a b = some [] := by
  obtain ⟨z, T, hz, hafter⟩ := run_spec hash ops
  refine ⟨z, hz, fun a b c hab hbc => ?_, fun a b hba => ?_⟩
  · refine ⟨_, _, hafter.range_eq a b, hafter.range_eq (b + 1) c, ?_⟩
    rw [hafter.range_eq a c, hafter.rangeOf_append hab hbc]
  · rw [hafter.range_eq a b]
    refine congrArg some (List.filter_eq_nil_iff.mpr ?_)
    intro node _ hcur
    obtain ⟨hmin, hmax, _⟩ := of_decide_eq_true hcur
    exact Int32.not_lt.mpr (Int32.le_trans hmin hmax) hba

theorem After.rangeOf_sorted (h : After ops z T) (minScore maxScore : Int32) :
    (rangeOf ops minScore maxScore).Pairwise (fun a b => a.score ≤ b.score) :=
  h.sorted.filter _

/-- **When `Range` repeats no member.** After any run, and for any interval, no member is returned more than
    once exactly when every member with a current score in the interval was added with that score only once.
    A node is recognised as current by its score alone, so every earlier `Add` of a member with the score it
    has now left a node that is taken for current again. -/
theorem range_nodup_iff (hash : String → Nat) (ops : List ZsetOp) (minScore maxScore : Int32) :
    ∃ z L, run hash ops = some z ∧ z.range minScore maxScore = some L ∧
      ((L.map ZaddRequest.value).Nodup ↔
        ∀ score value, mostRecent ops value = some (.add score value) → minScore ≤ score →
          score ≤ maxScore → ops.count (.add score value) = 1) := by
  obtain ⟨z, T, hz, hafter⟩ := run_spec hash ops
  refine ⟨z, _, hz, hafter.range_eq minScore maxScore, ?_⟩
  -- a pair that is returned occurs in the answer as often as it was added
  have hcount : ∀ score value, ⟨score, value⟩ ∈ rangeOf ops minScore maxScore →
      (rangeOf ops minScore maxScore).count ⟨score, value⟩ = ops.count (.add score value) := by
    intro score value hmem
    unfold rangeOf
    rw [List.count_filter (List.mem_filter.mp hmem).2, count_plainKeys]
  constructor
  · intro hnd score value hrec hmin hmax
    have hmem := mem_rangeOf.mpr ⟨hrec, hmin, hmax⟩
    rw [← hcount score value hmem]
    exact List.count_eq_one_of_mem (List.Nodup.of_map _ hnd) hmem
  · intro honce
    have hnd : (rangeOf ops minScore maxScore).Nodup := by
      rw [List.nodup_iff_count_le_one]
      rintro ⟨score, value⟩
      by_cases hmem : ⟨score, value⟩ ∈ rangeOf ops minScore maxScore
      · obtain ⟨hrec, hmin, hmax⟩ := mem_rangeOf.mp hmem
        rw [hcount score value hmem, honce score value hrec hmin hmax]
      · rw [List.count_eq_zero.mpr hmem]
        exact Nat.zero_le 1
    refine List.Nodup.map_on ?_ hnd
    rintro ⟨s, v⟩ hx ⟨s', v'⟩ hy hv
    have hv' : v = v' := hv
    subst hv'
    -- both scores are the current one
    have hs := (mem_rangeOf.mp hx).1.symm.trans (mem_rangeOf.mp hy).1
    have hss : s = s' := by simpa using hs
    rw [hss]

/-- Adding a member again with the score it already has makes `Range` return it twice. -/
theorem range_repeats_readded_member :
    ¬ ∀ (hash : String → Nat) (ops : List ZsetOp) (minScore maxScore : Int32) (z : Zset)
        (L : List ZaddRequest), run hash ops = some z → z.range minScore maxScore = some L →
        (L.map ZaddRequest.value).Nodup := by
  intro hall
  have hrun : (run String.length [.add 5 "a", .add 5 "a"]).bind (fun z => z.range 0 10)
      = some [⟨5, "a"⟩, ⟨5, "a"⟩] := by decide +kernel
  obtain ⟨z, hz, hL⟩ := Option.bind_eq_some_iff.mp hrun
  exact absurd (hall _ _ _ _ z _ hz hL) (by decide)

end Zset

end ZhiCache
