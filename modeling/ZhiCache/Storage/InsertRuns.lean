import ZhiCache.Storage.Levels
import ZhiCache.Model.RequestModel
import Mathlib.Data.List.Induction

/-!
# `Storage.InsertRuns` — any sequence of inserts against a plain sorted list

The keys of a sorted set's skip list are `ZaddRequest`s, compared by their scores only. `insertAll` inserts a
list of keys with given heights, one after another. What it builds is compared with a plain list
(`plainInsert`) into which each key is inserted immediately before the first element whose score is not
smaller, and which knows nothing of heights.
-/

namespace ZhiCache

open Lib

/-- The keys of the skip list of a sorted set. -/
abbrev ZsetSkipListNode := ZaddRequest

/-- `Comparator`: by score. -/
instance : Comparator ZsetSkipListNode where
  compare a b := if a.score < b.score then -1 else if b.score < a.score then 1 else 0

theorem compare_lt_zero (a b : ZsetSkipListNode) : compare a b < 0 ↔ a.score < b.score := by
  show (if a.score < b.score then (-1 : Int) else if b.score < a.score then 1 else 0) < 0 ↔ _
  split
  · simp_all
  · split <;> simp_all

theorem compare_eq_zero (a b : ZsetSkipListNode) :
    compare a b = 0 ↔ ¬ a.score < b.score ∧ ¬ b.score < a.score := by
  show (if a.score < b.score then (-1 : Int) else if b.score < a.score then 1 else 0) = 0 ↔ _
  split
  · simp_all
  · split <;> simp_all

theorem SkipList.inOrder_iff {l : SkipList ZsetSkipListNode} {a b : NodeId} :
    l.InOrder a b ↔ (l.key a).score ≤ (l.key b).score := by
  unfold SkipList.InOrder
  rw [compare_lt_zero, Int32.not_lt]

instance : LawfulComparator ZsetSkipListNode where
  asymm a b := by
    rw [compare_lt_zero, compare_lt_zero, Int32.lt_iff_toInt_lt, Int32.lt_iff_toInt_lt]
    omega
  not_lt_trans a b c := by
    simp only [compare_lt_zero, Int32.lt_iff_toInt_lt]
    omega
  eq_zero a b := by rw [compare_lt_zero, compare_lt_zero, compare_eq_zero]

namespace SkipList

variable {Key : Type} [Comparator Key]

/-- Inserting the given keys with the given heights, one after another. -/
def insertAll (l : SkipList Key) (ops : List (Key × Height)) : Option (SkipList Key) :=
  ops.foldlM (fun l op => l.insertWith op.1 op.2) l

/-! ## The keys of level 0 -/

section Keys

/-- A key goes before the first element that does not come before it. -/
theorem orderedInsert_append {α : Type} (r : α → α → Prop) [DecidableRel r] {a : α} {A B : List α}
    (hA : ∀ b ∈ A, ¬ r a b) (hB : ∀ b, B.head? = some b → r a b) :
    (A ++ B).orderedInsert r a = A ++ a :: B := by
  induction A with
  | nil =>
      cases B with
      | nil => rfl
      | cons b B => simp [hB b rfl]
  | cons c A ih =>
      have hc : ¬ r a c := hA c List.mem_cons_self
      simp [hc, ih (fun b hb => hA b (List.mem_cons_of_mem c hb))]

/-- Insertion one by one keeps every key as often as it was inserted. -/
theorem foldl_orderedInsert_perm {α : Type} (r : α → α → Prop) [DecidableRel r] (keys : List α) :
    (keys.foldl (fun sorted key => sorted.orderedInsert r key) []).Perm keys := by
  induction keys using List.reverseRecOn with
  | nil => exact List.Perm.refl _
  | append_singleton keys key ih =>
      rw [List.foldl_append]
      exact (List.perm_orderedInsert _ key _).trans
        ((ih.cons key).trans (List.perm_append_singleton key keys).symm)

variable [LawfulComparator Key] {l : SkipList Key} {T : Nat → List NodeId}

/-- On level 0, linking a node where its key belongs is insertion into the plain list of keys. -/
theorem Levels.keys_insertAfter (h : Levels l T) {key : Key} {p : NodeId}
    (hlast : l.LastBelow T key 0 p) :
    (insertAfter p l.count (T 0)).tail.map (Function.update l.key l.count key)
      = ((T 0).tail.map l.key).orderedInsert (fun a b => ¬ compare b a < 0) key := by
  obtain ⟨A, B, hT, _, hA, hB, _, hins⟩ := h.threaded.cut hlast
  have halloc := h.threaded.alloc 0
  rw [hT] at halloc
  -- the keys of the nodes that were there are unchanged
  have hkeep : ∀ N : List NodeId, (∀ n ∈ N, n < l.count) →
      N.map (Function.update l.key l.count key) = N.map l.key := by
    intro N hN
    exact List.map_congr_left (fun n hn => Function.update_of_ne (Nat.ne_of_lt (hN n hn)) _ _)
  have hAkeep := hkeep A (fun n hn => halloc n (by simp [hn]))
  have hBkeep := hkeep B (fun n hn => halloc n (by simp [hn]))
  have hlow : ∀ b ∈ A.map l.key, ¬ ¬ compare b key < 0 := by
    intro b hb
    obtain ⟨n, hn, rfl⟩ := List.mem_map.mp hb
    exact not_not_intro (hA n hn)
  have hhigh : ∀ b, (B.map l.key).head? = some b → ¬ compare b key < 0 := by
    intro b hb
    obtain ⟨n, hn, rfl⟩ := List.mem_map.mp (List.mem_of_head? hb)
    exact hB n hn
  have hplain := orderedInsert_append (fun a b => ¬ compare b a < 0) (a := key) hlow hhigh
  rw [hins, hT, List.tail_cons, List.tail_cons, List.map_append, List.map_cons, List.map_append, hAkeep,
    hBkeep, hplain, Function.update_self]

end Keys

/-! ## Runs of inserts -/

/-- What `insertAll` has built after the inserts `ops`: node `n + 1` belongs to the `n`-th of them, and
    level 0 holds the keys as the plain list `keys` does. -/
structure Built (ops : List (Key × Height)) (keys : List Key) (l : SkipList Key) (T : Nat → List NodeId) :
    Prop where
  levels : Levels l T
  count : l.count = ops.length + 1
  key : ∀ n op, ops[n]? = some op → l.key (n + 1) = op.1
  height : ∀ n op, ops[n]? = some op → l.height (n + 1) = op.2.1
  maxHeight : l.maxHeight = (ops.map (fun op => op.2.1)).foldl max 1
  keys : (T 0).tail.map l.key = keys

/-- One more insert. -/
theorem Built.insertWith [LawfulComparator Key] {ops : List (Key × Height)} {keys : List Key}
    {l : SkipList Key} {T : Nat → List NodeId} (h : Built ops keys l T) (op : Key × Height) :
    ∃ l' T', l.insertWith op.1 op.2 = some l' ∧
      Built (ops ++ [op]) (keys.orderedInsert (fun a b => ¬ compare b a < 0) op.1) l' T' := by
  obtain ⟨l', p, hres, hlast, hlev, hcount, hkey, hheight, hmax⟩ := h.levels.insertWith op.1 op.2
  refine ⟨l', insertLevels T p l.count op.2.1, hres, ?_⟩
  -- an index of the longer list is an old one, or that of `op`
  have hindex : ∀ n op', (ops ++ [op])[n]? = some op' →
      ops[n]? = some op' ∧ n + 1 ≠ l.count ∨ n + 1 = l.count ∧ op' = op := by
    intro n op' hn
    rcases Nat.lt_trichotomy n ops.length with hlt | heq | hgt
    · rw [List.getElem?_append_left hlt] at hn
      exact Or.inl ⟨hn, by rw [h.count]; omega⟩
    · subst heq
      rw [List.getElem?_append_right (Nat.le_refl _), Nat.sub_self] at hn
      exact Or.inr ⟨h.count.symm, (by simpa using hn.symm)⟩
    · rw [List.getElem?_eq_none (by simp; omega)] at hn
      exact absurd hn (by simp)
  constructor
  case levels => exact hlev
  case count => rw [hcount, h.count, List.length_append, List.length_singleton]
  case key =>
    intro n op' hn
    rw [hkey]
    rcases hindex n op' hn with ⟨hold, hne⟩ | ⟨heq, rfl⟩
    · rw [Function.update_of_ne hne]
      exact h.key n op' hold
    · rw [heq, Function.update_self]
  case height =>
    intro n op' hn
    rw [hheight]
    rcases hindex n op' hn with ⟨hold, hne⟩ | ⟨heq, rfl⟩
    · rw [Function.update_of_ne hne]
      exact h.height n op' hold
    · rw [heq, Function.update_self]
  case maxHeight =>
    rw [hmax, h.maxHeight, List.map_append, List.foldl_append]
    rfl
  case keys =>
    rw [insertLevels_of_lt op.2.2.1, hkey, h.levels.keys_insertAfter (hlast 0 op.2.2.1), h.keys]

/-- Inserting a list of keys one after another never fails, and builds the plain list of their keys. -/
theorem insertAll_built [Inhabited Key] [LawfulComparator Key] (ops : List (Key × Height)) :
    ∃ l T, (new : SkipList Key).insertAll ops = some l ∧
      Built ops ((ops.map Prod.fst).foldl
        (fun keys key => keys.orderedInsert (fun a b => ¬ compare b a < 0) key) []) l T := by
  induction ops using List.reverseRecOn with
  | nil =>
      refine ⟨new, emptyLevels, rfl, new_levels, ?_, fun n op hn => absurd hn (by simp),
        fun n op hn => absurd hn (by simp), ?_, ?_⟩
      · show (new : SkipList Key).count = 1
        unfold new
        rw [foldl_setNext_head]
        rfl
      · show (new : SkipList Key).maxHeight = 1
        unfold new
        rw [foldl_setNext_head]
        rfl
      · rfl
  | append_singleton ops op ih =>
      obtain ⟨l, T, hl, hbuilt⟩ := ih
      obtain ⟨l', T', hl', hbuilt'⟩ := hbuilt.insertWith op
      refine ⟨l', T', ?_, ?_⟩
      · have hl₀ : ops.foldlM (fun l op => l.insertWith op.1 op.2) (new : SkipList Key) = some l := hl
        unfold insertAll
        rw [List.foldlM_append, hl₀]
        simpa using hl'
      · rw [List.map_append, List.foldl_append]
        exact hbuilt'

/-- Drawing a height changes the generator only. -/
theorem Levels.setRnd {l : SkipList Key} {T : Nat → List NodeId} (h : Levels l T) (rnd : Random) :
    Levels { l with rnd := rnd } T :=
  ⟨h.one_le, h.le_max, h.chain, h.first, h.sublist, h.sorted, h.mem, h.head_height, h.tall⟩

/-- `Insert` with the height that the list draws itself: one more key in the plain list. The nodes that were on
    level 0 stay there in their order, with their keys. -/
theorem Levels.insert [LawfulComparator Key] {l : SkipList Key} {T : Nat → List NodeId} (h : Levels l T)
    (key : Key) :
    ∃ l' T', l.insert key = some l' ∧ Levels l' T' ∧
      (T' 0).tail.map l'.key
        = ((T 0).tail.map l.key).orderedInsert (fun a b => ¬ compare b a < 0) key ∧
      (T 0).Sublist (T' 0) ∧ ∀ n ∈ T 0, l'.key n = l.key n := by
  let height := (randomHeight l.rnd).1
  have hdraw := h.setRnd (randomHeight l.rnd).2
  obtain ⟨l', p, hres, hlast, hlev, _, hkey, _, _⟩ := hdraw.insertWith key height
  refine ⟨l', insertLevels T p l.count height.1, (insert_eq l key).trans hres, hlev, ?_, ?_, ?_⟩
  · rw [insertLevels_of_lt height.2.1, hkey]
    exact hdraw.keys_insertAfter (hlast 0 height.2.1)
  · rw [insertLevels_of_lt height.2.1]
    exact sublist_insertAfter (p 0) l.count (T 0)
  · intro n hn
    rw [hkey]
    exact Function.update_of_ne (Nat.ne_of_lt (h.threaded.alloc 0 n hn)) _ _

/-- The plain list: a key goes immediately before the first element whose score is not smaller. -/
def plainInsert (keys : List ZsetSkipListNode) (key : ZsetSkipListNode) : List ZsetSkipListNode :=
  keys.orderedInsert (fun a b => a.score ≤ b.score) key

theorem plainInsert_eq (keys : List ZsetSkipListNode) (key : ZsetSkipListNode) :
    keys.orderedInsert (fun a b => ¬ compare b a < 0) key = plainInsert keys key := by
  have hle : ∀ a b : ZsetSkipListNode, ¬ compare b a < 0 ↔ a.score ≤ b.score := by
    intro a b
    rw [compare_lt_zero, Int32.lt_iff_toInt_lt, Int32.le_iff_toInt_le]
    omega
  unfold plainInsert
  induction keys with
  | nil => rfl
  | cons b keys _ => simp only [List.orderedInsert_cons, hle]

/-- **Any sequence of inserts refines the plain list.** Whatever the heights and the ties, `Insert` never
    fails; level 0 is the plain list of the keys; the node of the `n`-th insert stands exactly once on each
    level below its height and on no other; each level is a sublist of the one below; the height of the list
    is the largest drawn, at least 1, and above it `head_`'s links are null. -/
theorem insertAll_refines_plain (ops : List (ZsetSkipListNode × Height)) :
    ∃ (l : SkipList ZsetSkipListNode) (L : Nat → List NodeId),
      (new : SkipList ZsetSkipListNode).insertAll ops = some l ∧
      (∀ i, i < kMaxHeight → Linked (l.level i) (head :: L i)) ∧
      (L 0).map l.key = (ops.map Prod.fst).foldl plainInsert [] ∧
      (∀ i, ∀ m ∈ L i, 1 ≤ m ∧ m ≤ ops.length) ∧
      (∀ n key height, ops[n]? = some (key, height) → l.key (n + 1) = key ∧
        ∀ i, (L i).count (n + 1) = if i < height.1 then 1 else 0) ∧
      (∀ i, (L (i + 1)).Sublist (L i)) ∧
      l.maxHeight = (ops.map (fun op => op.2.1)).foldl max 1 ∧
      (∀ i, l.maxHeight ≤ i → i < kMaxHeight → l.next head i = some none) := by
  obtain ⟨l, T, hl, hb⟩ := insertAll_built ops
  have hlev := hb.levels
  have hmem : ∀ i m, m ∈ (T i).tail ↔ m ≠ head ∧ m ∈ T i := by
    intro i m
    constructor
    · intro hm
      have hmT := List.mem_of_mem_tail hm
      refine ⟨?_, hmT⟩
      rintro rfl
      have hnd := hlev.threaded.nodup i
      rw [hlev.level_eq (hlev.lt_of_mem hmT)] at hnd
      exact (List.nodup_cons.mp hnd).1 hm
    · rintro ⟨hne, hm⟩
      rw [hlev.level_eq (hlev.lt_of_mem hm)] at hm
      exact (List.mem_cons.mp hm).resolve_left hne
  refine ⟨l, fun i => (T i).tail, hl, ?_, ?_, ?_, ?_, ?_, hb.maxHeight, ?_⟩
  · intro i hi
    rw [← hlev.level_eq hi]
    exact hlev.chain i hi
  · rw [hb.keys]
    simp only [plainInsert_eq]
  · intro i m hm
    obtain ⟨hne, hmT⟩ := (hmem i m).mp hm
    have hlt := ((hlev.mem i m).mp hmT).1
    rw [hb.count] at hlt
    exact ⟨Nat.one_le_iff_ne_zero.mpr hne, Nat.le_of_lt_succ hlt⟩
  · intro n key height hn
    have hlen : n < ops.length := (List.getElem?_eq_some_iff.mp hn).1
    refine ⟨hb.key n _ hn, fun i => ?_⟩
    have hiff : n + 1 ∈ (T i).tail ↔ i < height.1 := by
      rw [hmem i (n + 1), hlev.mem i (n + 1), hb.height n _ hn, hb.count]
      exact ⟨fun hh => hh.2.2, fun hh => ⟨Nat.succ_ne_zero n, Nat.succ_lt_succ hlen, hh⟩⟩
    have hnd : (T i).tail.Nodup := (hlev.threaded.nodup i).tail
    split
    · exact List.count_eq_one_of_mem hnd (hiff.mpr ‹_›)
    · exact List.count_eq_zero.mpr (fun hm => ‹¬ _› (hiff.mp hm))
  · exact fun i => (hlev.sublist i).tail
  · exact fun i hi hk => hlev.head_next_above hi hk

end SkipList

end ZhiCache
