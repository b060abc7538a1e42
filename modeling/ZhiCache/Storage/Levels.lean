import ZhiCache.Storage.Threaded
import Mathlib.Data.List.Sort

/-!
# `Storage.Levels` — the skip list between two sequential operations

`Levels l T` is the full shape of a skip list that one writer at a time has built: every level is a linked
list that starts at `head_`, each level a sublist of the one below, and a node stands on exactly the levels
below its height. It implies `Threaded`, which is all that a search needs.

The proof of `Insert` goes through a closed form of its last loop (`linkLoop_spec`): on each level below the
new node's height two slots change, and nothing else does. What this makes of the level lists is then one
splice per level (`Lib.Linked.insertAfter`), and cutting each of them at the key (`insertAfter_eq_filter`)
shows that they stay sublists of one another.
-/

namespace ZhiCache.SkipList

open Lib

variable {Key : Type} [Comparator Key]

/-- The skip list with the level lists `T`, `head_` included in each. -/
structure Levels (l : SkipList Key) (T : Nat → List NodeId) : Prop where
  one_le : 1 ≤ l.maxHeight
  le_max : l.maxHeight ≤ kMaxHeight
  chain : ∀ i, i < kMaxHeight → Linked (l.level i) (T i)
  first : ∀ i, i < kMaxHeight → (T i).head? = some head
  sublist : ∀ i, (T (i + 1)).Sublist (T i)
  sorted : (T 0).tail.Pairwise l.InOrder
  mem : ∀ i n, n ∈ T i ↔ n < l.count ∧ i < l.height n
  head_height : l.height head = kMaxHeight
  tall : ∀ n, n < l.count → n ≠ head → 1 ≤ l.height n ∧ l.height n ≤ l.maxHeight

variable {l : SkipList Key} {T : Nat → List NodeId}

theorem Levels.height_le (h : Levels l T) {n : NodeId} (hn : n < l.count) : l.height n ≤ kMaxHeight := by
  by_cases hh : n = head
  · rw [hh, h.head_height]
  · exact Nat.le_trans (h.tall n hn hh).2 h.le_max

/-- A node stands on no level from `kMaxHeight` on. -/
theorem Levels.lt_of_mem (h : Levels l T) {i : Nat} {n : NodeId} (hn : n ∈ T i) : i < kMaxHeight := by
  obtain ⟨hc, hi⟩ := (h.mem i n).mp hn
  exact Nat.lt_of_lt_of_le hi (h.height_le hc)

theorem Levels.head_mem (h : Levels l T) {i : Nat} (hi : i < kMaxHeight) : head ∈ T i :=
  List.mem_of_head? (h.first i hi)

theorem Levels.level_eq (h : Levels l T) {i : Nat} (hi : i < kMaxHeight) : T i = head :: (T i).tail := by
  obtain ⟨N, hT⟩ := List.head?_eq_some_iff.mp (h.first i hi)
  rw [hT]
  rfl

/-- The nodes of level 0 follow `head_`. -/
theorem Levels.zero_eq (h : Levels l T) : T 0 = head :: (T 0).tail := h.level_eq kMaxHeight_pos

theorem Levels.linked_zero (h : Levels l T) : Linked (l.level 0) (head :: (T 0).tail) :=
  h.zero_eq ▸ h.chain 0 kMaxHeight_pos

theorem Levels.count_pos (h : Levels l T) : head < l.count :=
  ((h.mem 0 head).mp (h.head_mem kMaxHeight_pos)).1

/-- Every level is sorted, being a sublist of the lowest. -/
theorem Levels.sublist_zero (h : Levels l T) (i : Nat) : (T i).Sublist (T 0) := by
  induction i with
  | zero => exact List.Sublist.refl _
  | succ i ih => exact (h.sublist i).trans ih

theorem Levels.sorted_level (h : Levels l T) (i : Nat) : (T i).tail.Pairwise l.InOrder :=
  h.sorted.sublist (h.sublist_zero i).tail

/-- **The full shape implies what searches need.** -/
theorem Levels.threaded (h : Levels l T) : Threaded l T where
  one_le := h.one_le
  le_max := h.le_max
  head_mem := fun _ hi => h.head_mem hi
  nodup := fun i => (h.chain 0 kMaxHeight_pos).nodup.sublist (h.sublist_zero i)
  alloc := fun i n hn => ((h.mem i n).mp hn).1
  sub := fun i _ hn => (h.sublist i).subset hn
  init := fun i n hn => by
    obtain ⟨u, w, hT⟩ := List.append_of_mem hn
    have hlink : Linked (l.level i) (u ++ n :: w) := hT ▸ h.chain i (h.lt_of_mem hn)
    have hnext : l.next n i = some w.head? := hlink.next_eq
    rw [hnext]
    simp
  fwd := fun i a ha b hab => (h.chain i (h.lt_of_mem ha)).forward a ha b hab
  first := h.first 0 kMaxHeight_pos
  linked := h.chain 0 kMaxHeight_pos
  sorted := h.sorted

/-- Above the height of the list a level holds `head_` alone. -/
theorem Levels.above (h : Levels l T) {i : Nat} (hi : l.maxHeight ≤ i) (hk : i < kMaxHeight) :
    T i = [head] := by
  have hfirst := h.first i hk
  have hnd : (T i).Nodup := h.threaded.nodup i
  cases hT : T i with
  | nil =>
      rw [hT] at hfirst
      exact absurd hfirst (by simp)
  | cons a N =>
      rw [hT] at hfirst hnd
      have ha : a = head := by simpa using hfirst
      cases N with
      | nil => rw [ha]
      | cons b N =>
          exfalso
          have hb : b ∈ T i := by simp [hT]
          obtain ⟨hbc, hbi⟩ := (h.mem i b).mp hb
          have hne : b ≠ head := by
            intro e
            exact (List.nodup_cons.mp hnd).1 (ha ▸ e ▸ List.mem_cons_self)
          have hle := (h.tall b hbc hne).2
          omega

/-- `head_`'s links above the height of the list are null. -/
theorem Levels.head_next_above (h : Levels l T) {i : Nat} (hi : l.maxHeight ≤ i) (hk : i < kMaxHeight) :
    l.next head i = some none := by
  have hlink := h.chain i hk
  rw [h.above hi hk] at hlink
  exact hlink

/-! ## The empty list -/

omit [Comparator Key] in
theorem foldl_setNext_head (l : SkipList Key) (n : Nat) :
    (List.range n).foldl (fun l i => l.setNext head i none) l
      = { l with next := fun m j => if m = head ∧ j < n then some none else l.next m j } := by
  induction n with
  | zero => simp
  | succ n ih =>
      rw [List.range_succ, List.foldl_append, ih]
      simp only [List.foldl_cons, List.foldl_nil, setNext]
      congr 1
      funext m j
      by_cases hm : m = head
      · subst hm
        by_cases hj : j = n
        · subst hj
          simp
        · have hiff : j < n ↔ j < n + 1 := by omega
          simp [hj, hiff]
      · simp [hm]

/-- The level lists of the empty skip list. -/
def emptyLevels (i : Nat) : List NodeId := if i < kMaxHeight then [head] else []

/-- The constructor builds an empty list. -/
theorem new_levels [Inhabited Key] : Levels (new : SkipList Key) emptyLevels := by
  have hnew : (new : SkipList Key) =
      { count := 1, key := Function.update (fun _ => default) 0 default,
        height := Function.update (fun _ => 0) 0 kMaxHeight,
        next := fun m j => if m = head ∧ j < kMaxHeight then some none else none, maxHeight := 1,
        rnd := Random.new 0xdeadbeef } := by
    unfold new
    rw [foldl_setNext_head]
    simp [newNode]
  have hT : ∀ i, i < kMaxHeight → emptyLevels i = [head] := fun i hi => if_pos hi
  have hT' : ∀ i, ¬ i < kMaxHeight → emptyLevels i = [] := fun i hi => if_neg hi
  constructor
  case one_le => rw [hnew]
  case le_max =>
    rw [hnew]
    show 1 ≤ kMaxHeight
    decide
  case chain =>
    intro i hi
    rw [hT i hi, hnew]
    simp [Linked, level, hi]
  case first =>
    intro i hi
    rw [hT i hi]
    rfl
  case sublist =>
    intro i
    by_cases hi : i + 1 < kMaxHeight
    · rw [hT _ hi, hT i (by omega)]
    · rw [hT' _ hi]
      exact List.nil_sublist _
  case sorted =>
    rw [hT 0 kMaxHeight_pos]
    exact List.Pairwise.nil
  case mem =>
    intro i n
    rw [hnew]
    simp only [Function.update_apply]
    by_cases hi : i < kMaxHeight
    · rw [hT i hi]
      by_cases hn : n = 0
      · simp [hn, hi, head]
      · simp [hn, head]
    · rw [hT' i hi]
      by_cases hn : n = 0
      · simp [hn, hi]
      · simp [hn]
  case head_height => rw [hnew]; simp [head]
  case tall =>
    intro n hn hne
    rw [hnew] at hn
    exact absurd (Nat.lt_one_iff.mp hn) hne

/-! ## The last loop of `Insert` -/

omit [Comparator Key] in
/-- **The loop in closed form.** On each of the levels linked, the new node takes over the link of its
    predecessor, which then leads to the new node; every other slot is as before. -/
theorem linkLoop_spec {x : NodeId} {prev : Prev} {p : Nat → NodeId} (n i : Nat) (l : SkipList Key)
    (hprev : ∀ j, i ≤ j → j < i + n → prev j = some (p j)) (hne : ∀ j, p j ≠ x)
    (hinit : ∀ j, i ≤ j → j < i + n → l.next (p j) j ≠ none) :
    ∃ next', linkLoop x prev n i l = some { l with next := next' } ∧
      ∀ m j, next' m j =
        if i ≤ j ∧ j < i + n ∧ m = p j then some (some x)
        else if i ≤ j ∧ j < i + n ∧ m = x then l.next (p j) j else l.next m j := by
  induction n generalizing i l with
  | zero =>
      refine ⟨l.next, rfl, fun m j => ?_⟩
      rw [if_neg (by omega), if_neg (by omega)]
  | succ n ih =>
      obtain ⟨succ, hsucc⟩ := Option.ne_none_iff_exists'.mp (hinit i (Nat.le_refl i) (by omega))
      have hp : prev i = some (p i) := hprev i (Nat.le_refl i) (by omega)
      -- the list after this level has been linked, and its slots on every level
      let l₁ := (l.setNext x i succ).setNext (p i) i (some x)
      have hslot : ∀ m j, l₁.next m j =
          if m = p i ∧ j = i then some (some x)
          else if m = x ∧ j = i then some succ else l.next m j := by
        intro m j
        simp only [l₁, setNext_next]
      have hother : ∀ m j, j ≠ i → l₁.next m j = l.next m j := by
        intro m j hj
        rw [hslot, if_neg (fun e => hj e.2), if_neg (fun e => hj e.2)]
      obtain ⟨next', hres, hnext⟩ := ih (i + 1) l₁ (fun j h1 h2 => hprev j (by omega) (by omega))
        (fun j h1 h2 => by
          rw [hother _ _ (by omega)]
          exact hinit j (by omega) (by omega))
      refine ⟨next', ?_, ?_⟩
      · have hunfold : linkLoop x prev (n + 1) i l = linkLoop x prev n (i + 1) l₁ := by
          simp [linkLoop, hp, hsucc, l₁]
        rw [hunfold, hres]
        rfl
      · intro m j
        rw [hnext]
        by_cases hj : j = i
        · subst hj
          rw [if_neg (by omega), if_neg (by omega), hslot]
          by_cases hm : m = p j
          · simp [hm]
          · by_cases hx : m = x
            · have hpx : x ≠ p j := (hne j).symm
              simp [hx, hpx, hsucc]
            · simp [hm, hx]
        · rw [hother _ _ hj, hother _ _ hj]
          have hiff : (i + 1 ≤ j ∧ j < i + 1 + n) ↔ (i ≤ j ∧ j < i + (n + 1)) := by omega
          simp only [← and_assoc, hiff]

/-! ## `Insert` -/

/-- Every level that the new node will stand on has its entry of `prev`, with the node after which the key
    belongs. -/
theorem Levels.prev_spec (h : Levels l T) (key : Key) (height : Height) :
    ∃ next prev, l.findGreaterOrEqual key = some (next, prev) ∧
      ∀ i, i < height.1 → ∃ p, (if l.maxHeight < height.1 then raisePrev prev l.maxHeight height.1 else prev) i
        = some p ∧ l.LastBelow T key i p := by
  obtain ⟨next, prev, hres, hfill, _, _⟩ := h.threaded.findGreaterOrEqual_spec key
  refine ⟨next, prev, hres, fun i hi => ?_⟩
  by_cases him : i < l.maxHeight
  · obtain ⟨p, hp, hlast⟩ := hfill i him
    refine ⟨p, ?_, hlast⟩
    split
    · rw [raisePrev, if_neg (by omega)]
      exact hp
    · exact hp
  · -- above the height of the list: `head_`, whose link there is null
    have hk : i < kMaxHeight := Nat.lt_of_lt_of_le hi height.2.2
    refine ⟨head, ?_, h.head_mem hk, Or.inl rfl, none, h.head_next_above (by omega) hk, rfl⟩
    rw [if_pos (by omega), raisePrev, if_pos ⟨by omega, hi⟩]

/-- **`Insert` in closed form.** The new node is `l.count`; on each level below its height it takes its place
    behind the node `p i` after which the key belongs. -/
theorem Levels.insertWith_spec (h : Levels l T) (key : Key) (height : Height) :
    ∃ (p : Nat → NodeId) (next' : NodeId → Nat → Link NodeId),
      (∀ i, i < height.1 → l.LastBelow T key i (p i)) ∧
      l.insertWith key height = some
        { count := l.count + 1, key := Function.update l.key l.count key,
          height := Function.update l.height l.count height.1, next := next',
          maxHeight := max l.maxHeight height.1, rnd := l.rnd } ∧
      (∀ i, i < height.1 → next' (p i) i = some (some l.count) ∧ next' l.count i = l.next (p i) i) ∧
      (∀ m i, m ≠ l.count → (i < height.1 → m ≠ p i) → next' m i = l.next m i) := by
  obtain ⟨next, prev, hres, hprev⟩ := h.prev_spec key height
  -- the entries used, with `head_` where there is none
  let prev' : Prev := if l.maxHeight < height.1 then raisePrev prev l.maxHeight height.1 else prev
  let p : Nat → NodeId := fun i => if i < height.1 then (prev' i).getD head else head
  have hp : ∀ i, i < height.1 → prev' i = some (p i) ∧ l.LastBelow T key i (p i) := by
    intro i hi
    obtain ⟨q, hq, hlast⟩ := hprev i hi
    have hpq : p i = q := by
      simp only [p, if_pos hi]
      rw [show prev' i = some q from hq]
      rfl
    exact ⟨hpq ▸ hq, hpq ▸ hlast⟩
  have hlt : ∀ i, p i < l.count := by
    intro i
    by_cases hi : i < height.1
    · exact h.threaded.alloc i _ (hp i hi).2.1
    · simp only [p, if_neg hi]
      exact h.count_pos
  let l₁ : SkipList Key :=
    (({ l with maxHeight := max l.maxHeight height.1 } : SkipList Key).newNode key height.1).2
  have hnext₁ : ∀ m i, m ≠ l.count → l₁.next m i = l.next m i := by
    intro m i hm
    exact (newNode_next _ key height.1 m i).trans (if_neg hm)
  obtain ⟨next', hloop, hslots⟩ := linkLoop_spec (x := l.count) (p := p) height.1 0 l₁
    (fun i _ hi => (hp i (by omega)).1) (fun i => Nat.ne_of_lt (hlt i))
    (fun i _ hi => by
      rw [hnext₁ _ _ (Nat.ne_of_lt (hlt i))]
      exact h.threaded.init i _ (hp i (by omega)).2.1)
  refine ⟨p, next', fun i hi => (hp i hi).2, ?_, ?_, ?_⟩
  · have hraise : (if l.maxHeight < height.1 then ({ l with maxHeight := height.1 } : SkipList Key) else l)
        = { l with maxHeight := max l.maxHeight height.1 } := by
      split
      · rw [Nat.max_eq_right (by omega)]
      · rw [Nat.max_eq_left (by omega)]
    have hunfold : l.insertWith key height = linkLoop l.count prev' height.1 0 l₁ := by
      simp only [insertWith, hres, hraise, l₁, prev']
      rfl
    rw [hunfold, hloop]
    rfl
  · intro i hi
    constructor
    · rw [hslots, if_pos ⟨Nat.zero_le i, by omega, rfl⟩]
    · rw [hslots, if_neg (fun e => Nat.ne_of_gt (hlt i) e.2.2), if_pos ⟨Nat.zero_le i, by omega, rfl⟩,
        hnext₁ _ _ (Nat.ne_of_lt (hlt i))]
  · intro m i hm hmp
    rw [hslots, if_neg (fun e => hmp (by omega) e.2.2), if_neg (fun e => hm e.2.2), hnext₁ m i hm]

/-! ## The level lists after `Insert` -/

instance (l : SkipList Key) (key : Key) : DecidablePred (l.Below key) := fun n =>
  inferInstanceAs (Decidable (n = head ∨ compare (l.key n) key < 0))

/-- The level lists after a node `x` of height `height` has been linked behind the nodes `p i`. -/
def insertLevels (T : Nat → List NodeId) (p : Nat → NodeId) (x : NodeId) (height : Nat) (i : Nat) :
    List NodeId :=
  if i < height then insertAfter (p i) x (T i) else T i

section InsertLevels

variable {p : Nat → NodeId} {x : NodeId} {height i : Nat}

theorem insertLevels_of_lt (hi : i < height) : insertLevels T p x height i = insertAfter (p i) x (T i) :=
  if_pos hi

theorem insertLevels_of_not_lt (hi : ¬ i < height) : insertLevels T p x height i = T i :=
  if_neg hi

theorem mem_insertLevels (hp : i < height → p i ∈ T i) {n : NodeId} :
    n ∈ insertLevels T p x height i ↔ n = x ∧ i < height ∨ n ∈ T i := by
  by_cases hi : i < height
  · rw [insertLevels_of_lt hi, mem_insertAfter (hp hi), and_iff_left hi]
  · rw [insertLevels_of_not_lt hi]
    exact (or_iff_right (fun hx => hi hx.2)).symm

end InsertLevels

section Lawful

variable [LawfulComparator Key]

/-- Linking a node where its key belongs cuts the level in two: what is below the key, and the rest. -/
theorem Levels.insertAfter_eq_filter (h : Levels l T) {key : Key} {i : Nat} {p : NodeId} (x : NodeId)
    (hlast : l.LastBelow T key i p) :
    insertAfter p x (T i)
      = (T i).filter (fun n => decide (l.Below key n)) ++
        x :: (T i).filter (fun n => decide (¬ l.Below key n)) := by
  obtain ⟨hmem, hbelow, next, hn, hk⟩ := hlast
  have hi := h.lt_of_mem hmem
  obtain ⟨A, B, hT, _, hA, hB, _, hins⟩ :=
    cut_of_linked (h.chain i hi) (h.first i hi) (h.sorted_level i) hmem hbelow hn hk
  have hnd := h.threaded.nodup i
  rw [hT] at hnd
  have hheadB : head ∉ B := fun hh =>
    (List.nodup_cons.mp hnd).1 (List.mem_append_right A hh)
  have hlow : ∀ n ∈ head :: A, l.Below key n := by
    intro n hn
    rcases List.mem_cons.mp hn with rfl | hn
    · exact Or.inl rfl
    · exact Or.inr (hA n hn)
  have hhigh : ∀ n ∈ B, ¬ l.Below key n := by
    rintro n hn (rfl | hlt)
    · exact hheadB hn
    · exact hB n hn hlt
  have h1 : (T i).filter (fun n => decide (l.Below key n)) = head :: A := by
    rw [hT, ← List.cons_append, List.filter_append,
      List.filter_eq_self.mpr (fun n hn => decide_eq_true (hlow n hn)),
      List.filter_eq_nil_iff.mpr (fun n hn => by simpa using hhigh n hn), List.append_nil]
  have h2 : (T i).filter (fun n => decide (¬ l.Below key n)) = B := by
    rw [hT, ← List.cons_append, List.filter_append,
      List.filter_eq_nil_iff.mpr (fun n hn => by simpa using hlow n hn),
      List.filter_eq_self.mpr (fun n hn => by simpa using hhigh n hn), List.nil_append]
  rw [h1, h2, hins x]
  rfl

/-- The level lists stay sublists of one another. -/
theorem Levels.insertLevels_sublist (h : Levels l T) {key : Key} {p : Nat → NodeId} {height : Nat}
    (x : NodeId) (hlast : ∀ i, i < height → l.LastBelow T key i (p i)) (i : Nat) :
    (insertLevels T p x height (i + 1)).Sublist (insertLevels T p x height i) := by
  unfold insertLevels
  by_cases hi : i + 1 < height
  · have hi' : i < height := by omega
    rw [if_pos hi, if_pos hi', h.insertAfter_eq_filter x (hlast _ hi),
      h.insertAfter_eq_filter x (hlast _ hi')]
    exact ((h.sublist i).filter _).append (((h.sublist i).filter _).cons_cons x)
  · rw [if_neg hi]
    split
    · exact (h.sublist i).trans (sublist_insertAfter (p i) x (T i))
    · exact h.sublist i

omit [LawfulComparator Key] in
/-- The place of a key is the same after a node has been allocated. -/
theorem Threaded.lastBelow_newNode (h : Threaded l T) {key key' : Key} {height i : Nat} {p : NodeId}
    (hlast : l.LastBelow T key i p) : (l.newNode key' height).2.LastBelow T key i p := by
  obtain ⟨hmem, hbelow, next, hn, hk⟩ := hlast
  have hpc := h.alloc i p hmem
  refine ⟨hmem, ?_, next, ?_, ?_⟩
  · rcases hbelow with hhead | hlt
    · exact Or.inl hhead
    · refine Or.inr ?_
      rw [newNode_key, if_neg (Nat.ne_of_lt hpc)]
      exact hlt
  · rw [newNode_next, if_neg (Nat.ne_of_lt hpc)]
    exact hn
  · rw [keyIsAfterNode_eq_false] at hk ⊢
    intro n hnn
    have hnc : n < l.count :=
      h.alloc i n (h.fwd i p hmem n (hn.trans (congrArg some hnn))).mem_right
    rw [newNode_key, if_neg (Nat.ne_of_lt hnc)]
    exact hk n hnn

/-- **`Insert` keeps the shape**, and adds the new node on each level below its height. -/
theorem Levels.insertWith (h : Levels l T) (key : Key) (height : Height) :
    ∃ l' p, l.insertWith key height = some l' ∧
      (∀ i, i < height.1 → l.LastBelow T key i (p i)) ∧
      Levels l' (insertLevels T p l.count height.1) ∧ l'.count = l.count + 1 ∧
      l'.key = Function.update l.key l.count key ∧
      l'.height = Function.update l.height l.count height.1 ∧
      l'.maxHeight = max l.maxHeight height.1 := by
  obtain ⟨p, next', hlast, hres, hnew, hold⟩ := h.insertWith_spec key height
  refine ⟨_, p, hres, hlast, ?_, rfl, rfl, rfl, rfl⟩
  have hthr := h.threaded
  have hfresh : ∀ i, l.count ∉ T i := fun i hx => Nat.lt_irrefl _ (hthr.alloc i _ hx)
  constructor
  case one_le => exact Nat.le_trans h.one_le (Nat.le_max_left _ _)
  case le_max => exact Nat.max_le.mpr ⟨h.le_max, height.2.2⟩
  case chain =>
    intro i hk
    by_cases hi : i < height.1
    · rw [insertLevels_of_lt hi]
      refine (h.chain i hk).insertAfter (hlast i hi).1 (hnew i hi).2 (hnew i hi).1 ?_
      intro a ha hap
      exact hold a i (fun e => hfresh i (e ▸ ha)) (fun _ => hap)
    · rw [insertLevels_of_not_lt hi]
      exact (h.chain i hk).congr
        (fun a ha => hold a i (fun e => hfresh i (e ▸ ha)) (fun hi' => absurd hi' hi))
  case first =>
    intro i hk
    by_cases hi : i < height.1
    · rw [insertLevels_of_lt hi, head?_insertAfter]
      exact h.first i hk
    · rw [insertLevels_of_not_lt hi]
      exact h.first i hk
  case sublist => exact h.insertLevels_sublist l.count hlast
  case sorted =>
    rw [insertLevels_of_lt height.2.1]
    have hlast' : (l.newNode key height.1).2.LastBelow T key 0 (p 0) :=
      hthr.lastBelow_newNode (hlast 0 height.2.1)
    have hkey : (l.newNode key height.1).2.key l.count = key := by rw [newNode_key, if_pos rfl]
    exact (hthr.newNode key height.1).sorted_insertAfter (hkey.symm ▸ hlast')
  case mem =>
    intro i n
    rw [mem_insertLevels (fun hi => (hlast i hi).1), h.mem i n]
    show _ ↔ n < l.count + 1 ∧ i < Function.update l.height l.count height.1 n
    by_cases hn : n = l.count
    · subst hn
      simp
    · have hiff : n < l.count + 1 ↔ n < l.count :=
        ⟨fun hlt => Nat.lt_of_le_of_ne (Nat.le_of_lt_succ hlt) hn, Nat.lt_succ_of_lt⟩
      simp [hn, hiff]
  case head_height =>
    show Function.update l.height l.count height.1 head = kMaxHeight
    rw [Function.update_of_ne (Nat.ne_of_lt h.count_pos)]
    exact h.head_height
  case tall =>
    intro n hn hne
    show 1 ≤ Function.update l.height l.count height.1 n ∧
      Function.update l.height l.count height.1 n ≤ max l.maxHeight height.1
    by_cases hnc : n = l.count
    · subst hnc
      rw [Function.update_self]
      exact ⟨height.2.1, Nat.le_max_right _ _⟩
    · rw [Function.update_of_ne hnc]
      have hlt : n < l.count := Nat.lt_of_le_of_ne (Nat.le_of_lt_succ hn) hnc
      exact ⟨(h.tall n hlt hne).1, Nat.le_trans (h.tall n hlt hne).2 (Nat.le_max_left _ _)⟩

end Lawful

end ZhiCache.SkipList
