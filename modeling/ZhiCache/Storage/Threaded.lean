import ZhiCache.Storage.SkipList
import Mathlib.Data.List.Nodup
import Mathlib.Data.Finset.Card

/-!
# `Storage.Threaded` — the invariant that every search relies on

`Threaded l T` describes the memory of a skip list **at any moment**, between two operations or in the
middle of one. `T i` holds the nodes that have been published on level `i`.

* On every level the links out of published nodes are initialised and lead forward (`init`, `fwd`), and a
  node published on a level is published on the one below (`sub`). This is enough for every search to
  terminate, whatever the upper levels look like.
* Level 0 is exact: the links visit `head_` and then the published nodes in the order of their keys
  (`linked`, `sorted`). This is enough for a search to end at the right place.

The upper levels are *not* required to be sorted or to be linked lists at all. A single writer keeps them
so (`Storage.Levels`), several unsynchronised ones do not, and no search depends on it.

Every store that an `Insert` performs is covered by one of the four `Threaded.*` preservation lemmas.
-/

namespace ZhiCache.SkipList

open Lib

variable {Key : Type} [Comparator Key]

/-- `a` may stand before `b` in a sorted list: the key of `b` is not before that of `a`. -/
def InOrder (l : SkipList Key) (a b : NodeId) : Prop := ¬ compare (l.key b) (l.key a) < 0

/-- The nodes at which a search for `key` may stand: `head_`, and those with a smaller key. -/
def Below (l : SkipList Key) (key : Key) (n : NodeId) : Prop := n = head ∨ compare (l.key n) key < 0

/-- The memory of a skip list whose level `i` has the published nodes `T i`. -/
structure Threaded (l : SkipList Key) (T : Nat → List NodeId) : Prop where
  one_le : 1 ≤ l.maxHeight
  le_max : l.maxHeight ≤ kMaxHeight
  head_mem : ∀ i, i < kMaxHeight → head ∈ T i
  nodup : ∀ i, (T i).Nodup
  alloc : ∀ i, ∀ n ∈ T i, n < l.count
  sub : ∀ i, ∀ n ∈ T (i + 1), n ∈ T i
  init : ∀ i, ∀ n ∈ T i, l.next n i ≠ none
  fwd : ∀ i, Forward (l.level i) (T i)
  first : (T 0).head? = some head
  linked : Linked (l.level 0) (T 0)
  sorted : (T 0).tail.Pairwise l.InOrder

variable {l : SkipList Key} {T : Nat → List NodeId}

/-! ## Order facts -/

section Order

variable [LawfulComparator Key]

/-- What may stand before a node with a smaller key has a smaller key itself. -/
theorem InOrder.below {key : Key} {a b : NodeId} (hab : l.InOrder a b) (hb : compare (l.key b) key < 0) :
    compare (l.key a) key < 0 := by
  by_contra ha
  exact LawfulComparator.not_lt_trans _ _ _ hab ha hb

/-- What may stand after a node whose key is not smaller has no smaller key either. -/
theorem InOrder.not_below {key : Key} {a b : NodeId} (hab : l.InOrder a b)
    (ha : ¬ compare (l.key a) key < 0) : ¬ compare (l.key b) key < 0 :=
  LawfulComparator.not_lt_trans _ _ _ hab ha

end Order

/-! ## One iteration of the search loop -/

/-- The node reached is not before the key, or there is none. -/
theorem keyIsAfterNode_eq_false {key : Key} {next : Option NodeId} :
    l.keyIsAfterNode key next = false ↔ ∀ n, next = some n → ¬ compare (l.key n) key < 0 := by
  cases next with
  | none => simp [keyIsAfterNode]
  | some n => simp [keyIsAfterNode]

theorem Search.step_forward {key : Key} {s : Search} {n : NodeId}
    (hn : l.next s.x s.level = some (some n)) (hk : compare (l.key n) key < 0) :
    s.step l key = some (.more { s with x := n }) := by
  simp [Search.step, hn, keyIsAfterNode, hk]

theorem Search.step_found {key : Key} {s : Search} {next : Option NodeId}
    (hn : l.next s.x s.level = some next) (hk : l.keyIsAfterNode key next = false) (hl : s.level = 0) :
    s.step l key = some (.found next (Function.update s.prev 0 (some s.x))) := by
  unfold Search.step
  rw [hn]
  cases next with
  | none => simp [hl]
  | some n => simp [hk, hl]

theorem Search.step_down {key : Key} {s : Search} {next : Option NodeId} {level : Nat}
    (hn : l.next s.x s.level = some next) (hk : l.keyIsAfterNode key next = false)
    (hl : s.level = level + 1) :
    s.step l key
      = some (.more { x := s.x, level := level, prev := Function.update s.prev (level + 1) (some s.x) }) := by
  unfold Search.step
  rw [hn]
  cases next with
  | none => simp [hl]
  | some n => simp [hk, hl]

/-- **What an iteration can do.** It loads an initialised slot and moves along the level, goes down a level,
    or returns. -/
theorem Search.step_cases {key : Key} {s : Search} {o : Search.Outcome} (h : s.step l key = some o) :
    ∃ next, l.next s.x s.level = some next ∧
      ((∃ n, next = some n ∧ compare (l.key n) key < 0 ∧ o = .more { s with x := n }) ∨
       (l.keyIsAfterNode key next = false ∧ s.level = 0 ∧
          o = .found next (Function.update s.prev 0 (some s.x))) ∨
       (l.keyIsAfterNode key next = false ∧ ∃ level, s.level = level + 1 ∧
          o = .more { x := s.x, level := level, prev := Function.update s.prev (level + 1) (some s.x) })) := by
  cases hn : l.next s.x s.level with
  | none =>
      rw [Search.step, hn] at h
      exact absurd h (by simp)
  | some next =>
      refine ⟨next, rfl, ?_⟩
      cases hk : l.keyIsAfterNode key next with
      | true =>
          cases next with
          | none => exact absurd hk (by simp [keyIsAfterNode])
          | some n =>
              have hlt : compare (l.key n) key < 0 := by simpa [keyIsAfterNode] using hk
              rw [Search.step_forward hn hlt] at h
              exact Or.inl ⟨n, rfl, hlt, (Option.some.inj h).symm⟩
      | false =>
          cases hl : s.level with
          | zero =>
              rw [Search.step_found hn hk hl] at h
              exact Or.inr (Or.inl ⟨rfl, rfl, (Option.some.inj h).symm⟩)
          | succ level =>
              rw [Search.step_down hn hk hl] at h
              exact Or.inr (Or.inr ⟨rfl, level, rfl, (Option.some.inj h).symm⟩)

/-- An iteration fails only on an uninitialised slot. -/
theorem Search.step_eq_none {key : Key} {s : Search} :
    s.step l key = none ↔ l.next s.x s.level = none := by
  constructor
  · intro h
    by_contra hn
    obtain ⟨next, hn⟩ := Option.ne_none_iff_exists'.mp hn
    cases hk : l.keyIsAfterNode key next with
    | true =>
        cases next with
        | none => exact absurd hk (by simp [keyIsAfterNode])
        | some n =>
            have hlt : compare (l.key n) key < 0 := by simpa [keyIsAfterNode] using hk
            rw [Search.step_forward hn hlt] at h
            exact absurd h (by simp)
    | false =>
        cases hl : s.level with
        | zero =>
            rw [Search.step_found hn hk hl] at h
            exact absurd h (by simp)
        | succ level =>
            rw [Search.step_down hn hk hl] at h
            exact absurd h (by simp)
  · intro h
    rw [Search.step, h]

/-! ## Searches on published nodes -/

/-- Where a search for `key` may stand: at a published node, below the key. -/
structure Search.On (l : SkipList Key) (T : Nat → List NodeId) (key : Key) (s : Search) : Prop where
  level_lt : s.level < kMaxHeight
  mem : s.x ∈ T s.level
  below : l.Below key s.x

/-- A search starts well wherever the height of the list stands. -/
theorem Threaded.start_on (h : Threaded l T) (key : Key) : (Search.start l.maxHeight).On l T key := by
  have h1 := h.one_le
  have h2 := h.le_max
  have hlt : l.maxHeight - 1 < kMaxHeight := by omega
  exact ⟨hlt, h.head_mem _ hlt, Or.inl rfl⟩

/-- A search on published nodes never loads an uninitialised slot. -/
theorem Threaded.step_ne_none (h : Threaded l T) {key : Key} {s : Search} (hs : s.On l T key) :
    s.step l key ≠ none := by
  intro hnone
  exact h.init s.level s.x hs.mem (Search.step_eq_none.mp hnone)

/-- A search on published nodes stays on published nodes. -/
theorem Threaded.step_on (h : Threaded l T) {key : Key} {s s' : Search} (hs : s.On l T key)
    (hstep : s.step l key = some (.more s')) : s'.On l T key := by
  obtain ⟨next, hn, hcase⟩ := Search.step_cases hstep
  rcases hcase with ⟨n, rfl, hlt, ho⟩ | ⟨_, _, ho⟩ | ⟨_, level, hl, ho⟩
  · cases ho
    exact ⟨hs.level_lt, (h.fwd s.level s.x hs.mem n hn).mem_right, Or.inr hlt⟩
  · cases ho
  · cases ho
    have hmem : s.x ∈ T (level + 1) := hl ▸ hs.mem
    have hlt := hs.level_lt
    exact ⟨by simp only; omega, h.sub level s.x hmem, hs.below⟩

/-! ### Termination -/

omit [Comparator Key] in
/-- Published nodes are allocated, so a level has at most as many as there are nodes. -/
theorem length_le_of_alloc {N : List NodeId} {count : Nat} (hnd : N.Nodup) (hlt : ∀ n ∈ N, n < count) :
    N.length ≤ count := by
  have hsub : N ⊆ List.range count := fun n hn => List.mem_range.mpr (hlt n hn)
  have hle := (hnd.subperm hsub).length_le
  rwa [List.length_range] at hle

/-- A bound on the iterations left: the rest of the current level and all of the levels below. -/
def Search.bound (T : Nat → List NodeId) (count : Nat) (s : Search) : Nat :=
  (T s.level).length - (T s.level).idxOf s.x + s.level * count

/-- Along a level: one node further. -/
theorem Threaded.bound_along (h : Threaded l T) {s : Search} {n : NodeId} (hx : s.x ∈ T s.level)
    (hn : l.next s.x s.level = some (some n)) :
    Search.bound T l.count { s with x := n } < s.bound T l.count := by
  have hidx : (T s.level).idxOf s.x < (T s.level).length := List.idxOf_lt_length_iff.mpr hx
  have hlt := (h.fwd s.level s.x hx n hn).idxOf_lt (h.nodup s.level)
  simp only [Search.bound]
  omega

/-- Down a level: the level below has at most `count` nodes. -/
theorem Threaded.bound_down (h : Threaded l T) {s : Search} {level : Nat} (hx : s.x ∈ T s.level)
    (hl : s.level = level + 1) (prev : Prev) :
    Search.bound T l.count ⟨s.x, level, prev⟩ < s.bound T l.count := by
  have hidx : (T s.level).idxOf s.x < (T s.level).length := List.idxOf_lt_length_iff.mpr hx
  have hlen := length_le_of_alloc (h.nodup level) (h.alloc level)
  have hmul : (level + 1) * l.count = level * l.count + l.count := Nat.succ_mul _ _
  simp only [Search.bound, hl] at hidx ⊢
  omega

theorem Threaded.bound_lt (h : Threaded l T) {key : Key} {s s' : Search} (hs : s.On l T key)
    (hstep : s.step l key = some (.more s')) : s'.bound T l.count < s.bound T l.count := by
  obtain ⟨next, hn, hcase⟩ := Search.step_cases hstep
  rcases hcase with ⟨n, rfl, _, ho⟩ | ⟨_, _, ho⟩ | ⟨_, level, hl, ho⟩
  · cases ho
    exact h.bound_along hs.mem hn
  · cases ho
  · cases ho
    exact h.bound_down hs.mem hl _

theorem Threaded.bound_start (h : Threaded l T) :
    (Search.start l.maxHeight).bound T l.count ≤ kMaxHeight * l.count := by
  have hlen := length_le_of_alloc (h.nodup (l.maxHeight - 1)) (h.alloc (l.maxHeight - 1))
  have h1 := h.one_le
  have hmul : (l.maxHeight - 1) * l.count + l.count = l.maxHeight * l.count := by
    rw [← Nat.succ_mul]
    congr 1
    omega
  have hle : l.maxHeight * l.count ≤ kMaxHeight * l.count := Nat.mul_le_mul_right _ h.le_max
  simp only [Search.bound, Search.start]
  omega

/-! ### What a search returns -/

/-- `p` is a published node of level `i` after which `key` belongs: below the key, with no successor below
    it. -/
def LastBelow (l : SkipList Key) (T : Nat → List NodeId) (key : Key) (i : Nat) (p : NodeId) : Prop :=
  p ∈ T i ∧ l.Below key p ∧ ∃ next, l.next p i = some next ∧ l.keyIsAfterNode key next = false

/-- **The search loop.** With enough iterations it returns; it has filled `prev` on the levels it went
    through with the nodes after which the key belongs, and returns the successor on level 0. -/
theorem Threaded.findLoop_spec (h : Threaded l T) {key : Key} (fuel : Nat) (s : Search)
    (hs : s.On l T key) (hf : s.bound T l.count ≤ fuel) :
    ∃ next prev, l.findLoop key fuel s = some (next, prev) ∧
      (∀ i, i ≤ s.level → ∃ p, prev i = some p ∧ l.LastBelow T key i p) ∧
      (∀ i, s.level < i → prev i = s.prev i) ∧
      (∃ p, prev 0 = some p ∧ l.next p 0 = some next) := by
  induction fuel generalizing s with
  | zero =>
      have hx : (T s.level).idxOf s.x < (T s.level).length := List.idxOf_lt_length_iff.mpr hs.mem
      simp only [Search.bound] at hf
      omega
  | succ fuel ih =>
      obtain ⟨o, ho⟩ := Option.ne_none_iff_exists'.mp (h.step_ne_none hs)
      obtain ⟨next, hn, hcase⟩ := Search.step_cases ho
      have hlast : l.keyIsAfterNode key next = false → l.LastBelow T key s.level s.x :=
        fun hk => ⟨hs.mem, hs.below, next, hn, hk⟩
      unfold findLoop
      rw [ho]
      cases o with
      | found next' prev' =>
          rcases hcase with ⟨_, _, _, hc⟩ | ⟨hk, hl, hc⟩ | ⟨_, _, _, hc⟩
          · cases hc
          · cases hc
            rw [hl] at hlast hn
            refine ⟨next, _, rfl, fun i hi => ?_, fun i hi => ?_, s.x, Function.update_self .., hn⟩
            · have hi0 : i = 0 := by omega
              subst hi0
              exact ⟨s.x, Function.update_self .., hlast hk⟩
            · exact Function.update_of_ne (by omega) _ _
          · cases hc
      | more s' =>
          have hs' := h.step_on hs ho
          have hlt := h.bound_lt hs ho
          obtain ⟨next₀, prev₀, hres, hfill, hkeep, hzero⟩ := ih s' hs' (by omega)
          refine ⟨next₀, prev₀, hres, ?_, ?_, hzero⟩
          · intro i hi
            rcases hcase with ⟨_, _, _, hc⟩ | ⟨_, _, hc⟩ | ⟨hk, level, hl, hc⟩
            · cases hc
              exact hfill i hi
            · cases hc
            · cases hc
              rcases Nat.lt_or_ge level i with hlt' | hge
              · have hi' : i = s.level := by omega
                subst hi'
                refine ⟨s.x, ?_, hlast hk⟩
                rw [hkeep s.level hlt', hl]
                exact Function.update_self ..
              · exact hfill i hge
          · intro i hi
            rcases hcase with ⟨_, _, _, hc⟩ | ⟨_, _, hc⟩ | ⟨_, level, hl, hc⟩
            · cases hc
              exact hkeep i hi
            · cases hc
            · cases hc
              rw [hkeep i (by simp only; omega)]
              exact Function.update_of_ne (by omega) _ _

/-- **`FindGreaterOrEqual` returns.** It fills `prev` on every level of the list and leaves the rest of the
    array unwritten. -/
theorem Threaded.findGreaterOrEqual_spec (h : Threaded l T) (key : Key) :
    ∃ next prev, l.findGreaterOrEqual key = some (next, prev) ∧
      (∀ i, i < l.maxHeight → ∃ p, prev i = some p ∧ l.LastBelow T key i p) ∧
      (∀ i, l.maxHeight ≤ i → prev i = none) ∧
      (∃ p, prev 0 = some p ∧ l.next p 0 = some next) := by
  obtain ⟨next, prev, hres, hfill, hkeep, hzero⟩ :=
    h.findLoop_spec _ (Search.start l.maxHeight) (h.start_on key) h.bound_start
  have h1 := h.one_le
  refine ⟨next, prev, hres, fun i hi => hfill i ?_, fun i hi => hkeep i ?_, hzero⟩
  · simp only [Search.start]
    omega
  · simp only [Search.start]
    omega

/-! ## Level 0 at the place found -/

/-- **The cut.** A sorted linked list that starts at `head_` is cut by the node `p` after which the key
    belongs into the nodes below the key, of which `p` is the last, and the others. Inserting behind `p` is
    inserting at the cut. -/
theorem cut_of_linked [LawfulComparator Key] {next : NodeId → Link NodeId} {N : List NodeId} {key : Key}
    {p : NodeId} {succ : Option NodeId} (hlink : Linked next N) (hfirst : N.head? = some head)
    (hsorted : N.tail.Pairwise l.InOrder) (hmem : p ∈ N) (hbelow : l.Below key p) (hn : next p = some succ)
    (hk : l.keyIsAfterNode key succ = false) :
    ∃ A B, N = head :: (A ++ B) ∧ succ = B.head? ∧ (∀ n ∈ A, compare (l.key n) key < 0) ∧
      (∀ n ∈ B, ¬ compare (l.key n) key < 0) ∧ (p = head ∧ A = [] ∨ ∃ A', A = A' ++ [p]) ∧
      ∀ x, insertAfter p x N = head :: (A ++ x :: B) := by
  obtain ⟨u, B, rfl⟩ := List.append_of_mem hmem
  have hnd := hlink.nodup
  have hhead : succ = B.head? := Option.some.inj (hn.symm.trans hlink.next_eq)
  have hpu : p ∉ u := fun hp =>
    (List.nodup_append.mp hnd).2.2 p hp p List.mem_cons_self rfl
  -- sortedness carries the key of the first node after `p` to the ones behind it
  have hB : B.Pairwise l.InOrder → ∀ n ∈ B, ¬ compare (l.key n) key < 0 := by
    intro hs n hnB
    cases B with
    | nil => exact absurd hnB List.not_mem_nil
    | cons b B =>
        have hb : ¬ compare (l.key b) key < 0 := keyIsAfterNode_eq_false.mp hk b (by simp [hhead])
        rcases List.mem_cons.mp hnB with rfl | hn'
        · exact hb
        · exact ((List.pairwise_cons.mp hs).1 n hn').not_below hb
  cases u with
  | nil =>
      have hp : p = head := by simpa using hfirst
      subst hp
      refine ⟨[], B, rfl, hhead, fun n hn => absurd hn List.not_mem_nil, hB hsorted,
        Or.inl ⟨rfl, rfl⟩, fun x => ?_⟩
      rw [insertAfter_split hpu]
      rfl
  | cons a u =>
      have ha : a = head := by simpa using hfirst
      subst ha
      obtain ⟨_, hpB, hup⟩ := List.pairwise_append.mp hsorted
      have hpn : p ≠ head := fun e => hpu (e ▸ List.mem_cons_self)
      have hlt : compare (l.key p) key < 0 := hbelow.resolve_left hpn
      refine ⟨u ++ [p], B, by simp, hhead, ?_, hB (List.pairwise_cons.mp hpB).2, Or.inr ⟨u, rfl⟩, ?_⟩
      · intro n hnu
        rcases List.mem_append.mp hnu with hnu | hnp
        · exact (hup n hnu p List.mem_cons_self).below hlt
        · exact List.mem_singleton.mp hnp ▸ hlt
      · intro x
        rw [insertAfter_split hpu]
        simp

/-- Level 0 is cut at the node after which the key belongs. -/
theorem Threaded.cut [LawfulComparator Key] (h : Threaded l T) {key : Key} {p : NodeId}
    (hp : l.LastBelow T key 0 p) :
    ∃ A B, T 0 = head :: (A ++ B) ∧ l.next p 0 = some B.head? ∧ (∀ n ∈ A, compare (l.key n) key < 0) ∧
      (∀ n ∈ B, ¬ compare (l.key n) key < 0) ∧ (p = head ∧ A = [] ∨ ∃ A', A = A' ++ [p]) ∧
      ∀ x, insertAfter p x (T 0) = head :: (A ++ x :: B) := by
  obtain ⟨hmem, hbelow, next, hn, hk⟩ := hp
  obtain ⟨A, B, hT, hB, hrest⟩ := cut_of_linked h.linked h.first h.sorted hmem hbelow hn hk
  exact ⟨A, B, hT, hn.trans (congrArg some hB), hrest⟩

/-- **`Seek`** stands at the first node of level 0 that is not below the target. -/
theorem Threaded.seek_spec [LawfulComparator Key] (h : Threaded l T) (target : Key) :
    ∃ A B, T 0 = head :: (A ++ B) ∧ l.seek target = some B.head? ∧
      (∀ n ∈ A, compare (l.key n) target < 0) ∧ (∀ n ∈ B, ¬ compare (l.key n) target < 0) := by
  obtain ⟨next, prev, hres, hfill, _, p, hp, hnext⟩ := h.findGreaterOrEqual_spec target
  obtain ⟨p', hp', hlast⟩ := hfill 0 h.one_le
  have hpp : p = p' := Option.some.inj (hp.symm.trans hp')
  subst hpp
  obtain ⟨A, B, hT, hB, hA, hge, _⟩ := h.cut hlast
  refine ⟨A, B, hT, ?_, hA, hge⟩
  have hnB : next = B.head? := Option.some.inj (hnext.symm.trans hB)
  rw [seek, hres, hnB]
  rfl

/-! ## The stores of an `Insert` keep the invariant -/

omit [Comparator Key] in
theorem setNext_next (l : SkipList Key) (n : NodeId) (i : Nat) (x : Option NodeId) (m : NodeId) (j : Nat) :
    (l.setNext n i x).next m j = if m = n ∧ j = i then some x else l.next m j := by
  by_cases hm : m = n
  · subst hm
    by_cases hj : j = i
    · subst hj
      simp [setNext]
    · simp [setNext, hj]
  · simp [setNext, hm]

omit [Comparator Key] in
theorem newNode_next (l : SkipList Key) (key : Key) (height : Nat) (m : NodeId) (j : Nat) :
    (l.newNode key height).2.next m j = if m = l.count then none else l.next m j := by
  by_cases hm : m = l.count
  · subst hm
    simp [newNode]
  · simp [newNode, hm]

omit [Comparator Key] in
theorem newNode_key (l : SkipList Key) (key : Key) (height : Nat) (m : NodeId) :
    (l.newNode key height).2.key m = if m = l.count then key else l.key m := by
  by_cases hm : m = l.count
  · subst hm
    simp [newNode]
  · simp [newNode, hm]

/-- Memory changes that the invariant does not see: published slots and keys are as before, no node is
    lost, and the height stays within its bounds. -/
theorem Threaded.frame (h : Threaded l T) {l' : SkipList Key} (hcount : l.count ≤ l'.count)
    (hnext : ∀ i, ∀ n ∈ T i, l'.next n i = l.next n i) (hkey : ∀ n, n < l.count → l'.key n = l.key n)
    (h1 : 1 ≤ l'.maxHeight) (h2 : l'.maxHeight ≤ kMaxHeight) : Threaded l' T where
  one_le := h1
  le_max := h2
  head_mem := h.head_mem
  nodup := h.nodup
  alloc := fun i n hn => Nat.lt_of_lt_of_le (h.alloc i n hn) hcount
  sub := h.sub
  init := fun i n hn => by rw [hnext i n hn]; exact h.init i n hn
  fwd := fun i a ha b hab => h.fwd i a ha b ((hnext i a ha).symm.trans hab)
  first := h.first
  linked := h.linked.congr (hnext 0)
  sorted := by
    refine h.sorted.imp_of_mem ?_
    intro a b ha hb hab
    have ha' := h.alloc 0 a (List.mem_of_mem_tail ha)
    have hb' := h.alloc 0 b (List.mem_of_mem_tail hb)
    unfold InOrder
    rw [hkey a ha', hkey b hb']
    exact hab

/-- Allocating a node keeps the invariant: no published node is touched. -/
theorem Threaded.newNode (h : Threaded l T) (key : Key) (height : Nat) :
    Threaded (l.newNode key height).2 T := by
  refine h.frame (Nat.le_succ _) ?_ ?_ h.one_le h.le_max
  · intro i n hn
    rw [newNode_next, if_neg (Nat.ne_of_lt (h.alloc i n hn))]
  · intro n hn
    rw [newNode_key, if_neg (Nat.ne_of_lt hn)]

/-- Setting a link of a node that is not yet published on that level keeps the invariant. -/
theorem Threaded.setOwn (h : Threaded l T) {x : NodeId} {i : Nat} (succ : Option NodeId) (hx : x ∉ T i) :
    Threaded (l.setNext x i succ) T := by
  refine h.frame (Nat.le_refl _) ?_ (fun _ _ => rfl) h.one_le h.le_max
  intro j n hn
  rw [setNext_next, if_neg]
  rintro ⟨rfl, rfl⟩
  exact hx hn

/-- The published nodes after `x` has been linked behind `p` on level `i`. -/
def linkAt (T : Nat → List NodeId) (i : Nat) (p x : NodeId) : Nat → List NodeId :=
  Function.update T i (insertAfter p x (T i))

omit [Comparator Key] in
theorem linkAt_same (T : Nat → List NodeId) (i : Nat) (p x : NodeId) :
    linkAt T i p x i = insertAfter p x (T i) := Function.update_self ..

omit [Comparator Key] in
theorem linkAt_other (T : Nat → List NodeId) {i j : Nat} (p x : NodeId) (hj : j ≠ i) :
    linkAt T i p x j = T j := Function.update_of_ne hj _ _

omit [Comparator Key] in
/-- Linking a node only adds it. -/
theorem sublist_linkAt (T : Nat → List NodeId) (i j : Nat) (p x : NodeId) :
    (T j).Sublist (linkAt T i p x j) := by
  by_cases hj : j = i
  · subst hj
    rw [linkAt_same]
    exact sublist_insertAfter p x (T j)
  · rw [linkAt_other T p x hj]

omit [Comparator Key] in
theorem mem_linkAt {T : Nat → List NodeId} {i j : Nat} {p x n : NodeId} (hp : p ∈ T i) :
    n ∈ linkAt T i p x j ↔ (j = i ∧ n = x) ∨ n ∈ T j := by
  by_cases hj : j = i
  · subst hj
    rw [linkAt_same, mem_insertAfter hp]
    simp
  · rw [linkAt_other T p x hj]
    simp [hj]

/-- Inserting a node where its key belongs keeps level 0 sorted. -/
theorem Threaded.sorted_insertAfter [LawfulComparator Key] (h : Threaded l T) {p x : NodeId}
    (hlast : l.LastBelow T (l.key x) 0 p) : (insertAfter p x (T 0)).tail.Pairwise l.InOrder := by
  obtain ⟨A, B, hT, _, hA, hB, _, hins⟩ := h.cut hlast
  have hsorted : (A ++ B).Pairwise l.InOrder := by
    have hs := h.sorted
    rw [hT] at hs
    exact hs
  obtain ⟨h1, h2, h3⟩ := List.pairwise_append.mp hsorted
  rw [hins x]
  refine List.pairwise_append.mpr ⟨h1, List.pairwise_cons.mpr ⟨hB, h2⟩, ?_⟩
  intro n hn b hb
  rcases List.mem_cons.mp hb with rfl | hb
  · exact LawfulComparator.asymm _ _ (hA n hn)
  · exact h3 n hn b hb

/-- **Publication.** Linking `x` behind `p` on level `i` keeps the invariant: `x` already points behind `p`
    and is published on the level below; on level 0 it is also the place where its key belongs, and `p`
    still points where `x` does. -/
theorem Threaded.publish [LawfulComparator Key] (h : Threaded l T) {p x : NodeId} {i : Nat}
    {succ : Option NodeId} (hp : p ∈ T i) (hx : x ∉ T i) (hxc : x < l.count)
    (hlow : ∀ j, i = j + 1 → x ∈ T j) (hown : l.next x i = some succ)
    (hfwd : ∀ b, succ = some b → Precedes (T i) p b)
    (hbase : i = 0 → l.LastBelow T (l.key x) 0 p ∧ l.next p 0 = some succ) :
    Threaded (l.setNext p i (some x)) (linkAt T i p x) := by
  have hxp : x ≠ p := fun e => hx (e ▸ hp)
  have hslot : ∀ m j, ¬ (m = p ∧ j = i) → (l.setNext p i (some x)).next m j = l.next m j :=
    fun m j hmj => by rw [setNext_next, if_neg hmj]
  have hnew : (l.setNext p i (some x)).next p i = some (some x) := by
    rw [setNext_next, if_pos ⟨rfl, rfl⟩]
  constructor
  case one_le => exact h.one_le
  case le_max => exact h.le_max
  case head_mem => exact fun j hj => (mem_linkAt hp).mpr (Or.inr (h.head_mem j hj))
  case nodup =>
    intro j
    by_cases hj : j = i
    · subst hj
      rw [linkAt_same]
      exact nodup_insertAfter (h.nodup j) hx
    · rw [linkAt_other T p x hj]
      exact h.nodup j
  case alloc =>
    intro j n hn
    rcases (mem_linkAt hp).mp hn with ⟨_, rfl⟩ | hn
    · exact hxc
    · exact h.alloc j n hn
  case sub =>
    intro j n hn
    rcases (mem_linkAt hp).mp hn with ⟨hj, rfl⟩ | hn
    · exact (mem_linkAt hp).mpr (Or.inr (hlow j hj.symm))
    · exact (mem_linkAt hp).mpr (Or.inr (h.sub j n hn))
  case init =>
    intro j n hn
    by_cases hnp : n = p ∧ j = i
    · obtain ⟨rfl, rfl⟩ := hnp
      rw [hnew]
      simp
    · rw [hslot n j hnp]
      rcases (mem_linkAt hp).mp hn with ⟨rfl, rfl⟩ | hn
      · rw [hown]
        simp
      · exact h.init j n hn
  case fwd =>
    intro j
    by_cases hj : j = i
    · subst hj
      rw [linkAt_same]
      refine (h.fwd j).insertAfter (h.nodup j) hx hp ?_ hnew ?_
      · exact fun a _ hap => hslot a j (fun e => hap e.1)
      · intro b hb
        have hxj : (l.setNext p j (some x)).level j x = some succ :=
          (hslot x j (fun e => hxp e.1)).trans hown
        rw [hxj] at hb
        exact hfwd b (Option.some.inj hb)
    · rw [linkAt_other T p x hj]
      intro a ha b hab
      exact h.fwd j a ha b ((hslot a j (fun e => hj e.2)).symm.trans hab)
  case first =>
    by_cases hi : 0 = i
    · subst hi
      rw [linkAt_same, head?_insertAfter]
      exact h.first
    · rw [linkAt_other T p x hi]
      exact h.first
  case linked =>
    by_cases hi : 0 = i
    · subst hi
      rw [linkAt_same]
      refine h.linked.insertAfter hp ?_ hnew (fun a _ hap => hslot a 0 (fun e => hap e.1))
      exact (hslot x 0 (fun e => hxp e.1)).trans (hown.trans (hbase rfl).2.symm)
    · rw [linkAt_other T p x hi]
      exact h.linked.congr (fun a _ => hslot a 0 (fun e => hi e.2))
  case sorted =>
    by_cases hi : 0 = i
    · subst hi
      rw [linkAt_same]
      exact h.sorted_insertAfter (hbase rfl).1
    · rw [linkAt_other T p x hi]
      exact h.sorted

end ZhiCache.SkipList
