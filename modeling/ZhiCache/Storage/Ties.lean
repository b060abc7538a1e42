import ZhiCache.Storage.Zset

/-!
# `Storage.Ties` — members of equal score, and the order in which they were added

The comparator of the skip list looks at scores only, and `Insert` puts a node before every node that is not
smaller. Among members of equal score the one added last therefore comes first (`filter_plainKeys`). A
sorted list is determined by its elements of each score (`eq_of_classes`), so two orders of adding the same
pairs give the same answers exactly when they agree, for every score, on the order of the pairs with that
score (`range_order_iff`).
-/

namespace ZhiCache

open Lib SkipList

/-! ## Sorted lists and their classes of ties -/

section Classes

variable {α β : Type} [DecidableEq β] {f : α → β} {r : β → β → Prop}

/-- The head of a sorted list is not after the head of another one with the same classes. -/
theorem head_le_of_classes {a b : α} {L L' : List α} (hL : (a :: L).Pairwise (fun x y => r (f x) (f y)))
    (hrefl : ∀ x, r x x) (h : ∀ k, (a :: L).filter (fun x => f x = k) = (b :: L').filter (fun x => f x = k)) :
    r (f a) (f b) := by
  have hb : b ∈ (a :: L).filter (fun x => f x = f b) := by
    rw [h (f b)]
    simp
  rcases List.mem_cons.mp (List.mem_filter.mp hb).1 with rfl | hmem
  · exact hrefl _
  · exact (List.pairwise_cons.mp hL).1 b hmem

/-- **A sorted list is determined by its classes.** -/
theorem eq_of_classes (hrefl : ∀ x, r x x) (hanti : ∀ x y, r x y → r y x → x = y) {L L' : List α}
    (hL : L.Pairwise (fun x y => r (f x) (f y))) (hL' : L'.Pairwise (fun x y => r (f x) (f y)))
    (h : ∀ k, L.filter (fun x => f x = k) = L'.filter (fun x => f x = k)) : L = L' := by
  induction L generalizing L' with
  | nil =>
      cases L' with
      | nil => rfl
      | cons b L' => exact absurd (h (f b)) (by simp)
  | cons a L ih =>
      cases L' with
      | nil => exact absurd (h (f a)) (by simp)
      | cons b L' =>
          have hab : f a = f b :=
            hanti _ _ (head_le_of_classes hL hrefl h) (head_le_of_classes hL' hrefl (fun k => (h k).symm))
          -- the heads open the same class, so they are the same element
          have hheads := h (f a)
          rw [List.filter_cons_of_pos (by simp), List.filter_cons_of_pos (by simp [hab])] at hheads
          obtain ⟨rfl, _⟩ := List.cons.inj hheads
          have htails : ∀ k, L.filter (fun x => f x = k) = L'.filter (fun x => f x = k) := by
            intro k
            have hk := h k
            by_cases hak : f a = k
            · rw [List.filter_cons_of_pos (by simp [hak]), List.filter_cons_of_pos (by simp [hak])] at hk
              exact (List.cons.inj hk).2
            · rw [List.filter_cons_of_neg (by simp [hak]), List.filter_cons_of_neg (by simp [hak])] at hk
              exact hk
          rw [ih (List.pairwise_cons.mp hL).2 (List.pairwise_cons.mp hL').2 htails]

end Classes

/-! ## The order of ties -/

/-- Among keys of equal score a new one goes first. -/
theorem filter_plainInsert (keys : List ZsetSkipListNode) (key : ZsetSkipListNode) (score : Int32) :
    (plainInsert keys key).filter (fun k => k.score = score)
      = if key.score = score then key :: keys.filter (fun k => k.score = score)
        else keys.filter (fun k => k.score = score) := by
  induction keys with
  | nil =>
      by_cases hk : key.score = score
      · simp [plainInsert, hk]
      · simp [plainInsert, hk]
  | cons b keys ih =>
      by_cases hle : key.score ≤ b.score
      · have hins : plainInsert (b :: keys) key = key :: b :: keys := by simp [plainInsert, hle]
        rw [hins]
        by_cases hk : key.score = score
        · rw [if_pos hk, List.filter_cons_of_pos (by simp [hk])]
        · rw [if_neg hk, List.filter_cons_of_neg (by simp [hk])]
      · have hins : plainInsert (b :: keys) key = b :: plainInsert keys key := by simp [plainInsert, hle]
        rw [hins]
        by_cases hb : b.score = score
        · -- `b` comes before the new key, so it is not tied with it
          have hk : key.score ≠ score := by
            intro hk
            exact hle (Int32.le_of_eq (hk.trans hb.symm))
          rw [List.filter_cons_of_pos (by simp [hb]), List.filter_cons_of_pos (by simp [hb]), ih, if_neg hk,
            if_neg hk]
        · rw [List.filter_cons_of_neg (by simp [hb]), List.filter_cons_of_neg (by simp [hb]), ih]

namespace Zset

/-- Adding pairs, as operations. -/
def adds (pairs : List ZaddRequest) : List ZsetOp := pairs.map (fun p => .add p.score p.value)

theorem filterMap_adds (pairs : List ZaddRequest) : (adds pairs).filterMap ZsetOp.node = pairs := by
  unfold adds
  rw [List.filterMap_map]
  exact List.filterMap_some

/-- **Ties come out in the reverse of the order in which they were added.** -/
theorem filter_plainKeys (pairs : List ZaddRequest) (score : Int32) :
    (plainKeys (adds pairs)).filter (fun k => k.score = score)
      = (pairs.filter (fun p => p.score = score)).reverse := by
  unfold plainKeys
  rw [filterMap_adds]
  induction pairs using List.reverseRecOn with
  | nil => rfl
  | append_singleton pairs p ih =>
      rw [List.foldl_append, List.foldl_cons, List.foldl_nil, filter_plainInsert, ih, List.filter_append,
        List.reverse_append]
      by_cases hp : p.score = score
      · simp [hp]
      · simp [hp]

/-- When no member is added twice, every pair added is current. -/
theorem mostRecent_adds {pairs : List ZaddRequest} (hd : (pairs.map ZaddRequest.value).Nodup)
    {p : ZaddRequest} (hp : p ∈ pairs) : mostRecent (adds pairs) p.value = some (.add p.score p.value) := by
  have hmem : ZsetOp.add p.score p.value ∈ adds pairs := List.mem_map.mpr ⟨p, hp, rfl⟩
  cases hrec : mostRecent (adds pairs) p.value with
  | none => exact absurd (latest_eq_none_iff.mp hrec _ hmem) (by simp [ZsetOp.value])
  | some op =>
      obtain ⟨hop, hval⟩ := latest_some hrec
      obtain ⟨q, hq, rfl⟩ := List.mem_map.mp hop
      have hqp : q.value = p.value := of_decide_eq_true hval
      rw [List.inj_on_of_nodup_map hd hq hp hqp]

theorem rangeOf_adds {pairs : List ZaddRequest} (hd : (pairs.map ZaddRequest.value).Nodup)
    (minScore maxScore : Int32) :
    rangeOf (adds pairs) minScore maxScore
      = (plainKeys (adds pairs)).filter (fun k => decide (minScore ≤ k.score ∧ k.score ≤ maxScore)) := by
  unfold rangeOf
  refine List.filter_congr ?_
  intro k hk
  have hmem : k ∈ pairs := by
    have hperm := plainKeys_perm (adds pairs)
    rw [filterMap_adds] at hperm
    exact hperm.mem_iff.mp hk
  unfold isCurrent
  simp only [mostRecent_adds hd hmem, and_true]

/-- A single score, as an interval. -/
theorem rangeOf_adds_self {pairs : List ZaddRequest} (hd : (pairs.map ZaddRequest.value).Nodup)
    (score : Int32) :
    rangeOf (adds pairs) score score = (pairs.filter (fun p => p.score = score)).reverse := by
  rw [rangeOf_adds hd, ← filter_plainKeys]
  refine List.filter_congr ?_
  intro k _
  have hiff : (score ≤ k.score ∧ k.score ≤ score) ↔ k.score = score := by
    constructor
    · rintro ⟨hle, hge⟩
      exact Int32.le_antisymm hge hle
    · rintro rfl
      exact ⟨Int32.le_refl _, Int32.le_refl _⟩
  simp only [hiff]

/-- **When the order of adding does not matter.** Pairs with distinct members are added to an empty set in
    two orders. `Range` returns the same list for every interval exactly when, for every score, the two
    orders agree on the order of the pairs with that score. -/
theorem range_order_iff (hash : String → Nat) {pairs pairs' : List ZaddRequest}
    (hd : (pairs.map ZaddRequest.value).Nodup) (hperm : pairs.Perm pairs') :
    ∃ z z', run hash (adds pairs) = some z ∧ run hash (adds pairs') = some z' ∧
      ((∀ minScore maxScore, ∃ L, z.range minScore maxScore = some L ∧ z'.range minScore maxScore = some L) ↔
        ∀ score, pairs.filter (fun p => p.score = score) = pairs'.filter (fun p => p.score = score)) := by
  have hd' : (pairs'.map ZaddRequest.value).Nodup := (hperm.map _).nodup_iff.mp hd
  obtain ⟨z, T, hz, hafter⟩ := run_spec hash (adds pairs)
  obtain ⟨z', T', hz', hafter'⟩ := run_spec hash (adds pairs')
  refine ⟨z, z', hz, hz', ?_, ?_⟩
  · -- asked for one score only, `Range` shows the order of its pairs
    intro hsame score
    obtain ⟨L, hL, hL'⟩ := hsame score score
    rw [hafter.range_eq, rangeOf_adds_self hd] at hL
    rw [hafter'.range_eq, rangeOf_adds_self hd'] at hL'
    exact List.reverse_injective (Option.some.inj (hL.trans hL'.symm))
  · intro hties minScore maxScore
    have hkeys : plainKeys (adds pairs) = plainKeys (adds pairs') := by
      refine eq_of_classes (r := (· ≤ ·)) Int32.le_refl (fun x y => Int32.le_antisymm) hafter.sorted
        hafter'.sorted ?_
      intro score
      rw [filter_plainKeys, filter_plainKeys, hties score]
    refine ⟨_, hafter.range_eq minScore maxScore, ?_⟩
    rw [hafter'.range_eq, rangeOf_adds hd, rangeOf_adds hd', hkeys]

/-- Two members of different scores, added in either order. -/
theorem range_order_without_ties :
    ∃ z z', run String.length (adds [⟨1, "a"⟩, ⟨2, "b"⟩]) = some z ∧
      run String.length (adds [⟨2, "b"⟩, ⟨1, "a"⟩]) = some z' ∧
      ∀ minScore maxScore, ∃ L, z.range minScore maxScore = some L ∧ z'.range minScore maxScore = some L := by
  have hperm : List.Perm [⟨1, "a"⟩, ⟨2, "b"⟩] [(⟨2, "b"⟩ : ZaddRequest), ⟨1, "a"⟩] := List.Perm.swap _ _ _
  obtain ⟨z, z', hz, hz', hiff⟩ := range_order_iff String.length (by decide) hperm
  refine ⟨z, z', hz, hz', hiff.mpr ?_⟩
  intro score
  by_cases h1 : score = 1
  · subst h1
    decide
  · have h1' : ¬ (1 : Int32) = score := fun h => h1 h.symm
    simp [List.filter_cons, h1']

/-- Two members of equal score come back in the reverse of the order in which they were added. -/
theorem range_shows_order_of_ties :
    ¬ ∀ (hash : String → Nat) (pairs pairs' : List ZaddRequest) (minScore maxScore : Int32) (z z' : Zset),
        (pairs.map ZaddRequest.value).Nodup → pairs.Perm pairs' → run hash (adds pairs) = some z →
        run hash (adds pairs') = some z' → z.range minScore maxScore = z'.range minScore maxScore := by
  intro hall
  have hrun : (run String.length (adds [⟨1, "a"⟩, ⟨1, "b"⟩])).bind (fun z => z.range 0 10)
      = some [⟨1, "b"⟩, ⟨1, "a"⟩] := by decide +kernel
  have hrun' : (run String.length (adds [⟨1, "b"⟩, ⟨1, "a"⟩])).bind (fun z => z.range 0 10)
      = some [⟨1, "a"⟩, ⟨1, "b"⟩] := by decide +kernel
  obtain ⟨z, hz, hL⟩ := Option.bind_eq_some_iff.mp hrun
  obtain ⟨z', hz', hL'⟩ := Option.bind_eq_some_iff.mp hrun'
  have hsame := hall _ _ _ 0 10 z z' (by decide) (List.Perm.swap _ _ _) hz hz'
  rw [hL, hL'] at hsame
  exact absurd hsame (by decide)

end Zset

end ZhiCache
