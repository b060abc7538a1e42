import Mathlib.Data.List.Nodup
import Mathlib.Data.List.Infix

/-!
# `Lib.Chain` — singly linked chains in a heap

A heap of nodes is seen through its link function `next : α → Link α`: a slot was never written, holds
null, or holds a node. Nothing here knows what the nodes carry.

## Contents
- **Order inside a list.** `Precedes T a b`: `a` stands before `b` in `T`.
- **Insertion after a node.** `insertAfter p x T`, with the facts a splice needs: what it contains, that
  it only adds `x`, where `x` stands.
- **Forward links.** `Forward next T`: every link out of a node of `T` leads to a later node of `T`. This is
  all that is needed to see that following links terminates.
- **Linked lists.** `Linked next T`: the links visit exactly `T`, in order, and end in null.
-/

namespace Lib

variable {α : Type*}

/-- What a link slot holds: `none` — never written, `some none` — null, `some (some b)` — the node `b`. -/
abbrev Link (α : Type*) := Option (Option α)

/-! ## Order inside a list -/

/-- `a` stands before `b` in `T`. -/
def Precedes (T : List α) (a b : α) : Prop := [a, b].Sublist T

theorem Precedes.mono {T T' : List α} {a b : α} (h : Precedes T a b) (hs : T.Sublist T') :
    Precedes T' a b :=
  List.Sublist.trans h hs

theorem Precedes.mem_left {T : List α} {a b : α} (h : Precedes T a b) : a ∈ T :=
  h.subset (by simp)

theorem Precedes.mem_right {T : List α} {a b : α} (h : Precedes T a b) : b ∈ T :=
  h.subset (by simp)

theorem precedes_cons {T : List α} {a b c : α} :
    Precedes (c :: T) a b ↔ Precedes T a b ∨ (a = c ∧ b ∈ T) := by
  unfold Precedes
  rw [List.sublist_cons_iff]
  constructor
  · rintro (h | ⟨r, hr, hs⟩)
    · exact Or.inl h
    · injection hr with ha hb
      subst hb
      exact Or.inr ⟨ha, List.singleton_sublist.mp hs⟩
  · rintro (h | ⟨rfl, hb⟩)
    · exact Or.inl h
    · exact Or.inr ⟨[b], rfl, List.singleton_sublist.mpr hb⟩

/-- The later of two elements is not the first of the list. -/
theorem Precedes.mem_tail {T : List α} {a b : α} (h : Precedes T a b) : b ∈ T.tail := by
  cases T with
  | nil => exact absurd h.mem_left List.not_mem_nil
  | cons c T =>
      rcases precedes_cons.mp h with h | ⟨_, hb⟩
      · exact h.mem_right
      · exact hb

/-- In a duplicate-free list split at `a`, the nodes after `a` are those of the second part. -/
theorem precedes_split {u w : List α} {a b : α} (hnd : (u ++ a :: w).Nodup) :
    Precedes (u ++ a :: w) a b ↔ b ∈ w := by
  induction u with
  | nil =>
      have ha : a ∉ w := (List.nodup_cons.mp hnd).1
      rw [List.nil_append, precedes_cons]
      constructor
      · rintro (h | ⟨_, hb⟩)
        · exact absurd h.mem_left ha
        · exact hb
      · exact fun hb => Or.inr ⟨rfl, hb⟩
  | cons c u ih =>
      rw [List.cons_append] at hnd ⊢
      obtain ⟨hc, hnd'⟩ := List.nodup_cons.mp hnd
      rw [precedes_cons, ih hnd']
      constructor
      · rintro (hb | ⟨hac, _⟩)
        · exact hb
        · exact absurd (hac ▸ List.mem_append_right u List.mem_cons_self) hc
      · exact Or.inl

/-- The position of a node counts the nodes before it. -/
theorem Precedes.idxOf_lt [DecidableEq α] {T : List α} {a b : α} (h : Precedes T a b) (hnd : T.Nodup) :
    T.idxOf a < T.idxOf b := by
  induction T with
  | nil => exact absurd h.mem_left List.not_mem_nil
  | cons c T ih =>
      obtain ⟨hc, hnd'⟩ := List.nodup_cons.mp hnd
      rcases precedes_cons.mp h with h' | ⟨rfl, hb⟩
      · have hca : c ≠ a := fun e => hc (e ▸ h'.mem_left)
        have hcb : c ≠ b := fun e => hc (e ▸ h'.mem_right)
        rw [List.idxOf_cons_ne _ hca, List.idxOf_cons_ne _ hcb]
        exact Nat.succ_lt_succ (ih h' hnd')
      · have hab : a ≠ b := fun e => hc (e ▸ hb)
        rw [List.idxOf_cons_self, List.idxOf_cons_ne _ hab]
        exact Nat.succ_pos _

/-- A selection from a duplicate-free list that ends in `c` lies within the part up to `c`. -/
theorem sublist_upto {ys u w : List α} {c : α} (hnd : (u ++ c :: w).Nodup)
    (hs : (ys ++ [c]).Sublist (u ++ c :: w)) : (ys ++ [c]).Sublist (u ++ [c]) := by
  have hcw : c ∉ w := by
    rw [List.nodup_append] at hnd
    exact (List.nodup_cons.mp hnd.2.1).1
  have hs' : (ys ++ [c]).Sublist ((u ++ [c]) ++ w) := by simpa using hs
  obtain ⟨l₁, l₂, heq, h₁, h₂⟩ := List.sublist_append_iff.mp hs'
  -- the part taken from `w` ends in `c`, unless it is empty
  rcases List.eq_nil_or_concat l₂ with hnil | ⟨l, d, hd⟩
  · subst hnil
    rw [List.append_nil] at heq
    rw [heq]
    exact h₁
  · exfalso
    subst hd
    rw [List.concat_eq_append, ← List.append_assoc] at heq
    have hdc : [c] = [d] := List.append_inj_right' heq rfl
    injection hdc with hdc
    exact hcw (h₂.subset (by simp [hdc]))

/-! ## Insertion after a node -/

section Insertion

variable [DecidableEq α]

/-- `T` with `x` inserted right after the first occurrence of `p`. -/
def insertAfter (p x : α) : List α → List α
  | [] => []
  | a :: T => if a = p then a :: x :: T else a :: insertAfter p x T

theorem insertAfter_split {p x : α} {u w : List α} (hp : p ∉ u) :
    insertAfter p x (u ++ p :: w) = u ++ p :: x :: w := by
  induction u with
  | nil => simp [insertAfter]
  | cons a u ih =>
      have hap : a ≠ p := fun h => hp (h ▸ List.mem_cons_self)
      have hpu : p ∉ u := fun h => hp (List.mem_cons_of_mem a h)
      simp [insertAfter, hap, ih hpu]

theorem sublist_insertAfter (p x : α) (T : List α) : T.Sublist (insertAfter p x T) := by
  induction T with
  | nil => exact List.Sublist.refl _
  | cons a T ih =>
      unfold insertAfter
      split
      · exact (List.sublist_cons_self x T).cons_cons a
      · exact ih.cons_cons a

theorem mem_insertAfter {p x y : α} {T : List α} (hp : p ∈ T) :
    y ∈ insertAfter p x T ↔ y = x ∨ y ∈ T := by
  obtain ⟨u, w, rfl, hpu⟩ := List.eq_append_cons_of_mem hp
  rw [insertAfter_split hpu]
  simp only [List.mem_append, List.mem_cons]
  tauto

theorem insertAfter_of_not_mem {p x : α} {T : List α} (hp : p ∉ T) : insertAfter p x T = T := by
  induction T with
  | nil => rfl
  | cons a T ih =>
      have hap : a ≠ p := fun h => hp (h ▸ List.mem_cons_self)
      rw [insertAfter, if_neg hap, ih (fun h => hp (List.mem_cons_of_mem a h))]

theorem nodup_insertAfter {p x : α} {T : List α} (hnd : T.Nodup) (hx : x ∉ T) :
    (insertAfter p x T).Nodup := by
  induction T with
  | nil => exact List.nodup_nil
  | cons a T ih =>
      obtain ⟨ha, hnd'⟩ := List.nodup_cons.mp hnd
      have hxa : x ≠ a := fun h => hx (h ▸ List.mem_cons_self)
      have hxT : x ∉ T := fun h => hx (List.mem_cons_of_mem a h)
      by_cases hap : a = p
      · rw [insertAfter, if_pos hap]
        exact List.nodup_cons.mpr ⟨by simp [hxa.symm, ha], List.nodup_cons.mpr ⟨hxT, hnd'⟩⟩
      · rw [insertAfter, if_neg hap]
        refine List.nodup_cons.mpr ⟨fun h => ?_, ih hnd' hxT⟩
        by_cases hp : p ∈ T
        · rcases (mem_insertAfter hp).mp h with h' | h'
          · exact hxa h'.symm
          · exact ha h'
        · -- without `p` nothing is inserted
          have hsame : insertAfter p x T = T := insertAfter_of_not_mem hp
          exact ha (hsame ▸ h)

theorem head?_insertAfter (p x : α) (T : List α) : (insertAfter p x T).head? = T.head? := by
  cases T with
  | nil => rfl
  | cons a T =>
      unfold insertAfter
      split <;> rfl

/-- Right after the insertion, `p` stands before `x`. -/
theorem precedes_insertAfter_left {p x : α} {T : List α} (hp : p ∈ T) :
    Precedes (insertAfter p x T) p x := by
  obtain ⟨u, w, rfl, hpu⟩ := List.eq_append_cons_of_mem hp
  rw [insertAfter_split hpu]
  exact List.Sublist.trans (List.sublist_append_left [p, x] w) (List.sublist_append_right u _)

/-- Whatever stood after `p` stands after the inserted node. -/
theorem precedes_insertAfter_right {p x b : α} {T : List α} (hnd : T.Nodup) (h : Precedes T p b) :
    Precedes (insertAfter p x T) x b := by
  obtain ⟨u, w, rfl, hpu⟩ := List.eq_append_cons_of_mem h.mem_left
  have hb : b ∈ w := (precedes_split hnd).mp h
  rw [insertAfter_split hpu]
  have hxb : Precedes (x :: w) x b := precedes_cons.mpr (Or.inr ⟨rfl, hb⟩)
  exact hxb.mono (List.Sublist.trans (List.sublist_cons_self p _) (List.sublist_append_right u _))

end Insertion

/-! ## Forward links -/

/-- Every link out of a node of `T` leads to a later node of `T`. -/
def Forward (next : α → Link α) (T : List α) : Prop :=
  ∀ a ∈ T, ∀ b, next a = some (some b) → Precedes T a b

/-- Publishing `x` behind `p` keeps the links forward: `x` already points behind `p`, and every link but
    `p`'s is as before. -/
theorem Forward.insertAfter [DecidableEq α] {next next' : α → Link α} {T : List α} {p x : α}
    (h : Forward next T) (hnd : T.Nodup) (hx : x ∉ T) (hp : p ∈ T)
    (hold : ∀ a ∈ T, a ≠ p → next' a = next a) (hpx : next' p = some (some x))
    (hxb : ∀ b, next' x = some (some b) → Precedes T p b) : Forward next' (insertAfter p x T) := by
  intro a ha b hab
  rcases (mem_insertAfter hp).mp ha with rfl | haT
  · exact precedes_insertAfter_right hnd (hxb b hab)
  · by_cases hap : a = p
    · subst hap
      rw [hpx] at hab
      injection hab with hab
      injection hab with hab
      subst hab
      exact precedes_insertAfter_left hp
    · rw [hold a haT hap] at hab
      exact (h a haT b hab).mono (sublist_insertAfter p x T)

/-! ## Linked lists -/

/-- The links visit exactly the nodes of the list, in order, and end in null. -/
def Linked (next : α → Link α) : List α → Prop
  | [] => True
  | [a] => next a = some none
  | a :: b :: T => next a = some (some b) ∧ Linked next (b :: T)

theorem Linked.tail {next : α → Link α} {a : α} {T : List α} (h : Linked next (a :: T)) :
    Linked next T := by
  cases T with
  | nil => trivial
  | cons b T => exact h.2

theorem Linked.suffix {next : α → Link α} {u T : List α} (h : Linked next (u ++ T)) :
    Linked next T := by
  induction u with
  | nil => exact h
  | cons a u ih => exact ih h.tail

/-- The link out of a node of the list: the node that follows it, null at the end. -/
theorem Linked.next_eq {next : α → Link α} {u w : List α} {a : α} (h : Linked next (u ++ a :: w)) :
    next a = some w.head? := by
  have hs : Linked next (a :: w) := h.suffix
  cases w with
  | nil => exact hs
  | cons b w => exact hs.1

/-- A list is linked once the link out of each element is what follows it. -/
theorem linked_of_next_eq {next : α → Link α} {T : List α}
    (h : ∀ u a w, T = u ++ a :: w → next a = some w.head?) : Linked next T := by
  induction T with
  | nil => trivial
  | cons a T ih =>
      have hrest : Linked next T := ih (fun u b w hT => h (a :: u) b w (by rw [hT]; rfl))
      have ha : next a = some T.head? := h [] a T rfl
      cases T with
      | nil => exact ha
      | cons b T => exact ⟨ha, hrest⟩

theorem Linked.congr {next next' : α → Link α} {T : List α} (h : Linked next T)
    (hsame : ∀ a ∈ T, next' a = next a) : Linked next' T := by
  induction T with
  | nil => trivial
  | cons a T ih =>
      have ih' := ih h.tail (fun b hb => hsame b (List.mem_cons_of_mem a hb))
      cases T with
      | nil => exact (hsame a List.mem_cons_self).trans h
      | cons b T => exact ⟨(hsame a List.mem_cons_self).trans h.1, ih'⟩

/-- The nodes that the links visit from a given start are determined. -/
theorem Linked.unique {next : α → Link α} {a : α} {T T' : List α} (h : Linked next (a :: T))
    (h' : Linked next (a :: T')) : T = T' := by
  induction T generalizing a T' with
  | nil =>
      cases T' with
      | nil => rfl
      | cons b T' => exact absurd (h.symm.trans h'.1) (by simp)
  | cons b T ih =>
      cases T' with
      | nil => exact absurd (h'.symm.trans h.1) (by simp)
      | cons b' T' =>
          have hb : b = b' := by simpa using h.1.symm.trans h'.1
          subst hb
          rw [ih h.2 h'.2]

/-- A chain that ends in null visits no node twice: what follows a node is determined, so a repeated node
    would be followed by two lists of different lengths. -/
theorem Linked.nodup {next : α → Link α} {T : List α} (h : Linked next T) : T.Nodup := by
  induction T with
  | nil => exact List.nodup_nil
  | cons a T ih =>
      refine List.nodup_cons.mpr ⟨fun ha => ?_, ih h.tail⟩
      obtain ⟨u, w, rfl⟩ := List.append_of_mem ha
      have hw : Linked next (a :: w) := h.tail.suffix
      have hlen := congrArg List.length (h.unique hw)
      simp only [List.length_append, List.length_cons] at hlen
      omega

theorem Linked.forward {next : α → Link α} {T : List α} (h : Linked next T) : Forward next T := by
  intro a ha b hab
  obtain ⟨u, w, rfl⟩ := List.append_of_mem ha
  have hhead : w.head? = some b := by
    have hn := h.next_eq
    rw [hab] at hn
    exact (Option.some.inj hn).symm
  exact (precedes_split h.nodup).mpr (List.mem_of_head? hhead)

/-- One link on from `a` towards a later node: it is that node, or one before it. -/
theorem Linked.next_towards {next : α → Link α} {T : List α} {a b : α} (h : Linked next T)
    (hab : Precedes T a b) : ∃ c, next a = some (some c) ∧ (b = c ∨ Precedes T c b) := by
  obtain ⟨u, w, rfl⟩ := List.append_of_mem hab.mem_left
  have hb : b ∈ w := (precedes_split h.nodup).mp hab
  cases w with
  | nil => exact absurd hb List.not_mem_nil
  | cons c w =>
      refine ⟨c, h.next_eq, ?_⟩
      rcases List.mem_cons.mp hb with rfl | hb
      · exact Or.inl rfl
      · have hlater : Precedes (c :: w) c b := precedes_cons.mpr (Or.inr ⟨rfl, hb⟩)
        exact Or.inr (hlater.mono ((List.sublist_cons_self a (c :: w)).trans (List.sublist_append_right u _)))

/-- **The splice.** Pointing `x` where `p` pointed and `p` at `x` inserts `x` after `p`. -/
theorem Linked.insertAfter [DecidableEq α] {next next' : α → Link α} {T : List α} {p x : α}
    (h : Linked next T) (hp : p ∈ T) (hxp : next' x = next p) (hpx : next' p = some (some x))
    (hold : ∀ a ∈ T, a ≠ p → next' a = next a) : Linked next' (insertAfter p x T) := by
  induction T with
  | nil => exact absurd hp List.not_mem_nil
  | cons a T ih =>
      have haT : a ∉ T := (List.nodup_cons.mp h.nodup).1
      by_cases hap : a = p
      · subst hap
        rw [Lib.insertAfter, if_pos rfl]
        have htail : Linked next' T :=
          h.tail.congr (fun b hb => hold b (List.mem_cons_of_mem a hb) (fun e => haT (e ▸ hb)))
        refine ⟨hpx, ?_⟩
        cases T with
        | nil => exact hxp.trans h
        | cons b T => exact ⟨hxp.trans h.1, htail⟩
      · have hpT : p ∈ T := (List.mem_cons.mp hp).resolve_left (fun e => hap e.symm)
        rw [Lib.insertAfter, if_neg hap]
        have ih' := ih h.tail hpT (fun b hb => hold b (List.mem_cons_of_mem a hb))
        have hna : next' a = next a := hold a List.mem_cons_self hap
        cases T with
        | nil => exact absurd hpT List.not_mem_nil
        | cons b T =>
            by_cases hbp : b = p
            · rw [Lib.insertAfter, if_pos hbp] at ih' ⊢
              exact ⟨hna.trans h.1, ih'⟩
            · rw [Lib.insertAfter, if_neg hbp] at ih' ⊢
              exact ⟨hna.trans h.1, ih'⟩

end Lib
