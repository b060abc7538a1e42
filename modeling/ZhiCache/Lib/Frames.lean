import ZhiCache.Lib.Machines

/-!
# `Lib.Frames` — fibers as stacks of frames

Each of finitely many fibers has a stack of frames; an access takes the first frame of one stack and puts
other frames in its place. A frame stands for what is still to be done, and what is done once must not be
there twice: `marking` counts the frames of a kind over all stacks, and `effort` bounds how much all frames
together may still do.
-/

namespace Lib

variable {φ F P : Type*} [Fintype φ] [DecidableEq P] {place : F → P} {stack : φ → List F} {f : φ} {x : F}
  {rest : List F}

/-- How many frames of the kind `p` there are. -/
def marking (place : F → P) (stack : φ → List F) (p : P) : Int :=
  tally (fun l => (l.countP (fun x => place x = p) : Int)) stack

theorem marking_push [DecidableEq φ] (h : stack f = x :: rest) (frames : List F) (p : P) :
    marking place (Function.update stack f (frames ++ rest)) p
      = marking place stack p - (if place x = p then 1 else 0) + frames.countP (fun x => place x = p) := by
  unfold marking
  rw [tally_update, h, List.countP_cons, List.countP_append]
  split
  · simp_all
    omega
  · simp_all

theorem marking_nonneg (place : F → P) (stack : φ → List F) (p : P) : 0 ≤ marking place stack p :=
  tally_nonneg (fun _ => Int.natCast_nonneg _) stack

theorem marking_pos (h : x ∈ stack f) : 1 ≤ marking place stack (place x) := by
  have hle := le_tally (w := fun l : List F => (l.countP (fun y => place y = place x) : Int))
    (fun _ => Int.natCast_nonneg _) stack f
  have hpos : 0 < (stack f).countP (fun y => place y = place x) := List.countP_pos_iff.mpr ⟨x, h, by simp⟩
  unfold marking
  omega

theorem marking_eq_zero {p : P} (h : ∀ f, ∀ x ∈ stack f, place x ≠ p) : marking place stack p = 0 := by
  refine tally_eq_zero (fun f => ?_)
  simpa using h f

theorem exists_of_marking_pos {p : P} (h : 1 ≤ marking place stack p) : ∃ f, ∃ x ∈ stack f, place x = p := by
  by_contra hno
  have hzero : marking place stack p = 0 := marking_eq_zero (fun f x hx hp => hno ⟨f, x, hx, hp⟩)
  omega

/-- How much all frames together may still do. -/
def effort (cost : F → Int) (stack : φ → List F) : Int := tally (fun l => (l.map cost).sum) stack

theorem effort_push [DecidableEq φ] (h : stack f = x :: rest) (cost : F → Int) (frames : List F) :
    effort cost (Function.update stack f (frames ++ rest))
      = effort cost stack - cost x + (frames.map cost).sum := by
  unfold effort
  rw [tally_update, h, List.map_append, List.sum_append, List.map_cons, List.sum_cons]
  omega

theorem effort_nonneg {cost : F → Int} (hcost : ∀ f, ∀ x ∈ stack f, 0 ≤ cost x) : 0 ≤ effort cost stack := by
  refine Finset.sum_nonneg (fun f _ => List.sum_nonneg ?_)
  intro a ha
  obtain ⟨x, hx, rfl⟩ := List.mem_map.mp ha
  exact hcost f x hx

omit [Fintype φ] in
/-- What holds of all frames, after an access. -/
theorem forall_push [DecidableEq φ] {S S' : φ → F → Prop} (h : stack f = x :: rest) {frames : List F}
    (hs : ∀ g, ∀ y ∈ stack g, S g y) (hkeep : ∀ g y, S g y → S' g y) (hnew : ∀ y ∈ frames, S' f y) (g : φ) :
    ∀ y ∈ Function.update stack f (frames ++ rest) g, S' g y := by
  intro y hy
  by_cases hg : g = f
  · subst hg
    rw [Function.update_self, List.mem_append] at hy
    rcases hy with hy | hy
    · exact hnew y hy
    · exact hkeep g y (hs g y (by rw [h]; exact List.mem_cons_of_mem x hy))
  · rw [Function.update_of_ne hg] at hy
    exact hkeep g y (hs g y hy)

end Lib
