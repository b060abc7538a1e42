import Mathlib.Data.List.Induction
import Mathlib.Logic.Function.Basic

/-!
# `Lib.Run` — runs of a labelled transition system

A system is a partial step function `step : σ → ε → Option σ`: the event `e` is possible in `s` when
`step s e` is defined. `Run step ok s₀ es s` says that the events `es`, in this order, lead from `s₀` to
`s`, and that each of them met the condition `ok` in the state it was taken in. A run carries its events,
so that a property can speak of the history as well as of the state reached. A run is compared with another
system by its `trace`: the steps of the other system that its events stand for, in their order.
-/

namespace Lib

variable {σ ε : Type*}

/-- The events `es` lead from `s₀` to `s`, each one taken in a state where `ok` allows it. -/
inductive Run (step : σ → ε → Option σ) (ok : σ → ε → Prop) (s₀ : σ) : List ε → σ → Prop where
  | nil : Run step ok s₀ [] s₀
  | snoc {es s e s'} : Run step ok s₀ es s → ok s e → step s e = some s' → Run step ok s₀ (es ++ [e]) s'

/-- The condition that allows every event. -/
def always : σ → ε → Prop := fun _ _ => True

variable {step : σ → ε → Option σ} {ok ok' : σ → ε → Prop} {s₀ s : σ} {es : List ε}

/-- **The invariant rule**, for a property of the state and of the events that led to it. What holds at the
    start and is kept by every allowed step holds in every state reached. -/
theorem Run.history {I : List ε → σ → Prop} (h₀ : I [] s₀)
    (hstep : ∀ es s e s', I es s → ok s e → step s e = some s' → I (es ++ [e]) s')
    (h : Run step ok s₀ es s) : I es s := by
  induction h with
  | nil => exact h₀
  | snoc _ hok hs ih => exact hstep _ _ _ _ ih hok hs

/-- The invariant rule, for a property of the state alone. -/
theorem Run.invariant {I : σ → Prop} (h₀ : I s₀)
    (hstep : ∀ s e s', I s → ok s e → step s e = some s' → I s') (h : Run step ok s₀ es s) : I s :=
  Run.history (I := fun _ s => I s) h₀ (fun _ s e s' => hstep s e s') h

/-- The invariant rule with the condition strengthened on the way: an invariant may be used to see that a
    step meets a stronger condition than the one it was taken under. -/
theorem Run.strengthen {I : σ → Prop} (h₀ : I s₀)
    (hstep : ∀ s e s', I s → ok s e → step s e = some s' → I s' ∧ ok' s e) (h : Run step ok s₀ es s) :
    Run step ok' s₀ es s ∧ I s := by
  induction h with
  | nil => exact ⟨.nil, h₀⟩
  | snoc _ hok hs ih =>
      obtain ⟨hI, hok'⟩ := hstep _ _ _ ih.2 hok hs
      exact ⟨.snoc ih.1 hok' hs, hI⟩

/-- **The simulation rule.** When every step of a run, seen through `abs`, is a step of another system or
    nothing at all, the other system has a run to what is seen. -/
theorem Run.simulate {σ' ε' : Type*} {step' : σ' → ε' → Option σ'} {abs : σ → σ'} {I : σ → Prop} (h₀ : I s₀)
    (hstep : ∀ s e s', I s → ok s e → step s e = some s' →
      I s' ∧ (abs s' = abs s ∨ ∃ e', step' (abs s) e' = some (abs s')))
    (h : Run step ok s₀ es s) : I s ∧ ∃ es', Run step' always (abs s₀) es' (abs s) := by
  induction h with
  | nil => exact ⟨h₀, [], .nil⟩
  | snoc _ hok hs ih =>
      obtain ⟨hI, es', hrun⟩ := ih
      obtain ⟨hI', hsame | ⟨e', he'⟩⟩ := hstep _ _ _ hI hok hs
      · exact ⟨hI', es', hsame ▸ hrun⟩
      · exact ⟨hI', es' ++ [e'], hrun.snoc trivial he'⟩

/-- Runs compose. -/
theorem Run.trans {s₁ : σ} {es' : List ε} (h : Run step ok s₀ es s₁) (h' : Run step ok s₁ es' s) :
    Run step ok s₀ (es ++ es') s := by
  induction h' with
  | nil =>
      rw [List.append_nil]
      exact h
  | snoc _ hok hs ih =>
      rw [← List.append_assoc]
      exact .snoc ih hok hs

/-- A step before a run. -/
theorem Run.cons {s₁ : σ} {e : ε} (hok : ok s₀ e) (hs : step s₀ e = some s₁) (h : Run step ok s₁ es s) :
    Run step ok s₀ (e :: es) s :=
  (Run.nil.snoc hok hs).trans h

/-- The last step of a run. -/
theorem Run.last {e : ε} (h : Run step ok s₀ (es ++ [e]) s) :
    ∃ s', Run step ok s₀ es s' ∧ ok s' e ∧ step s' e = some s := by
  generalize hall : es ++ [e] = all at h
  cases h with
  | nil => exact absurd hall (by simp)
  | snoc hrun hok hs =>
      obtain ⟨rfl, he⟩ := List.append_inj' hall rfl
      obtain rfl : e = _ := by simpa using he
      exact ⟨_, hrun, hok, hs⟩

/-- A run passes through a state after each of its prefixes. -/
theorem Run.split {es₁ es₂ : List ε} (h : Run step ok s₀ (es₁ ++ es₂) s) :
    ∃ s₁, Run step ok s₀ es₁ s₁ ∧ Run step ok s₁ es₂ s := by
  induction es₂ using List.reverseRecOn generalizing s with
  | nil =>
      rw [List.append_nil] at h
      exact ⟨s, h, .nil⟩
  | append_singleton es₂ e ih =>
      rw [← List.append_assoc] at h
      obtain ⟨s', hrun, hok, hs⟩ := h.last
      obtain ⟨s₁, hrun₁, hrun₂⟩ := ih hrun
      exact ⟨s₁, hrun₁, .snoc hrun₂ hok hs⟩

/-- The first step of a run. -/
theorem Run.uncons {e : ε} (h : Run step ok s₀ (e :: es) s) :
    ∃ s', ok s₀ e ∧ step s₀ e = some s' ∧ Run step ok s' es s := by
  have hsplit : Run step ok s₀ ([] ++ [e] ++ es) s := h
  obtain ⟨s', hone, hrest⟩ := hsplit.split
  obtain ⟨s'', hnil, hok, hs⟩ := hone.last
  have hstart : s'' = s₀ := by
    generalize hes : ([] : List ε) = es' at hnil
    cases hnil with
    | nil => rfl
    | snoc => exact absurd hes (by simp)
  subst hstart
  exact ⟨s', hok, hs, hrest⟩

/-- A run whose events all have a property is a run under the condition that they have it. -/
theorem Run.of_mem {P : ε → Prop} (h : Run step ok s₀ es s) (hP : ∀ e ∈ es, P e) :
    Run step (fun _ e => P e) s₀ es s := by
  induction h with
  | nil => exact .nil
  | snoc _ _ hs ih =>
      exact .snoc (ih (fun e he => hP e (List.mem_append_left _ he))) (hP _ (by simp)) hs

/-- The run of `es` from `s₀` passes through `s`. -/
def Passes (step : σ → ε → Option σ) (ok : σ → ε → Prop) (s₀ : σ) (es : List ε) (s : σ) : Prop :=
  ∃ es', es' <+: es ∧ Run step ok s₀ es' s

theorem Run.passes (h : Run step ok s₀ es s) : Passes step ok s₀ es s := ⟨es, List.prefix_rfl, h⟩

theorem Passes.mono (h : Passes step ok s₀ es s) (es' : List ε) : Passes step ok s₀ (es ++ es') s := by
  obtain ⟨es₁, hpre, hrun⟩ := h
  exact ⟨es₁, hpre.trans (List.prefix_append es es'), hrun⟩

/-- The invariant rule for runs that have a property in every state they pass through. -/
theorem Run.along {Q I : σ → Prop} (h₀ : I s₀)
    (hstep : ∀ s e s', I s → Q s → ok s e → step s e = some s' → I s') (h : Run step ok s₀ es s)
    (hQ : ∀ s', Passes step ok s₀ es s' → Q s') : I s := by
  induction h with
  | nil => exact h₀
  | snoc hrun hok hs ih =>
      have hQ' : ∀ s', Passes step ok s₀ _ s' → Q s' := fun s' hp => hQ s' (hp.mono _)
      exact hstep _ _ _ (ih hQ') (hQ' _ hrun.passes) hok hs

/-- A run is the execution of its events, so that they determine the state reached. -/
theorem Run.foldlM_eq (h : Run step ok s₀ es s) : es.foldlM step s₀ = some s := by
  induction h with
  | nil => rfl
  | snoc _ _ hs ih =>
      rw [List.foldlM_append, ih]
      simpa using hs

/-! ## What a run shows

An event may stand for a step of another system, depending on the state it is taken in: its label. -/

variable {σ' ε' : Type*}

/-- The labels of an execution of `es`, in the order of the events that have one. -/
def trace (step : σ → ε → Option σ) (label : σ → ε → Option ε') : σ → List ε → List ε'
  | _, [] => []
  | s, e :: es => (step s e).elim [] (fun s' => (label s e).toList ++ trace step label s' es)

theorem trace_append {label : σ → ε → Option ε'} {es₁ es₂ : List ε} (h : es₁.foldlM step s₀ = some s) :
    trace step label s₀ (es₁ ++ es₂) = trace step label s₀ es₁ ++ trace step label s es₂ := by
  induction es₁ generalizing s₀ with
  | nil =>
      have hs : s₀ = s := by simpa using h
      rw [hs, List.nil_append, trace, List.nil_append]
  | cons e es₁ ih =>
      rw [List.foldlM_cons] at h
      obtain ⟨s₁, hs₁, hrest⟩ := Option.bind_eq_some_iff.mp h
      rw [List.cons_append, trace, trace, hs₁, Option.elim_some, Option.elim_some, ih hrest, List.append_assoc]

/-- The step of the other system that a label stands for; no label stands for no step. -/
def stepLabel (step' : σ' → ε' → Option σ') (a : σ') : Option ε' → Option σ'
  | none => some a
  | some e' => step' a e'

/-- **The simulation rule for labels.** When every step of a run keeps a relation to the other system, which
    takes the step of the label, the labels of the run are a run of the other system. -/
theorem Run.trace_run (step' : σ' → ε' → Option σ') (label : σ → ε → Option ε') {R : σ → σ' → Prop} {a₀ : σ'}
    (h₀ : R s₀ a₀)
    (hstep : ∀ s a e s', R s a → ok s e → step s e = some s' →
      ∃ a', stepLabel step' a (label s e) = some a' ∧ R s' a')
    (h : Run step ok s₀ es s) : ∃ a, Run step' always a₀ (trace step label s₀ es) a ∧ R s a := by
  induction h with
  | nil => exact ⟨a₀, .nil, h₀⟩
  | @snoc es s e s' hrun hok hs ih =>
      obtain ⟨a, hrun', hR⟩ := ih
      obtain ⟨a', ha', hR'⟩ := hstep _ _ _ _ hR hok hs
      refine ⟨a', ?_, hR'⟩
      rw [trace_append hrun.foldlM_eq, trace, hs, Option.elim_some, trace, List.append_nil]
      cases hlabel : label s e with
      | none =>
          rw [hlabel] at ha'
          obtain rfl := Option.some.inj ha'
          simpa using hrun'
      | some e' =>
          rw [hlabel] at ha'
          exact hrun'.snoc trivial ha'

/-! ## Executions -/

/-- Executing a list of events one by one, each allowed where it is taken, gives a run. -/
theorem run_of_foldlM [∀ s e, Decidable (ok s e)]
    (h : es.foldlM (fun s e => if ok s e then step s e else none) s₀ = some s) : Run step ok s₀ es s := by
  induction es using List.reverseRecOn generalizing s with
  | nil =>
      have hs : s₀ = s := by simpa using h
      exact hs ▸ .nil
  | append_singleton es e ih =>
      rw [List.foldlM_append] at h
      obtain ⟨t, ht, hs⟩ := Option.bind_eq_some_iff.mp h
      have hs' : (if ok t e then step t e else none) = some s := by simpa using hs
      obtain ⟨hok, hstep⟩ := Option.ite_none_right_eq_some.mp hs'
      exact .snoc (ih ht) hok hstep

/-- Executing a list of events that are allowed anywhere gives a run. -/
theorem run_of_forall (hok : ∀ e ∈ es, ∀ s, ok s e) (h : es.foldlM step s₀ = some s) :
    Run step ok s₀ es s := by
  induction es using List.reverseRecOn generalizing s with
  | nil =>
      have hs : s₀ = s := by simpa using h
      exact hs ▸ .nil
  | append_singleton es e ih =>
      rw [List.foldlM_append] at h
      obtain ⟨t, ht, hs⟩ := Option.bind_eq_some_iff.mp h
      refine .snoc (ih (fun e' he' => hok e' (List.mem_append_left _ he')) ht) (hok e (by simp) t) ?_
      simpa using hs

/-- A state may keep machines under numbers. The machine found after one has been stored is the one stored, or
    an old one. -/
theorem update_cases {α : Type*} {f : Nat → Option α} {w w' : Nat} {a b : α}
    (h : Function.update f w (some a) w' = some b) : (w' = w ∧ b = a) ∨ (w' ≠ w ∧ f w' = some b) := by
  by_cases hww : w' = w
  · subst hww
    rw [Function.update_self] at h
    exact Or.inl ⟨rfl, (Option.some.inj h).symm⟩
  · rw [Function.update_of_ne hww] at h
    exact Or.inr ⟨hww, h⟩

end Lib
