import Mathlib.Data.List.Induction
import Mathlib.Data.List.Nodup
import Mathlib.Logic.Function.Basic

/-!
# `Lib.WriteLog` — maps as the result of a log of writes

A write `(k, some v)` stores `v` under `k`, a write `(k, none)` removes `k`. Replaying a log of writes on a
map leaves under each key what the **latest** write on that key put there (`replay_apply`); where the log has
no write on a key, the map is as it was. So two stores that started alike agree on a key as soon as their
latest writes on it do, in whatever order the rest was written.
-/

namespace Lib

variable {α κ ν : Type*}

/-! ## The latest element with a property -/

/-- The last element of `l` that satisfies `p`. -/
def latest (p : α → Bool) (l : List α) : Option α := l.reverse.find? p

theorem latest_snoc (p : α → Bool) (l : List α) (a : α) :
    latest p (l ++ [a]) = if p a then some a else latest p l := by
  unfold latest
  rw [List.reverse_append, List.reverse_singleton, List.singleton_append, List.find?_cons]
  cases p a <;> rfl

theorem latest_eq_none_iff {p : α → Bool} {l : List α} :
    latest p l = none ↔ ∀ a ∈ l, p a = false := by
  simp [latest]

theorem latest_some {p : α → Bool} {l : List α} {a : α} (h : latest p l = some a) : a ∈ l ∧ p a = true :=
  ⟨List.mem_reverse.mp (List.mem_of_find?_eq_some h), List.find?_some h⟩

/-- The latest element, by its place in the list. -/
theorem latest_eq_some_iff {p : α → Bool} {l : List α} {a : α} :
    latest p l = some a ↔ p a = true ∧ ∃ l₁ l₂, l = l₁ ++ a :: l₂ ∧ ∀ b ∈ l₂, p b = false := by
  unfold latest
  rw [List.find?_eq_some_iff_append]
  refine and_congr_right (fun _ => ?_)
  constructor
  · rintro ⟨u, w, hl, hu⟩
    refine ⟨w.reverse, u.reverse, ?_, fun b hb => ?_⟩
    · rw [← List.reverse_reverse l, hl]
      simp
    · simpa using hu b (List.mem_reverse.mp hb)
  · rintro ⟨l₁, l₂, rfl, h⟩
    refine ⟨l₂.reverse, l₁.reverse, by simp, fun b hb => ?_⟩
    simpa using h b (List.mem_reverse.mp hb)

/-- Mapping the elements commutes with taking the latest one. -/
theorem latest_map {β : Type*} (f : α → β) (p : β → Bool) (l : List α) :
    latest p (l.map f) = (latest (fun a => p (f a)) l).map f := by
  unfold latest
  rw [← List.map_reverse, List.find?_map]
  rfl

/-- The latest among the elements kept by a filter. -/
theorem latest_filter (p q : α → Bool) (l : List α) :
    latest p (l.filter q) = latest (fun a => q a && p a) l := by
  unfold latest
  rw [← List.filter_reverse, List.find?_filter]
  simp only [Bool.decide_and, Bool.decide_eq_true]

/-- A filter that keeps the latest element leaves it the latest one. -/
theorem latest_filter_of_latest {p q : α → Bool} {l : List α} {a : α} (h : latest p l = some a)
    (hq : q a = true) : latest p (l.filter q) = some a := by
  obtain ⟨hp, l₁, l₂, rfl, hno⟩ := latest_eq_some_iff.mp h
  refine latest_eq_some_iff.mpr ⟨hp, l₁.filter q, l₂.filter q, ?_, fun b hb => hno b (List.mem_filter.mp hb).1⟩
  rw [List.filter_append, List.filter_cons_of_pos hq]

/-- The latest among the images of a partial map, by the place of its origin. -/
theorem latest_filterMap_eq_some_iff {β : Type*} {f : α → Option β} {p : β → Bool} {l : List α} {b : β} :
    latest p (l.filterMap f) = some b ↔
      p b = true ∧ ∃ l₁ a l₂, l = l₁ ++ a :: l₂ ∧ f a = some b ∧ ∀ b' ∈ l₂.filterMap f, p b' = false := by
  rw [latest_eq_some_iff]
  refine and_congr_right (fun _ => ?_)
  constructor
  · rintro ⟨m₁, m₂, hm, hno⟩
    obtain ⟨k₁, k₂, rfl, _, hk₂⟩ := List.filterMap_eq_append_iff.mp hm
    obtain ⟨k₃, a, k₄, rfl, _, ha, rfl⟩ := List.filterMap_eq_cons_iff.mp hk₂
    exact ⟨k₁ ++ k₃, a, k₄, (List.append_assoc k₁ k₃ (a :: k₄)).symm, ha, hno⟩
  · rintro ⟨l₁, a, l₂, rfl, ha, hno⟩
    refine ⟨l₁.filterMap f, l₂.filterMap f, ?_, hno⟩
    rw [List.filterMap_append, List.filterMap_cons_some ha]

/-! ## Replaying a log -/

variable [DecidableEq κ]

/-- The map after one write. -/
def applyWrite (m : κ → Option ν) (w : κ × Option ν) : κ → Option ν := Function.update m w.1 w.2

/-- The map after a log of writes. -/
def replay (m : κ → Option ν) (ws : List (κ × Option ν)) : κ → Option ν := ws.foldl applyWrite m

theorem replay_append (m : κ → Option ν) (ws ws' : List (κ × Option ν)) :
    replay m (ws ++ ws') = replay (replay m ws) ws' :=
  List.foldl_append

theorem replay_snoc (m : κ → Option ν) (ws : List (κ × Option ν)) (w : κ × Option ν) :
    replay m (ws ++ [w]) = Function.update (replay m ws) w.1 w.2 :=
  replay_append m ws [w]

/-- A log has no write on a key, or a latest one. -/
theorem latest_key_cases (ws : List (κ × Option ν)) (k : κ) :
    (latest (fun w => w.1 = k) ws = none ∧ ∀ w ∈ ws, w.1 ≠ k) ∨
      ∃ o, latest (fun w => w.1 = k) ws = some (k, o) ∧ (k, o) ∈ ws := by
  cases hl : latest (fun w : κ × Option ν => w.1 = k) ws with
  | none => exact Or.inl ⟨rfl, fun w hw => of_decide_eq_false (latest_eq_none_iff.mp hl w hw)⟩
  | some w =>
      obtain ⟨hmem, hw⟩ := latest_some hl
      obtain rfl : w.1 = k := of_decide_eq_true hw
      exact Or.inr ⟨w.2, rfl, hmem⟩

/-- **The latest write decides.** -/
theorem replay_apply (m : κ → Option ν) (ws : List (κ × Option ν)) (k : κ) :
    replay m ws k = ((latest (fun w => decide (w.1 = k)) ws).map Prod.snd).getD (m k) := by
  induction ws using List.reverseRecOn with
  | nil => rfl
  | append_singleton ws w ih =>
      rw [replay_snoc, latest_snoc]
      by_cases hk : w.1 = k
      · subst hk
        simp
      · rw [Function.update_of_ne (fun e => hk e.symm), ih]
        simp [hk]

/-- A key without a write keeps its value. -/
theorem replay_of_not_mem {m : κ → Option ν} {ws : List (κ × Option ν)} {k : κ}
    (h : ∀ w ∈ ws, w.1 ≠ k) : replay m ws k = m k := by
  have hnone : latest (fun w : κ × Option ν => decide (w.1 = k)) ws = none :=
    latest_eq_none_iff.mpr (fun w hw => by simpa using h w hw)
  rw [replay_apply, hnone]
  rfl

/-- A key whose latest write is `w`. -/
theorem replay_of_latest {m : κ → Option ν} {ws : List (κ × Option ν)} {k : κ} {w : κ × Option ν}
    (h : latest (fun w => decide (w.1 = k)) ws = some w) : replay m ws k = w.2 := by
  rw [replay_apply, h]
  rfl

/-- What holds of every entry and of everything that is stored holds of every entry afterwards. -/
theorem replay_forall {P : κ → ν → Prop} {m : κ → Option ν} {ws : List (κ × Option ν)}
    (hm : ∀ k v, m k = some v → P k v) (hws : ∀ k v, (k, some v) ∈ ws → P k v) {k : κ} {v : ν}
    (h : replay m ws k = some v) : P k v := by
  rcases latest_key_cases ws k with ⟨-, hno⟩ | ⟨o, hl, hmem⟩
  · rw [replay_of_not_mem hno] at h
    exact hm k v h
  · obtain rfl : o = some v := (replay_of_latest hl).symm.trans h
    exact hws k v hmem

/-- A write that is the only one on its key decides. -/
theorem replay_of_unique {m : κ → Option ν} {ws : List (κ × Option ν)} {w : κ × Option ν} (h : w ∈ ws)
    (huniq : ∀ w' ∈ ws, w'.1 = w.1 → w' = w) : replay m ws w.1 = w.2 := by
  rcases latest_key_cases ws w.1 with ⟨-, hno⟩ | ⟨o, hl, hmem⟩
  · exact absurd rfl (hno w h)
  · rw [replay_of_latest hl, ← huniq _ hmem rfl]

/-- In a log that writes every key at most once, each write is the one that decides. -/
theorem replay_of_mem {m : κ → Option ν} {ws : List (κ × Option ν)} {w : κ × Option ν}
    (hnd : (ws.map Prod.fst).Nodup) (h : w ∈ ws) : replay m ws w.1 = w.2 :=
  replay_of_unique h (fun _ hw' hk => List.inj_on_of_nodup_map hnd hw' h hk)

/-- The order of such a log does not matter. -/
theorem replay_perm {ws ws' : List (κ × Option ν)} (hnd : (ws.map Prod.fst).Nodup) (h : ws.Perm ws')
    (m : κ → Option ν) : replay m ws = replay m ws' := by
  funext k
  by_cases hk : ∃ w ∈ ws, w.1 = k
  · obtain ⟨w, hw, rfl⟩ := hk
    rw [replay_of_mem hnd hw, replay_of_mem ((h.map Prod.fst).nodup hnd) (h.subset hw)]
  · have hno : ∀ w ∈ ws, w.1 ≠ k := fun w hw e => hk ⟨w, hw, e⟩
    rw [replay_of_not_mem hno, replay_of_not_mem (fun w hw => hno w (h.symm.subset hw))]

/-- **Reordering.** A log replays as a permutation of it does exactly when the two have the same latest write on
    every key. -/
theorem replay_eq_iff_of_perm {m : κ → Option ν} {ws ws' : List (κ × Option ν)} (h : ws.Perm ws') :
    replay m ws = replay m ws' ↔
      ∀ k, latest (fun w => decide (w.1 = k)) ws = latest (fun w => decide (w.1 = k)) ws' := by
  constructor
  · intro heq k
    rcases latest_key_cases ws k with ⟨hl, hno⟩ | ⟨o, hl, hmem⟩
    · rcases latest_key_cases ws' k with ⟨hl', -⟩ | ⟨o', -, hmem'⟩
      · rw [hl, hl']
      · exact absurd rfl (hno _ (h.symm.subset hmem'))
    · rcases latest_key_cases ws' k with ⟨-, hno'⟩ | ⟨o', hl', -⟩
      · exact absurd rfl (hno' _ (h.subset hmem))
      · have ho : o = o' := (replay_of_latest (m := m) hl).symm.trans (heq ▸ replay_of_latest hl')
        rw [hl, hl', ho]
  · intro hall
    funext k
    rw [replay_apply, replay_apply, hall k]

/-- Without its removals, a log leaves a key alone that it does not store under. -/
theorem replay_filter_of_not_stored {m : κ → Option ν} {ws : List (κ × Option ν)} {k : κ}
    (h : ∀ v, (k, some v) ∉ ws) : replay m (ws.filter (fun w => w.2.isSome)) k = m k := by
  refine replay_of_not_mem ?_
  rintro ⟨k', o⟩ hw rfl
  obtain ⟨hmem, hsome⟩ := List.mem_filter.mp hw
  obtain ⟨v, rfl⟩ := Option.isSome_iff_exists.mp hsome
  exact h v hmem

/-- Without its removals, a log leaves something under every key that it stores under. -/
theorem replay_filter_of_stored {m : κ → Option ν} {ws : List (κ × Option ν)} {k : κ} {v : ν}
    (h : (k, some v) ∈ ws) : replay m (ws.filter (fun w => w.2.isSome)) k ≠ none := by
  rcases latest_key_cases (ws.filter (fun w => w.2.isSome)) k with ⟨-, hno⟩ | ⟨o, hl, hmem⟩
  · exact absurd rfl (hno (k, some v) (List.mem_filter.mpr ⟨h, rfl⟩))
  · rw [replay_of_latest hl]
    exact Option.isSome_iff_ne_none.mp (List.mem_filter.mp hmem).2

/-- **Losing the removals.** A log replays as it does without its removals exactly when no key ends up removed
    that was there before or was stored on the way. -/
theorem replay_filter_isSome_iff {m : κ → Option ν} {ws : List (κ × Option ν)} :
    replay m (ws.filter (fun w => w.2.isSome)) = replay m ws ↔
      ∀ k, latest (fun w => decide (w.1 = k)) ws = some (k, none) → m k = none ∧ ∀ v, (k, some v) ∉ ws := by
  constructor
  · intro heq k hk
    have hnone : replay m (ws.filter (fun w => w.2.isSome)) k = none := by
      rw [heq]
      exact replay_of_latest hk
    have hno : ∀ v, (k, some v) ∉ ws := fun v hv => replay_filter_of_stored hv hnone
    exact ⟨(replay_filter_of_not_stored hno).symm.trans hnone, hno⟩
  · intro h
    funext k
    rcases latest_key_cases ws k with ⟨-, hno⟩ | ⟨o, hl, -⟩
    · rw [replay_of_not_mem hno, replay_of_not_mem (fun w hw => hno w (List.mem_filter.mp hw).1)]
    · rw [replay_of_latest hl]
      cases o with
      | none =>
          obtain ⟨hm, hno⟩ := h k hl
          exact (replay_filter_of_not_stored hno).trans hm
      | some v => exact replay_of_latest (latest_filter_of_latest hl rfl)

end Lib
