import Mathlib.Algebra.BigOperators.Ring.Finset
import Mathlib.Algebra.Order.BigOperators.Group.Finset
import Mathlib.Algebra.Order.Ring.Int

/-!
# `Lib.Machines` — machines that share counters and locks

A system of machines `pc : ι → α`, each known by the place `pc i` where it stands.

- **Counters.** For finitely many machines, a quantity to which each contributes what its place says is the sum
  of these weights (`tally`). When one machine moves, the sum changes by the difference of the two weights
  (`tally_update`), so that an equation between tallies and shared variables is kept by a step when it is kept
  by the weights of that one machine.
- **Locks.** A lock that names its owner, and places that hold it: `Owned lock holds pc`. A machine that moves
  takes the lock, gives it back, or does neither.
- **Wait chains.** Machines that put themselves into a chain and stop, and machines that take others out of it
  and make them ready: `WaitChain`. Nobody is forgotten, and nobody is made ready twice.
-/

namespace Lib

variable {ι α : Type*} [Fintype ι] {w : α → Int} {pc : ι → α}

/-- The sum of what the machines contribute. -/
def tally (w : α → Int) (pc : ι → α) : Int := ∑ i, w (pc i)

theorem tally_const (w : α → Int) (a : α) : tally w (fun _ : ι => a) = Fintype.card ι * w a := by
  simp [tally]

theorem tally_add (w w' : α → Int) (pc : ι → α) :
    tally (fun a => w a + w' a) pc = tally w pc + tally w' pc :=
  Finset.sum_add_distrib

theorem tally_nonneg (hw : ∀ a, 0 ≤ w a) (pc : ι → α) : 0 ≤ tally w pc :=
  Finset.sum_nonneg (fun i _ => hw (pc i))

theorem tally_le_card {n : Int} (hw : ∀ a, w a ≤ n) (pc : ι → α) : tally w pc ≤ n * Fintype.card ι := by
  have h : tally w pc ≤ ∑ _i : ι, n := Finset.sum_le_sum (fun i _ => hw (pc i))
  rwa [Finset.sum_const, Finset.card_univ, nsmul_eq_mul, mul_comm] at h

/-- With a machine that contributes nothing, the sum is less than what all could contribute. -/
theorem tally_lt_card (hw : ∀ a, w a ≤ 1) {pc : ι → α} {i : ι} (hi : w (pc i) = 0) :
    tally w pc < Fintype.card ι := by
  have h : tally w pc < ∑ _i : ι, (1 : Int) :=
    Finset.sum_lt_sum (fun j _ => hw (pc j)) ⟨i, Finset.mem_univ i, by omega⟩
  simpa using h

/-- A machine contributes no more than all of them. -/
theorem le_tally (hw : ∀ a, 0 ≤ w a) (pc : ι → α) (i : ι) : w (pc i) ≤ tally w pc :=
  Finset.single_le_sum (f := fun i => w (pc i)) (fun j _ => hw (pc j)) (Finset.mem_univ i)

/-- Where something is contributed, some machine does. -/
theorem exists_of_tally_pos (h : 0 < tally w pc) : ∃ i, 0 < w (pc i) := by
  by_contra hno
  have hle : tally w pc ≤ 0 := Finset.sum_nonpos (fun i _ => not_lt.mp (fun hi => hno ⟨i, hi⟩))
  omega

theorem tally_eq_zero (h : ∀ i, w (pc i) = 0) : tally w pc = 0 :=
  Finset.sum_eq_zero (fun i _ => h i)

/-- Where nobody contributes more than before and one machine contributes less, the sum is less. -/
theorem tally_lt {pc' : ι → α} {i : ι} (h : ∀ j, w (pc' j) ≤ w (pc j)) (hi : w (pc' i) < w (pc i)) :
    tally w pc' < tally w pc :=
  Finset.sum_lt_sum (fun j _ => h j) ⟨i, Finset.mem_univ i, hi⟩

variable [DecidableEq ι]

/-- **One machine moves.** -/
theorem tally_update (w : α → Int) (pc : ι → α) (i : ι) (a : α) :
    tally w (Function.update pc i a) = tally w pc - w (pc i) + w a := by
  have hsplit : tally w pc = w (pc i) + ∑ j ∈ Finset.univ.erase i, w (pc j) :=
    (Finset.add_sum_erase Finset.univ (fun j => w (pc j)) (Finset.mem_univ i)).symm
  have hsplit' : tally w (Function.update pc i a)
      = w (Function.update pc i a i) + ∑ j ∈ Finset.univ.erase i, w (Function.update pc i a j) :=
    (Finset.add_sum_erase Finset.univ (fun j => w (Function.update pc i a j)) (Finset.mem_univ i)).symm
  have hothers : ∑ j ∈ Finset.univ.erase i, w (Function.update pc i a j)
      = ∑ j ∈ Finset.univ.erase i, w (pc j) := by
    apply Finset.sum_congr rfl
    intro j hj
    rw [Function.update_of_ne (Finset.ne_of_mem_erase hj)]
  rw [hsplit', hothers, Function.update_self, hsplit]
  omega

/-- Two machines contribute no more than all of them. -/
theorem add_le_tally (hw : ∀ a, 0 ≤ w a) (pc : ι → α) {i j : ι} (hij : i ≠ j) :
    w (pc i) + w (pc j) ≤ tally w pc := by
  have hpair : ∑ k ∈ {i, j}, w (pc k) ≤ tally w pc :=
    Finset.sum_le_sum_of_subset_of_nonneg (Finset.subset_univ _) (fun k _ _ => hw (pc k))
  rwa [Finset.sum_pair hij] at hpair

/-- What a machine shows is as it was when the one that moves shows the same as before. -/
theorem shown_update {ι α β : Type*} [DecidableEq ι] {f : α → β} {pc : ι → α} {i : ι} {a : α}
    (ha : f a = f (pc i)) (j : ι) : f (Function.update pc i a j) = f (pc j) := by
  by_cases hj : j = i
  · subst hj
    rw [Function.update_self, ha]
  · rw [Function.update_of_ne hj]

/-! ## Locks -/

/-- The machines that hold the lock are those standing where it is held: none, or the one owner. -/
def Owned {ι α : Type*} (lock : Option ι) (holds : α → Bool) (pc : ι → α) : Prop :=
  ∀ i, lock = some i ↔ holds (pc i) = true

section Owned

variable {ι α : Type*} [DecidableEq ι] {lock : Option ι} {holds : α → Bool} {pc : ι → α} {i : ι} {a : α}

/-- A move that neither takes the lock nor gives it back. -/
theorem Owned.move (h : Owned lock holds pc) (ha : holds a = holds (pc i)) :
    Owned lock holds (Function.update pc i a) := by
  intro j
  rw [shown_update ha]
  exact h j

theorem Owned.acquire (h : Owned none holds pc) (ha : holds a = true) :
    Owned (some i) holds (Function.update pc i a) := by
  intro j
  by_cases hj : j = i
  · subst hj
    rw [Function.update_self]
    exact iff_of_true rfl ha
  · rw [Function.update_of_ne hj, ← h j]
    exact iff_of_false (fun e => hj (Option.some.inj e).symm) (by simp)

theorem Owned.release (h : Owned lock holds pc) (hi : holds (pc i) = true) (ha : holds a = false) :
    Owned none holds (Function.update pc i a) := by
  have hlock : lock = some i := (h i).mpr hi
  intro j
  by_cases hj : j = i
  · subst hj
    rw [Function.update_self, ha]
    simp
  · rw [Function.update_of_ne hj, ← h j, hlock]
    exact iff_of_false (by simp) (fun e => hj (Option.some.inj e).symm)

omit [DecidableEq ι] in
/-- There is one owner at most. -/
theorem Owned.unique (h : Owned lock holds pc) {j : ι} (hi : holds (pc i) = true) (hj : holds (pc j) = true) :
    i = j :=
  Option.some.inj (((h i).mpr hi).symm.trans ((h j).mpr hj))

omit [DecidableEq ι] in
/-- Where only the owner contributes, the sum is what it contributes. -/
theorem Owned.tally_eq [Fintype ι] (h : Owned lock holds pc) (hi : holds (pc i) = true) {w : α → Int}
    (hw : ∀ a, holds a = false → w a = 0) : tally w pc = w (pc i) := by
  refine Finset.sum_eq_single_of_mem i (Finset.mem_univ i) (fun j _ hj => hw _ ?_)
  rw [Bool.eq_false_iff]
  exact fun hj' => hj (h.unique hj' hi)

omit [DecidableEq ι] in
/-- Where only the owner contributes, there is nothing while the lock is free. -/
theorem Owned.tally_eq_zero [Fintype ι] (h : Owned none holds pc) {w : α → Int}
    (hw : ∀ a, holds a = false → w a = 0) : tally w pc = 0 := by
  refine Finset.sum_eq_zero (fun j _ => hw _ ?_)
  rw [Bool.eq_false_iff]
  exact fun hj => by cases (h j).mpr hj

end Owned

/-- What can happen to a lock. -/
inductive LockEvent (ι : Type*) where
  | acquire (i : ι)
  | release (i : ι)

/-- **The atomic lock**, as what a lock is meant to be: it is free or has an owner; who finds it free takes it,
    and only the owner gives it back. -/
def lockStep {ι : Type*} [DecidableEq ι] : Option ι → LockEvent ι → Option (Option ι)
  | none, .acquire i => some (some i)
  | some j, .release i => if j = i then some none else none
  | _, _ => none

/-- The state of a reader-writer lock. -/
@[ext] structure RwLock (ι : Type*) where
  readers : Finset ι
  writer : Option ι

/-- What can happen to a reader-writer lock. -/
inductive RwEvent (ι : Type*) where
  | acquireShared (i : ι)
  | releaseShared (i : ι)
  | acquire (i : ι)
  | release (i : ι)

/-- **The atomic reader-writer lock**: readers come in while there is no writer, a writer while there is
    nobody. -/
def rwStep {ι : Type*} [DecidableEq ι] (l : RwLock ι) : RwEvent ι → Option (RwLock ι)
  | .acquireShared i =>
    if l.writer = none ∧ i ∉ l.readers then some { l with readers := insert i l.readers } else none
  | .releaseShared i => if i ∈ l.readers then some { l with readers := l.readers.erase i } else none
  | .acquire i => if l.writer = none ∧ l.readers = ∅ then some { l with writer := some i } else none
  | .release i => if l.writer = some i then some { l with writer := none } else none

/-! ## Wait chains -/

/-- The chain `waiters`. A machine that has put itself into it is `chained` until it is made ready, and may be
    made ready where it is `stopped`; one that has taken others out of the chain and has not made them ready
    yet stands where `waking` names them. -/
structure WaitChain {ι α : Type*} (chained stopped : α → Bool) (waking : α → List ι) (waiters : List ι)
    (pc : ι → α) : Prop where
  nodup : waiters.Nodup
  chain : ∀ j ∈ waiters, chained (pc j) = true
  awake : ∀ j, chained (pc j) = true → j ∈ waiters ∨ ∃ k, j ∈ waking (pc k)
  target : ∀ k, ∀ j ∈ waking (pc k), j ∉ waiters ∧ stopped (pc j) = true
  once : ∀ k, (waking (pc k)).Nodup
  single : ∀ j k k', j ∈ waking (pc k) → j ∈ waking (pc k') → k = k'

section WaitChain

variable {ι α : Type*} [DecidableEq ι] {chained stopped : α → Bool} {waking : α → List ι} {waiters : List ι}
  {pc : ι → α} {i : ι} {a : α}

omit [DecidableEq ι] in
theorem waitChain_start (ha : chained a = false) (hw : waking a = []) :
    WaitChain chained stopped waking ([] : List ι) (fun _ => a) where
  nodup := List.nodup_nil
  chain := fun j hj => absurd hj List.not_mem_nil
  awake := fun j hj => absurd hj (by simp [ha])
  target := fun k j hj => absurd hj (by simp [hw])
  once := fun k => by simp [hw]
  single := fun j k k' hj => absurd hj (by simp [hw])

omit [DecidableEq ι] in
theorem WaitChain.not_mem (h : WaitChain chained stopped waking waiters pc) (hi : chained (pc i) = false) :
    i ∉ waiters := by
  intro hmem
  rw [h.chain i hmem] at hi
  cases hi

/-- A move that has nothing to do with the chain. -/
theorem WaitChain.move (h : WaitChain chained stopped waking waiters pc) (hc : chained a = chained (pc i))
    (hw : waking a = waking (pc i)) (hs : stopped (pc i) = true → stopped a = true) :
    WaitChain chained stopped waking waiters (Function.update pc i a) where
  nodup := h.nodup
  chain := fun j hj => (shown_update hc j).trans (h.chain j hj)
  awake := by
    intro j hj
    rw [shown_update hc] at hj
    simp only [shown_update hw]
    exact h.awake j hj
  target := by
    intro k j hj
    rw [shown_update hw] at hj
    obtain ⟨hout, hstop⟩ := h.target k j hj
    exact ⟨hout, (Function.forall_update_iff pc (fun j a => stopped (pc j) = true → stopped a = true)).mpr
      ⟨hs, fun _ _ => id⟩ j hstop⟩
  once := by
    intro k
    rw [shown_update hw]
    exact h.once k
  single := by
    intro j k k' hk hk'
    rw [shown_update hw] at hk hk'
    exact h.single j k k' hk hk'

/-- A machine puts itself into the chain. -/
theorem WaitChain.add (h : WaitChain chained stopped waking waiters pc) (hi : chained (pc i) = false)
    (hstop : stopped (pc i) = false) (hc : chained a = true) (hw : waking a = waking (pc i)) :
    WaitChain chained stopped waking (waiters ++ [i]) (Function.update pc i a) where
  nodup := by
    rw [List.nodup_append]
    refine ⟨h.nodup, List.nodup_singleton i, ?_⟩
    rintro j hj k hk rfl
    exact h.not_mem hi (List.mem_singleton.mp hk ▸ hj)
  chain := by
    refine (Function.forall_update_iff pc (fun j a => j ∈ waiters ++ [i] → chained a = true)).mpr
      ⟨fun _ => hc, ?_⟩
    intro j hne hj
    rcases List.mem_append.mp hj with hj | hj
    · exact h.chain j hj
    · exact absurd (List.mem_singleton.mp hj) hne
  awake := by
    simp only [shown_update hw]
    refine (Function.forall_update_iff pc (fun j a => chained a = true → j ∈ waiters ++ [i]
      ∨ ∃ k, j ∈ waking (pc k))).mpr ⟨fun _ => Or.inl (by simp), ?_⟩
    intro j _ hj
    exact (h.awake j hj).imp (List.mem_append_left _) id
  target := by
    intro k j hj
    rw [shown_update hw] at hj
    obtain ⟨hout, hj⟩ := h.target k j hj
    have hne : j ≠ i := by
      rintro rfl
      rw [hj] at hstop
      cases hstop
    rw [Function.update_of_ne hne]
    exact ⟨by simp [hout, hne], hj⟩
  once := by
    intro k
    rw [shown_update hw]
    exact h.once k
  single := by
    intro j k k' hk hk'
    rw [shown_update hw] at hk hk'
    exact h.single j k k' hk hk'

/-- A machine takes the first one out of the chain. -/
theorem WaitChain.take {fiber : ι} {rest : List ι}
    (h : WaitChain chained stopped waking (fiber :: rest) pc) (hi : chained (pc i) = false)
    (his : stopped (pc i) = false) (hstop : stopped (pc fiber) = true) (hc : chained a = false)
    (hw : waking a = waking (pc i) ++ [fiber]) :
    WaitChain chained stopped waking rest (Function.update pc i a) := by
  have hin : fiber ∈ fiber :: rest := List.mem_cons_self
  have hne : fiber ≠ i := by
    rintro rfl
    exact h.not_mem hi hin
  have hout : ∀ k, fiber ∉ waking (pc k) := fun k hk => (h.target k fiber hk).1 hin
  -- who wakes whom after the step
  have hwaking : ∀ j k, j ∈ waking (Function.update pc i a k) ↔ j ∈ waking (pc k) ∨ (j = fiber ∧ k = i) := by
    intro j k
    by_cases hk : k = i
    · subst hk
      rw [Function.update_self, hw]
      simp
    · rw [Function.update_of_ne hk]
      simp [hk]
  constructor
  case nodup => exact (List.nodup_cons.mp h.nodup).2
  case chain =>
    intro j hj
    rw [shown_update (hc.trans hi.symm)]
    exact h.chain j (List.mem_cons_of_mem fiber hj)
  case awake =>
    intro j hj
    rw [shown_update (hc.trans hi.symm)] at hj
    rcases h.awake j hj with hj | ⟨k, hk⟩
    · rcases List.mem_cons.mp hj with rfl | hj
      · exact Or.inr ⟨i, (hwaking j i).mpr (Or.inr ⟨rfl, rfl⟩)⟩
      · exact Or.inl hj
    · exact Or.inr ⟨k, (hwaking j k).mpr (Or.inl hk)⟩
  case target =>
    intro k j hj
    rcases (hwaking j k).mp hj with hk | ⟨rfl, rfl⟩
    · obtain ⟨hnot, hjs⟩ := h.target k j hk
      have hji : j ≠ i := by
        rintro rfl
        rw [hjs] at his
        cases his
      rw [Function.update_of_ne hji]
      exact ⟨fun hrest => hnot (List.mem_cons_of_mem fiber hrest), hjs⟩
    · rw [Function.update_of_ne hne]
      exact ⟨(List.nodup_cons.mp h.nodup).1, hstop⟩
  case once =>
    refine (Function.forall_update_iff pc (fun _ a => (waking a).Nodup)).mpr ⟨?_, fun k _ => h.once k⟩
    rw [hw, List.nodup_append]
    refine ⟨h.once i, List.nodup_singleton fiber, ?_⟩
    rintro j hj k hk rfl
    exact hout i (List.mem_singleton.mp hk ▸ hj)
  case single =>
    intro j k k' hk hk'
    rcases (hwaking j k).mp hk with hold | ⟨hj, hki⟩
    · rcases (hwaking j k').mp hk' with hold' | ⟨hj, -⟩
      · exact h.single j k k' hold hold'
      · exact absurd (hj ▸ hold) (hout k)
    · rcases (hwaking j k').mp hk' with hold' | ⟨-, hki'⟩
      · exact absurd (hj ▸ hold') (hout k')
      · exact hki.trans hki'.symm

/-- A machine makes one of those that it has taken out of the chain ready. -/
theorem WaitChain.ready {fiber : ι} {rest : List ι} {b : α} (h : WaitChain chained stopped waking waiters pc)
    (hi : waking (pc i) = fiber :: rest) (hne : fiber ≠ i) (hca : chained a = chained (pc i))
    (hsa : stopped (pc i) = true → stopped a = true) (hwa : waking a = rest)
    (hcb : chained b = false) (hwf : waking (pc fiber) = []) (hwb : waking b = []) :
    WaitChain chained stopped waking waiters (Function.update (Function.update pc fiber b) i a) := by
  have hin : fiber ∈ waking (pc i) := by simp [hi]
  have hout : fiber ∉ waiters := (h.target i fiber hin).1
  have hrest : fiber ∉ rest ∧ rest.Nodup := List.nodup_cons.mp (hi ▸ h.once i)
  have hwaking : ∀ j k, j ∈ waking (Function.update (Function.update pc fiber b) i a k)
      ↔ j ∈ waking (pc k) ∧ j ≠ fiber := by
    intro j k
    by_cases hki : k = i
    · subst hki
      rw [Function.update_self, hwa, hi]
      constructor
      · intro hj
        exact ⟨List.mem_cons_of_mem fiber hj, fun e => hrest.1 (e ▸ hj)⟩
      · rintro ⟨hj, hjf⟩
        exact (List.mem_cons.mp hj).resolve_left hjf
    · rw [Function.update_of_ne hki, shown_update (hwb.trans hwf.symm)]
      refine (and_iff_left_of_imp ?_).symm
      rintro hj rfl
      exact hki (h.single j k i hj hin)
  have hchained : ∀ j, chained (Function.update (Function.update pc fiber b) i a j) = true
      ↔ chained (pc j) = true ∧ j ≠ fiber := by
    intro j
    by_cases hji : j = i
    · subst hji
      rw [Function.update_self, hca]
      exact (and_iff_left (Ne.symm hne)).symm
    · rw [Function.update_of_ne hji]
      by_cases hjf : j = fiber
      · subst hjf
        rw [Function.update_self, hcb]
        simp
      · rw [Function.update_of_ne hjf]
        exact (and_iff_left hjf).symm
  constructor
  case nodup => exact h.nodup
  case chain => exact fun j hj => (hchained j).mpr ⟨h.chain j hj, fun e => hout (e ▸ hj)⟩
  case awake =>
    intro j hj
    obtain ⟨hj, hjf⟩ := (hchained j).mp hj
    exact (h.awake j hj).imp id (fun ⟨k, hk⟩ => ⟨k, (hwaking j k).mpr ⟨hk, hjf⟩⟩)
  case target =>
    intro k j hj
    obtain ⟨hk, hjf⟩ := (hwaking j k).mp hj
    obtain ⟨hnot, hstop⟩ := h.target k j hk
    refine ⟨hnot, ?_⟩
    by_cases hji : j = i
    · subst hji
      rw [Function.update_self]
      exact hsa hstop
    · rwa [Function.update_of_ne hji, Function.update_of_ne hjf]
  case once =>
    refine (Function.forall_update_iff (Function.update pc fiber b) (fun _ a => (waking a).Nodup)).mpr ⟨?_, ?_⟩
    · rw [hwa]
      exact hrest.2
    · intro k _
      rw [shown_update (hwb.trans hwf.symm)]
      exact h.once k
  case single =>
    intro j k k' hk hk'
    exact h.single j k k' ((hwaking j k).mp hk).1 ((hwaking j k').mp hk').1

end WaitChain

end Lib
