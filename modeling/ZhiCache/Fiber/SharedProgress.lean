import ZhiCache.Fiber.SharedRuns

/-!
# `Fiber.SharedProgress` — calls of the reader-writer lock come to an end

A call of `SharedMutex` goes its way into the lock or out of it, whatever the other fibers do (`entering_run`,
`leaving_run`). No wake-up is lost. `remaining` bounds what the calls that are under way may still do, those
`compare_exchange`s that fail because the number has changed and the fibers that are woken in vain included;
every access makes it smaller. A `compare_exchange_weak` that fails for no reason is not counted: it changes
nothing, so that a run may do without it (`without_spurious`). Where nobody can go on, whoever waits does so
for a fiber that has the lock and has not given it back (`shared_calls_settle`).
-/

namespace ZhiCache

open Lib

namespace SharedSys

open SharedPc (active waiting leaving draining pending exclusive promised wakeupHeld writerHeld wants chained
  stopped waking notifying Sound)

/-! ## The way through a call -/

section Way

variable {ι : Type}

/-- Where `lock_shared` or `lock` returns. -/
def acquired (shared : Bool) : SharedPc ι := if shared then .reading else .writing

/-- On the way into the lock. -/
def Entering (shared : Bool) : SharedPc ι → Prop
  | .wait what | .test what | .added what | .halting what | .halted what | .resumed what | .passed what =>
    what = .read ↔ shared = true
  | .lock | .subtract => shared = false
  | _ => False

/-- On the way out of the lock. -/
def Leaving : SharedPc ι → Prop
  | .wakeupWriter | .exiting | .unlock | .restore | .grant _ | .notifyAll _ _ | .readyFibers _ _ | .unlockWriter
  | .leave => True
  | _ => False

theorem acquired_cases {P : SharedPc ι → Prop} (hreading : P .reading) (hwriting : P .writing) (shared : Bool) :
    P (acquired shared) := by
  cases shared with
  | true => exact hreading
  | false => exact hwriting

/-- Who has the lock is neither on the way in nor on the way out. -/
theorem acquired_not_way (shared shared' : Bool) :
    ¬ Entering shared' (acquired shared : SharedPc ι) ∧ ¬ Leaving (acquired shared : SharedPc ι)
      ∧ (acquired shared : SharedPc ι) ≠ .idle ∧ ∀ what, (acquired shared : SharedPc ι) ≠ .halted what := by
  refine acquired_cases
    (P := fun pc => ¬ Entering shared' pc ∧ ¬ Leaving pc ∧ pc ≠ .idle ∧ ∀ what, pc ≠ .halted what)
    ?_ ?_ shared <;> exact ⟨id, id, by simp, by simp⟩

variable [Fintype ι] [DecidableEq ι] {s s' : SharedSys ι} {i : ι} {shared : Bool}

theorem entering_run (hrun : s.run i = some s') (h' : s'.Inv) (hi : Entering shared (s.pc i)) :
    Entering shared (s'.pc i) ∨ s'.pc i = acquired shared := by
  have hsound := h'.sound i
  obtain ⟨l, he⟩ : ∃ l, s.Effect i l s' := ⟨_, run_cases hrun⟩
  cases he
  case silent hpc hmove =>
    rw [hpc] at hi
    rw [goto_pc_self]
    cases hmove <;> simp_all [Entering]
  case takeWakeup hpc hmove hfree =>
    rw [hpc] at hi
    refine Or.inl ?_
    show Entering shared ((s.goto i _).pc i)
    rw [goto_pc_self]
    cases hmove <;> simp_all [Entering]
  case giveWakeup hpc hmove =>
    rw [hpc] at hi
    show Entering shared ((s.goto i _).pc i) ∨ (s.goto i _).pc i = _
    rw [goto_pc_self]
    cases hmove <;> simp_all [Entering, acquired]
  case letIn hpc hgranted =>
    rw [hpc] at hi
    exact Or.inl ((goto_pc_self s i _).symm ▸ hi)
  case drained hpc hexited =>
    rw [hpc] at hi
    exact Or.inl ((goto_pc_self s i _).symm ▸ hi)
  case addWaiter hpc hdue =>
    rw [hpc] at hi
    exact Or.inl ((goto_pc_self s i _).symm ▸ hi)
  case resumed hpc =>
    rw [hpc] at hi
    exact Or.inl ((goto_pc_self s i _).symm ▸ hi)
  case takeWriter hpc hmem hfree =>
    rw [hpc] at hi
    simp only [List.mem_cons, Prod.mk.injEq, List.not_mem_nil, or_false] at hmem
    rcases hmem with ⟨rfl, rfl⟩ | ⟨rfl, rfl⟩
    · exact Or.inl ((goto_pc_self s i _).symm ▸ hi)
    · exact hi.elim
  case close hpc hmem hfree =>
    rw [hpc] at hi
    simp only [List.mem_cons, List.not_mem_nil, or_false] at hmem
    rcases hmem with rfl | rfl
    · exact Or.inr ((goto_pc_self s i _).trans (by simp [acquired, show shared = false from hi]))
    · exact hi.elim
  case drain hpc _ _ =>
    rw [hpc] at hi
    refine Or.inl ((goto_pc_self s i _).symm ▸ ?_)
    simp [Entering, show shared = false from hi]
  case badSubtract hpc _ => exact absurd hsound ((goto_pc_self s i _).symm ▸ id)
  case stray hpc _ => exact absurd hsound ((goto_pc_self s i _).symm ▸ id)
  case giveWriter hpc hmem =>
    rw [hpc] at hi
    simp only [List.mem_cons, Prod.mk.injEq, List.not_mem_nil, or_false] at hmem
    rcases hmem with ⟨rfl, rfl⟩ | ⟨rfl, rfl⟩ <;> exact hi.elim
  case look hpc hfrom =>
    rw [hpc] at hi
    rcases hfrom with rfl | ⟨was, rfl, -⟩ <;> exact hi.elim
  case enter hpc hfrom =>
    rw [hpc] at hi
    rcases hfrom with ⟨rfl, -⟩ | rfl <;> exact hi.elim
  all_goals simp_all [Entering]

theorem leaving_run (hrun : s.run i = some s') (h' : s'.Inv) (hi : Leaving (s.pc i)) :
    Leaving (s'.pc i) ∨ s'.pc i = .idle := by
  have hsound := h'.sound i
  obtain ⟨l, he⟩ : ∃ l, s.Effect i l s' := ⟨_, run_cases hrun⟩
  cases he
  case silent hpc hmove =>
    rw [hpc] at hi
    rw [goto_pc_self]
    cases hmove <;> (try cases ‹Notifier›) <;> simp_all [Leaving]
  case takeWakeup hpc hmove hfree =>
    rw [hpc] at hi
    refine Or.inl ?_
    show Leaving ((s.goto i _).pc i)
    rw [goto_pc_self]
    cases hmove <;> simp_all [Leaving]
  case giveWakeup hpc hmove =>
    rw [hpc] at hi
    show Leaving ((s.goto i _).pc i) ∨ (s.goto i _).pc i = _
    rw [goto_pc_self]
    cases hmove <;> simp_all [Leaving]
  case look hpc hfrom =>
    rw [hpc] at hi
    rcases hfrom with rfl | ⟨was, rfl, -⟩ <;> exact hi.elim
  case enter hpc hfrom =>
    rw [hpc] at hi
    rcases hfrom with ⟨rfl, -⟩ | rfl <;> exact hi.elim
  case takeWriter hpc hmem hfree =>
    rw [hpc] at hi
    simp only [List.mem_cons, Prod.mk.injEq, List.not_mem_nil, or_false] at hmem
    rcases hmem with ⟨rfl, rfl⟩ | ⟨rfl, rfl⟩ <;> exact hi.elim
  case giveWriter hpc hmem =>
    rw [hpc] at hi
    simp only [List.mem_cons, Prod.mk.injEq, List.not_mem_nil, or_false] at hmem
    rcases hmem with ⟨rfl, rfl⟩ | ⟨rfl, rfl⟩
    · exact hi.elim
    · exact Or.inl ((goto_pc_self s i _).symm ▸ trivial)
  case close hpc hmem hfree =>
    rw [hpc] at hi
    simp only [List.mem_cons, List.not_mem_nil, or_false] at hmem
    rcases hmem with rfl | rfl <;> exact hi.elim
  all_goals simp_all [Leaving, Sound, goto]

theorem lockShared_way (hstep : s.step (.lockShared i) = some s') (h' : s'.Inv) :
    Entering true (s'.pc i) ∨ s'.pc i = acquired true := by
  have hsound := h'.sound i
  obtain ⟨hpc, ⟨⟩⟩ := Option.ite_none_right_eq_some.mp hstep
  have hi := goto_pc_self s i
    (if 1 < s.readerQuota then (if s.readerQuota ≤ kMaxReaders then .reading else .aborted)
    else if s.readerQuota = 1 then .aborted else .wait .read)
  rw [show (s.lockShared i).pc i = _ from hi] at hsound ⊢
  split_ifs at hsound ⊢
  · exact Or.inr rfl
  · exact hsound.elim
  · exact hsound.elim
  · exact Or.inl (iff_of_true rfl rfl)

omit [Fintype ι] in
theorem lock_way (hstep : s.step (.lock i) = some s') : Entering false (s'.pc i) := by
  obtain ⟨hpc, ⟨⟩⟩ := Option.ite_none_right_eq_some.mp hstep
  rw [goto_pc_self]
  exact rfl

theorem unlockShared_way (hstep : s.step (.unlockShared i) = some s') (h' : s'.Inv) :
    Leaving (s'.pc i) ∨ s'.pc i = .idle := by
  have hsound := h'.sound i
  obtain ⟨hpc, ⟨⟩⟩ := Option.ite_none_right_eq_some.mp hstep
  have hi := goto_pc_self s i
    (if 0 < s.readerQuota then (if s.readerQuota < kMaxReaders then .idle else .aborted)
    else .wakeupWriter)
  rw [show (s.unlockShared i).pc i = _ from hi] at hsound ⊢
  split_ifs at hsound ⊢
  · exact Or.inr rfl
  · exact hsound.elim
  · exact Or.inl trivial

omit [Fintype ι] in
theorem unlock_way (hstep : s.step (.unlock i) = some s') : Leaving (s'.pc i) := by
  obtain ⟨hpc, ⟨⟩⟩ := Option.ite_none_right_eq_some.mp hstep
  rw [goto_pc_self]
  trivial

omit [Fintype ι] in
/-- A fiber that has the lock is not in a call of it. -/
theorem run_of_acquired (hi : s.pc i = acquired shared) : s.run i = none := by
  unfold acquired at hi
  split at hi <;> simp [run, hi]

omit [DecidableEq ι] in
/-- While a fiber writes, nobody else has the lock. -/
theorem Inv.only_writer (h : s.Inv) (hi : s.pc i = .writing) {j : ι} (hj : s.pc j = acquired shared) :
    j = i := by
  cases shared with
  | false => exact h.writer.unique (by rw [hj]; rfl) (by rw [hi]; rfl)
  | true =>
      have hwriting : s.ledger.writing = 1 := by
        rw [(h.alone (i := i) (by rw [hi]; rfl)).2.1, hi]
        rfl
      have hactive : s.ledger.active = 0 := (h.ok.write hwriting).1
      have hle : active (s.pc j) ≤ s.ledger.active := le_tally SharedPc.active_nonneg s.pc j
      rw [hj, hactive] at hle
      exact absurd hle (by simp [acquired])

end Way

/-! ## What is left to do -/

section Rank

variable {ι : Type}

/-- How much the call may still do, among `n` fibers: `notify_all` pays for the fibers that it makes ready,
    and who changes the quota for those who have to read it again. -/
@[simp] def rank (n : Int) : SharedPc ι → Int
  | .idle | .reading | .writing | .halted _ | .aborted => 0
  | .halting _ | .passed _ | .tryFailed | .leave => 1
  | .added _ | .unlockWriter => 2
  | .test _ => 3
  | .wait _ => 4
  | .resumed _ => 5
  | .tryShared _ => n + 1
  | .tryCas => n + 2
  | .tryLoad => n + 3
  | .subtract => n + 5
  | .lock => n + 6
  | .readyFibers _ fibers => 6 * fibers.length + 3
  | .notifyAll _ fibers => 7 * n - fibers.length + 4
  | .exiting | .grant _ => 7 * n + 5
  | .wakeupWriter => 7 * n + 6
  | .restore => 8 * n + 6
  | .unlock => 8 * n + 7

/-- The fiber has read a quota that is not the present one. -/
@[simp] def stale (quota : Int) : SharedPc ι → Int
  | .tryShared was => if was = quota then 0 else 1
  | _ => 0

theorem stale_nonneg (quota : Int) (pc : SharedPc ι) : 0 ≤ stale quota pc := by
  unfold stale
  split
  · split <;> simp
  · simp

theorem stale_le_one (quota : Int) (pc : SharedPc ι) : stale quota pc ≤ 1 := by
  unfold stale
  split
  · split <;> simp
  · simp

end Rank

section Settle

variable {ι : Type} [Fintype ι]

/-- How much all calls may still do. -/
def remaining (s : SharedSys ι) : Int := tally (rank (Fintype.card ι)) s.pc + tally (stale s.readerQuota) s.pc

variable [DecidableEq ι] {s s' : SharedSys ι} {i : ι} {pc a : SharedPc ι}

/-- An access that leaves the quota as it is. -/
theorem remaining_update (hs' : s'.pc = Function.update s.pc i a) (hpc : s.pc i = pc)
    (hquota : s'.readerQuota = s.readerQuota) :
    s'.remaining = s.remaining - rank (Fintype.card ι) pc - stale s.readerQuota pc
      + rank (Fintype.card ι) a + stale s.readerQuota a := by
  rw [remaining, remaining, hs', hquota, tally_update, tally_update, hpc]
  omega

theorem remaining_goto (hpc : s.pc i = pc) (a : SharedPc ι) :
    (s.goto i a).remaining = s.remaining - rank (Fintype.card ι) pc - stale s.readerQuota pc
      + rank (Fintype.card ι) a + stale s.readerQuota a :=
  remaining_update rfl hpc rfl

theorem remaining_same (hs' : s'.pc = Function.update s.pc i a) (hpc : s.pc i = pc)
    (hquota : s'.readerQuota = s.readerQuota)
    (hless : rank (Fintype.card ι) a + stale s.readerQuota a + 1
      ≤ rank (Fintype.card ι) pc + stale s.readerQuota pc) : s'.remaining + 1 ≤ s.remaining := by
  rw [remaining_update hs' hpc hquota]
  omega

/-- An access that changes the quota, so that whoever has read it may have to do so again. -/
theorem remaining_quota (hs' : s'.pc = Function.update s.pc i a) (hpc : s.pc i = pc)
    (hless : rank (Fintype.card ι) a + Fintype.card ι + 1 ≤ rank (Fintype.card ι) pc) :
    s'.remaining + 1 ≤ s.remaining := by
  have hafter := tally_le_card (stale_le_one s'.readerQuota) s'.pc
  have hbefore := tally_nonneg (stale_nonneg s.readerQuota) s.pc
  rw [remaining, remaining]
  have hrank : tally (rank (Fintype.card ι)) s'.pc
      = tally (rank (Fintype.card ι)) s.pc - rank (Fintype.card ι) pc + rank (Fintype.card ι) a := by
    rw [hs', tally_update, hpc]
  omega

omit [DecidableEq ι] in
/-- The list of a fiber that notifies is no longer than there are fibers. -/
theorem Inv.length_waking_le (h : s.Inv) (j : ι) : (waking (s.pc j)).length ≤ Fintype.card ι :=
  (h.waits.once j).length_le_card

/-- **An access of a call brings the calls closer to their ends.** -/
theorem Inv.remaining_effect {l : Option (RwEvent ι)} (h : s.Inv) (he : s.Effect i l s')
    (hidle : s.pc i ≠ .idle)
    (hreading : s.pc i ≠ .reading) (hwriting : s.pc i ≠ .writing) : s'.remaining + 1 ≤ s.remaining := by
  cases he with
  | silent hpc hmove =>
      refine remaining_same rfl hpc rfl ?_
      cases hmove with
      | lock => exact absurd hpc hidle
      | tryLock => exact absurd hpc hidle
      | unlock => exact absurd hpc hwriting
      | tryLoad => simp only [rank, stale]; omega
      | tryLoadFailed => simp only [rank, stale]; omega
      | tryCasFailed => simp only [rank, stale]; omega
      | halt what => simp only [rank, stale]; omega
      | notified who => cases who <;> simp [rank, stale]
  | look hpc hfrom =>
      rcases hfrom with rfl | ⟨was, rfl, hother⟩
      · exact absurd hpc hidle
      · refine remaining_same rfl hpc rfl ?_
        unfold tryShared
        split_ifs <;> simp [hother] <;> omega
  | enter hpc hfrom =>
      rcases hfrom with ⟨rfl, -⟩ | rfl
      · exact absurd hpc hidle
      · exact remaining_quota rfl hpc (by simp only [rank]; omega)
  | queue hpc => exact absurd hpc hidle
  | badEnter hpc => exact absurd hpc hidle
  | exit hpc => exact absurd hpc hreading
  | exitSlow hpc => exact absurd hpc hreading
  | badExit hpc => exact absurd hpc hreading
  | takeWakeup hpc hmove =>
      exact remaining_same rfl hpc rfl (by cases hmove <;> simp only [rank, stale] <;> omega)
  | giveWakeup hpc hmove =>
      exact remaining_same rfl hpc rfl (by cases hmove <;> simp only [rank, stale] <;> omega)
  | letIn hpc => exact remaining_same rfl hpc rfl (by simp only [rank, stale]; omega)
  | drained hpc => exact remaining_same rfl hpc rfl (by simp only [rank, stale]; omega)
  | addWaiter hpc => exact remaining_same rfl hpc rfl (by simp only [rank, stale]; omega)
  | resumed hpc => exact remaining_same rfl hpc rfl (by simp only [rank, stale]; omega)
  | exiting hpc => exact remaining_same rfl hpc rfl (by simp only [rank, stale, List.length_nil]; omega)
  | badExiting hpc => exact remaining_same rfl hpc rfl (by simp only [rank, stale]; omega)
  | takeWriter hpc hmem =>
      simp only [List.mem_cons, Prod.mk.injEq, List.not_mem_nil, or_false] at hmem
      rcases hmem with ⟨rfl, rfl⟩ | ⟨rfl, rfl⟩
      · exact remaining_same rfl hpc rfl (by simp only [rank, stale]; omega)
      · exact absurd hpc hidle
  | giveWriter hpc hmem =>
      simp only [List.mem_cons, Prod.mk.injEq, List.not_mem_nil, or_false] at hmem
      rcases hmem with ⟨rfl, rfl⟩ | ⟨rfl, rfl⟩ <;>
        exact remaining_same rfl hpc rfl (by simp only [rank, stale]; omega)
  | close hpc hmem =>
      simp only [List.mem_cons, List.not_mem_nil, or_false] at hmem
      rcases hmem with rfl | rfl <;> exact remaining_quota rfl hpc (by simp only [rank]; omega)
  | drain hpc => exact remaining_quota rfl hpc (by simp only [rank]; omega)
  | badSubtract hpc => exact remaining_quota rfl hpc (by simp only [rank]; omega)
  | reopen hpc => exact remaining_quota rfl hpc (by simp only [rank]; omega)
  | restore hpc => exact remaining_quota rfl hpc (by simp only [rank]; omega)
  | badRestore hpc => exact remaining_quota rfl hpc (by simp only [rank]; omega)
  | grant hpc => exact remaining_same rfl hpc rfl (by simp only [rank, stale, List.length_nil]; omega)
  | wakeOne hpc =>
      exact remaining_same rfl hpc rfl
        (by simp only [rank, stale, List.length_append, List.length_singleton]; omega)
  | @wokeAll who fibers hpc =>
      have hlength : fibers.length ≤ Fintype.card ι := by
        have hle := h.length_waking_le i
        rwa [hpc] at hle
      exact remaining_same rfl hpc rfl (by simp only [rank, stale]; omega)
  | @ready who fiber rest what hpc hhalted =>
      have hi : (s.goto fiber (.resumed what)).pc i = .readyFibers who (fiber :: rest) := by
        rw [goto_pc_of_ne s ?_, hpc]
        rintro rfl
        rw [hpc] at hhalted
        cases hhalted
      have hfirst : (s.goto fiber (.resumed what)).remaining = s.remaining + 5 := by
        rw [remaining_goto hhalted]
        simp only [rank, stale]
        omega
      refine Int.lt_iff_add_one_le.mp ?_
      rw [remaining_goto hi, hfirst]
      simp only [rank, stale, List.length_cons]
      omega
  | stray hpc => exact remaining_same rfl hpc rfl (by simp only [rank, stale]; omega)

omit [DecidableEq ι] in
theorem Inv.remaining_nonneg (h : s.Inv) : 0 ≤ s.remaining := by
  have hrank : 0 ≤ tally (rank (Fintype.card ι)) s.pc := by
    refine Finset.sum_nonneg (fun j _ => ?_)
    have hlength := h.length_waking_le j
    cases hpc : s.pc j <;> simp only [hpc, waking] at hlength <;> simp only [rank] <;> omega
  have hstale := tally_nonneg (stale_nonneg s.readerQuota) s.pc
  unfold remaining
  omega

omit [DecidableEq ι] in
theorem Inv.remaining_le (h : s.Inv) : s.remaining ≤ (8 * Fintype.card ι + 8) * Fintype.card ι := by
  have hstale := tally_le_card (stale_le_one s.readerQuota) s.pc
  have hrank : tally (rank (Fintype.card ι)) s.pc ≤ (8 * Fintype.card ι + 7) * Fintype.card ι := by
    have hle : tally (rank (Fintype.card ι)) s.pc ≤ ∑ _j : ι, (8 * (Fintype.card ι : Int) + 7) := by
      refine Finset.sum_le_sum (fun j _ => ?_)
      have hlength := h.length_waking_le j
      cases hpc : s.pc j <;> simp only [hpc, waking] at hlength <;> simp only [rank] <;> omega
    rwa [Finset.sum_const, Finset.card_univ, nsmul_eq_mul, mul_comm] at hle
  calc s.remaining ≤ (8 * Fintype.card ι + 7) * Fintype.card ι + 1 * Fintype.card ι := add_le_add hrank hstale
    _ = (8 * Fintype.card ι + 8) * Fintype.card ι := by rw [← add_mul, add_assoc]; rfl

theorem Inv.remaining_run (h : s.Inv) (hrun : s.run i = some s') : s'.remaining + 1 ≤ s.remaining := by
  refine h.remaining_effect (run_cases hrun) ?_ ?_ ?_
  all_goals
    intro hpc
    simp [run, hpc] at hrun

theorem length_add_remaining (hcard : Fintype.card ι < kMaxReaders) (hs : s.Inv) {es : List (SharedEvent ι)}
    (h : Run step (fun _ e => ∃ i, e = .run i) s es s') :
    s'.Inv ∧ (es.length : Int) + s'.remaining ≤ s.remaining := by
  induction h with
  | nil => exact ⟨hs, by simp⟩
  | @snoc es s₁ e s₂ hrun hok hstep ih =>
      obtain ⟨i, rfl⟩ := hok
      obtain ⟨hinv, hle⟩ := ih
      have hless : s₂.remaining + 1 ≤ s₁.remaining := hinv.remaining_run hstep
      refine ⟨hinv.effect hcard (run_cases hstep), ?_⟩
      rw [List.length_append, List.length_singleton]
      omega

/-- A run may do without the spurious failures. -/
theorem Inv.without_spurious (h : s.Inv) (hcard : Fintype.card ι < kMaxReaders) {es : List (SharedEvent ι)}
    (hrun : Run step (fun _ e => ∃ i, e = .run i ∨ e = .spurious i) s es s') :
    Run step (fun _ e => ∃ i, e = .run i) s (es.filter SharedEvent.isRun) s' := by
  induction hrun with
  | nil => exact .nil
  | @snoc es s₁ e s₂ _ hok hs ih =>
      rw [List.filter_append]
      obtain ⟨i, rfl | rfl⟩ := hok
      · exact ih.snoc ⟨i, rfl⟩ hs
      · obtain ⟨hinv, -⟩ := length_add_remaining hcard h ih
        obtain rfl : s₂ = s₁ := hinv.spurious hcard hs
        have hdrop : [SharedEvent.spurious i].filter SharedEvent.isRun = [] := rfl
        rwa [hdrop, List.append_nil]

/-! ## Where nobody can go on -/

/-- The holder of `wakeup_lock_` can go on, or the fiber that it is about to make ready. -/
theorem Inv.run_of_wakeupHeld (h : s.Inv) (hi : wakeupHeld (s.pc i) = true) : ∃ j, s.run j ≠ none := by
  cases hpc : s.pc i with
  | test what | added what => exact ⟨i, by simp [run, hpc]⟩
  | passed what => exact ⟨i, by cases what <;> simp [run, hpc]⟩
  | exiting | restore | unlockWriter | leave => exact ⟨i, by simp [run, hpc]⟩
  | grant was => exact ⟨i, by simp [run, hpc]⟩
  | notifyAll who fibers => exact ⟨i, by cases hw : s.waiters <;> simp [run, hpc, hw]⟩
  | readyFibers who fibers =>
      cases fibers with
      | nil => exact ⟨i, by simp [run, hpc]⟩
      | cons fiber rest =>
          obtain ⟨what, hhalting | hhalted⟩ := h.target hpc
          · exact ⟨fiber, by simp [run, hhalting]⟩
          · exact ⟨i, by simp [run, hpc, readyFiber, hhalted]⟩
  | _ => simp [hpc] at hi

/-- Where a fiber can stand when nobody can go on. -/
def Settled (pc : SharedPc ι) : Prop :=
  pc = .idle ∨ pc = .reading ∨ pc = .writing ∨ pc = .lock ∨ ∃ what, pc = .halted what

theorem Inv.settled (h : s.Inv) (hstop : ∀ i, s.run i = none) (i : ι) : Settled (s.pc i) := by
  have hfree : s.wakeupLock = none := by
    rw [Option.eq_none_iff_forall_ne_some]
    intro k hk
    obtain ⟨j, hj⟩ := h.run_of_wakeupHeld ((h.wakeup k).mp hk)
    exact hj (hstop j)
  have hnot : wakeupHeld (s.pc i) ≠ true := by
    intro hi
    obtain ⟨j, hj⟩ := h.run_of_wakeupHeld hi
    exact hj (hstop j)
  have hi := hstop i
  unfold Settled
  cases hpc : s.pc i with
  | idle | reading | writing | lock => simp
  | halted what => simp
  | aborted => exact absurd hpc (ne_aborted (h.sound i))
  | tryShared was =>
      simp only [run, hpc] at hi
      split at hi <;> cases hi
  | tryCas =>
      simp only [run, hpc] at hi
      split at hi <;> cases hi
  | wait what => simp [run, hpc, SharedSys.takeWakeup, hfree] at hi
  | wakeupWriter | unlock => simp [run, hpc, SharedSys.takeWakeup, hfree] at hi
  | halting what | resumed what => simp [run, hpc] at hi
  | subtract | tryLoad | tryFailed => simp [run, hpc] at hi
  | _ => simp [hpc] at hnot

omit [Fintype ι] [DecidableEq ι] in
theorem Settled.leaving {pc : SharedPc ι} (h : Settled pc) : leaving pc = 0 := by
  rcases h with rfl | rfl | rfl | rfl | ⟨what, rfl⟩ <;> rfl

omit [Fintype ι] [DecidableEq ι] in
theorem Settled.promised {pc : SharedPc ι} (h : Settled pc) : promised pc = 0 := by
  rcases h with rfl | rfl | rfl | rfl | ⟨what, rfl⟩ <;> rfl

omit [DecidableEq ι] in
/-- A fiber that has been halted is in the wait chain, and its time has not come. -/
theorem Inv.not_due_of_settled (h : s.Inv) (hsettled : ∀ i, Settled (s.pc i)) {what : Waits}
    (hi : s.pc i = .halted what) : ¬ s.Due what := by
  have hquiet : ∀ k, waking (s.pc k) = [] ∧ notifying (s.pc k) = false := by
    intro k
    rcases hsettled k with hk | hk | hk | hk | ⟨what, hk⟩ <;> simp [hk]
  have hin : i ∈ s.waiters := by
    rcases h.waits.awake i (by simp [hi]) with hin | ⟨k, hk⟩
    · exact hin
    · rw [(hquiet k).1] at hk
      exact absurd hk List.not_mem_nil
  intro hdue
  obtain ⟨k, hk⟩ := h.awake i hin what (by simp [hi]) hdue
  rw [(hquiet k).2] at hk
  cases hk

omit [DecidableEq ι] in
/-- A reader that is counted as active reads. -/
theorem exists_reading (hsettled : ∀ i, Settled (s.pc i)) (hactive : 0 < s.ledger.active) :
    ∃ j, s.pc j = .reading := by
  obtain ⟨j, hj⟩ := exists_of_tally_pos (show 0 < tally active s.pc from hactive)
  refine ⟨j, ?_⟩
  rcases hsettled j with hpc | hpc | hpc | hpc | ⟨what, hpc⟩ <;> simp [hpc] at hj ⊢

omit [DecidableEq ι] in
/-- A writer that waits for readers finds one that reads. -/
theorem Inv.reading_of_draining (h : s.Inv) (hsettled : ∀ i, Settled (s.pc i)) {pendingReaders : Int}
    (hi : s.pc i = .halted (.write pendingReaders)) : ∃ j, s.pc j = .reading := by
  refine exists_reading hsettled ?_
  obtain ⟨hone, -, hpending, -⟩ := h.alone (i := i) (by simp [hi])
  rw [hi] at hone hpending
  obtain ⟨hsum, hgrantedle, -⟩ := h.ok.drain hone
  have hleaving : s.ledger.leaving = 0 := tally_eq_zero (fun j => (hsettled j).leaving)
  have hexited : s.ledger.exited ≠ pendingReaders := h.not_due_of_settled hsettled hi
  have hexited' : 0 ≤ s.ledger.exited := h.ok.exited
  have hgranted : s.ledger.granted = 0 := by
    by_contra hsome
    -- then some reader waits, and its time has come
    have hpos : 0 < tally waiting s.pc :=
      lt_of_lt_of_le (lt_of_le_of_ne h.ok.granted (Ne.symm hsome)) hgrantedle
    obtain ⟨j, hj⟩ := exists_of_tally_pos hpos
    have hread : s.pc j = .halted .read := by
      rcases hsettled j with hpc | hpc | hpc | hpc | ⟨what, hpc⟩
      · simp [hpc] at hj
      · simp [hpc] at hj
      · simp [hpc] at hj
      · simp [hpc] at hj
      · cases what with
        | read => exact hpc
        | write pendingReaders => simp [hpc] at hj
    exact h.not_due_of_settled hsettled hread hsome
  have hactive : 0 ≤ s.ledger.active := tally_nonneg SharedPc.active_nonneg s.pc
  have hpending' : s.ledger.pending = pendingReaders := hpending
  omega

omit [DecidableEq ι] in
/-- A reader that waits to be granted the lock finds one that has it. -/
theorem Inv.holder_of_waiting (h : s.Inv) (hcard : Fintype.card ι < kMaxReaders)
    (hsettled : ∀ i, Settled (s.pc i))
    (hi : s.pc i = .halted .read) : ∃ j, s.pc j = .reading ∨ s.pc j = .writing := by
  have hgranted : s.ledger.granted = 0 := not_not.mp (h.not_due_of_settled hsettled hi)
  have hpromised : s.ledger.promised = 0 := tally_eq_zero (fun j => (hsettled j).promised)
  have hwaiting : 1 ≤ s.ledger.waiting := by
    have hle := le_tally SharedPc.waiting_nonneg s.pc i
    rwa [hi] at hle
  have hb := h.bounds hcard
  -- there is a writer, for the grants are used up
  have hwriter : s.ledger.draining + s.ledger.writing ≠ 0 := by
    intro haway
    have hall := (h.ok.away haway).2.2
    omega
  by_cases hdraining : s.ledger.draining = 0
  · have hnonneg := hb.writing
    have hpos : 0 < s.ledger.writing := by omega
    obtain ⟨j, hj⟩ := exists_of_tally_pos (show 0 < tally exclusive s.pc from hpos)
    refine ⟨j, Or.inr ?_⟩
    rcases hsettled j with hpc | hpc | hpc | hpc | ⟨what, hpc⟩ <;> simp [hpc] at hj ⊢
  · have hpos : 0 < tally draining s.pc := lt_of_le_of_ne hb.draining (Ne.symm hdraining)
    obtain ⟨j, hj⟩ := exists_of_tally_pos hpos
    have hwrite : ∃ p, s.pc j = .halted (.write p) := by
      rcases hsettled j with hpc | hpc | hpc | hpc | ⟨what, hpc⟩
      · simp [hpc] at hj
      · simp [hpc] at hj
      · simp [hpc] at hj
      · simp [hpc] at hj
      · cases what with
        | read => simp [hpc] at hj
        | write p => exact ⟨p, hpc⟩
    obtain ⟨p, hp⟩ := hwrite
    obtain ⟨k, hk⟩ := h.reading_of_draining hsettled hp
    exact ⟨k, Or.inl hk⟩

/-- **Whoever waits, waits for a fiber that has the lock.** -/
theorem Inv.holder (h : s.Inv) (hcard : Fintype.card ι < kMaxReaders) (hstop : ∀ i, s.run i = none)
    (hi : s.pc i = .lock ∨ ∃ what, s.pc i = .halted what) : ∃ j, s.pc j = .reading ∨ s.pc j = .writing := by
  have hsettled := h.settled hstop
  have hhalted : ∀ j what, s.pc j = .halted what → ∃ j, s.pc j = .reading ∨ s.pc j = .writing := by
    intro j what hj
    cases what with
    | read => exact h.holder_of_waiting hcard hsettled hj
    | write p =>
        obtain ⟨k, hk⟩ := h.reading_of_draining hsettled hj
        exact ⟨k, Or.inl hk⟩
  rcases hi with hi | ⟨what, hi⟩
  · -- `writer_lock_` is held
    have hheld : s.writerLock ≠ none := by
      intro hfree
      have hrun := hstop i
      simp [run, hi, hfree] at hrun
    obtain ⟨k, hk⟩ := Option.ne_none_iff_exists'.mp hheld
    have hwriter := (h.writer k).mp hk
    rcases hsettled k with hpc | hpc | hpc | hpc | ⟨what, hpc⟩
    · simp [hpc] at hwriter
    · simp [hpc] at hwriter
    · exact ⟨k, Or.inr hpc⟩
    · simp [hpc] at hwriter
    · exact hhalted k what hpc
  · exact hhalted i what hi

end Settle

/-- **Calls come to an end.** From every state that can be reached, the calls that are under way make a
    bounded number of accesses, in whatever order they take turns; the spurious failures among them do
    nothing. Where no call can go on, each fiber is outside of a call, or waits in `lock` or `lock_shared`;
    and if one waits, then another one has the lock and has not given it back. -/
theorem shared_calls_settle {ι : Type} [Fintype ι] [DecidableEq ι] (hcard : Fintype.card ι < kMaxReaders)
    {es : List (SharedEvent ι)} {s : SharedSys ι} (h : Run step always init es s) :
    (∀ es' s', Run step (fun _ e => ∃ i, e = .run i ∨ e = .spurious i) s es' s' →
        Run step (fun _ e => ∃ i, e = .run i) s (es'.filter SharedEvent.isRun) s'
        ∧ (es'.filter SharedEvent.isRun).length ≤ (8 * Fintype.card ι + 8) * Fintype.card ι)
      ∧ ((∀ i, s.run i = none) → (∀ i, Settled (s.pc i))
        ∧ ∀ i, s.pc i = .lock ∨ (∃ what, s.pc i = .halted what) →
          ∃ j, s.pc j = .reading ∨ s.pc j = .writing) := by
  have hinv := run_inv hcard h
  refine ⟨fun es' s' hrun => ?_, fun hstop => ⟨hinv.settled hstop, fun i hi => hinv.holder hcard hstop hi⟩⟩
  have haccesses := hinv.without_spurious hcard hrun
  obtain ⟨hinv', hmeasure⟩ := length_add_remaining hcard hinv haccesses
  have hafter := hinv'.remaining_nonneg
  have hbefore := hinv.remaining_le
  have hbound : ((es'.filter SharedEvent.isRun).length : Int)
      ≤ (8 * Fintype.card ι + 8) * Fintype.card ι := by omega
  exact ⟨haccesses, by exact_mod_cast hbound⟩

/-- A reader comes in after two spurious failures. The writer is halted and waits for it, and nobody can go
    on. -/
theorem shared_calls_settle_halted : ∃ s s' : SharedSys (Fin 2),
    Run step always init [.tryLockShared 0, .lock 1] s
      ∧ Run step (fun _ e => ∃ i, e = .run i ∨ e = .spurious i) s
        [.spurious 0, .run 1, .spurious 0, .run 0, .run 1, .run 1, .run 1, .run 1, .run 1] s'
      ∧ Run step (fun _ e => ∃ i, e = .run i) s [.run 1, .run 0, .run 1, .run 1, .run 1, .run 1, .run 1] s'
      ∧ (∀ es' s', Run step (fun _ e => ∃ i, e = .run i ∨ e = .spurious i) s es' s' →
        (es'.filter SharedEvent.isRun).length ≤ 48)
      ∧ (∀ i, s'.run i = none) ∧ s'.pc 1 = .halted (.write 1)
      ∧ ∃ j, s'.pc j = .reading ∨ s'.pc j = .writing := by
  have hrun : Run step always (init : SharedSys (Fin 2)) [.tryLockShared 0, .lock 1]
      ((init.goto 0 (.tryShared kMaxReaders)).goto 1 .lock) := run_of_forall (fun _ _ _ => trivial) rfl
  have hrest : Run step always (init : SharedSys (Fin 2)) [.tryLockShared 0, .lock 1, .spurious 0, .run 1,
      .spurious 0, .run 0, .run 1, .run 1, .run 1, .run 1, .run 1] _ :=
    run_of_forall (fun _ _ _ => trivial) rfl
  obtain ⟨hbound, -⟩ := shared_calls_settle (by decide) hrun
  rw [Fintype.card_fin] at hbound
  obtain ⟨-, hsettle⟩ := shared_calls_settle (by decide) hrest
  have hunderWay : Run step (fun _ e => ∃ i, e = .run i ∨ e = .spurious i)
      ((init.goto 0 (.tryShared kMaxReaders)).goto (1 : Fin 2) .lock)
      [.spurious 0, .run 1, .spurious 0, .run 0, .run 1, .run 1, .run 1, .run 1, .run 1] _ :=
    run_of_forall (by simp) rfl
  refine ⟨_, _, hrun, hunderWay, (hbound _ _ hunderWay).1, fun es' s' h => (hbound es' s' h).2, ?_, rfl, ?_⟩
  · exact Fin.forall_fin_two.mpr ⟨rfl, rfl⟩
  · exact (hsettle (Fin.forall_fin_two.mpr ⟨rfl, rfl⟩)).2 1 (Or.inr ⟨_, rfl⟩)

end SharedSys

end ZhiCache
