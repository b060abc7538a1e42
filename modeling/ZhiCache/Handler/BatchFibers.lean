import ZhiCache.Fiber.WhenAllRuns
import ZhiCache.Handler.KvHandler
import Mathlib.Data.List.Perm.Basic

/-!
# `Handler.BatchFibers` — `/batch` and its fibers

`BatchAddKeyHandler::OnPost` stores its entries in fibers of their own and waits for them.
`BatchAddKeyHandler.onPost` is given the order in which the entries are stored. The two agree: what the
handler finds stored when `BlockingGet` has returned is what `onPost` stores for some order of the entries,
and every order is possible.
-/

namespace ZhiCache

namespace BatchAddKeyHandler

open Lib

variable {kv kv' : KvManager} {requests schedule : List InsertRequest}

/-- The function that `Async` is called with. -/
def addEntry (requests : List InsertRequest) (i : Fin requests.length) (kv : KvManager) : Unit × KvManager :=
  ((), kv.add (requests.get i).key (requests.get i).value)

/-- The fibers, one after the other, store what `onPost` stores. -/
theorem outcome_addEntry (order : List (Fin requests.length)) :
    (outcome (addEntry requests) kv order).2 = (onPost kv requests (order.map requests.get)).kv := by
  induction order using List.reverseRecOn with
  | nil => rfl
  | append_singleton order i ih =>
      rw [outcome_concat, ih]
      simp [onPost, addEntry]

/-- An order of the entries is an order of their indices. -/
theorem exists_order (hperm : schedule.Perm requests) :
    ∃ order : List (Fin requests.length), order.Perm (List.finRange requests.length)
      ∧ order.map requests.get = schedule := by
  have hentries : List.Forall₂ (fun r i => r = requests.get i) requests (List.finRange requests.length) := by
    rw [← List.forall₂_map_right_iff, List.map_get_finRange]
    exact List.forall₂_refl _
  obtain ⟨order, hschedule, horder⟩ := List.perm_comp_forall₂ hperm hentries
  refine ⟨order, horder, ?_⟩
  rw [← List.forall₂_map_right_iff, List.forall₂_eq_eq_eq] at hschedule
  exact hschedule.symm

/-- **`/batch` stores its entries in some order, and any.** What is stored when the handler goes on, over all
    the ways in which its fibers take turns, is what `onPost` stores, over all orders of the entries. -/
theorem batch_fibers_onPost (hn : requests.length < 2 ^ 64) :
    (∃ es s, Run WhenAllSys.step always (WhenAllSys.init (addEntry requests) kv) es s ∧ s.returned.isSome ∧
      s.store = kv') ↔ ∃ schedule, schedule.Perm requests ∧ (onPost kv requests schedule).kv = kv' := by
  constructor
  · rintro ⟨es, s, hrun, hreturned, rfl⟩
    obtain ⟨hinv, hbody⟩ := WhenAllSys.run_inv hn hrun
    obtain ⟨result, hresult⟩ := Option.isSome_iff_exists.mp hreturned
    have hperm := hinv.order_perm (hinv.state.returned result hresult)
    refine ⟨s.order.map requests.get, ?_, ?_⟩
    · simpa using hperm.map requests.get
    · rw [hinv.store, hbody, outcome_addEntry]
  · rintro ⟨schedule, hperm, rfl⟩
    obtain ⟨order, horder, rfl⟩ := exists_order hperm
    obtain ⟨es, s, hrun, hreturned, rfl⟩ := WhenAllSys.exists_run_order (addEntry requests) kv hn horder
    obtain ⟨hinv, hbody⟩ := WhenAllSys.run_inv hn hrun
    refine ⟨es, s, hrun, hreturned, ?_⟩
    rw [hinv.store, hbody, outcome_addEntry]

/-- Of two entries with one key the first may be stored last, and stays. -/
theorem batch_fibers_onPost_swapped : ∃ es s,
    Run WhenAllSys.step always
        (WhenAllSys.init (addEntry [⟨"k", "1"⟩, ⟨"k", "2"⟩]) (KvManager.init String.length)) es s ∧
      s.returned.isSome ∧ s.store.view "k" = some "1" := by
  obtain ⟨es, s, hrun, hreturned, hstore⟩ := (batch_fibers_onPost (by decide)).mpr
    ⟨[⟨"k", "2"⟩, ⟨"k", "1"⟩], List.Perm.swap .., rfl⟩
  refine ⟨es, s, hrun, hreturned, ?_⟩
  rw [hstore, view_onPost]
  exact replay_stores _ (r := ⟨"k", "1"⟩) rfl

end BatchAddKeyHandler

end ZhiCache
