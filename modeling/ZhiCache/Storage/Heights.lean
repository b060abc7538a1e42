import ZhiCache.Storage.InsertRuns
import ZhiCache.Utils.RandomCycle

/-!
# `Storage.Heights` — the heights that a list draws for its nodes

`Insert` draws the height of the new node from the list's own generator, one call of `Next` for each level
tried. `insertKeys` inserts a list of keys this way, as the source's callers do, so that the generator of the
list is always a later point of the one run that starts at the constant 0xdeadbeef.
-/

namespace ZhiCache

namespace SkipList

/-! ## One draw -/

/-- How often `RandomHeight` calls `Next` when it returns `height`: the last level is not tried. -/
def draws (height : Height) : Nat := min height.1 (kMaxHeight - 1)

theorem draws_bounds (height : Height) : 1 ≤ draws height ∧ draws height ≤ kMaxHeight - 1 := by
  have h := height.2.1
  unfold draws kMaxHeight
  omega

theorem randomHeightLoop_draws (n height : Nat) (rnd : Random) :
    (randomHeightLoop n height rnd).2 =
      rnd.after (min ((randomHeightLoop n height rnd).1 + 1 - height) n) := by
  induction n generalizing height rnd with
  | zero => rw [Nat.min_zero]; rfl
  | succ n ih =>
      unfold randomHeightLoop
      dsimp only
      split
      · -- another level: one call, then those of the rest of the loop
        have hlow := (randomHeightLoop_bounds n (height + 1) rnd.next.2).1
        rw [ih, Random.after_next]
        congr 1
        omega
      · rw [Nat.add_sub_cancel_left, Nat.min_eq_left (Nat.succ_pos n)]
        rfl

theorem randomHeight_snd (rnd : Random) :
    (randomHeight rnd).2 = rnd.after (draws (randomHeight rnd).1) := by
  have hloop := randomHeightLoop_draws (kMaxHeight - 1) 1 rnd
  rw [Nat.add_sub_cancel] at hloop
  -- for any pair, so that no loop is run to compare the two sides
  have hpair : ∀ (drawn : Nat × Random) (hb : 1 ≤ drawn.1 ∧ drawn.1 ≤ kMaxHeight),
      drawn.2 = rnd.after (min drawn.1 (kMaxHeight - 1)) →
      ((⟨drawn.1, hb⟩, drawn.2) : Height × Random).2
        = rnd.after (draws ((⟨drawn.1, hb⟩, drawn.2) : Height × Random).1) := fun _ _ h => h
  exact hpair _ (randomHeightLoop_bounds (kMaxHeight - 1) 1 rnd) hloop

variable {Key : Type}

theorem rnd_new [Inhabited Key] : (new : SkipList Key).rnd = Random.new 0xdeadbeef := by
  unfold new
  rw [foldl_setNext_head]
  rfl

variable [Comparator Key]

/-- `Insert` leaves the generator where the draw of the height has left it. -/
theorem Levels.rnd_insert [LawfulComparator Key] {l l' : SkipList Key} {T : Nat → List NodeId}
    (h : Levels l T) {key : Key} (hinsert : l.insert key = some l') :
    ∃ height, l'.rnd = l.rnd.after (draws height) := by
  obtain ⟨p, next', _, hres, _, _⟩ :=
    (h.setRnd (randomHeight l.rnd).2).insertWith_spec key (randomHeight l.rnd).1
  rw [insert_eq, hres, Option.some.injEq] at hinsert
  exact ⟨(randomHeight l.rnd).1, by rw [← hinsert, randomHeight_snd]⟩

/-! ## Any number of keys -/

/-- Inserting the given keys, one after another, with the heights that the list draws. -/
def insertKeys (l : SkipList Key) (keys : List Key) : Option (SkipList Key) :=
  keys.foldlM (fun l key => l.insert key) l

/-- **A list and its generator, after any sequence of inserts.** `Insert` never fails; level 0 holds the keys
    in order, each before those already there that it does not come after; and the generator has made between
    one and eleven calls for each key, so that its word is never 0 or 2^31 - 1. -/
theorem insertKeys_spec [Inhabited Key] [LawfulComparator Key] (keys : List Key) :
    ∃ (l : SkipList Key) (T : Nat → List NodeId) (k : Nat),
      (new : SkipList Key).insertKeys keys = some l ∧ Levels l T ∧
      (T 0).tail.map l.key
        = keys.foldl (fun sorted key => sorted.orderedInsert (fun a b => ¬ compare b a < 0) key) [] ∧
      keys.length ≤ k ∧ k ≤ (kMaxHeight - 1) * keys.length ∧
      l.rnd = (Random.new 0xdeadbeef).after k ∧ l.rnd.InRange := by
  -- the last key is the one the step lemma speaks about
  induction keys using List.reverseRecOn with
  | nil =>
      refine ⟨new, emptyLevels, 0, rfl, new_levels, rfl, Nat.le_refl _, Nat.le_refl _, rnd_new, ?_⟩
      rw [rnd_new]
      exact Random.inRange_new _
  | append_singleton keys key ih =>
      obtain ⟨l, T, k, hl, hlev, hkeys, hlow, hhigh, hrnd, _⟩ := ih
      obtain ⟨l', T', hl', hlev', hkeys', _, _⟩ := hlev.insert key
      obtain ⟨height, hrnd'⟩ := hlev.rnd_insert hl'
      have hafter : l'.rnd = (Random.new 0xdeadbeef).after (k + draws height) := by
        rw [hrnd', hrnd, Random.after_add]
      have hdraws := draws_bounds height
      refine ⟨l', T', k + draws height, ?_, hlev', ?_, ?_, ?_, hafter, ?_⟩
      · have hl₀ : keys.foldlM (fun l key => l.insert key) (new : SkipList Key) = some l := hl
        unfold insertKeys
        rw [List.foldlM_append, hl₀]
        simpa using hl'
      · rw [List.foldl_append, ← hkeys]
        exact hkeys'
      · rw [List.length_append, List.length_singleton]
        omega
      · rw [List.length_append, List.length_singleton, Nat.mul_add, Nat.mul_one]
        omega
      · rw [hafter]
        exact (Random.inRange_new _).after _

end SkipList

end ZhiCache
