import ZhiCache.Storage.InsertRuns

/-!
# `Storage.Searches` — the other searches and the iterator

Besides `FindGreaterOrEqual` a skip list has `FindLessThan`, which walks the same way and returns the node in
front of the place found, `FindLast`, which passes every node, and `Contains`. The iterator's backward moves
are these searches: there are no back links, and `Prev` looks for the last node before the key it stands at.

* Every search terminates and returns what a **linear scan** of the level lists returns, for any sequence of
  inserts, ties included (`searches_agree_with_scan`).
* Without ties `Next` and `Prev` undo each other, and a walk from either end visits every key once
  (`iterator_moves_are_inverse`).
-/

namespace ZhiCache

open Lib

namespace SkipList

variable {Key : Type}

/-! ## The searches -/

/-- The loop that `FindLessThan` and `FindLast` share, from the node `x` on a level and for a given number of
    iterations. `passes` are the nodes that the search goes past. `holds` is the assertion at the head of the
    loop; an iteration that violates it has no result, so that a result is one with and without assertions. -/
def descendLoop (l : SkipList Key) (holds passes : NodeId → Bool) : Nat → NodeId → Nat → Option NodeId
  | 0, _, _ => none
  | fuel + 1, x, level =>
    if holds x then
      match l.next x level with
      | none => none
      | some next =>
        match next.filter passes, level with
        | some n, _ => l.descendLoop holds passes fuel n level
        | none, 0 => some x
        -- Switch to next list
        | none, level + 1 => l.descendLoop holds passes fuel x level
    else none

variable [Comparator Key]

/-- `FindLessThan`. -/
def findLessThan (l : SkipList Key) (key : Key) : Option NodeId :=
  l.descendLoop (fun x => decide (x = head ∨ compare (l.key x) key < 0))
    (fun n => decide (¬ compare (l.key n) key ≥ 0)) (kMaxHeight * l.count) head (l.maxHeight - 1)

omit [Comparator Key] in
/-- `FindLast`. -/
def findLast (l : SkipList Key) : Option NodeId :=
  l.descendLoop (fun _ => true) (fun _ => true) (kMaxHeight * l.count) head (l.maxHeight - 1)

/-- `Equal`. -/
def equal (a b : Key) : Bool := compare a b == 0

/-- `Contains`. -/
def contains (l : SkipList Key) (key : Key) : Option Bool := do
  let (x, _) ← l.findGreaterOrEqual key
  return match x with
    | none => false
    | some x => equal key (l.key x)

/-! ## The linear scan of a level -/

/-- The last of the nodes `N` that satisfy `p`, `head_` if there is none. -/
def scanLast (N : List NodeId) (p : NodeId → Bool) : NodeId := (N.filter p).getLast?.getD head

theorem scanLast_append {A B : List NodeId} {p : NodeId → Bool} (hA : ∀ n ∈ A, p n = true)
    (hB : ∀ n ∈ B, p n = false) : scanLast (A ++ B) p = A.getLast?.getD head := by
  have hnone : B.filter p = [] := List.filter_eq_nil_iff.mpr (fun n hn => by simp [hB n hn])
  rw [scanLast, List.filter_append, hnone, List.append_nil, List.filter_eq_self.mpr hA]

variable {l : SkipList Key} {T : Nat → List NodeId}

/-- **The loop of the backward searches.** On published nodes it returns, with a node of level 0 that is
    `head_` or passed and whose successor is not. -/
theorem Threaded.descendLoop_spec (h : Threaded l T) {holds passes : NodeId → Bool}
    (hholds : ∀ x, x = head ∨ passes x = true → holds x = true) (fuel : Nat) (x : NodeId) (level : Nat)
    (hx : x ∈ T level) (hpass : x = head ∨ passes x = true)
    (hf : Search.bound T l.count ⟨x, level, fun _ => none⟩ ≤ fuel) :
    ∃ p, l.descendLoop holds passes fuel x level = some p ∧ p ∈ T 0 ∧ (p = head ∨ passes p = true) ∧
      ∃ next, l.next p 0 = some next ∧ next.filter passes = none := by
  induction fuel generalizing x level with
  | zero =>
      have hidx : (T level).idxOf x < (T level).length := List.idxOf_lt_length_iff.mpr hx
      simp only [Search.bound] at hf
      omega
  | succ fuel ih =>
      obtain ⟨next, hn⟩ := Option.ne_none_iff_exists'.mp (h.init level x hx)
      unfold descendLoop
      rw [if_pos (hholds x hpass), hn]
      dsimp only
      cases hnext : next.filter passes with
      | some n =>
          -- along the level
          obtain ⟨rfl, hpn⟩ := Option.filter_eq_some_iff.mp hnext
          have hlt := h.bound_along (s := ⟨x, level, fun _ => none⟩) hx hn
          exact ih n level (h.fwd level x hx n hn).mem_right (Or.inr hpn)
            (Nat.le_of_lt_succ (Nat.lt_of_lt_of_le hlt hf))
      | none =>
          cases level with
          | zero => exact ⟨x, rfl, hx, hpass, next, hn, hnext⟩
          | succ level =>
              have hlt := h.bound_down (s := ⟨x, level + 1, fun _ => none⟩) hx rfl (fun _ => none)
              exact ih x level (h.sub level x hx) hpass (Nat.le_of_lt_succ (Nat.lt_of_lt_of_le hlt hf))

theorem Threaded.start_bound (h : Threaded l T) :
    head ∈ T (l.maxHeight - 1) ∧
      Search.bound T l.count ⟨head, l.maxHeight - 1, fun _ => none⟩ ≤ kMaxHeight * l.count := by
  have h1 := h.one_le
  have h2 := h.le_max
  exact ⟨h.head_mem _ (by omega), h.bound_start⟩

/-- **`FindLessThan`** returns the node after which the key belongs. Its assertion holds throughout: it only
    ever moves to nodes that it has compared. -/
theorem Threaded.findLessThan_spec (h : Threaded l T) (key : Key) :
    ∃ p, l.findLessThan key = some p ∧ l.LastBelow T key 0 p := by
  obtain ⟨hhead, hbound⟩ := h.start_bound
  have hholds : ∀ x, x = head ∨ decide (¬ compare (l.key x) key ≥ 0) = true →
      decide (x = head ∨ compare (l.key x) key < 0) = true := by
    intro x hx
    exact decide_eq_true (hx.imp id (fun hx => Int.not_le.mp (of_decide_eq_true hx)))
  obtain ⟨p, hp, hmem, hpass, next, hn, hnext⟩ :=
    h.descendLoop_spec hholds _ head (l.maxHeight - 1) hhead (Or.inl rfl) hbound
  refine ⟨p, hp, hmem, hpass.imp id (fun hp => Int.not_le.mp (of_decide_eq_true hp)), next, hn, ?_⟩
  refine keyIsAfterNode_eq_false.mpr ?_
  rintro n rfl hlt
  have hno := Option.filter_eq_none_iff.mp hnext n rfl
  exact hno (decide_eq_true (Int.not_le.mpr hlt))

/-- **`FindLast`** returns the last node of level 0. -/
theorem Threaded.findLast_spec (h : Threaded l T) :
    ∃ u p, l.findLast = some p ∧ T 0 = u ++ [p] := by
  obtain ⟨hhead, hbound⟩ := h.start_bound
  obtain ⟨p, hp, hmem, _, next, hn, hnext⟩ :=
    h.descendLoop_spec (fun _ _ => rfl) _ head (l.maxHeight - 1) hhead (Or.inl rfl) hbound
  obtain ⟨u, w, hT⟩ := List.append_of_mem hmem
  have hlink : Linked (l.level 0) (u ++ p :: w) := hT ▸ h.linked
  have hw : next = w.head? := Option.some.inj (hn.symm.trans hlink.next_eq)
  cases w with
  | nil => exact ⟨u, p, hp, hT⟩
  | cons n w =>
      -- every node is passed, so that the search would have gone on
      rw [hw] at hnext
      exact absurd hnext (by simp)

section Order

variable [LawfulComparator Key]

/-- **`Contains`**: something on level 0 compares equal to the key. What stands before the place found is
    smaller, and behind it nothing is equal unless the node there is. -/
theorem Threaded.contains_spec (h : Threaded l T) (key : Key) :
    l.contains key = some ((T 0).tail.any (fun n => equal key (l.key n))) := by
  obtain ⟨A, B, hT, hseek, hA, hB⟩ := h.seek_spec key
  have hsorted : (A ++ B).Pairwise l.InOrder := by
    have hs := h.sorted
    rw [hT] at hs
    exact hs
  have hequal : ∀ n, equal key (l.key n) = true ↔ compare key (l.key n) = 0 := fun n => by simp [equal]
  have hlow : A.any (fun n => equal key (l.key n)) = false := by
    rw [List.any_eq_false]
    intro n hn heq
    exact ((LawfulComparator.eq_zero _ _).mp ((hequal n).mp heq)).2 (hA n hn)
  obtain ⟨⟨x, prev⟩, hfind, hx⟩ := Option.map_eq_some_iff.mp hseek
  have hx' : x = B.head? := hx
  subst hx'
  rw [contains, hfind, hT, List.tail_cons, List.any_append, hlow, Bool.false_or]
  refine congrArg some ?_
  cases B with
  | nil => rfl
  | cons b B =>
      show equal key (l.key b) = (b :: B).any (fun n => equal key (l.key n))
      rw [List.any_cons]
      cases hb : equal key (l.key b) with
      | true => rfl
      | false =>
          rw [Bool.false_or, eq_comm, List.any_eq_false]
          intro n hn heq
          -- `n` is not smaller than `b`, which is larger than the key
          have hbn : ¬ compare (l.key n) (l.key b) < 0 :=
            (List.pairwise_cons.mp (List.pairwise_append.mp hsorted).2.1).1 n hn
          have hzero := (LawfulComparator.eq_zero _ _).mp ((hequal n).mp heq)
          have hkb : ¬ compare key (l.key b) < 0 := LawfulComparator.not_lt_trans _ _ _ hzero.1 hbn
          have hbk := (hequal b).mpr ((LawfulComparator.eq_zero _ _).mpr ⟨hkb, hB b List.mem_cons_self⟩)
          rw [hb] at hbk
          exact absurd hbk (by simp)

/-- The node after which the key belongs on a level is the one a scan of the level finds. -/
theorem Levels.scanLast_eq (h : Levels l T) {key : Key} {i : Nat} {p : NodeId} (hi : i < kMaxHeight)
    (hp : l.LastBelow T key i p) :
    p = scanLast (T i).tail (fun n => compare (l.key n) key < 0) := by
  obtain ⟨hmem, hbelow, next, hn, hk⟩ := hp
  obtain ⟨A, B, hT, _, hA, hB, hlast, _⟩ :=
    cut_of_linked (h.chain i hi) (h.first i hi) (h.sorted_level i) hmem hbelow hn hk
  rw [hT, List.tail_cons, scanLast_append (fun n hn => decide_eq_true (hA n hn))
    (fun n hn => decide_eq_false (hB n hn))]
  rcases hlast with ⟨rfl, rfl⟩ | ⟨A', rfl⟩
  · rfl
  · rw [List.getLast?_concat]
    rfl

/-- **`FindGreaterOrEqual` against the scans**: the node found on level 0 and, on each level of the list, the
    node in front of the place. -/
theorem Levels.findGreaterOrEqual_eq (h : Levels l T) (key : Key) :
    ∃ prev, l.findGreaterOrEqual key
        = some ((T 0).tail.find? (fun n => ¬ compare (l.key n) key < 0), prev) ∧
      ∀ i, i < l.maxHeight →
        prev i = some (scanLast (T i).tail (fun n => compare (l.key n) key < 0)) := by
  obtain ⟨next, prev, hres, hfill, _, _⟩ := h.threaded.findGreaterOrEqual_spec key
  obtain ⟨A, B, hT, hseek, hA, hB⟩ := h.threaded.seek_spec key
  have hnext : next = B.head? := by
    rw [seek, hres] at hseek
    exact Option.some.inj hseek
  have hfind : (T 0).tail.find? (fun n => ¬ compare (l.key n) key < 0) = B.head? := by
    have hlow : A.find? (fun n => ¬ compare (l.key n) key < 0) = none :=
      List.find?_eq_none.mpr (fun n hn => by simp [hA n hn])
    rw [hT, List.tail_cons, List.find?_append, hlow, Option.none_or]
    cases B with
    | nil => rfl
    | cons b B => exact List.find?_cons_of_pos (decide_eq_true (hB b List.mem_cons_self))
  refine ⟨prev, by rw [hres, hnext, hfind], ?_⟩
  intro i hi
  obtain ⟨p, hp, hlast⟩ := hfill i hi
  rw [hp, ← h.scanLast_eq (Nat.lt_of_lt_of_le hi h.le_max) hlast]

theorem Levels.findLessThan_eq (h : Levels l T) (key : Key) :
    l.findLessThan key = some (scanLast (T 0).tail (fun n => compare (l.key n) key < 0)) := by
  obtain ⟨p, hp, hlast⟩ := h.threaded.findLessThan_spec key
  rw [hp, ← h.scanLast_eq kMaxHeight_pos hlast]

end Order

theorem Threaded.findLast_eq (h : Threaded l T) : l.findLast = some ((T 0).tail.getLast?.getD head) := by
  obtain ⟨u, p, hp, hT⟩ := h.findLast_spec
  rw [hp, hT]
  cases u with
  | nil =>
      have hph : p = head := by simpa [hT] using h.first
      rw [hph]
      rfl
  | cons a u => rw [List.cons_append, List.tail_cons, List.getLast?_concat]; rfl

/-! ## Any sequence of inserts -/

/-- What `insertAll` builds holds every key inserted as often as it was inserted. -/
theorem insertAll_levels [Inhabited Key] [LawfulComparator Key] (ops : List (Key × Height)) :
    ∃ (l : SkipList Key) (T : Nat → List NodeId), (new : SkipList Key).insertAll ops = some l ∧ Levels l T ∧
      ((T 0).tail.map l.key).Perm (ops.map Prod.fst) := by
  obtain ⟨l, T, hl, hbuilt⟩ := insertAll_built ops
  refine ⟨l, T, hl, hbuilt.levels, ?_⟩
  rw [hbuilt.keys]
  exact foldl_orderedInsert_perm _ _

/-- **The searches agree with a linear scan.** Whatever was inserted, with whatever ties and heights, and
    whatever the target: every search terminates; `FindGreaterOrEqual` returns the first node of level 0 whose
    score is not smaller, and fills `prev` on each level of the list with the last node of the level whose
    score is smaller; `FindLessThan` returns that of level 0, `FindLast` the last node there is, and `Contains`
    says whether some node has the score. -/
theorem searches_agree_with_scan (ops : List (ZsetSkipListNode × Height)) :
    ∃ (l : SkipList ZsetSkipListNode) (L : Nat → List NodeId),
      (new : SkipList ZsetSkipListNode).insertAll ops = some l ∧
      (∀ i, i < kMaxHeight → Linked (l.level i) (head :: L i)) ∧
      ((L 0).map l.key).Perm (ops.map Prod.fst) ∧
      ∀ target : ZsetSkipListNode,
        (∃ prev, l.findGreaterOrEqual target
            = some ((L 0).find? (fun n => target.score ≤ (l.key n).score), prev) ∧
          ∀ i, i < l.maxHeight →
            prev i = some (scanLast (L i) (fun n => (l.key n).score < target.score))) ∧
        l.findLessThan target = some (scanLast (L 0) (fun n => (l.key n).score < target.score)) ∧
        l.findLast = some (scanLast (L 0) (fun _ => true)) ∧
        l.contains target = some ((L 0).any (fun n => (l.key n).score == target.score)) := by
  obtain ⟨l, T, hl, hlev, hperm⟩ := insertAll_levels ops
  refine ⟨l, fun i => (T i).tail, hl, fun i hi => hlev.level_eq hi ▸ hlev.chain i hi, hperm, fun target => ?_⟩
  have hbelow : (fun n => decide (compare (l.key n) target < 0))
      = fun n => decide ((l.key n).score < target.score) := by
    funext n
    rw [decide_eq_decide]
    exact compare_lt_zero (l.key n) target
  have hnot : (fun n => decide (¬ compare (l.key n) target < 0))
      = fun n => decide (target.score ≤ (l.key n).score) := by
    funext n
    rw [decide_eq_decide, compare_lt_zero (l.key n) target, Int32.not_lt]
  have hequal : (fun n => equal target (l.key n)) = fun n => (l.key n).score == target.score := by
    funext n
    rw [Bool.eq_iff_iff, equal, beq_iff_eq, beq_iff_eq, compare_eq_zero, Int32.not_lt, Int32.not_lt]
    exact ⟨fun h => Int32.le_antisymm h.1 h.2, fun h => ⟨Int32.le_of_eq h, Int32.le_of_eq h.symm⟩⟩
  obtain ⟨prev, hfind, hprev⟩ := hlev.findGreaterOrEqual_eq target
  rw [hnot] at hfind
  rw [hbelow] at hprev
  refine ⟨⟨prev, hfind, hprev⟩, ?_, ?_, ?_⟩
  · rw [hlev.findLessThan_eq target, hbelow]
  · rw [hlev.threaded.findLast_eq, scanLast, List.filter_eq_self.mpr (fun _ _ => rfl)]
  · rw [hlev.threaded.contains_spec target, hequal]

/-! ## The iterator -/

/-- `Iterator::Prev` from node `n`. -/
def iterPrev (l : SkipList Key) (n : NodeId) : Option (Option NodeId) := do
  let node ← l.findLessThan (l.key n)
  return if node = head then none else some node

omit [Comparator Key] in
/-- `Iterator::SeekToFirst`. -/
def seekToFirst (l : SkipList Key) : Option (Option NodeId) := l.next head 0

omit [Comparator Key] in
/-- `Iterator::SeekToLast`. -/
def seekToLast (l : SkipList Key) : Option (Option NodeId) := do
  let node ← l.findLast
  return if node = head then none else some node

/-- A call of an iterator. -/
inductive IterCall (Key : Type) where
  | next
  | prev
  | seek (target : Key)
  | seekToFirst
  | seekToLast

/-- The call of an iterator that stands at `node`. `Next` and `Prev` require a valid position. -/
def iterCall (l : SkipList Key) (node : Option NodeId) : IterCall Key → Option (Option NodeId)
  | .next => node.bind l.iterNext
  | .prev => node.bind l.iterPrev
  | .seek target => l.seek target
  | .seekToFirst => l.seekToFirst
  | .seekToLast => l.seekToLast

/-- A new iterator, which is invalid, after the given calls. -/
def iterRun (l : SkipList Key) (calls : List (IterCall Key)) : Option (Option NodeId) :=
  calls.foldlM l.iterCall none

omit [Comparator Key] in
/-- The keys that an iterator at the given position sees when it is moved until it is invalid, for a given
    number of moves. -/
def collect (l : SkipList Key) (move : NodeId → Option (Option NodeId)) :
    Nat → Option NodeId → Option (List Key)
  | _, none => some []
  | 0, some _ => none
  | fuel + 1, some n => do
    let next ← move n
    let rest ← l.collect move fuel next
    return l.key n :: rest

omit [Comparator Key] in
/-- Moving along a linked list collects its keys. -/
theorem collect_eq {move : NodeId → Option (Option NodeId)} (N : List NodeId) (fuel : Nat)
    (hlink : Linked move N) (hf : N.length ≤ fuel) : l.collect move fuel N.head? = some (N.map l.key) := by
  induction N generalizing fuel with
  | nil => cases fuel <;> rfl
  | cons n N ih =>
      obtain ⟨fuel, rfl⟩ := Nat.exists_eq_succ_of_ne_zero (Nat.ne_of_gt (Nat.lt_of_lt_of_le (by simp) hf))
      have hnext : move n = some N.head? := Linked.next_eq (u := []) hlink
      have hrest := ih fuel hlink.tail (by simpa using hf)
      simp only [List.head?_cons, collect, hnext, Option.bind_eq_bind, Option.bind_some, hrest, List.map_cons]
      rfl

theorem Levels.ne_head (h : Levels l T) {n : NodeId} (hn : n ∈ (T 0).tail) : n ≠ head := by
  have hnd := h.threaded.nodup 0
  rw [h.zero_eq] at hnd
  rintro rfl
  exact (List.nodup_cons.mp hnd).1 hn

/-- What an iterator makes of the last of the nodes `u` in front of a place, `head_` standing for none. -/
theorem Levels.position_eq (h : Levels l T) {u : List NodeId} (hu : ∀ n ∈ u, n ∈ (T 0).tail) :
    (if u.getLast?.getD head = head then none else some (u.getLast?.getD head)) = u.getLast? := by
  cases hlast : u.getLast? with
  | none => rfl
  | some n =>
      have hn : n ≠ head := h.ne_head (hu n (List.mem_of_getLast? hlast))
      exact if_neg hn

theorem Levels.seekToFirst_eq (h : Levels l T) : l.seekToFirst = some (T 0).tail.head? := by
  have hnext : l.level 0 head = some (T 0).tail.head? := Linked.next_eq (u := []) h.linked_zero
  exact hnext

theorem Levels.seekToLast_eq (h : Levels l T) : l.seekToLast = some (T 0).tail.getLast? := by
  rw [seekToLast, h.threaded.findLast_eq]
  exact congrArg some (h.position_eq (fun _ hn => hn))

theorem Levels.linked_iterNext (h : Levels l T) : Linked l.iterNext (T 0).tail := h.linked_zero.tail

/-- Wherever the calls of an iterator lead, a valid position is a node of level 0. -/
theorem Levels.iterRun_mem [LawfulComparator Key] (h : Levels l T) (calls : List (IterCall Key))
    {node : Option NodeId} (hrun : l.iterRun calls = some node) : ∀ n, node = some n → n ∈ (T 0).tail := by
  induction calls using List.reverseRecOn generalizing node with
  | nil =>
      rintro n rfl
      exact absurd hrun (by simp [iterRun])
  | append_singleton calls call ih =>
      unfold iterRun at hrun
      rw [List.foldlM_append] at hrun
      obtain ⟨before, hbefore, hcall⟩ := Option.bind_eq_some_iff.mp hrun
      have hcall : l.iterCall before call = some node := by simpa using hcall
      rintro n rfl
      cases call with
      | next =>
          obtain ⟨m, rfl, hnext⟩ := Option.bind_eq_some_iff.mp hcall
          have hfwd := h.linked_iterNext.forward m (ih hbefore m rfl) n hnext
          exact hfwd.mem_right
      | prev =>
          obtain ⟨m, rfl, hprev⟩ := Option.bind_eq_some_iff.mp hcall
          obtain ⟨p, hp, hlast⟩ := h.threaded.findLessThan_spec (l.key m)
          simp only [iterPrev, hp, Option.bind_eq_bind, Option.bind_some] at hprev
          split at hprev
          · exact absurd hprev (by simp)
          · obtain rfl : p = n := by simpa using hprev
            have hmem := hlast.1
            rw [h.zero_eq] at hmem
            exact (List.mem_cons.mp hmem).resolve_left ‹_›
      | seek target =>
          obtain ⟨A, B, hT, hseek, _, _⟩ := h.threaded.seek_spec target
          have hn : B.head? = some n := Option.some.inj (hseek.symm.trans hcall)
          rw [hT, List.tail_cons]
          exact List.mem_append_right A (List.mem_of_head? hn)
      | seekToFirst =>
          exact List.mem_of_head? (Option.some.inj (h.seekToFirst_eq.symm.trans hcall))
      | seekToLast =>
          exact List.mem_of_getLast? (Option.some.inj (h.seekToLast_eq.symm.trans hcall))

section Strict

variable [LawfulComparator Key]

/-- Without ties, `Prev` goes to the node in front. -/
theorem Levels.iterPrev_eq (h : Levels l T)
    (hstrict : (T 0).tail.Pairwise (fun a b => compare (l.key a) (l.key b) < 0)) {u w : List NodeId}
    {m : NodeId} (hT : (T 0).tail = u ++ m :: w) : l.iterPrev m = some u.getLast? := by
  rw [hT] at hstrict
  obtain ⟨_, hmw, hum⟩ := List.pairwise_append.mp hstrict
  have hlow : ∀ n ∈ u, decide (compare (l.key n) (l.key m) < 0) = true :=
    fun n hn => decide_eq_true (hum n hn m List.mem_cons_self)
  have hhigh : ∀ n ∈ m :: w, decide (compare (l.key n) (l.key m) < 0) = false := by
    intro n hn
    refine decide_eq_false (fun hlt => ?_)
    rcases List.mem_cons.mp hn with rfl | hn
    · exact LawfulComparator.asymm _ _ hlt hlt
    · exact LawfulComparator.asymm _ _ hlt ((List.pairwise_cons.mp hmw).1 n hn)
  rw [iterPrev, h.findLessThan_eq, hT, scanLast_append hlow hhigh]
  exact congrArg some (h.position_eq (fun n hn => by rw [hT]; exact List.mem_append_left _ hn))

/-- Without ties, `Prev` links the nodes of level 0 backwards. -/
theorem Levels.linked_iterPrev (h : Levels l T)
    (hstrict : (T 0).tail.Pairwise (fun a b => compare (l.key a) (l.key b) < 0)) :
    Linked l.iterPrev (T 0).tail.reverse := by
  refine linked_of_next_eq ?_
  intro u m w hrev
  have hT : (T 0).tail = w.reverse ++ m :: u.reverse := by
    rw [← List.reverse_reverse (T 0).tail, hrev, List.reverse_append, List.reverse_cons, List.append_assoc]
    rfl
  rw [h.iterPrev_eq hstrict hT, List.getLast?_reverse]

/-- What was inserted without ties stands on level 0 in strictly increasing order. -/
theorem Levels.strict (h : Levels l T) {keys : List Key} (hperm : ((T 0).tail.map l.key).Perm keys)
    (hdistinct : keys.Pairwise (fun a b => compare a b ≠ 0)) :
    (T 0).tail.Pairwise (fun a b => compare (l.key a) (l.key b) < 0) := by
  have hsymm : ∀ {a b : Key}, compare a b ≠ 0 → compare b a ≠ 0 := by
    intro a b hab hba
    exact hab ((LawfulComparator.eq_zero a b).mpr ((LawfulComparator.eq_zero b a).mp hba).symm)
  have hne : (T 0).tail.Pairwise (fun a b => compare (l.key a) (l.key b) ≠ 0) :=
    List.pairwise_map.mp ((hperm.pairwise_iff hsymm).mpr hdistinct)
  refine h.sorted.imp₂ ?_ hne
  intro a b hord hab
  by_contra hnot
  exact hab ((LawfulComparator.eq_zero _ _).mpr ⟨hnot, hord⟩)

/-- **`Next` and `Prev` undo each other.** When no two keys inserted compare equal, whatever the heights: at
    every valid position that the calls of an iterator lead to, `Next` and `Prev` both return, `Prev` after a
    `Next` that stayed valid is back at the position, and so is `Next` after a `Prev`. `SeekToFirst` and then
    `Next` until the iterator is invalid see every key inserted once, in increasing order; `SeekToLast` and
    then `Prev` see exactly the reverse. -/
theorem iterator_moves_are_inverse [Inhabited Key] (ops : List (Key × Height))
    (hdistinct : (ops.map Prod.fst).Pairwise (fun a b => compare a b ≠ 0)) :
    ∃ (l : SkipList Key) (keys : List Key), (new : SkipList Key).insertAll ops = some l ∧
      keys.Perm (ops.map Prod.fst) ∧ keys.Pairwise (fun a b => compare a b < 0) ∧
      (∀ calls n, l.iterRun calls = some (some n) →
        (∃ next, l.iterNext n = some next ∧ ∀ m, next = some m → l.iterPrev m = some (some n)) ∧
        ∃ prev, l.iterPrev n = some prev ∧ ∀ m, prev = some m → l.iterNext m = some (some n)) ∧
      l.seekToFirst.bind (l.collect l.iterNext ops.length) = some keys ∧
      l.seekToLast.bind (l.collect l.iterPrev ops.length) = some keys.reverse := by
  obtain ⟨l, T, hl, hlev, hperm⟩ := insertAll_levels ops
  have hstrict := hlev.strict hperm hdistinct
  have hlen : (T 0).tail.length = ops.length := by simpa using hperm.length_eq
  refine ⟨l, (T 0).tail.map l.key, hl, hperm, List.pairwise_map.mpr hstrict, ?_, ?_, ?_⟩
  · intro calls n hrun
    obtain ⟨u, w, hT⟩ := List.append_of_mem (hlev.iterRun_mem calls hrun n rfl)
    have hlink : Linked l.iterNext (u ++ n :: w) := hT ▸ hlev.linked_iterNext
    refine ⟨⟨_, hlink.next_eq, ?_⟩, _, hlev.iterPrev_eq hstrict hT, ?_⟩
    · intro m hm
      obtain ⟨w, rfl⟩ := List.head?_eq_some_iff.mp hm
      have hT' : (T 0).tail = (u ++ [n]) ++ m :: w := by rw [hT, List.append_assoc]; rfl
      rw [hlev.iterPrev_eq hstrict hT', List.getLast?_concat]
    · intro m hm
      obtain ⟨u, rfl⟩ := List.getLast?_eq_some_iff.mp hm
      rw [List.append_assoc] at hlink
      exact hlink.next_eq
  · rw [hlev.seekToFirst_eq]
    exact collect_eq _ _ hlev.linked_iterNext (Nat.le_of_eq hlen)
  · have hlast : (T 0).tail.getLast? = (T 0).tail.reverse.head? := List.head?_reverse.symm
    rw [hlev.seekToLast_eq, hlast, ← List.map_reverse]
    exact collect_eq _ _ (hlev.linked_iterPrev hstrict) (by rw [List.length_reverse, hlen])

end Strict

/-- Three keys with different scores and heights. `Seek` puts the iterator at the one in the middle; from there
    `Next` and `Prev` both stay valid and come back. -/
theorem iterator_moves_are_inverse_three :
    let ops : List (ZsetSkipListNode × Height) :=
      [(⟨5, "b"⟩, ⟨1, by decide⟩), (⟨9, "c"⟩, ⟨3, by decide⟩), (⟨-2, "a"⟩, ⟨2, by decide⟩)]
    ∃ (l : SkipList ZsetSkipListNode) (keys : List ZsetSkipListNode),
      (new : SkipList ZsetSkipListNode).insertAll ops = some l ∧
      keys.Perm (ops.map Prod.fst) ∧ keys.Pairwise (fun a b => compare a b < 0) ∧
      l.iterRun [.seek ⟨0, ""⟩] = some (some 1) ∧
      (l.iterNext 1 = some (some 2) ∧ l.iterPrev 2 = some (some 1)) ∧
      (l.iterPrev 1 = some (some 3) ∧ l.iterNext 3 = some (some 1)) ∧
      l.seekToFirst.bind (l.collect l.iterNext 3) = some keys ∧
      l.seekToLast.bind (l.collect l.iterPrev 3) = some keys.reverse := by
  intro ops
  obtain ⟨l, keys, hl, hperm, hsorted, hmoves, hforward, hbackward⟩ :=
    iterator_moves_are_inverse ops (by decide)
  have hexec : ((new : SkipList ZsetSkipListNode).insertAll ops).map
      (fun l => (l.iterRun [.seek ⟨0, ""⟩], l.iterNext 1, l.iterPrev 1))
        = some (some (some 1), some (some 2), some (some 3)) := by decide +kernel
  rw [hl, Option.map_some, Option.some.injEq, Prod.mk.injEq, Prod.mk.injEq] at hexec
  obtain ⟨hseek, hnext, hprev⟩ := hexec
  obtain ⟨⟨_, hnext', hback⟩, _, hprev', hforth⟩ := hmoves _ 1 hseek
  exact ⟨l, keys, hl, hperm, hsorted, hseek, ⟨hnext, hback 2 (Option.some.inj (hnext'.symm.trans hnext))⟩,
    ⟨hprev, hforth 3 (Option.some.inj (hprev'.symm.trans hprev))⟩, hforward, hbackward⟩

end SkipList

end ZhiCache
