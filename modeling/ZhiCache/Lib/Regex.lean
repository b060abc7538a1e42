import Mathlib.Data.List.Basic

/-!
# `Lib.Regex` — patterns of literals and captured runs, matched by backtracking

A fragment of the ECMAScript regular expressions: a pattern is a sequence of literals and of captured runs
of the wildcard, `(.*)`, `(.+)` and their lazy forms `(.*?)`, `(.+?)`, and it may be anchored at either end.
The alphabet is arbitrary; `wild` says which of its symbols the wildcard stands for.

The semantics is the backtracking one. A lazy run is tried from the shortest length up and a greedy one from
the longest down, and the first length with which the rest of the pattern matches is taken; a search tries
the places of the text from the left. `takeRun_lazy` is the rule for a lazy run: it ends at the first place
where the rest of the pattern matches.

`Regex.ofPattern` reads the textual form, for patterns over characters.
-/

namespace Lib

variable {α : Type}

/-- A piece of a pattern. -/
inductive Piece (α : Type) where
  | lit (a : α)
  /-- A captured run of at least `least` wildcards. -/
  | run (least : Nat) (isLazy : Bool)
  deriving DecidableEq

/-- A pattern. -/
structure Regex (α : Type) where
  /-- The pattern begins with `^`. -/
  fromStart : Bool
  pieces : List (Piece α)
  /-- The pattern ends with `$`. -/
  toEnd : Bool
  deriving DecidableEq

/-- The pieces that begin with the literals `w`. -/
def lits (w : List α) (ps : List (Piece α)) : List (Piece α) := w.map .lit ++ ps

/-- What a match gives: the captured runs in order, and what is left of the text behind it. -/
abbrev Outcome (α : Type) := List (List α) × List α

/-! ## Runs -/

section Runs

variable (wild : α → Bool)

/-- A run of at least the given number of wildcards after which `k` succeeds. -/
def takeRun (k : List α → Option (Outcome α)) (isLazy : Bool) : Nat → List α → Option (List α × Outcome α)
  | 0, [] => (k []).map (fun o => ([], o))
  | 0, a :: s =>
    let here := (k (a :: s)).map (fun o => ([], o))
    let further := if wild a then (takeRun k isLazy 0 s).map (fun r => (a :: r.1, r.2)) else none
    if isLazy then here <|> further else further <|> here
  | _ + 1, [] => none
  | n + 1, a :: s => if wild a then (takeRun k isLazy n s).map (fun r => (a :: r.1, r.2)) else none

variable {wild}

/-- **A lazy run ends at the first place where the rest of the pattern matches.** -/
theorem takeRun_lazy {k : List α → Option (Outcome α)} {u t : List α} {o : Outcome α}
    (hwild : ∀ a ∈ u, wild a = true) (hk : k t = some o)
    (hfirst : ∀ u₁ u₂, u = u₁ ++ u₂ → u₂ ≠ [] → k (u₂ ++ t) = none) :
    takeRun wild k true 0 (u ++ t) = some (u, o) := by
  induction u with
  | nil =>
      cases t with
      | nil => simp [takeRun, hk]
      | cons a t => simp [takeRun, hk]
  | cons a u ih =>
      have hno : k (a :: (u ++ t)) = none := hfirst [] (a :: u) rfl (by simp)
      have hrest : takeRun wild k true 0 (u ++ t) = some (u, o) := by
        apply ih (fun b hb => hwild b (List.mem_cons_of_mem a hb))
        intro u₁ u₂ hu hne
        exact hfirst (a :: u₁) u₂ (by rw [hu]; rfl) hne
      simp [takeRun, hno, hrest, hwild a List.mem_cons_self]

/-- A lazy run of at least one wildcard. -/
theorem takeRun_lazy_succ {k : List α → Option (Outcome α)} {a : α} {u t : List α} {o : Outcome α}
    (ha : wild a = true) (h : takeRun wild k true 0 (u ++ t) = some (u, o)) :
    takeRun wild k true 1 (a :: u ++ t) = some (a :: u, o) := by
  show (if wild a then (takeRun wild k true 0 (u ++ t)).map (fun r => (a :: r.1, r.2)) else none) = _
  rw [if_pos ha, h]
  rfl

/-- What a run takes, lazy or not, consists of wildcards, and the rest of the pattern matches behind it. -/
theorem takeRun_sound {k : List α → Option (Outcome α)} {isLazy : Bool} {n : Nat} {s u : List α} {o : Outcome α}
    (h : takeRun wild k isLazy n s = some (u, o)) :
    ∃ t, s = u ++ t ∧ (∀ a ∈ u, wild a = true) ∧ k t = some o := by
  induction s generalizing n u with
  | nil =>
      cases n with
      | zero =>
          obtain ⟨o', hk, heq⟩ := Option.map_eq_some_iff.mp h
          obtain ⟨rfl, rfl⟩ := Prod.mk.inj heq
          exact ⟨[], rfl, by simp, hk⟩
      | succ n => exact absurd h (by simp [takeRun])
  | cons a s ih =>
      have hhere : (k (a :: s)).map (fun o => (([] : List α), o)) = some (u, o) →
          ∃ t, a :: s = u ++ t ∧ (∀ b ∈ u, wild b = true) ∧ k t = some o := by
        intro h
        obtain ⟨o', hk, heq⟩ := Option.map_eq_some_iff.mp h
        obtain ⟨rfl, rfl⟩ := Prod.mk.inj heq
        exact ⟨a :: s, rfl, by simp, hk⟩
      have hfurther : ∀ m, (if wild a then (takeRun wild k isLazy m s).map (fun r => (a :: r.1, r.2)) else none)
          = some (u, o) → ∃ t, a :: s = u ++ t ∧ (∀ b ∈ u, wild b = true) ∧ k t = some o := by
        intro m h
        split at h
        · rename_i ha
          obtain ⟨⟨u', o'⟩, hrun, heq⟩ := Option.map_eq_some_iff.mp h
          obtain ⟨rfl, rfl⟩ := Prod.mk.inj heq
          obtain ⟨t, rfl, hwild, hk⟩ := ih hrun
          exact ⟨t, rfl, List.forall_mem_cons.mpr ⟨ha, hwild⟩, hk⟩
        · exact absurd h (by simp)
      cases n with
      | zero =>
          cases isLazy with
          | true =>
              rcases Option.or_eq_some_iff.mp (Option.orElse_eq_or.symm.trans h) with h | ⟨_, h⟩
              · exact hhere h
              · exact hfurther 0 h
          | false =>
              rcases Option.or_eq_some_iff.mp (Option.orElse_eq_or.symm.trans h) with h | ⟨_, h⟩
              · exact hfurther 0 h
              · exact hhere h
      | succ n => exact hfurther n h

end Runs

/-! ## Matching -/

section Matching

variable [DecidableEq α] (wild : α → Bool)

/-- The pieces, one after another, from the beginning of the text. -/
def matchHere (toEnd : Bool) : List (Piece α) → List α → Option (Outcome α)
  | [], s => if toEnd && !s.isEmpty then none else some ([], s)
  | .lit _ :: _, [] => none
  | .lit a :: ps, b :: s => if a = b then matchHere toEnd ps s else none
  | .run least isLazy :: ps, s =>
    (takeRun wild (matchHere toEnd ps) isLazy least s).map (fun r => (r.1 :: r.2.1, r.2.2))

namespace Regex

/-- The leftmost place where the pattern matches: what is before it, and the match. -/
def searchLoop (r : Regex α) : List α → Option (List α × Outcome α)
  | [] => (matchHere wild r.toEnd r.pieces []).map (fun o => ([], o))
  | a :: s =>
    match matchHere wild r.toEnd r.pieces (a :: s) with
    | some o => some ([], o)
    | none => (searchLoop r s).map (fun m => (a :: m.1, m.2))

/-- A search. A pattern that begins with `^` is tried at the start only. -/
def search (r : Regex α) (s : List α) : Option (List α × Outcome α) :=
  if r.fromStart then (matchHere wild r.toEnd r.pieces s).map (fun o => ([], o)) else r.searchLoop wild s

/-- A match of the whole text. -/
def matchWhole (r : Regex α) (s : List α) : Option (List (List α)) :=
  (matchHere wild true r.pieces s).map Prod.fst

/-- Searches one behind the other, at most the given number of them: what is before each match and what it
    captured, and what is behind the last. -/
def searchAll (r : Regex α) : Nat → List α → List (List α × List (List α)) × List α
  | 0, s => ([], s)
  | n + 1, s =>
    match r.search wild s with
    | none => ([], s)
    | some (before, captures, rest) =>
      let (found, last) := searchAll r n rest
      ((before, captures) :: found, last)

/-- Every match replaced by a text. A match of the pattern is taken not to be empty, so that there are no
    more of them than symbols. -/
def replaceAll (r : Regex α) (text s : List α) : List α :=
  let (found, last) := r.searchAll wild s.length s
  found.flatMap (fun m => m.1 ++ text) ++ last

end Regex

/-! ## Rules -/

variable {wild} {toEnd : Bool} {ps : List (Piece α)}

/-- Literals match themselves. -/
theorem matchHere_lits (w s : List α) :
    matchHere wild toEnd (lits w ps) (w ++ s) = matchHere wild toEnd ps s := by
  induction w with
  | nil => rfl
  | cons a w ih =>
      show (if a = a then matchHere wild toEnd (lits w ps) (w ++ s) else none) = _
      rw [if_pos rfl]
      exact ih

/-- Literals match nothing else. -/
theorem matchHere_lits_eq_none {w s : List α} (h : ¬ w <+: s) :
    matchHere wild toEnd (lits w ps) s = none := by
  induction w generalizing s with
  | nil => exact absurd List.nil_prefix h
  | cons a w ih =>
      cases s with
      | nil => rfl
      | cons b s =>
          show (if a = b then matchHere wild toEnd (lits w ps) s else none) = none
          by_cases hab : a = b
          · subst hab
            rw [if_pos rfl]
            apply ih
            intro hw
            exact h (List.cons_prefix_cons.mpr ⟨rfl, hw⟩)
          · exact if_neg hab

/-- A word and a separator match at no place but in front of the separator, … -/
theorem matchHere_word_eq_none {w u t : List α} {a : α} (hw : a ∉ w) (hu : a ∉ u) (hne : u ≠ w) :
    matchHere wild toEnd (lits w (.lit a :: ps)) (u ++ a :: t) = none := by
  have hlits : lits w (.lit a :: ps) = lits (w ++ [a]) ps := by simp [lits]
  rw [hlits]
  apply matchHere_lits_eq_none
  rintro ⟨rest, heq⟩
  rw [List.append_assoc] at heq
  -- the separator stands for the first time behind `w` on the one side and behind `u` on the other
  have hlen : w.length = u.length := by
    have hidx := congrArg (List.idxOf a) heq
    rwa [List.idxOf_append_of_notMem hw, List.idxOf_append_of_notMem hu, List.singleton_append,
      List.idxOf_cons_self, List.idxOf_cons_self] at hidx
  exact hne (List.append_inj_left heq hlen).symm

/-- … and nowhere in a text without the separator. -/
theorem matchHere_word_eq_none_of_notMem {w s : List α} {a : α} (hs : a ∉ s) :
    matchHere wild toEnd (lits w (.lit a :: ps)) s = none := by
  have hlits : lits w (.lit a :: ps) = lits (w ++ [a]) ps := by simp [lits]
  rw [hlits]
  apply matchHere_lits_eq_none
  intro hpre
  exact hs (hpre.subset (by simp))

/-- Nothing but the end of the text is left to match. -/
theorem takeRun_lazy_end {u : List α} (hwild : ∀ a ∈ u, wild a = true) :
    takeRun wild (matchHere wild true []) true 0 u = some (u, [], []) := by
  have h := takeRun_lazy (k := matchHere wild true []) (t := []) (o := ([], [])) hwild rfl (by
    intro u₁ u₂ _ hne
    rw [List.append_nil]
    cases u₂ with
    | nil => exact absurd rfl hne
    | cons a u₂ => rfl)
  rw [List.append_nil] at h
  exact h

/-- **A lazy run at the end** of a pattern that goes to the end of the text takes what is left. -/
theorem matchHere_lazy_end {u : List α} (hwild : ∀ a ∈ u, wild a = true) :
    matchHere wild true [.run 0 true] u = some ([u], []) := by
  show (takeRun wild (matchHere wild true []) true 0 u).map _ = _
  rw [takeRun_lazy_end hwild]
  rfl

/-- It takes nothing that is not all wildcards. -/
theorem wild_of_matchHere_lazy_end {u : List α} {o : Outcome α}
    (h : matchHere wild true [.run 0 true] u = some o) : ∀ a ∈ u, wild a = true := by
  obtain ⟨⟨run, o'⟩, hrun, _⟩ := Option.map_eq_some_iff.mp h
  obtain ⟨t, rfl, hwild, hend⟩ := takeRun_sound hrun
  cases t with
  | nil => simpa using hwild
  | cons a t => exact absurd hend (by simp [matchHere])

/-- The same, for a run of at least one wildcard. -/
theorem matchHere_lazy_end_succ {u : List α} (hne : u ≠ []) (hwild : ∀ a ∈ u, wild a = true) :
    matchHere wild true [.run 1 true] u = some ([u], []) := by
  cases u with
  | nil => exact absurd rfl hne
  | cons a u =>
      have hu := takeRun_lazy_end (fun b hb => hwild b (List.mem_cons_of_mem a hb))
      have hrun := takeRun_lazy_succ (t := []) (hwild a List.mem_cons_self) (by rw [List.append_nil]; exact hu)
      rw [List.append_nil] at hrun
      show (takeRun wild (matchHere wild true []) true 1 (a :: u)).map _ = _
      rw [hrun]
      rfl

/-- **A greedy run at the end** of a pattern takes all the wildcards there are. -/
theorem matchHere_greedy_end {u : List α} (hwild : ∀ a ∈ u, wild a = true) :
    matchHere wild false [.run 0 false] u = some ([u], []) := by
  have hrun : takeRun wild (matchHere wild false []) false 0 u = some (u, [], []) := by
    induction u with
    | nil => rfl
    | cons a u ih =>
        have hrest := ih (fun b hb => hwild b (List.mem_cons_of_mem a hb))
        simp [takeRun, hwild a List.mem_cons_self, hrest]
  show (takeRun wild (matchHere wild false []) false 0 u).map _ = _
  rw [hrun]
  rfl

/-- A run before a literal needs the literal. -/
theorem matchHere_run_lit_eq_none {a : α} {s : List α} {least : Nat} {isLazy : Bool} (ha : a ∉ s) :
    matchHere wild toEnd (.run least isLazy :: .lit a :: ps) s = none := by
  cases h : matchHere wild toEnd (.run least isLazy :: .lit a :: ps) s with
  | none => rfl
  | some o =>
      obtain ⟨⟨run, o'⟩, hrun, _⟩ := Option.map_eq_some_iff.mp h
      obtain ⟨t, rfl, _, hlit⟩ := takeRun_sound hrun
      have hno : matchHere wild toEnd (lits [] (.lit a :: ps)) t = none :=
        matchHere_word_eq_none_of_notMem (fun hmem => ha (List.mem_append_right run hmem))
      exact absurd (hlit.symm.trans hno) (by simp)

/-- **A lazy run before a literal** ends at the first occurrence of the literal, if the pattern matches from
    there on. -/
theorem matchHere_lazy_lit {a : α} {u t : List α} {o : Outcome α} (hwild : ∀ b ∈ u, wild b = true)
    (ha : a ∉ u) (hrest : matchHere wild toEnd ps t = some o) :
    matchHere wild toEnd (.run 0 true :: .lit a :: ps) (u ++ a :: t) = some (u :: o.1, o.2) := by
  show (takeRun wild (matchHere wild toEnd (.lit a :: ps)) true 0 (u ++ a :: t)).map _ = _
  have hk : matchHere wild toEnd (.lit a :: ps) (a :: t) = some o := by
    show (if a = a then matchHere wild toEnd ps t else none) = some o
    rw [if_pos rfl]
    exact hrest
  rw [takeRun_lazy hwild hk]
  · rfl
  · intro u₁ u₂ hu hne
    -- every earlier place has a symbol other than the literal
    cases u₂ with
    | nil => exact absurd rfl hne
    | cons b u₂ =>
        show (if a = b then matchHere wild toEnd ps (u₂ ++ a :: t) else none) = none
        apply if_neg
        rintro rfl
        exact ha (by rw [hu]; simp)

/-- **A search goes past the places where the pattern does not match.** -/
theorem Regex.searchLoop_skip {r : Regex α} {u t : List α}
    (hno : ∀ u₁ u₂, u = u₁ ++ u₂ → u₂ ≠ [] → matchHere wild r.toEnd r.pieces (u₂ ++ t) = none) :
    r.searchLoop wild (u ++ t) = (r.searchLoop wild t).map (fun m => (u ++ m.1, m.2)) := by
  induction u with
  | nil => simp
  | cons a u ih =>
      have hhere : matchHere wild r.toEnd r.pieces (a :: (u ++ t)) = none := hno [] (a :: u) rfl (by simp)
      have hrest := ih (fun u₁ u₂ hu hne => hno (a :: u₁) u₂ (by rw [hu]; rfl) hne)
      simp [searchLoop, hhere, hrest, Function.comp_def]

/-- A pattern to the end of the text, of wildcards and of literals that are wildcards, matches nothing but
    wildcards. -/
theorem wild_of_matchHere {s : List α} {o : Outcome α} (hps : ∀ a, Piece.lit a ∈ ps → wild a = true)
    (h : matchHere wild true ps s = some o) : ∀ a ∈ s, wild a = true := by
  induction ps generalizing s o with
  | nil =>
      cases s with
      | nil => simp
      | cons a s => exact absurd h (by simp [matchHere])
  | cons p ps ih =>
      have hrest : ∀ a, Piece.lit a ∈ ps → wild a = true := fun a ha => hps a (List.mem_cons_of_mem p ha)
      cases p with
      | lit a =>
          cases s with
          | nil => exact absurd h (by simp [matchHere])
          | cons b s =>
              have hif : (if a = b then matchHere wild true ps s else none) = some o := h
              by_cases hab : a = b
              · subst hab
                rw [if_pos rfl] at hif
                exact List.forall_mem_cons.mpr ⟨hps a List.mem_cons_self, ih hrest hif⟩
              · rw [if_neg hab] at hif
                exact absurd hif (by simp)
      | run least isLazy =>
          obtain ⟨⟨run, o'⟩, hrun, _⟩ := Option.map_eq_some_iff.mp h
          obtain ⟨t, rfl, hwild, ht⟩ := takeRun_sound hrun
          exact List.forall_mem_append.mpr ⟨hwild, ih hrest ht⟩

/-- A match at the start of the text is the one that a search finds. -/
theorem Regex.search_of_matchHere {r : Regex α} {s : List α} {o : Outcome α}
    (h : matchHere wild r.toEnd r.pieces s = some o) : r.search wild s = some ([], o) := by
  unfold search
  split
  · rw [h]
    rfl
  · cases s with
    | nil =>
        show (matchHere wild r.toEnd r.pieces []).map _ = _
        rw [h]
        rfl
    | cons a s => simp [searchLoop, h]

/-- Searches one behind the other go on behind a match, … -/
theorem Regex.searchAll_cons {r : Regex α} {n : Nat} {s before rest last : List α} {captures : List (List α)}
    {found : List (List α × List (List α))} (h : r.search wild s = some (before, captures, rest))
    (hrest : r.searchAll wild n rest = (found, last)) :
    r.searchAll wild (n + 1) s = ((before, captures) :: found, last) := by
  rw [searchAll, h]
  dsimp only
  rw [hrest]

/-- … and end where there is none. -/
theorem Regex.searchAll_nil {r : Regex α} {s : List α} (h : r.search wild s = none) (n : Nat) :
    r.searchAll wild n s = ([], s) := by
  cases n with
  | zero => rfl
  | succ n => rw [searchAll, h]

/-- What a search finds is a match at some place of the text, … -/
theorem Regex.searchLoop_sound {r : Regex α} {s before : List α} {o : Outcome α}
    (h : r.searchLoop wild s = some (before, o)) :
    ∃ t, s = before ++ t ∧ matchHere wild r.toEnd r.pieces t = some o := by
  induction s generalizing before with
  | nil =>
      obtain ⟨o', hm, heq⟩ := Option.map_eq_some_iff.mp h
      obtain ⟨rfl, rfl⟩ := Prod.mk.inj heq
      exact ⟨[], rfl, hm⟩
  | cons a s ih =>
      cases hm : matchHere wild r.toEnd r.pieces (a :: s) with
      | some o' =>
          simp only [searchLoop, hm, Option.some.injEq, Prod.mk.injEq] at h
          obtain ⟨rfl, rfl⟩ := h
          exact ⟨a :: s, rfl, hm⟩
      | none =>
          simp only [searchLoop, hm] at h
          obtain ⟨⟨before', o'⟩, hloop, heq⟩ := Option.map_eq_some_iff.mp h
          obtain ⟨rfl, rfl⟩ := Prod.mk.inj heq
          obtain ⟨t, rfl, ht⟩ := ih hloop
          exact ⟨t, rfl, ht⟩

/-- … and a match at any place is enough to find one. -/
theorem Regex.searchLoop_complete {r : Regex α} {t : List α} {o : Outcome α}
    (h : matchHere wild r.toEnd r.pieces t = some o) (u : List α) :
    ∃ m, r.searchLoop wild (u ++ t) = some m := by
  induction u with
  | nil =>
      cases t with
      | nil => exact ⟨([], o), by simp [searchLoop, h]⟩
      | cons a t => exact ⟨([], o), by simp [searchLoop, h]⟩
  | cons a u ih =>
      obtain ⟨m, hm⟩ := ih
      cases hhere : matchHere wild r.toEnd r.pieces (a :: (u ++ t)) with
      | some o' => exact ⟨([], o'), by simp [searchLoop, hhere]⟩
      | none => exact ⟨(a :: m.1, m.2), by simp [searchLoop, hhere, hm]⟩

end Matching

/-! ## The textual form -/

namespace Regex

/-- The characters that do not stand for themselves. -/
def metacharacters : List Char := ['\\', '^', '$', '.', '*', '+', '?', '(', ')', '[', ']', '\x7b', '\x7d', '|']

/-- The pieces, and whether `$` is at the end. -/
def parsePieces : List Char → Option (List (Piece Char) × Bool)
  | [] => some ([], false)
  | ['$'] => some ([], true)
  | '\\' :: c :: cs =>
    if c.isAlphanum then none else (parsePieces cs).map (fun r => (.lit c :: r.1, r.2))
  | '(' :: '.' :: '*' :: '?' :: ')' :: cs => (parsePieces cs).map (fun r => (.run 0 true :: r.1, r.2))
  | '(' :: '.' :: '*' :: ')' :: cs => (parsePieces cs).map (fun r => (.run 0 false :: r.1, r.2))
  | '(' :: '.' :: '+' :: '?' :: ')' :: cs => (parsePieces cs).map (fun r => (.run 1 true :: r.1, r.2))
  | '(' :: '.' :: '+' :: ')' :: cs => (parsePieces cs).map (fun r => (.run 1 false :: r.1, r.2))
  | c :: cs =>
    if c ∈ metacharacters then none else (parsePieces cs).map (fun r => (.lit c :: r.1, r.2))

/-- The pattern that a text describes; none when the text is not of the fragment. -/
def ofPattern : List Char → Option (Regex Char)
  | '^' :: cs => (parsePieces cs).map (fun r => ⟨true, r.1, r.2⟩)
  | cs => (parsePieces cs).map (fun r => ⟨false, r.1, r.2⟩)

/-- A character that is not a metacharacter stands for itself, … -/
theorem parsePieces_cons {c : Char} (hc : c ∉ metacharacters) (cs : List Char) :
    parsePieces (c :: cs) = (parsePieces cs).map (fun r => (.lit c :: r.1, r.2)) := by
  have hd : c ≠ '$' := by rintro rfl; exact hc (by decide)
  have hb : c ≠ '\\' := by rintro rfl; exact hc (by decide)
  have hp : c ≠ '(' := by rintro rfl; exact hc (by decide)
  rw [parsePieces]
  · exact if_neg hc
  all_goals simp_all

/-- … and so does a text without any. -/
theorem parsePieces_append {w : List Char} (hw : ∀ c ∈ w, c ∉ metacharacters) (cs : List Char) :
    parsePieces (w ++ cs) = (parsePieces cs).map (fun r => (lits w r.1, r.2)) := by
  induction w with
  | nil => simp [lits]
  | cons c w ih =>
      have hrest := ih (fun c' hc' => hw c' (List.mem_cons_of_mem c hc'))
      rw [List.cons_append, parsePieces_cons (hw c List.mem_cons_self), hrest, Option.map_map]
      rfl

theorem ofPattern_eq {cs : List Char} (h : cs.head? ≠ some '^') :
    ofPattern cs = (parsePieces cs).map (fun r => ⟨false, r.1, r.2⟩) := by
  rw [ofPattern]
  rintro cs' rfl
  exact h rfl

/-- The characters that `.` matches. -/
def dot (c : Char) : Bool := c != '\n' && c != '\r'

end Regex

end Lib
