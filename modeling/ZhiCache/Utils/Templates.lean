import ZhiCache.Utils.ParamParse

/-!
# `Utils.Templates` — path templates with any number of placeholders

A `Template` is what `GetPathParam` is meant for: literal pieces that begin with a slash, and placeholders
between them. `compile` turns its text into the expression it looks like (`compile_text`): the names in order,
and for each placeholder a lazy group in front of the literal behind it.

Filled with values that contain no slash, a template gives the values back (`getPathParam_fill`). A group may
end only where the literal behind it begins, which is at a slash, and the first slash behind a value is the
right one; so the first split that the backtracking tries is the intended one.
-/

namespace ZhiCache

open Lib

namespace ParamParse

/-- A literal piece of a template: it begins with a slash and stands for itself. -/
def IsLiteral (w : String) : Prop :=
  w.toList.head? = some '/' ∧ ∀ c ∈ w.toList, c ∉ Regex.metacharacters ∧ c ≠ '\n' ∧ c ≠ '\r'

/-- The placeholders of a template, each with the literal behind it. The literal may be missing only at the
    end, in front of `$`. -/
def HolesOk (toEnd : Bool) : List (String × String) → Prop
  | [] => True
  | (name, w) :: holes =>
    IsName name ∧ (IsLiteral w ∨ w = "" ∧ holes = [] ∧ toEnd = true) ∧ HolesOk toEnd holes

/-- A template. -/
structure Template where
  /-- The literal in front of the first placeholder, empty when the template begins with the placeholder. -/
  lead : String
  holes : List (String × String)
  /-- The template ends with `$`. -/
  toEnd : Bool
  lead_ok : lead = "" ∨ IsLiteral lead
  holes_ok : HolesOk toEnd holes

/-- A value of a placeholder. -/
abbrev PathValue := { v : String // ∀ c ∈ v.toList, c ≠ '/' ∧ c ≠ '\n' ∧ c ≠ '\r' }

/-- `$`, if the template has it. -/
def endMark (toEnd : Bool) : List Char := if toEnd then ['$'] else []

/-- The placeholders as they are written. -/
def holesText : List (String × String) → List Char
  | [] => []
  | (name, w) :: holes => '\x7b' :: (name.toList ++ '\x7d' :: (w.toList ++ holesText holes))

/-- The placeholders with their values in place. -/
def holesFill (value : String → PathValue) : List (String × String) → List Char
  | [] => []
  | (name, w) :: holes => (value name).1.toList ++ (w.toList ++ holesFill value holes)

/-- The placeholders as an expression has them. -/
def holesPieces : List (String × String) → List (Piece Char)
  | [] => []
  | (_, w) :: holes => .run 0 true :: lits w.toList (holesPieces holes)

namespace Template

/-- The text of the template. -/
def text (t : Template) : String := String.ofList (t.lead.toList ++ (holesText t.holes ++ endMark t.toEnd))

/-- The URI that the template gives with the values. -/
def fill (t : Template) (value : String → PathValue) : String :=
  String.ofList (t.lead.toList ++ holesFill value t.holes)

end Template

/-! ## What a template is compiled to -/

/-- The expression for a placeholder, as a pattern. -/
def braces : Regex Char := ⟨false, lits ['\x7b'] [.run 0 true, .lit '\x7d'], false⟩

theorem regex_placeholder : regex placeholder = some braces := by decide +kernel

/-- What a placeholder is replaced by. -/
def lazyGroup : List Char := ['(', '.', '*', '?', ')']

theorem toList_lazyGroup : "(.*?)".toList = lazyGroup := rfl

/-- The text without the placeholders' names, as the replacement leaves it. -/
def holesGroups : List (String × String) → List Char
  | [] => []
  | (_, w) :: holes => lazyGroup ++ (w.toList ++ holesGroups holes)

/-- Nothing that begins without an opening brace is a placeholder. -/
theorem matchHere_braces_eq_none {s : List Char} (hs : s.head? ≠ some '\x7b') :
    matchHere Regex.dot braces.toEnd braces.pieces s = none := by
  apply matchHere_lits_eq_none
  rintro ⟨rest, rfl⟩
  exact hs rfl

/-- A text without an opening brace has no placeholder. -/
theorem search_braces_none {s : List Char} (hs : '\x7b' ∉ s) : braces.search Regex.dot s = none := by
  cases h : braces.search Regex.dot s with
  | none => rfl
  | some m =>
      obtain ⟨before, o⟩ := m
      obtain ⟨t, rfl, hmatch⟩ := Regex.searchLoop_sound h
      have hno : t.head? ≠ some '\x7b' := fun ht => hs (List.mem_append_right before (List.mem_of_head? ht))
      exact absurd (hmatch.symm.trans (matchHere_braces_eq_none hno)) (by simp)

/-- The first placeholder of a text, behind what has no opening brace. -/
theorem search_braces {lead name s : List Char} (hlead : '\x7b' ∉ lead)
    (hname : ∀ c ∈ name, c.isAlphanum = true) :
    braces.search Regex.dot (lead ++ '\x7b' :: (name ++ '\x7d' :: s)) = some (lead, [name], s) := by
  have hdot : ∀ c ∈ name, Regex.dot c = true := by
    intro c hc
    have hn : c ≠ '\n' := by rintro rfl; exact absurd (hname _ hc) (by decide)
    have hr : c ≠ '\r' := by rintro rfl; exact absurd (hname _ hc) (by decide)
    simp [Regex.dot, hn, hr]
  have hclose : '\x7d' ∉ name := fun hc => absurd (hname _ hc) (by decide)
  have hmatch : matchHere Regex.dot braces.toEnd braces.pieces (['\x7b'] ++ (name ++ '\x7d' :: s))
      = some ([name], s) := by
    show matchHere Regex.dot false (lits ['\x7b'] [.run 0 true, .lit '\x7d']) _ = _
    rw [matchHere_lits]
    exact matchHere_lazy_lit (o := ([], s)) hdot hclose rfl
  have hskip : braces.searchLoop Regex.dot (lead ++ '\x7b' :: (name ++ '\x7d' :: s))
      = (braces.searchLoop Regex.dot ('\x7b' :: (name ++ '\x7d' :: s))).map (fun m => (lead ++ m.1, m.2)) := by
    apply Regex.searchLoop_skip
    intro u₁ u₂ hu hne
    apply matchHere_braces_eq_none
    intro hhead
    obtain ⟨c, u₂, rfl⟩ := List.exists_cons_of_ne_nil hne
    have hc : c = '\x7b' := by simpa using hhead
    exact hlead (by rw [hu, hc]; simp)
  have hfound : braces.searchLoop Regex.dot ('\x7b' :: (name ++ '\x7d' :: s)) = some ([], [name], s) :=
    Regex.search_of_matchHere hmatch
  show braces.searchLoop Regex.dot _ = _
  rw [hskip, hfound]
  simp

/-- **The names and the groups.** The searches one behind the other give the names in order, and with a group
    in the place of each match the text of the expression. -/
theorem searchAll_braces {toEnd : Bool} (holes : List (String × String)) (hok : HolesOk toEnd holes)
    (lead last : List Char) (hlead : '\x7b' ∉ lead) (hlast : '\x7b' ∉ last) (n : Nat)
    (hn : holes.length ≤ n) :
    ∃ found rest, braces.searchAll Regex.dot n (lead ++ (holesText holes ++ last)) = (found, rest) ∧
      found.map (fun m => String.ofList (m.2.headD [])) = holes.map Prod.fst ∧
      found.flatMap (fun m => m.1 ++ lazyGroup) ++ rest = lead ++ (holesGroups holes ++ last) := by
  induction holes generalizing lead n with
  | nil =>
      have hnone : braces.search Regex.dot (lead ++ last) = none := by
        apply search_braces_none
        intro hmem
        rcases List.mem_append.mp hmem with hmem | hmem
        · exact hlead hmem
        · exact hlast hmem
      exact ⟨[], lead ++ last, Regex.searchAll_nil hnone n, rfl, rfl⟩
  | cons hole holes ih =>
      obtain ⟨name, w⟩ := hole
      obtain ⟨hname, hw, hrest⟩ := hok
      have hwb : '\x7b' ∉ w.toList := by
        rcases hw with hw | ⟨rfl, _, _⟩
        · exact fun hmem => (hw.2 _ hmem).1 (by decide)
        · rw [String.toList_empty]
          exact List.not_mem_nil
      obtain ⟨n, rfl⟩ := Nat.exists_eq_succ_of_ne_zero (Nat.ne_of_gt (Nat.lt_of_lt_of_le (by simp) hn))
      have hsearch := search_braces (s := w.toList ++ (holesText holes ++ last)) hlead hname.2
      obtain ⟨found, rest, hall, hnames, hgroups⟩ := ih hrest w.toList hwb n (by simpa using hn)
      have htext : lead ++ (holesText ((name, w) :: holes) ++ last)
          = lead ++ '\x7b' :: (name.toList ++ '\x7d' :: (w.toList ++ (holesText holes ++ last))) := by
        simp only [holesText, List.cons_append, List.append_assoc]
      refine ⟨(lead, [name.toList]) :: found, rest, ?_, ?_, ?_⟩
      · rw [htext]
        exact Regex.searchAll_cons hsearch hall
      · rw [List.map_cons, hnames]
        simp
      · rw [List.flatMap_cons, List.append_assoc, hgroups]
        simp only [holesGroups, List.append_assoc]

/-- The groups are read back as pieces. -/
theorem parsePieces_holesGroups {toEnd : Bool} (holes : List (String × String)) (hok : HolesOk toEnd holes) :
    Regex.parsePieces (holesGroups holes ++ endMark toEnd) = some (holesPieces holes, toEnd) := by
  induction holes with
  | nil => cases toEnd <;> rfl
  | cons hole holes ih =>
      obtain ⟨name, w⟩ := hole
      obtain ⟨_, hw, hrest⟩ := hok
      have hplain : ∀ c ∈ w.toList, c ∉ Regex.metacharacters := by
        rcases hw with hw | ⟨rfl, _, _⟩
        · exact fun c hc => (hw.2 c hc).1
        · rw [String.toList_empty]
          exact fun c hc => absurd hc List.not_mem_nil
      show (Regex.parsePieces ((w.toList ++ holesGroups holes) ++ endMark toEnd)).map _ = _
      rw [List.append_assoc, Regex.parsePieces_append hplain, ih hrest]
      rfl

theorem length_le_holesText (holes : List (String × String)) : holes.length ≤ (holesText holes).length := by
  induction holes with
  | nil => exact Nat.le_refl _
  | cons hole holes ih =>
      simp only [holesText, List.length_cons, List.length_append]
      omega

/-- **What a template is compiled to**: its names, and the expression with a lazy group for each. -/
theorem compile_text (t : Template) :
    compile t.text
      = some (t.holes.map Prod.fst, ⟨false, lits t.lead.toList (holesPieces t.holes), t.toEnd⟩) := by
  have hplain : ∀ c ∈ t.lead.toList, c ∉ Regex.metacharacters := by
    rcases t.lead_ok with h | h
    · simp [h]
    · exact fun c hc => (h.2 c hc).1
  have hlead : '\x7b' ∉ t.lead.toList := fun hmem => hplain _ hmem (by decide)
  have hend : '\x7b' ∉ endMark t.toEnd := by cases t.toEnd <;> decide
  have hlen : t.holes.length ≤ (t.lead.toList ++ (holesText t.holes ++ endMark t.toEnd)).length := by
    have h := length_le_holesText t.holes
    simp only [List.length_append]
    omega
  obtain ⟨found, rest, hall, hnames, hgroups⟩ :=
    searchAll_braces t.holes t.holes_ok t.lead.toList (endMark t.toEnd) hlead hend _ hlen
  have hcaret : (t.lead.toList ++ (holesGroups t.holes ++ endMark t.toEnd)).head? ≠ some '^' := by
    rcases t.lead_ok with h | h
    · rw [h]
      cases t.holes with
      | nil => cases t.toEnd <;> simp [holesGroups, endMark]
      | cons hole holes =>
          show some '(' ≠ some '^'
          simp
    · simp [List.head?_append, h.1]
  have hparse : Regex.ofPattern (t.lead.toList ++ (holesGroups t.holes ++ endMark t.toEnd))
      = some ⟨false, lits t.lead.toList (holesPieces t.holes), t.toEnd⟩ := by
    rw [Regex.ofPattern_eq hcaret, Regex.parsePieces_append hplain,
      parsePieces_holesGroups t.holes t.holes_ok]
    rfl
  simp only [compile, regex_placeholder, Regex.replaceAll, Template.text, String.toList_ofList,
    toList_lazyGroup, hall, hnames, hgroups, hparse, Option.bind_eq_bind, Option.bind_some]
  rfl

/-! ## What a template gives back -/

/-- **The placeholders take their values.** Each group ends at the first slash, where the literal behind it
    begins; the last one, if no literal is behind it, takes the rest. -/
theorem matchHere_holesFill {toEnd : Bool} (value : String → PathValue) (holes : List (String × String))
    (hok : HolesOk toEnd holes) :
    matchHere Regex.dot toEnd (holesPieces holes) (holesFill value holes)
      = some (holes.map (fun h => (value h.1).1.toList), []) := by
  induction holes with
  | nil => cases toEnd <;> rfl
  | cons hole holes ih =>
      obtain ⟨name, w⟩ := hole
      obtain ⟨_, hw, hrest⟩ := hok
      have hdot : ∀ c ∈ (value name).1.toList, Regex.dot c = true := by
        intro c hc
        obtain ⟨_, hn, hr⟩ := (value name).2 c hc
        simp [Regex.dot, hn, hr]
      rcases hw with hw | ⟨rfl, rfl, rfl⟩
      · obtain ⟨w', hw'⟩ := List.head?_eq_some_iff.mp hw.1
        have hslash : '/' ∉ (value name).1.toList := fun hmem => ((value name).2 _ hmem).1 rfl
        have hbehind : matchHere Regex.dot toEnd (lits w' (holesPieces holes)) (w' ++ holesFill value holes)
            = some (holes.map (fun h => (value h.1).1.toList), []) := by
          rw [matchHere_lits]
          exact ih hrest
        simp only [holesPieces, holesFill, hw']
        exact matchHere_lazy_lit hdot hslash hbehind
      · simp only [holesPieces, holesFill, String.toList_empty, List.append_nil]
        exact matchHere_lazy_end hdot

/-- Every name gets its value. -/
theorem assign_map (names : List String) (value : String → String) :
    assign names (names.map (fun name => (value name).toList))
      = names.map (fun name => (name, some (value name))) := by
  induction names with
  | nil => rfl
  | cons name names ih => simp [assign, ih]

/-- **A template gives back the values it was filled with**: `GetPathParam` with the text of any template, on
    the URI that the template gives with any values, returns exactly the assignment of the values. -/
theorem getPathParam_fill (t : Template) (value : String → PathValue) :
    getPathParam (t.fill value) t.text = some (t.holes.map (fun h => (h.1, some (value h.1).1))) := by
  have hmatch : matchHere Regex.dot t.toEnd (lits t.lead.toList (holesPieces t.holes)) (t.fill value).toList
      = some (t.holes.map (fun h => (value h.1).1.toList), []) := by
    rw [Template.fill, String.toList_ofList, matchHere_lits]
    exact matchHere_holesFill value t.holes t.holes_ok
  rw [getPathParam_of_match (compile_text t) hmatch]
  have hassign := assign_map (t.holes.map Prod.fst) (fun name => (value name).1)
  rw [List.map_map, List.map_map] at hassign
  exact congrArg some hassign

end ParamParse

end ZhiCache
