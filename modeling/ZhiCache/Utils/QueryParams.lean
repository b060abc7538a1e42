import ZhiCache.Utils.ParamParse

/-!
# `Utils.QueryParams` — a parameter of the query string

`ParamParse::Get` looks for `key=` anywhere in the URI: first with an expression that ends at the next `&`,
then with one that goes to the end. The text `key=` stands in a query string wherever a name **ends** in the
key, so that the value returned is that of the first parameter whose name does (`get_eq`).
-/

namespace ZhiCache

open Lib

namespace ParamParse

/-- A parameter of a query string. -/
structure QueryParam where
  name : String
  value : String
  name_ok : IsName name
  value_ok : ∀ c ∈ value.toList, c ≠ '&' ∧ c ≠ '=' ∧ c ≠ '#' ∧ c ≠ '\n' ∧ c ≠ '\r'

/-- A key to look for. -/
abbrev ParamKey := { key : String // ∀ c ∈ key.toList, c.isAlphanum = true }

/-- The parameters, as they are written. -/
def queryText : List QueryParam → List Char
  | [] => []
  | [p] => p.name.toList ++ '=' :: p.value.toList
  | p :: q :: ps => p.name.toList ++ '=' :: (p.value.toList ++ '&' :: queryText (q :: ps))

/-- The URI with the given parameters. -/
def queryUri (ps : List QueryParam) : String := String.ofList ("/p?".toList ++ queryText ps)

/-- The name of the parameter ends in the key. -/
def QueryParam.endsIn (key : ParamKey) (p : QueryParam) : Bool := key.1.toList.isSuffixOf p.name.toList

/-! ## The expressions -/

/-- The expression that looks for `key=`. -/
def keyRegex (key : ParamKey) (ps : List (Piece Char)) : Regex Char :=
  ⟨false, lits key.1.toList (.lit '=' :: ps), false⟩

/-- No metacharacter is alphanumeric. -/
theorem not_metacharacter {c : Char} (hc : c.isAlphanum = true) : c ∉ Regex.metacharacters := by
  intro hmem
  have hall : Regex.metacharacters.all (fun c => !c.isAlphanum) = true := by decide
  simpa [hc] using List.all_eq_true.mp hall c hmem

/-- The key stands for itself in an expression, whatever comes behind it. -/
theorem regex_key (key : ParamKey) {rest : String} {ps : List (Piece Char)}
    (hcaret : rest.toList.head? ≠ some '^')
    (hrest : Regex.parsePieces rest.toList = some (.lit '=' :: ps, false)) :
    regex (key.1 ++ rest) = some (keyRegex key ps) := by
  have hhead : (key.1.toList ++ rest.toList).head? ≠ some '^' := by
    cases hk : key.1.toList with
    | nil => exact hcaret
    | cons c cs =>
        intro hc
        obtain rfl : c = '^' := by simpa using hc
        exact absurd (key.2 '^' (by simp [hk])) (by decide)
  rw [regex, String.toList_append, Regex.ofPattern_eq hhead,
    Regex.parsePieces_append (fun c hc => not_metacharacter (key.2 c hc)), hrest]
  rfl

/-! ## Where the key is found -/

section Search

variable (key : ParamKey) (ps : List (Piece Char))

theorem ParamKey.notMem {c : Char} (hc : c.isAlphanum = false) : c ∉ key.1.toList := by
  intro hmem
  rw [key.2 c hmem] at hc
  exact absurd hc (by simp)

/-- **Past a name.** A text up to `=` that does not end in the key has no place where the expression matches,
    and one that does only the place in front of the key. -/
theorem searchLoop_past {lead t : List Char} (hlead : '=' ∉ lead)
    (hno : key.1.toList <:+ lead → matchHere Regex.dot false ps t = none) :
    (keyRegex key ps).searchLoop Regex.dot (lead ++ '=' :: t)
      = ((keyRegex key ps).searchLoop Regex.dot t).map (fun m => (lead ++ ['='] ++ m.1, m.2)) := by
  rw [List.append_cons]
  apply Regex.searchLoop_skip
  intro u₁ u₂ hu hne
  obtain ⟨u, c, rfl⟩ := (List.eq_nil_or_concat u₂).resolve_left hne
  rw [List.concat_eq_append, ← List.append_assoc] at hu
  obtain ⟨hu', hc⟩ := List.append_inj' hu rfl
  obtain rfl : '=' = c := by simpa using hc
  rw [List.concat_eq_append, List.append_assoc]
  show matchHere Regex.dot false (lits key.1.toList (.lit '=' :: ps)) (u ++ '=' :: t) = none
  by_cases huk : u = key.1.toList
  · -- in front of the key
    rw [huk, matchHere_lits]
    have hnone := hno ⟨u₁, by rw [hu', huk]⟩
    simpa [matchHere] using hnone
  · have hmem : '=' ∉ u := fun hmem => hlead (by rw [hu']; exact List.mem_append_right _ hmem)
    exact matchHere_word_eq_none (key.notMem rfl) hmem huk

/-- **At the key.** A text that ends in the key matches in front of it. -/
theorem searchLoop_at {before t : List Char} {o : Outcome Char} (hbefore : '=' ∉ before)
    (ho : matchHere Regex.dot false ps t = some o) :
    (keyRegex key ps).searchLoop Regex.dot (before ++ (key.1.toList ++ '=' :: t)) = some (before, o) := by
  have hskip : (keyRegex key ps).searchLoop Regex.dot (before ++ (key.1.toList ++ '=' :: t))
      = ((keyRegex key ps).searchLoop Regex.dot (key.1.toList ++ '=' :: t)).map
          (fun m => (before ++ m.1, m.2)) := by
    apply Regex.searchLoop_skip
    intro u₁ u₂ hu hne
    rw [← List.append_assoc]
    apply matchHere_word_eq_none (key.notMem rfl)
    · intro hmem
      rcases List.mem_append.mp hmem with hmem | hmem
      · exact hbefore (by rw [hu]; exact List.mem_append_right _ hmem)
      · exact key.notMem rfl hmem
    · exact fun heq => hne (List.append_left_eq_self.mp heq)
  have hmatch : matchHere Regex.dot (keyRegex key ps).toEnd (keyRegex key ps).pieces (key.1.toList ++ '=' :: t)
      = some o := by
    show matchHere Regex.dot false (lits key.1.toList (.lit '=' :: ps)) _ = _
    rw [matchHere_lits]
    simpa [matchHere] using ho
  have hfound : (keyRegex key ps).searchLoop Regex.dot (key.1.toList ++ '=' :: t) = some ([], o) :=
    Regex.search_of_matchHere hmatch
  rw [hskip, hfound]
  simp

/-- Without `=` there is nothing to find. -/
theorem searchLoop_none {s : List Char} (hs : '=' ∉ s) : (keyRegex key ps).searchLoop Regex.dot s = none := by
  cases h : (keyRegex key ps).searchLoop Regex.dot s with
  | none => rfl
  | some m =>
      obtain ⟨before, o⟩ := m
      obtain ⟨t, rfl, hmatch⟩ := Regex.searchLoop_sound h
      have hno : matchHere Regex.dot false (lits key.1.toList (.lit '=' :: ps)) t = none :=
        matchHere_word_eq_none_of_notMem (fun hmem => hs (List.mem_append_right before hmem))
      exact absurd (hmatch.symm.trans hno) (by simp)

end Search

/-! ## The whole query string -/

/-- What may stand in front of a name: no `=`, and at the end a character that no key contains. -/
def Boundary (lead : List Char) : Prop := '=' ∉ lead ∧ ∃ l c, lead = l ++ [c] ∧ c.isAlphanum = false

theorem boundary_amp (p : QueryParam) : Boundary (p.value.toList ++ ['&']) := by
  refine ⟨?_, p.value.toList, '&', rfl, rfl⟩
  intro hmem
  rcases List.mem_append.mp hmem with hmem | hmem
  · exact (p.value_ok _ hmem).2.1 rfl
  · exact absurd hmem (by decide)

section Query

variable {key : ParamKey} {p : QueryParam} {lead : List Char}

theorem QueryParam.notMem_name (p : QueryParam) : '=' ∉ p.name.toList :=
  fun hmem => absurd (p.name_ok.2 _ hmem) (by decide)

theorem Boundary.notMem (h : Boundary lead) (p : QueryParam) : '=' ∉ lead ++ p.name.toList := by
  intro hmem
  rcases List.mem_append.mp hmem with hmem | hmem
  · exact h.1 hmem
  · exact p.notMem_name hmem

/-- Behind a boundary the text ends in the key only if the name does. -/
theorem Boundary.endsIn (h : Boundary lead) (hs : key.1.toList <:+ lead ++ p.name.toList) :
    p.endsIn key = true := by
  obtain ⟨_, l, c, rfl, hc⟩ := h
  rw [QueryParam.endsIn, List.isSuffixOf_iff_suffix]
  rcases List.suffix_or_suffix_of_suffix hs (List.suffix_append _ _) with hkey | ⟨k, hk⟩
  · exact hkey
  · -- the key would reach over the boundary
    have hkl : k <:+ l ++ [c] := by
      obtain ⟨u, hu⟩ := hs
      rw [← hk, ← List.append_assoc] at hu
      exact ⟨u, List.append_cancel_right hu⟩
    rcases List.eq_nil_or_concat k with rfl | ⟨k, d, rfl⟩
    · exact ⟨[], by simpa using hk.symm⟩
    · obtain ⟨u, hu⟩ := hkl
      rw [List.concat_eq_append, ← List.append_assoc] at hu
      obtain rfl : d = c := by simpa using (List.append_inj' hu rfl).2
      exact absurd (by rw [← hk]; simp) (key.notMem hc)

/-- Past a parameter whose name does not end in the key. -/
theorem searchLoop_past_param {ps : List (Piece Char)} {t : List Char} (h : Boundary lead)
    (hp : p.endsIn key = false) :
    ((keyRegex key ps).searchLoop Regex.dot (lead ++ (p.name.toList ++ '=' :: t))).map (fun m => m.2.1)
      = ((keyRegex key ps).searchLoop Regex.dot t).map (fun m => m.2.1) := by
  have hpast := searchLoop_past key ps (t := t) (h.notMem p) (by
    intro hs
    rw [h.endsIn hs] at hp
    exact absurd hp (by simp))
  rw [← List.append_assoc, hpast, Option.map_map]
  rfl

/-- At the first parameter whose name ends in the key. -/
theorem searchLoop_at_param {ps : List (Piece Char)} {t : List Char} {o : Outcome Char} (h : Boundary lead)
    (hp : p.endsIn key = true) (ho : matchHere Regex.dot false ps t = some o) :
    ((keyRegex key ps).searchLoop Regex.dot (lead ++ (p.name.toList ++ '=' :: t))).map (fun m => m.2.1)
      = some o.1 := by
  obtain ⟨u, hu⟩ := List.isSuffixOf_iff_suffix.mp hp
  have hbefore : '=' ∉ lead ++ u := by
    intro hmem
    apply h.notMem p
    rw [← hu, ← List.append_assoc]
    exact List.mem_append_left _ hmem
  have hat := searchLoop_at key ps hbefore ho
  rw [← hu, List.append_assoc u, ← List.append_assoc lead, hat]
  rfl

theorem QueryParam.dot (p : QueryParam) : ∀ c ∈ p.value.toList, Regex.dot c = true := by
  intro c hc
  obtain ⟨_, _, _, hn, hr⟩ := p.value_ok c hc
  simp [Regex.dot, hn, hr]

/-- **The expression up to `&`** finds the first parameter, other than the last, whose name ends in the
    key. -/
theorem search_inner (key : ParamKey) (params : List QueryParam) (lead : List Char) (h : Boundary lead) :
    ((keyRegex key [.run 0 true, .lit '&']).searchLoop Regex.dot (lead ++ queryText params)).map
        (fun m => m.2.1)
      = (params.dropLast.find? (QueryParam.endsIn key)).map (fun p => [p.value.toList]) := by
  induction params generalizing lead with
  | nil =>
      show ((keyRegex key _).searchLoop Regex.dot (lead ++ [])).map _ = _
      rw [List.append_nil, searchLoop_none _ _ h.1]
      rfl
  | cons p params ih =>
      cases params with
      | nil =>
          -- the value of the last parameter has no `&` behind it
          have hamp : '&' ∉ p.value.toList := fun hmem => (p.value_ok _ hmem).1 rfl
          have heq : '=' ∉ p.value.toList := fun hmem => (p.value_ok _ hmem).2.1 rfl
          have hpast := searchLoop_past key [.run 0 true, .lit '&'] (t := p.value.toList)
            (h.notMem p) (fun _ => matchHere_run_lit_eq_none hamp)
          show ((keyRegex key _).searchLoop Regex.dot
            (lead ++ (p.name.toList ++ '=' :: p.value.toList))).map _ = _
          rw [← List.append_assoc, hpast, searchLoop_none _ _ heq]
          rfl
      | cons q params =>
          have htext : queryText (p :: q :: params)
              = p.name.toList ++ '=' :: (p.value.toList ++ '&' :: queryText (q :: params)) := rfl
          rw [htext, List.dropLast_cons_cons, List.find?_cons]
          cases hp : p.endsIn key with
          | true =>
              have hamp : '&' ∉ p.value.toList := fun hmem => (p.value_ok _ hmem).1 rfl
              exact searchLoop_at_param h hp
                (matchHere_lazy_lit (o := ([], queryText (q :: params))) p.dot hamp rfl)
          | false =>
              rw [searchLoop_past_param h hp, List.append_cons]
              exact ih _ (boundary_amp p)

/-- **The expression up to the end** finds the last parameter, when no name before it ends in the key. -/
theorem search_last (key : ParamKey) (params : List QueryParam) (lead : List Char) (h : Boundary lead)
    (hno : ∀ p ∈ params.dropLast, p.endsIn key = false) :
    ((keyRegex key [.run 0 false]).searchLoop Regex.dot (lead ++ queryText params)).map (fun m => m.2.1)
      = (params.find? (QueryParam.endsIn key)).map (fun p => [p.value.toList]) := by
  induction params generalizing lead with
  | nil =>
      show ((keyRegex key _).searchLoop Regex.dot (lead ++ [])).map _ = _
      rw [List.append_nil, searchLoop_none _ _ h.1]
      rfl
  | cons p params ih =>
      cases params with
      | nil =>
          have heq : '=' ∉ p.value.toList := fun hmem => (p.value_ok _ hmem).2.1 rfl
          show ((keyRegex key _).searchLoop Regex.dot
            (lead ++ (p.name.toList ++ '=' :: p.value.toList))).map _ = _
          cases hp : p.endsIn key with
          | true =>
              rw [searchLoop_at_param h hp (matchHere_greedy_end p.dot), List.find?_cons_of_pos hp]
              rfl
          | false =>
              rw [searchLoop_past_param h hp, searchLoop_none _ _ heq, List.find?_cons_of_neg (by simp [hp])]
              rfl
      | cons q params =>
          have htext : queryText (p :: q :: params)
              = p.name.toList ++ '=' :: (p.value.toList ++ '&' :: queryText (q :: params)) := rfl
          rw [List.dropLast_cons_cons] at hno
          obtain ⟨hp, hrest⟩ := List.forall_mem_cons.mp hno
          rw [htext, searchLoop_past_param h hp, List.append_cons, List.find?_cons_of_neg (by simp [hp])]
          exact ih _ (boundary_amp p) hrest

end Query

/-- **What `Get` returns**: the value of the first parameter whose name ends in the key. -/
theorem get_eq (params : List QueryParam) (key : ParamKey) :
    get (queryUri params) key.1 = some ((params.find? (QueryParam.endsIn key)).map QueryParam.value) := by
  have hlead : Boundary "/p?".toList := ⟨by decide, "/p".toList, '?', rfl, rfl⟩
  have hinner : regex (key.1 ++ "=(.*?)&") = some (keyRegex key [.run 0 true, .lit '&']) :=
    regex_key key (by decide) (by decide)
  have hlast : regex (key.1 ++ "=(.*)") = some (keyRegex key [.run 0 false]) :=
    regex_key key (by decide) (by decide)
  have huri : (queryUri params).toList = "/p?".toList ++ queryText params := String.toList_ofList
  have hfirst := search_inner key params _ hlead
  rw [← huri] at hfirst
  simp only [get, hinner, hlast, Option.bind_eq_bind, Option.bind_some]
  cases hfind : params.dropLast.find? (QueryParam.endsIn key) with
  | some p =>
      -- a parameter before the last
      rw [hfind] at hfirst
      obtain ⟨⟨before, captures, rest⟩, hsearch, hcaptures⟩ := Option.map_eq_some_iff.mp hfirst
      have hcaptures : captures = [p.value.toList] := hcaptures
      have hsearch : (keyRegex key [.run 0 true, .lit '&']).search Regex.dot (queryUri params).toList
          = some (before, captures, rest) := hsearch
      rw [hsearch, (List.dropLast_prefix params).find?_eq_some hfind, hcaptures]
      simp
  | none =>
      rw [hfind] at hfirst
      have hsearch : (keyRegex key [.run 0 true, .lit '&']).search Regex.dot (queryUri params).toList = none :=
        Option.map_eq_none_iff.mp hfirst
      have hsecond := search_last key params _ hlead
        (fun p hp => by simpa using List.find?_eq_none.mp hfind p hp)
      rw [← huri] at hsecond
      rw [hsearch]
      cases hp : params.find? (QueryParam.endsIn key) with
      | some p =>
          -- the last one only
          rw [hp] at hsecond
          obtain ⟨⟨before, captures, rest⟩, hsearch', hcaptures⟩ := Option.map_eq_some_iff.mp hsecond
          have hcaptures : captures = [p.value.toList] := hcaptures
          have hsearch' : (keyRegex key [.run 0 false]).search Regex.dot (queryUri params).toList
              = some (before, captures, rest) := hsearch'
          rw [hsearch', hcaptures]
          simp
      | none =>
          rw [hp] at hsecond
          have hsearch' : (keyRegex key [.run 0 false]).search Regex.dot (queryUri params).toList = none :=
            Option.map_eq_none_iff.mp hsecond
          rw [hsearch']
          rfl

/-- **When `Get` returns the parameter that was asked for.** For every query string and every key, `Get`
    returns the value of the first parameter whose name is the key, and nothing if there is none, exactly when
    the first parameter whose name *ends* in the key, if there is one, has the value of the first one whose
    name *is* the key. -/
theorem get_named_iff (params : List QueryParam) (key : ParamKey) :
    get (queryUri params) key.1
        = some ((params.find? (fun p => p.name == key.1)).map QueryParam.value) ↔
      ∀ p, params.find? (QueryParam.endsIn key) = some p →
        (params.find? (fun p => p.name == key.1)).map QueryParam.value = some p.value := by
  rw [get_eq params key, Option.some_inj]
  cases hp : params.find? (QueryParam.endsIn key) with
  | some p =>
      constructor
      · rintro heq q hq
        obtain rfl : p = q := Option.some.inj hq
        exact heq.symm
      · exact fun h => (h p rfl).symm
  | none =>
      -- a name that is the key ends in it
      have hnone : params.find? (fun p => p.name == key.1) = none := by
        rw [List.find?_eq_none] at hp ⊢
        intro p hmem hname
        apply hp p hmem
        rw [QueryParam.endsIn, beq_iff_eq.mp hname]
        exact List.isSuffixOf_iff_suffix.mpr (List.suffix_refl _)
      rw [hnone]
      exact iff_of_true rfl (fun q hq => absurd hq (by simp))

/-- A parameter whose characters have been checked one by one. -/
def QueryParam.ofChecked (name value : String)
    (h : (name != "" && name.toList.all Char.isAlphanum
      && value.toList.all (fun c => c != '&' && c != '=' && c != '#' && c != '\n' && c != '\r')) = true) :
    QueryParam where
  name := name
  value := value
  name_ok := by
    rw [Bool.and_eq_true, Bool.and_eq_true, bne_iff_ne, List.all_eq_true] at h
    exact h.1
  value_ok := by
    intro c hc
    rw [Bool.and_eq_true, List.all_eq_true] at h
    simpa [and_assoc] using h.2 c hc

/-- Asked for `id`, `Get` returns the value of `uid`. -/
theorem get_returns_longer_name :
    ¬ ∀ (params : List QueryParam) (key : ParamKey),
        get (queryUri params) key.1
          = some ((params.find? (fun p => p.name == key.1)).map QueryParam.value) := by
  intro h
  have hget := h [.ofChecked "uid" "7" (by decide), .ofChecked "id" "42" (by decide)]
    ⟨"id", List.all_eq_true.mp (by decide)⟩
  exact absurd hget (by decide +kernel)

end ParamParse

end ZhiCache
