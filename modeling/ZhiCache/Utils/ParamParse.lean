import ZhiCache.Lib.Regex

/-!
# `Utils.ParamParse` — the parameters of a request's URI

`ParamParse::GetPathParam` takes a template such as `/zrmv/{key}/{value}$`. It collects the names in braces,
replaces each placeholder by a lazy group `(.*?)`, and searches the request's URI, as it came, with the
regular expression that results. The groups are the values of the names in order. `compile` is the part that
depends on the template alone. `ParamParse::Get` searches the URI for a parameter of the query string
(`Utils.QueryParams`).

With one placeholder before `$` the value is all that follows the literal part (`getPathParam_one`). With two,
the first value ends at the first character that the literal between them begins with
(`getPathParam_two`).
-/

namespace ZhiCache

open Lib

namespace ParamParse

/-- `std::regex`, for the expressions of the fragment; none for all others, those that `std::regex` accepts
    included. -/
def regex (text : String) : Option (Regex Char) := Regex.ofPattern text.toList

/-- `PathParamMap`. The first entry of a name is the one that counts, as in the range constructor of an
    `unordered_map`. -/
abbrev PathParamMap := List (String × Option String)

/-- `path_param_map[name]`. -/
def PathParamMap.param (m : PathParamMap) (name : String) : Option String := (m.lookup name).join

/-- The name of a parameter. -/
def IsName (name : String) : Prop := name ≠ "" ∧ ∀ c ∈ name.toList, c.isAlphanum = true

/-- The expression for a placeholder. -/
def placeholder : String := "\\\x7b(.*?)\\\x7d"

/-- What becomes of a template: the names of its placeholders, and the expression for the URI. -/
def compile (path : String) : Option (List String × Regex Char) := do
  let braces ← regex placeholder
  let (found, _) := braces.searchAll Regex.dot path.toList.length path.toList
  let names := found.map (fun m => String.ofList (m.2.headD []))
  let expression ← Regex.ofPattern (braces.replaceAll Regex.dot "(.*?)".toList path.toList)
  return (names, expression)

/-- The loop that gives the names their values. -/
def assign : List String → List (List Char) → PathParamMap
  | [], _ => []
  | name :: names, [] => (name, none) :: assign names []
  | name :: names, value :: values => (name, some (String.ofList value)) :: assign names values

/-- `GetPathParam`; none when an expression is refused. -/
def getPathParam (uri path : String) : Option PathParamMap := do
  let (names, expression) ← compile path
  match expression.search Regex.dot uri.toList with
  | none => return assign names []
  | some (_, values, _) => return assign names values

/-- `Get`: up to the next `&`, and if that finds nothing up to the end; none when an expression is refused. -/
def get (uri key : String) : Option (Option String) := do
  let inner ← regex (key ++ "=(.*?)&")
  match inner.search Regex.dot uri.toList with
  | some (_, captures, _) => return some (String.ofList (captures.headD []))
  | none =>
    let last ← regex (key ++ "=(.*)")
    match last.search Regex.dot uri.toList with
    | some (_, captures, _) => return some (String.ofList (captures.headD []))
    | none => return none

/-! ## Templates with one and with two placeholders -/

variable {path w name name' : String}

/-- A match at the start of the URI gives the values. -/
theorem getPathParam_of_match {uri : String} {names : List String} {expression : Regex Char}
    {values : List (List Char)} {rest : List Char} (hc : compile path = some (names, expression))
    (hm : matchHere Regex.dot expression.toEnd expression.pieces uri.toList = some (values, rest)) :
    getPathParam uri path = some (assign names values) := by
  have hsearch : expression.search Regex.dot uri.toList = some ([], values, rest) :=
    Regex.search_of_matchHere hm
  simp [getPathParam, hc, hsearch]

/-- The placeholder at the end takes the rest of the URI. -/
theorem getPathParam_one
    (hc : compile path = some ([name], ⟨false, lits w.toList [.run 0 true], true⟩)) {k : String}
    (hk : ∀ c ∈ k.toList, Regex.dot c = true) :
    getPathParam (w ++ k) path = some [(name, some k)] := by
  have hmatch : matchHere Regex.dot true (lits w.toList [.run 0 true]) (w ++ k).toList
      = some ([k.toList], []) := by
    rw [String.toList_append, matchHere_lits]
    exact matchHere_lazy_end hk
  rw [getPathParam_of_match hc hmatch]
  simp [assign]

/-- Somewhere in the URI stands the text `w`, and no line break behind it. -/
def Names (w uri : String) : Prop :=
  ∃ before k, uri.toList = before ++ (w.toList ++ k) ∧ ∀ c ∈ k, Regex.dot c = true

/-- The placeholder at the end has a value for the URIs in which its literal part stands. -/
theorem getPathParam_isNone_iff
    (hc : compile path = some ([name], ⟨false, lits w.toList [.run 0 true], true⟩)) (uri : String) :
    ∃ params, getPathParam uri path = some params ∧ (params.param name = none ↔ ¬ Names w uri) := by
  have hliteral (k : List Char) : matchHere Regex.dot true (lits w.toList [.run 0 true]) (w.toList ++ k)
      = matchHere Regex.dot true [.run 0 true] k := matchHere_lits w.toList k
  cases hs : Regex.search Regex.dot ⟨false, lits w.toList [.run 0 true], true⟩ uri.toList with
  | none =>
      refine ⟨[(name, none)], by simp [getPathParam, hc, hs, assign], ?_⟩
      refine iff_of_true (by simp [PathParamMap.param]) ?_
      rintro ⟨before, k, huri, hk⟩
      obtain ⟨m, hm⟩ := Regex.searchLoop_complete (r := ⟨false, lits w.toList [.run 0 true], true⟩)
        ((hliteral k).trans (matchHere_lazy_end hk)) before
      rw [← huri] at hm
      exact absurd (hs.symm.trans hm) (by simp)
  | some m =>
      obtain ⟨before, o⟩ := m
      obtain ⟨t, huri, hmatch⟩ := Regex.searchLoop_sound hs
      have hpre : w.toList <+: t := by
        by_contra hno
        exact absurd (hmatch.symm.trans (matchHere_lits_eq_none hno)) (by simp)
      obtain ⟨k, rfl⟩ := hpre
      have hrun : matchHere Regex.dot true [.run 0 true] k = some o := (hliteral k).symm.trans hmatch
      have hk := wild_of_matchHere_lazy_end hrun
      obtain rfl : ([k], []) = o := Option.some.inj ((matchHere_lazy_end hk).symm.trans hrun)
      refine ⟨[(name, some (String.ofList k))], by simp [getPathParam, hc, hs, assign], ?_⟩
      exact iff_of_false (by simp [PathParamMap.param]) (fun hno => hno ⟨before, k, huri, hk⟩)

/-- The first placeholder ends at the first separator, the second takes what is behind it. -/
theorem getPathParam_two {sep : Char}
    (hc : compile path
      = some ([name, name'], ⟨false, lits w.toList [.run 0 true, .lit sep, .run 0 true], true⟩))
    {u v : String} (hu : ∀ c ∈ u.toList, Regex.dot c = true) (hsep : sep ∉ u.toList)
    (hv : ∀ c ∈ v.toList, Regex.dot c = true) {uri : String}
    (huri : uri.toList = w.toList ++ (u.toList ++ sep :: v.toList)) :
    getPathParam uri path = some [(name, some u), (name', some v)] := by
  have hmatch : matchHere Regex.dot true (lits w.toList [.run 0 true, .lit sep, .run 0 true]) uri.toList
      = some ([u.toList, v.toList], []) := by
    rw [huri, matchHere_lits]
    exact matchHere_lazy_lit hu hsep (matchHere_lazy_end hv)
  rw [getPathParam_of_match hc hmatch]
  simp [assign]

/-! ## The templates of the handlers -/

/-- What the templates of the handlers become. -/
theorem compile_templates :
    compile "/query/\x7bkey\x7d$" = some (["key"], ⟨false, lits "/query/".toList [.run 0 true], true⟩) ∧
    compile "/del/\x7bkey\x7d$" = some (["key"], ⟨false, lits "/del/".toList [.run 0 true], true⟩) ∧
    compile "/zadd/\x7bkey\x7d$" = some (["key"], ⟨false, lits "/zadd/".toList [.run 0 true], true⟩) ∧
    compile "/zrange/\x7bkey\x7d$" = some (["key"], ⟨false, lits "/zrange/".toList [.run 0 true], true⟩) ∧
    compile "/zrmv/\x7bkey\x7d/\x7bvalue\x7d$"
      = some (["key", "value"],
          ⟨false, lits "/zrmv/".toList [.run 0 true, .lit '/', .run 0 true], true⟩) := by
  decide +kernel

theorem compile_query :
    compile "/query/\x7bkey\x7d$" = some (["key"], ⟨false, lits "/query/".toList [.run 0 true], true⟩) :=
  compile_templates.1

theorem compile_del :
    compile "/del/\x7bkey\x7d$" = some (["key"], ⟨false, lits "/del/".toList [.run 0 true], true⟩) :=
  compile_templates.2.1

theorem compile_zadd :
    compile "/zadd/\x7bkey\x7d$" = some (["key"], ⟨false, lits "/zadd/".toList [.run 0 true], true⟩) :=
  compile_templates.2.2.1

theorem compile_zrange :
    compile "/zrange/\x7bkey\x7d$"
      = some (["key"], ⟨false, lits "/zrange/".toList [.run 0 true], true⟩) :=
  compile_templates.2.2.2.1

theorem compile_zrmv :
    compile "/zrmv/\x7bkey\x7d/\x7bvalue\x7d$"
      = some (["key", "value"],
          ⟨false, lits "/zrmv/".toList [.run 0 true, .lit '/', .run 0 true], true⟩) :=
  compile_templates.2.2.2.2

end ParamParse

end ZhiCache
