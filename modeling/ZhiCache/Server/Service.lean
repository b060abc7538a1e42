import Mathlib.Data.List.TakeWhile
import ZhiCache.Utils.ParamParse
import ZhiCache.Handler.KvHandler
import ZhiCache.Handler.ZsetHandler

/-!
# `Server.Service` — from a URI to a handler and its parameters

`Entry` registers the handlers under paths: four of them exactly, five by regular expressions. The framework
cuts the URI at the first `?`, looks for the rest among the exact paths and then tries the expressions in
their order, each against the whole path. The handler that is found then parses the URI again, with a
template of its own.

For a path that consists of the literal part of a route and of a text `k` the route is found whatever `k` is
(`findHandler_of_literal`), and the handlers with one parameter obtain exactly `k`. `/zrmv` has two parameters
and obtains what is before and behind the first slash (`ZrmvHandler.get_eq`).
-/

namespace ZhiCache

open Lib

/-- The handlers that `Entry` registers. -/
inductive Route where
  | init | query | add | del | list | batch | zadd | zrange | zrmv
  deriving DecidableEq, Repr

namespace Service

/-- The paths that are compared with the request's. -/
def exactPaths : List (String × Route) :=
  [("/init", .init), ("/add", .add), ("/list", .list), ("/batch", .batch)]

/-- The paths given by expressions, in the order in which they are registered. -/
def regexPaths : List (String × Route) :=
  [("^/query/(.+?)$", .query), ("^/del/(.+?)$", .del), ("^/zadd/(.+?)$", .zadd), ("^/zrange/(.+?)$", .zrange),
   ("^/zrmv/(.+?)$", .zrmv)]

/-- `GetUriPath`: the URI up to the first `?`. -/
def getUriPath (uri : String) : String := String.ofList (uri.toList.takeWhile (fun c => c != '?'))

/-- `std::regex_match` of a path. -/
def pathMatches (text path : String) : Bool :=
  match ParamParse.regex text with
  | none => false
  | some expression => (expression.matchWhole Regex.dot path.toList).isSome

/-- `FindHandler`. -/
def findHandler (uri : String) : Option Route :=
  match exactPaths.lookup (getUriPath uri) with
  | some route => some route
  | none => (regexPaths.find? (fun p => pathMatches p.1 (getUriPath uri))).map Prod.snd

end Service

/-- A text as it can stand in a path. -/
abbrev PathText := { k : String // k ≠ "" ∧ ∀ c ∈ k.toList, c ≠ '?' ∧ c ≠ '\n' ∧ c ≠ '\r' }

/-- The characters of a path text, checked one by one. -/
theorem pathText_of_all {k : String} (hne : k ≠ "")
    (h : k.toList.all (fun c => c != '?' && c != '\n' && c != '\r') = true) :
    k ≠ "" ∧ ∀ c ∈ k.toList, c ≠ '?' ∧ c ≠ '\n' ∧ c ≠ '\r' := by
  refine ⟨hne, fun c hc => ?_⟩
  simpa [and_assoc] using List.all_eq_true.mp h c hc

theorem PathText.dot (k : PathText) : ∀ c ∈ k.1.toList, Regex.dot c = true := by
  intro c hc
  obtain ⟨_, hn, hr⟩ := k.2.2 c hc
  simp [Regex.dot, hn, hr]

theorem PathText.toList_ne_nil (k : PathText) : k.1.toList ≠ [] := by
  intro h
  exact k.2.1 (String.toList_inj.mp h)

namespace Service

/-! ## Which handler is found -/

/-- The routes with expressions, by the literal part of the path. -/
def literals : List (String × Route) :=
  [("/query/", .query), ("/del/", .del), ("/zadd/", .zadd), ("/zrange/", .zrange), ("/zrmv/", .zrmv)]

/-- The expression of a route: its literal part, and at least one further character. -/
theorem regexPaths_literals :
    regexPaths.map (fun p => (ParamParse.regex p.1, p.2))
      = literals.map (fun p => (some ⟨true, lits p.1.toList [.run 1 true], true⟩, p.2)) := by
  decide +kernel

/-- Whether two texts differ where both have a character. -/
def differ (w w' : List Char) : Bool := (w.zip w').any (fun p => p.1 != p.2)

theorem not_begins_of_differ {w w' s : List Char} (h : differ w w' = true) : ¬ w <+: w' ++ s := by
  induction w generalizing w' with
  | nil => exact absurd h (by simp [differ])
  | cons a w ih =>
      cases w' with
      | nil => exact absurd h (by simp [differ])
      | cons b w' =>
          intro hp
          obtain ⟨rfl, hp'⟩ := List.cons_prefix_cons.mp hp
          have hrest : differ w w' = true := by simpa [differ] using h
          exact ih hrest hp'

theorem getUriPath_of_no_query {uri : String} (h : ∀ c ∈ uri.toList, c ≠ '?') : getUriPath uri = uri := by
  have htake : uri.toList.takeWhile (fun c => c != '?') = uri.toList := by
    rw [List.takeWhile_eq_self_iff]
    intro c hc
    simpa using h c hc
  unfold getUriPath
  rw [htake, String.ofList_toList]

/-- An expression of this form matches its literal part followed by anything, … -/
theorem pathMatches_self {text w : String}
    (hr : ParamParse.regex text = some ⟨true, lits w.toList [.run 1 true], true⟩) (k : PathText) :
    pathMatches text (w ++ k.1) = true := by
  have hmatch : matchHere Regex.dot true (lits w.toList [.run 1 true]) (w ++ k.1).toList
      = some ([k.1.toList], []) := by
    rw [String.toList_append, matchHere_lits]
    exact matchHere_lazy_end_succ k.toList_ne_nil k.dot
  unfold pathMatches
  rw [hr]
  show ((matchHere Regex.dot true (lits w.toList [.run 1 true]) (w ++ k.1).toList).map Prod.fst).isSome = _
  rw [hmatch]
  rfl

/-- … and nothing that begins otherwise. -/
theorem pathMatches_other {text w path : String}
    (hr : ParamParse.regex text = some ⟨true, lits w.toList [.run 1 true], true⟩)
    (h : ¬ w.toList <+: path.toList) : pathMatches text path = false := by
  unfold pathMatches
  rw [hr]
  show ((matchHere Regex.dot true (lits w.toList [.run 1 true]) path.toList).map Prod.fst).isSome = _
  rw [matchHere_lits_eq_none h]
  rfl

/-- The first route whose literal part the path begins with. -/
theorem find_literal {w : String} {route : Route} (k : PathText) {paths ls : List (String × Route)}
    (hpaths : paths.map (fun p => (ParamParse.regex p.1, p.2))
      = ls.map (fun p => (some ⟨true, lits p.1.toList [.run 1 true], true⟩, p.2)))
    (hmem : (w, route) ∈ ls)
    (hdiffer : ∀ p ∈ ls, p ≠ (w, route) → differ p.1.toList w.toList = true) :
    (paths.find? (fun p => pathMatches p.1 (w ++ k.1))).map Prod.snd = some route := by
  induction ls generalizing paths with
  | nil => exact absurd hmem List.not_mem_nil
  | cons l ls ih =>
      cases paths with
      | nil => exact absurd hpaths (by simp)
      | cons p paths =>
          rw [List.map_cons, List.map_cons, List.cons.injEq] at hpaths
          obtain ⟨hp, hrest⟩ := hpaths
          obtain ⟨hr, hroute⟩ := Prod.mk.inj hp
          by_cases hl : l = (w, route)
          · subst hl
            have hyes : pathMatches p.1 (w ++ k.1) = true := pathMatches_self hr k
            rw [List.find?_cons_of_pos (by exact hyes)]
            exact congrArg some hroute
          · have hno : pathMatches p.1 (w ++ k.1) = false := by
              apply pathMatches_other hr
              rw [String.toList_append]
              exact not_begins_of_differ (hdiffer l List.mem_cons_self hl)
            rw [List.find?_cons_of_neg (by simp [hno])]
            apply ih hrest ((List.mem_cons.mp hmem).resolve_left (fun h => hl h.symm))
            intro q hq hne
            exact hdiffer q (List.mem_cons_of_mem l hq) hne

/-- No exact path begins like one of the expressions. -/
theorem lookup_exactPaths {w : String} (h : ∀ p ∈ exactPaths, differ w.toList p.1.toList = true) (k : String) :
    exactPaths.lookup (w ++ k) = none := by
  rw [List.lookup_eq_none_iff]
  intro p hp
  have hne : w ++ k ≠ p.1 := by
    intro heq
    have hpre : w.toList <+: p.1.toList ++ [] := by
      rw [List.append_nil, ← heq, String.toList_append]
      exact List.prefix_append _ _
    exact not_begins_of_differ (h p hp) hpre
  simpa using hne

/-- **Every path that begins with the literal part of a route finds that route.** -/
theorem findHandler_of_literal {w : String} {route : Route} (h : (w, route) ∈ literals) (k : PathText) :
    findHandler (w ++ k.1) = some route := by
  -- what holds of the five literal parts, each in its place
  have hall : ∀ l ∈ literals, l.1.toList.all (fun c => c != '?') = true ∧
      (∀ p ∈ exactPaths, differ l.1.toList p.1.toList = true) ∧
      ∀ p ∈ literals, p ≠ l → differ p.1.toList l.1.toList = true := by decide +kernel
  obtain ⟨hw, hexact, hdiffer⟩ := hall (w, route) h
  have hpath : getUriPath (w ++ k.1) = w ++ k.1 := by
    apply getUriPath_of_no_query
    intro c hc
    rw [String.toList_append] at hc
    rcases List.mem_append.mp hc with hc | hc
    · simpa using List.all_eq_true.mp hw c hc
    · exact (k.2.2 c hc).1
  unfold findHandler
  rw [hpath, lookup_exactPaths hexact k.1]
  exact find_literal k regexPaths_literals h hdiffer

end Service

/-! ## The handlers on a URI -/

/-- `QueryKeyHandler::OnGet`, from the URI; none when the template is refused. -/
def QueryKeyHandler.get (kv : KvManager) (uri : String) : Option (HttpStatus × String) := do
  let params ← ParamParse.getPathParam uri "/query/\x7bkey\x7d$"
  onGet kv (params.param "key")

/-- `DelKeyHandler::OnGet`. -/
def DelKeyHandler.get (kv : KvManager) (uri : String) : Option Served := do
  let params ← ParamParse.getPathParam uri "/del/\x7bkey\x7d$"
  return onGet kv (params.param "key")

/-- `ZaddHandler::OnPost`. -/
def ZaddHandler.post (zsets : ZsetManager) (uri : String) (request : ZaddRequest) :
    Option (HttpStatus × ZsetManager) := do
  let params ← ParamParse.getPathParam uri "/zadd/\x7bkey\x7d$"
  onPost zsets (params.param "key") request

/-- `ZrangeHandler::OnPost`. -/
def ZrangeHandler.post (zsets : ZsetManager) (uri : String) (request : ZrangeRequest) :
    Option (HttpStatus × List ZaddRequest) := do
  let params ← ParamParse.getPathParam uri "/zrange/\x7bkey\x7d$"
  onPost zsets (params.param "key") request

/-- `ZrmvHandler::OnGet`. -/
def ZrmvHandler.get (zsets : ZsetManager) (uri : String) : Option (HttpStatus × ZsetManager) := do
  let params ← ParamParse.getPathParam uri "/zrmv/\x7bkey\x7d/\x7bvalue\x7d$"
  onGet zsets (params.param "key") (params.param "value")

/-! ## Which parameters they obtain -/

theorem QueryKeyHandler.get_eq (kv : KvManager) (k : PathText) :
    get kv ("/query/" ++ k.1) = onGet kv (some k.1) := by
  unfold get
  rw [ParamParse.getPathParam_one ParamParse.compile_query k.dot]
  rfl

theorem DelKeyHandler.get_eq (kv : KvManager) (k : PathText) :
    get kv ("/del/" ++ k.1) = some (onGet kv (some k.1)) := by
  unfold get
  rw [ParamParse.getPathParam_one ParamParse.compile_del k.dot]
  rfl

theorem ZaddHandler.post_eq (zsets : ZsetManager) (k : PathText) (request : ZaddRequest) :
    post zsets ("/zadd/" ++ k.1) request = onPost zsets (some k.1) request := by
  unfold post
  rw [ParamParse.getPathParam_one ParamParse.compile_zadd k.dot]
  rfl

theorem ZrangeHandler.post_eq (zsets : ZsetManager) (k : PathText) (request : ZrangeRequest) :
    post zsets ("/zrange/" ++ k.1) request = onPost zsets (some k.1) request := by
  unfold post
  rw [ParamParse.getPathParam_one ParamParse.compile_zrange k.dot]
  rfl

/-- What is before the first slash is the key, what is behind it the value. -/
theorem ZrmvHandler.get_eq (zsets : ZsetManager) {u v uri : String} (hu : ∀ c ∈ u.toList, Regex.dot c = true)
    (hslash : '/' ∉ u.toList) (hv : ∀ c ∈ v.toList, Regex.dot c = true)
    (huri : uri.toList = "/zrmv/".toList ++ (u.toList ++ '/' :: v.toList)) :
    get zsets uri = onGet zsets (some u) (some v) := by
  unfold get
  rw [ParamParse.getPathParam_two ParamParse.compile_zrmv hu hslash hv huri]
  rfl

end ZhiCache
