import ZhiCache.Server.Requests

/-!
# `Server.Uris` — the parameters of a URI against the path that was routed

Routing and the handlers look at a URI with different eyes. `GetUriPath` cuts it at the first `?` and matches
the rest with an expression that is anchored at both ends. `GetPathParam` searches the **whole** URI, with an
expression that is anchored at its end only, and what it finds is used as it stands.

* On a text of one line, the handler of a route obtains what stands behind the first place where the literal
  part of the route fits (`params_eq`); a text of several lines counts by its last line (`params_lastLine`).
  So a query string becomes part of the key (`params_ignore_query_iff`).
* Nothing is decoded. A key is found under its percent-encoding exactly when the encoding is the key itself
  (`percentEncode_found_iff`).
-/

namespace ZhiCache

open Lib ParamParse

namespace Route

/-- The template of a route's handler. -/
def template : Route → Option String
  | query => some "/query/\x7bkey\x7d$"
  | del => some "/del/\x7bkey\x7d$"
  | zadd => some "/zadd/\x7bkey\x7d$"
  | zrange => some "/zrange/\x7bkey\x7d$"
  | zrmv => some "/zrmv/\x7bkey\x7d/\x7bvalue\x7d$"
  | _ => none

/-- The parameters that the handler of a route obtains from a URI. -/
def params (route : Route) (uri : String) : Option PathParamMap := route.template.bind (getPathParam uri)

/-- The names of the parameters. -/
def names (route : Route) : List String := if route = zrmv then ["key", "value"] else ["key"]

/-- The part of the template's expression behind the literal. -/
def groups (route : Route) : List (Piece Char) :=
  if route = zrmv then [.run 0 true, .lit '/', .run 0 true] else [.run 0 true]

/-- What stands behind the literal part is enough for the parameters: `/zrmv` needs a slash. -/
def fits (route : Route) (v : List Char) : Bool := route != zrmv || v.contains '/'

/-- The parameters in what stands behind the literal part. -/
def values (route : Route) (v : List Char) : List (List Char) :=
  if route = zrmv then [v.takeWhile (fun c => c != '/'), (v.dropWhile (fun c => c != '/')).tail] else [v]

end Route

/-! ## The handlers use these parameters -/

theorem Route.params_of_template {route : Route} {template : String} (h : route.template = some template)
    (uri : String) : route.params uri = getPathParam uri template := by
  rw [Route.params, h, Option.bind_some]

theorem QueryKeyHandler.get_eq_params (kv : KvManager) (uri : String) :
    get kv uri = (Route.query.params uri).bind (fun params => onGet kv (params.param "key")) := by
  rw [Route.params_of_template rfl]
  rfl

theorem DelKeyHandler.get_eq_params (kv : KvManager) (uri : String) :
    get kv uri = (Route.del.params uri).bind (fun params => some (onGet kv (params.param "key"))) := by
  rw [Route.params_of_template rfl]
  rfl

theorem ZaddHandler.post_eq_params (zsets : ZsetManager) (uri : String) (request : ZaddRequest) :
    post zsets uri request
      = (Route.zadd.params uri).bind (fun params => onPost zsets (params.param "key") request) := by
  rw [Route.params_of_template rfl]
  rfl

theorem ZrangeHandler.post_eq_params (zsets : ZsetManager) (uri : String) (request : ZrangeRequest) :
    post zsets uri request
      = (Route.zrange.params uri).bind (fun params => onPost zsets (params.param "key") request) := by
  rw [Route.params_of_template rfl]
  rfl

theorem ZrmvHandler.get_eq_params (zsets : ZsetManager) (uri : String) :
    get zsets uri = (Route.zrmv.params uri).bind
      (fun params => onGet zsets (params.param "key") (params.param "value")) := by
  rw [Route.params_of_template rfl]
  rfl

namespace Service

/-! ## What a handler obtains from a text of one line -/

/-- What stands behind the first place of the text where the literal part stands and fits. -/
def behind (w : List Char) (route : Route) : List Char → Option (List Char)
  | [] => none
  | c :: s =>
    if w.isPrefixOf (c :: s) && route.fits ((c :: s).drop w.length) then some ((c :: s).drop w.length)
    else behind w route s

/-- The templates of the routes with a literal part. -/
theorem compile_template {w : String} {route : Route} (h : (w, route) ∈ literals) :
    route.template.bind compile = some (route.names, ⟨false, lits w.toList route.groups, true⟩) := by
  simp only [literals, List.mem_cons, Prod.mk.injEq, List.not_mem_nil, or_false] at h
  rcases h with ⟨rfl, rfl⟩ | ⟨rfl, rfl⟩ | ⟨rfl, rfl⟩ | ⟨rfl, rfl⟩ | ⟨rfl, rfl⟩
  · simp [Route.template, Route.names, Route.groups, compile_query]
  · simp [Route.template, Route.names, Route.groups, compile_del]
  · simp [Route.template, Route.names, Route.groups, compile_zadd]
  · simp [Route.template, Route.names, Route.groups, compile_zrange]
  · simp [Route.template, Route.names, Route.groups, compile_zrmv]

/-- Behind the literal part the groups take what fits. -/
theorem matchHere_groups (route : Route) {v : List Char} (hdot : ∀ c ∈ v, Regex.dot c = true) :
    matchHere Regex.dot true route.groups v = if route.fits v then some (route.values v, []) else none := by
  by_cases hz : route = .zrmv
  · subst hz
    by_cases hslash : '/' ∈ v
    · have hcut := ZsetHttpRequest.cut_at_slash hslash
      have hleft : ∀ c ∈ v.takeWhile (fun c => c != '/'), Regex.dot c = true :=
        fun c hc => hdot c (List.takeWhile_subset _ hc)
      have hright : ∀ c ∈ (v.dropWhile (fun c => c != '/')).tail, Regex.dot c = true :=
        fun c hc => hdot c ((List.dropWhile_sublist _).subset (List.mem_of_mem_tail hc))
      have hfirst : '/' ∉ v.takeWhile (fun c => c != '/') :=
        fun hmem => absurd (List.mem_takeWhile_imp hmem) (by decide)
      have hmatch := matchHere_lazy_lit hleft hfirst (matchHere_lazy_end hright)
      rw [← hcut] at hmatch
      rw [if_pos (by simp [Route.fits, hslash])]
      exact hmatch
    · rw [if_neg (by simp [Route.fits, hslash])]
      exact matchHere_run_lit_eq_none hslash
  · rw [if_pos (by simp [Route.fits, hz]), Route.groups, Route.values, if_neg hz, if_neg hz]
    exact matchHere_lazy_end hdot

/-- **A search finds the first place where the literal part stands and fits.** -/
theorem search_eq_behind {w : List Char} (hw : w ≠ []) (route : Route) {s : List Char}
    (hdot : ∀ c ∈ s, Regex.dot c = true) :
    (Regex.searchLoop Regex.dot ⟨false, lits w route.groups, true⟩ s).map (fun m => m.2.1)
      = (behind w route s).map route.values := by
  induction s with
  | nil =>
      have hnone : matchHere Regex.dot true (lits w route.groups) [] = none :=
        matchHere_lits_eq_none (fun hpre => hw (List.prefix_nil.mp hpre))
      simp [Regex.searchLoop, behind, hnone]
  | cons c s ih =>
      have hrest := ih (fun d hd => hdot d (List.mem_cons_of_mem c hd))
      have hplace : matchHere Regex.dot true (lits w route.groups) (c :: s)
          = if w.isPrefixOf (c :: s) && route.fits ((c :: s).drop w.length)
            then some (route.values ((c :: s).drop w.length), []) else none := by
        by_cases hpre : w <+: c :: s
        · obtain ⟨v, hv⟩ := hpre
          have hvdot : ∀ d ∈ v, Regex.dot d = true :=
            fun d hd => hdot d (by rw [← hv]; exact List.mem_append_right _ hd)
          have hyes : w.isPrefixOf (w ++ v) = true := List.isPrefixOf_iff_prefix.mpr (List.prefix_append _ _)
          rw [← hv, matchHere_lits, matchHere_groups route hvdot, List.drop_left, hyes, Bool.true_and]
        · have hno : w.isPrefixOf (c :: s) = false :=
            Bool.eq_false_iff.mpr (fun h => hpre (List.isPrefixOf_iff_prefix.mp h))
          rw [matchHere_lits_eq_none hpre, hno, Bool.false_and]
          rfl
      rw [behind]
      by_cases hfit : (w.isPrefixOf (c :: s) && route.fits ((c :: s).drop w.length)) = true
      · rw [if_pos hfit] at hplace ⊢
        simp [Regex.searchLoop, hplace]
      · rw [if_neg hfit] at hplace ⊢
        simp only [Regex.searchLoop, hplace]
        rw [Option.map_map, ← hrest]
        rfl

/-- The parameters, from what was found. -/
def paramsOf (route : Route) (found : Option (List Char)) : PathParamMap :=
  assign route.names ((found.map route.values).getD [])

/-- Every literal part is a text of one line that is not empty. -/
theorem literal_dot {w : String} {route : Route} (h : (w, route) ∈ literals) :
    w.toList ≠ [] ∧ ∀ c ∈ w.toList, Regex.dot c = true := by
  have hall : literals.all (fun l => !l.1.toList.isEmpty && l.1.toList.all Regex.dot) = true := by decide
  have hw := List.all_eq_true.mp hall (w, route) h
  rw [Bool.and_eq_true, List.all_eq_true] at hw
  exact ⟨by simpa using hw.1, hw.2⟩

/-- The handler's parameters are those of the search. -/
theorem params_eq_search {w : String} {route : Route} (h : (w, route) ∈ literals) (uri : String) :
    route.params uri = some (assign route.names
      (((Regex.searchLoop Regex.dot ⟨false, lits w.toList route.groups, true⟩ uri.toList).map
        (fun m => m.2.1)).getD [])) := by
  obtain ⟨template, ht, hc⟩ := Option.bind_eq_some_iff.mp (compile_template h)
  rw [Route.params_of_template ht]
  simp only [getPathParam, hc, Regex.search, Option.bind_eq_bind, Option.bind_some]
  cases Regex.searchLoop Regex.dot ⟨false, lits w.toList route.groups, true⟩ uri.toList with
  | none => rfl
  | some m => rfl

/-- **On a text of one line** the handler obtains what stands behind the first place of the literal part. -/
theorem params_eq {w : String} {route : Route} (h : (w, route) ∈ literals) {uri : String}
    (hdot : ∀ c ∈ uri.toList, Regex.dot c = true) :
    route.params uri = some (paramsOf route (behind w.toList route uri.toList)) := by
  rw [params_eq_search h, search_eq_behind (literal_dot h).1 route hdot]
  rfl

/-! ## Texts of several lines -/

/-- The text behind the last line break; none when there is no line break. -/
def lastLine : List Char → Option (List Char)
  | [] => none
  | c :: s =>
    match lastLine s with
    | some b => some b
    | none => if Regex.dot c then none else some s

theorem lastLine_none {s : List Char} (h : lastLine s = none) : ∀ c ∈ s, Regex.dot c = true := by
  induction s with
  | nil => simp
  | cons c s ih =>
      unfold lastLine at h
      cases hs : lastLine s with
      | some b =>
          rw [hs] at h
          exact absurd h (by simp)
      | none =>
          rw [hs] at h
          by_cases hc : Regex.dot c = true
          · exact List.forall_mem_cons.mpr ⟨hc, ih hs⟩
          · exact absurd h (by simp [hc])

theorem lastLine_some {s b : List Char} (h : lastLine s = some b) :
    ∃ a c, s = a ++ c :: b ∧ Regex.dot c = false ∧ ∀ d ∈ b, Regex.dot d = true := by
  induction s with
  | nil => exact absurd h (by simp [lastLine])
  | cons c s ih =>
      unfold lastLine at h
      cases hs : lastLine s with
      | some b' =>
          rw [hs] at h
          obtain ⟨a, d, rfl, hd, hb⟩ := ih (hs.trans h)
          exact ⟨c :: a, d, rfl, hd, hb⟩
      | none =>
          rw [hs] at h
          by_cases hc : Regex.dot c = true
          · exact absurd h (by simp [hc])
          · obtain rfl : s = b := by simpa [hc] using h
            exact ⟨[], c, rfl, by simpa using hc, lastLine_none hs⟩

/-- **A text of several lines counts by its last line**: the expression goes to the end of the text and
    contains no line break. -/
theorem params_lastLine {w : String} {route : Route} (h : (w, route) ∈ literals) {uri : String}
    {a b : List Char} {c : Char} (huri : uri.toList = a ++ c :: b) (hc : Regex.dot c = false) :
    route.params uri = route.params (String.ofList b) := by
  have hpieces : ∀ d, Piece.lit d ∈ lits w.toList route.groups → Regex.dot d = true := by
    intro d hd
    rcases List.mem_append.mp hd with hd | hd
    · obtain ⟨d', hd', heq⟩ := List.mem_map.mp hd
      cases heq
      exact (literal_dot h).2 _ hd'
    · unfold Route.groups at hd
      split at hd
      · obtain rfl : d = '/' := by simpa using hd
        rfl
      · exact absurd hd (by simp)
  have hskip : Regex.searchLoop Regex.dot ⟨false, lits w.toList route.groups, true⟩ ((a ++ [c]) ++ b)
      = (Regex.searchLoop Regex.dot ⟨false, lits w.toList route.groups, true⟩ b).map
          (fun m => (a ++ [c] ++ m.1, m.2)) := by
    apply Regex.searchLoop_skip
    intro u₁ u₂ hu hne
    cases hm : matchHere Regex.dot true (lits w.toList route.groups) (u₂ ++ b) with
    | none => rfl
    | some o =>
        -- `u₂` ends with the line break
        obtain ⟨u, d, rfl⟩ := (List.eq_nil_or_concat u₂).resolve_left hne
        rw [List.concat_eq_append, ← List.append_assoc] at hu
        obtain rfl : c = d := by simpa using (List.append_inj' hu rfl).2
        have hdot := wild_of_matchHere hpieces hm c (by simp)
        rw [hc] at hdot
        exact absurd hdot (by simp)
  rw [params_eq_search h, params_eq_search h, huri, List.append_cons, hskip, String.toList_ofList,
    Option.map_map]
  rfl

/-! ## When two texts give the same parameters -/

theorem behind_sound {w s v : List Char} {route : Route} (h : behind w route s = some v) :
    route.fits v = true ∧ ∃ u, s = u ++ (w ++ v) := by
  induction s with
  | nil => exact absurd h (by simp [behind])
  | cons c s ih =>
      unfold behind at h
      split at h
      · rename_i hfit
        obtain ⟨hpre, hfits⟩ := Bool.and_eq_true_iff.mp hfit
        obtain ⟨rest, hrest⟩ := List.isPrefixOf_iff_prefix.mp hpre
        rw [← hrest, List.drop_left] at h hfits
        obtain rfl : rest = v := Option.some.inj h
        exact ⟨hfits, [], hrest.symm⟩
      · obtain ⟨hfits, u, rfl⟩ := ih h
        exact ⟨hfits, c :: u, rfl⟩

/-- The literal part at the beginning is the first place. When what is behind it does not fit there is no
    other, since the rest has no slash. -/
theorem behind_literal {w : String} {route : Route} (h : (w, route) ∈ literals) (v : List Char) :
    behind w.toList route (w.toList ++ v) = if route.fits v then some v else none := by
  obtain ⟨c, w', hw⟩ := List.exists_cons_of_ne_nil (literal_dot h).1
  have hpre : w.toList.isPrefixOf (w.toList ++ v) = true :=
    List.isPrefixOf_iff_prefix.mpr (List.prefix_append _ _)
  have hhere : behind w.toList route (w.toList ++ v)
      = if w.toList.isPrefixOf (w.toList ++ v) && route.fits ((w.toList ++ v).drop w.toList.length)
        then some ((w.toList ++ v).drop w.toList.length) else behind w.toList route (w' ++ v) := by
    conv_lhs => rw [hw, List.cons_append, behind, ← List.cons_append, ← hw]
  rw [hhere, hpre, Bool.true_and, List.drop_left]
  cases hfits : route.fits v with
  | true => rfl
  | false =>
      have hz : route = .zrmv ∧ '/' ∉ v := by simpa [Route.fits] using hfits
      obtain ⟨rfl, hslash⟩ := hz
      have hcount : ∀ l ∈ literals, l.2 = .zrmv → l.1.toList.count '/' = 2 := by decide
      have hw2 : w.toList.count '/' = 2 := hcount _ h rfl
      cases hb : behind w.toList .zrmv (w' ++ v) with
      | none => rfl
      | some x =>
          obtain ⟨hx, u, hu⟩ := behind_sound hb
          have hxs : '/' ∈ x := by simpa [Route.fits] using hx
          -- three slashes would have to stand where there are at most two
          have hcx : 1 ≤ x.count '/' := List.one_le_count_iff.mpr hxs
          have hle : (w' ++ v).count '/' ≤ 2 := by
            have hcw : w'.count '/' ≤ w.toList.count '/' := by
              rw [hw]
              exact List.Sublist.count_le '/' (List.sublist_cons_self c w')
            rw [List.count_append, List.count_eq_zero.mpr hslash]
            omega
          rw [hu, List.count_append, List.count_append, hw2] at hle
          omega

/-- What was found determines the parameters, and the other way round. -/
theorem paramsOf_inj {route : Route} {found found' : Option (List Char)}
    (h : ∀ v, found = some v → route.fits v = true) (h' : ∀ v, found' = some v → route.fits v = true) :
    paramsOf route found = paramsOf route found' ↔ found = found' := by
  refine ⟨fun heq => ?_, fun heq => by rw [heq]⟩
  by_cases hz : route = .zrmv
  · subst hz
    have hcut : ∀ v, Route.zrmv.fits v = true → v = v.takeWhile (fun c => c != '/')
        ++ '/' :: (v.dropWhile (fun c => c != '/')).tail := by
      intro v hv
      exact ZsetHttpRequest.cut_at_slash (by simpa [Route.fits] using hv)
    cases found with
    | none =>
        cases found' with
        | none => rfl
        | some v' => exact absurd heq (by simp [paramsOf, Route.names, Route.values, assign])
    | some v =>
        cases found' with
        | none => exact absurd heq (by simp [paramsOf, Route.names, Route.values, assign])
        | some v' =>
            have hv : v.takeWhile (fun c => c != '/') = v'.takeWhile (fun c => c != '/') ∧
                (v.dropWhile (fun c => c != '/')).tail = (v'.dropWhile (fun c => c != '/')).tail := by
              simpa [paramsOf, Route.names, Route.values, assign, String.ofList_inj] using heq
            rw [hcut v (h v rfl), hcut v' (h' v' rfl), hv.1, hv.2]
  · cases found with
    | none =>
        cases found' with
        | none => rfl
        | some v' => exact absurd heq (by simp [paramsOf, Route.names, Route.values, assign, hz])
    | some v =>
        cases found' with
        | none => exact absurd heq (by simp [paramsOf, Route.names, Route.values, assign, hz])
        | some v' =>
            have hv : v = v' := by
              simpa [paramsOf, Route.names, Route.values, assign, hz, String.ofList_inj] using heq
            rw [hv]

/-- Two texts of one line give the same parameters when the same text stands behind the first place. -/
theorem params_eq_params_iff {w : String} {route : Route} (h : (w, route) ∈ literals) {uri uri' : String}
    (hdot : ∀ c ∈ uri.toList, Regex.dot c = true) (hdot' : ∀ c ∈ uri'.toList, Regex.dot c = true) :
    route.params uri = route.params uri' ↔
      behind w.toList route uri.toList = behind w.toList route uri'.toList := by
  rw [params_eq h hdot, params_eq h hdot', Option.some_inj]
  exact paramsOf_inj (fun v hv => (behind_sound hv).1) (fun v hv => (behind_sound hv).1)

/-! ## Routing looks at the path only -/

theorem getUriPath_append {p : String} (hp : '?' ∉ p.toList) (q : String) :
    getUriPath (p ++ "?" ++ q) = getUriPath p := by
  have hall : ∀ c ∈ p.toList, (c != '?') = true := fun c hc => bne_iff_ne.mpr (fun h => hp (h ▸ hc))
  unfold getUriPath
  rw [String.toList_append, String.toList_append, List.append_assoc, List.takeWhile_append_of_pos hall,
    List.takeWhile_eq_self_iff.mpr hall]
  show String.ofList (p.toList ++ List.takeWhile (fun c => c != '?') ('?' :: q.toList)) = _
  rw [List.takeWhile_cons_of_neg (by simp), List.append_nil]

/-- **What is routed by an expression** is the literal part and at least one further character. -/
theorem exists_of_findHandler {w : String} {route : Route} (h : (w, route) ∈ literals) {p : String}
    (hp : '?' ∉ p.toList) (hroute : findHandler p = some route) : ∃ k : PathText, p = w ++ k.1 := by
  have hpath : getUriPath p = p := getUriPath_of_no_query (fun c hc heq => hp (heq ▸ hc))
  have hexact : ∀ e ∈ exactPaths, ∀ l ∈ literals, e.2 ≠ l.2 := by decide
  have hregex : ∀ t ∈ regexPaths, ∀ l ∈ literals, t.2 = l.2 →
      ParamParse.regex t.1 = some ⟨true, lits l.1.toList [.run 1 true], true⟩ := by decide +kernel
  unfold findHandler at hroute
  rw [hpath] at hroute
  cases hlook : exactPaths.lookup p with
  | some route' =>
      rw [hlook] at hroute
      obtain rfl : route' = route := Option.some.inj hroute
      obtain ⟨l₁, l₂, hl, _⟩ := List.lookup_eq_some_iff.mp hlook
      have hmem : (p, route') ∈ exactPaths := by rw [hl]; simp
      exact absurd rfl (hexact (p, route') hmem (w, route') h)
  | none =>
      rw [hlook] at hroute
      obtain ⟨⟨text, route'⟩, hfind, hr⟩ := Option.map_eq_some_iff.mp hroute
      obtain rfl : route' = route := hr
      have hmatches : pathMatches text p = true := by simpa using List.find?_some hfind
      unfold pathMatches at hmatches
      rw [hregex _ (List.mem_of_find?_eq_some hfind) _ h rfl] at hmatches
      obtain ⟨captures, hwhole⟩ := Option.isSome_iff_exists.mp hmatches
      obtain ⟨o, hmatch, _⟩ := Option.map_eq_some_iff.mp hwhole
      have hpre : w.toList <+: p.toList := by
        by_contra hno
        exact absurd (hmatch.symm.trans (matchHere_lits_eq_none hno)) (by simp)
      obtain ⟨k, hk⟩ := hpre
      rw [← hk] at hmatch
      have hrun : matchHere Regex.dot true [.run 1 true] k = some o := (matchHere_lits _ _).symm.trans hmatch
      have hdot := wild_of_matchHere (by simp) hrun
      have hne : k ≠ [] := by
        rintro rfl
        exact absurd hrun (by simp [matchHere, takeRun])
      have hps : p = w ++ String.ofList k := by
        rw [← String.toList_inj, String.toList_append, String.toList_ofList, hk]
      refine ⟨⟨String.ofList k, ?_, ?_⟩, hps⟩
      · intro hempty
        exact hne (by rw [← String.toList_ofList (l := k), hempty, String.toList_empty])
      · intro c hc
        rw [String.toList_ofList] at hc
        have hcp : c ∈ p.toList := by rw [← hk]; exact List.mem_append_right _ hc
        have hcd := hdot c hc
        simp only [Regex.dot, Bool.and_eq_true, bne_iff_ne] at hcd
        exact ⟨fun heq => hp (heq ▸ hcp), hcd.1, hcd.2⟩

/-- The query string `q` leaves no trace in the parameters of the path `w ++ k`. Either it has no line break and
    there are no parameters, with it or without it. Or it has one, and behind its last one the first place of
    the literal part is followed by exactly what the path gives. -/
def NoTrace (w : String) (route : Route) (k q : List Char) : Prop :=
  match lastLine q with
  | none => route = .zrmv ∧ '/' ∉ k ∧ '/' ∉ q
  | some b => behind w.toList route b = if route.fits k then some k else none

/-- What fits behind the literal part ends with the query string, unless nothing fits. -/
theorem fits_query_iff (route : Route) (k q : List Char) :
    ((if route.fits (k ++ '?' :: q) then some (k ++ '?' :: q) else none)
        = if route.fits k then some k else none) ↔ route = .zrmv ∧ '/' ∉ k ∧ '/' ∉ q := by
  have hfits : route.fits (k ++ '?' :: q) = false ↔ route = .zrmv ∧ '/' ∉ k ∧ '/' ∉ q := by
    simp [Route.fits]
  rw [← hfits]
  cases hlong : route.fits (k ++ '?' :: q) with
  | false =>
      have hshort : route.fits k = false := by
        obtain ⟨rfl, hk, _⟩ := hfits.mp hlong
        simp [Route.fits, hk]
      rw [hshort]
      exact iff_of_true rfl rfl
  | true =>
      refine iff_of_false ?_ (by simp)
      cases route.fits k <;> simp

/-- **When the query string does not matter.** For every path that is routed by an expression and every query
    string, the URI with the query string is routed to the same handler; the handler obtains the same
    parameters from it exactly when the query string leaves no trace. A query string of one line always leaves
    one, unless `/zrmv` finds no slash at all. -/
theorem params_ignore_query_iff {w : String} {route : Route} (h : (w, route) ∈ literals) (p q : String)
    (hp : '?' ∉ p.toList) (hroute : findHandler p = some route) :
    findHandler (p ++ "?" ++ q) = some route ∧
      ∃ k : PathText, p = w ++ k.1 ∧
        (route.params (p ++ "?" ++ q) = route.params p ↔ NoTrace w route k.1.toList q.toList) := by
  obtain ⟨k, rfl⟩ := exists_of_findHandler h hp hroute
  refine ⟨?_, k, rfl, ?_⟩
  · have hsame : findHandler (w ++ k.1 ++ "?" ++ q) = findHandler (w ++ k.1) := by
      unfold findHandler
      rw [getUriPath_append hp]
    rw [hsame, hroute]
  have hdot : ∀ c ∈ (w ++ k.1).toList, Regex.dot c = true := by
    rw [String.toList_append]
    exact List.forall_mem_append.mpr ⟨(literal_dot h).2, k.dot⟩
  have huri : (w ++ k.1 ++ "?" ++ q).toList = w.toList ++ (k.1.toList ++ '?' :: q.toList) := by
    simp only [String.toList_append, List.append_assoc]
    rfl
  have hpath : behind w.toList route (w ++ k.1).toList
      = if route.fits k.1.toList then some k.1.toList else none := by
    rw [String.toList_append, behind_literal h]
  unfold NoTrace
  cases hline : lastLine q.toList with
  | none =>
      have hq := lastLine_none hline
      have hdot' : ∀ c ∈ (w ++ k.1 ++ "?" ++ q).toList, Regex.dot c = true := by
        rw [huri]
        refine List.forall_mem_append.mpr ⟨(literal_dot h).2, List.forall_mem_append.mpr ⟨k.dot, ?_⟩⟩
        exact List.forall_mem_cons.mpr ⟨rfl, hq⟩
      rw [params_eq_params_iff h hdot' hdot, huri, behind_literal h, hpath]
      exact fits_query_iff route k.1.toList q.toList
  | some b =>
      obtain ⟨a, c, hqa, hc, hb⟩ := lastLine_some hline
      have hbreak : (w ++ k.1 ++ "?" ++ q).toList = (w.toList ++ (k.1.toList ++ '?' :: a)) ++ c :: b := by
        rw [huri, hqa]
        simp
      have hbdot : ∀ d ∈ (String.ofList b).toList, Regex.dot d = true := by
        rw [String.toList_ofList]
        exact hb
      rw [params_lastLine h hbreak hc, params_eq_params_iff h hbdot hdot, String.toList_ofList, hpath]

/-- `/query` with a query string of one line, which leaves a trace, and with one that has the path again
    behind a line break, which leaves none. -/
theorem params_ignore_query_iff_query :
    ("/query/", Route.query) ∈ literals ∧ '?' ∉ "/query/a".toList ∧ findHandler "/query/a" = some .query ∧
      findHandler ("/query/a" ++ "?" ++ "x=1") = some .query ∧
      Route.query.params ("/query/a" ++ "?" ++ "x=1") ≠ Route.query.params "/query/a" ∧
      findHandler ("/query/a" ++ "?" ++ "x=1\n/query/a") = some .query ∧
      Route.query.params ("/query/a" ++ "?" ++ "x=1\n/query/a") = Route.query.params "/query/a" := by
  have hmem : ("/query/", Route.query) ∈ literals := by decide
  have hp : '?' ∉ "/query/a".toList := by decide
  have hroute : findHandler "/query/a" = some .query := by decide +kernel
  obtain ⟨hsame, k, -, hiff⟩ := params_ignore_query_iff hmem "/query/a" "x=1" hp hroute
  obtain ⟨hsame', k', hk', hiff'⟩ := params_ignore_query_iff hmem "/query/a" "x=1\n/query/a" hp hroute
  refine ⟨hmem, hp, hroute, hsame, fun heq => ?_, hsame', hiff'.mpr ?_⟩
  · obtain ⟨hzrmv, -⟩ : Route.query = .zrmv ∧ _ := hiff.mp heq
    cases hzrmv
  · have hkey : k'.1.toList = ['a'] := by
      have hlist : "/query/".toList ++ ['a'] = "/query/".toList ++ k'.1.toList := by
        rw [← String.toList_append, ← hk']
        rfl
      exact (List.append_cancel_left hlist).symm
    rw [hkey]
    show behind _ _ _ = _
    decide

/-- `GET /query/a?x=1` looks for the key `a?x=1`. -/
theorem query_string_becomes_key :
    ¬ ∀ (w : String) (route : Route), (w, route) ∈ literals → ∀ p q : String, '?' ∉ p.toList →
        findHandler p = some route → route.params (p ++ "?" ++ q) = route.params p := by
  intro h
  have hkey := h "/query/" .query (by decide) "/query/a" "x=1" (by decide) (by decide +kernel)
  exact absurd hkey (by decide +kernel)

end Service

/-! ## Percent-encoding -/

/-- A byte of a `std::string`. -/
def byteChar (b : UInt8) : Char := Char.ofNat b.toNat

/-- A `std::string` by its bytes. -/
def ofBytes (k : List UInt8) : String := String.ofList (k.map byteChar)

/-- The bytes that stand for themselves in a URI: letters, digits and `-`, `.`, `_`, `~`. -/
def unreserved (b : UInt8) : Bool := (byteChar b).isAlphanum || ['-', '.', '_', '~'].contains (byteChar b)

def hexDigit (n : Nat) : Char := "0123456789ABCDEF".toList.getD n '0'

/-- A byte as it is written in a URI. -/
def encodeByte (b : UInt8) : List Char :=
  if unreserved b then [byteChar b] else ['%', hexDigit (b.toNat / 16), hexDigit (b.toNat % 16)]

/-- The percent-encoding of a byte string. -/
def percentEncode (k : List UInt8) : String := String.ofList (k.flatMap encodeByte)

/-- A byte is written with characters that a path may contain. -/
theorem encodeByte_plain (b : UInt8) : ∀ c ∈ encodeByte b, c ≠ '?' ∧ c ≠ '\n' ∧ c ≠ '\r' := by
  have hall : ((List.range 256).map UInt8.ofNat).all
      (fun b => (encodeByte b).all (fun c => c != '?' && c != '\n' && c != '\r')) = true := by decide +kernel
  have hb : b ∈ (List.range 256).map UInt8.ofNat :=
    List.mem_map.mpr ⟨b.toNat, List.mem_range.mpr b.toNat_lt, UInt8.ofNat_toNat⟩
  intro c hc
  simpa [and_assoc] using List.all_eq_true.mp (List.all_eq_true.mp hall b hb) c hc

/-- The encoding of a key that is not empty can stand in a path. -/
theorem percentEncode_pathText {k : List UInt8} (hk : k ≠ []) :
    percentEncode k ≠ "" ∧ ∀ c ∈ (percentEncode k).toList, c ≠ '?' ∧ c ≠ '\n' ∧ c ≠ '\r' := by
  constructor
  · intro hempty
    obtain ⟨b, k, rfl⟩ := List.exists_cons_of_ne_nil hk
    have hnil : (b :: k).flatMap encodeByte = [] := by
      have h := congrArg String.toList hempty
      rwa [percentEncode, String.toList_ofList, String.toList_empty] at h
    have hb : encodeByte b = [] := (List.append_eq_nil_iff.mp hnil).1
    unfold encodeByte at hb
    split at hb <;> exact absurd hb (by simp)
  · intro c hc
    rw [percentEncode, String.toList_ofList] at hc
    obtain ⟨b, _, hb⟩ := List.mem_flatMap.mp hc
    exact encodeByte_plain b c hb

theorem length_encodeByte (b : UInt8) : (encodeByte b).length = if unreserved b then 1 else 3 := by
  unfold encodeByte
  split <;> rfl

/-- Encoding never shortens, and it lengthens what it changes. -/
theorem length_flatMap_encodeByte (k : List UInt8) :
    k.length ≤ (k.flatMap encodeByte).length ∧
      ((k.flatMap encodeByte).length = k.length → ∀ b ∈ k, unreserved b = true) := by
  induction k with
  | nil => simp
  | cons b k ih =>
      obtain ⟨hle, hall⟩ := ih
      rw [List.flatMap_cons, List.length_append, List.length_cons, length_encodeByte]
      by_cases hb : unreserved b = true
      · rw [if_pos hb]
        exact ⟨by omega, fun hlen => List.forall_mem_cons.mpr ⟨hb, hall (by omega)⟩⟩
      · rw [if_neg hb]
        exact ⟨by omega, fun hlen => by omega⟩

/-- The encoding is the key itself exactly when every byte is unreserved. -/
theorem percentEncode_eq_iff (k : List UInt8) : percentEncode k = ofBytes k ↔ ∀ b ∈ k, unreserved b = true := by
  unfold percentEncode ofBytes
  rw [String.ofList_inj]
  constructor
  · intro heq
    apply (length_flatMap_encodeByte k).2
    rw [heq, List.length_map]
  · intro hall
    induction k with
    | nil => rfl
    | cons b k ih =>
        obtain ⟨hb, hk⟩ := List.forall_mem_cons.mp hall
        rw [List.flatMap_cons, List.map_cons, ih hk, encodeByte, if_pos hb]
        rfl

/-- **When a key is found under its percent-encoding.** For every key that `/add` accepts, the request with
    the percent-encoding of the key in its path is routed to the handler of `/query`, or of `/del`. The
    handler looks for the key exactly when every byte of the key is unreserved: it does not decode what it
    finds in the path. -/
theorem percentEncode_found_iff (k : List UInt8) (value : String) (kv : KvManager)
    (hadd : (AddKeyHandler.onPost kv ⟨ofBytes k, value⟩).status = .ok) :
    (Service.findHandler ("/query/" ++ percentEncode k) = some .query ∧
      ((Route.query.params ("/query/" ++ percentEncode k)).map (fun params => params.param "key")
          = some (some (ofBytes k)) ↔ ∀ b ∈ k, unreserved b = true)) ∧
    (Service.findHandler ("/del/" ++ percentEncode k) = some .del ∧
      ((Route.del.params ("/del/" ++ percentEncode k)).map (fun params => params.param "key")
          = some (some (ofBytes k)) ↔ ∀ b ∈ k, unreserved b = true)) := by
  have hk : k ≠ [] := by
    rintro rfl
    have hempty : ofBytes [] = "" ∨ value = "" := Or.inl rfl
    rw [AddKeyHandler.onPost, if_pos hempty] at hadd
    exact absurd hadd (by simp)
  let text : PathText := ⟨percentEncode k, percentEncode_pathText hk⟩
  have hquery : Route.query.params ("/query/" ++ percentEncode k) = some [("key", some (percentEncode k))] := by
    rw [Route.params_of_template rfl]
    exact getPathParam_one compile_query text.dot
  have hdel : Route.del.params ("/del/" ++ percentEncode k) = some [("key", some (percentEncode k))] := by
    rw [Route.params_of_template rfl]
    exact getPathParam_one compile_del text.dot
  have hrouteQuery : Service.findHandler ("/query/" ++ percentEncode k) = some .query :=
    Service.findHandler_of_literal (by decide) text
  have hrouteDel : Service.findHandler ("/del/" ++ percentEncode k) = some .del :=
    Service.findHandler_of_literal (by decide) text
  refine ⟨⟨hrouteQuery, ?_⟩, hrouteDel, ?_⟩
  · rw [hquery, ← percentEncode_eq_iff]
    simp [PathParamMap.param]
  · rw [hdel, ← percentEncode_eq_iff]
    simp [PathParamMap.param]

/-- The key `a-1`. -/
theorem percentEncode_found_iff_plain :
    let k : List UInt8 := [97, 45, 49]
    (AddKeyHandler.onPost (KvManager.init String.length) ⟨ofBytes k, "v"⟩).status = .ok ∧
    (Service.findHandler ("/query/" ++ percentEncode k) = some .query ∧
      ((Route.query.params ("/query/" ++ percentEncode k)).map (fun params => params.param "key")
          = some (some (ofBytes k)) ↔ ∀ b ∈ k, unreserved b = true)) ∧
    (Service.findHandler ("/del/" ++ percentEncode k) = some .del ∧
      ((Route.del.params ("/del/" ++ percentEncode k)).map (fun params => params.param "key")
          = some (some (ofBytes k)) ↔ ∀ b ∈ k, unreserved b = true)) := by
  intro k
  have hadd : (AddKeyHandler.onPost (KvManager.init String.length) ⟨ofBytes k, "v"⟩).status = .ok := by
    rw [AddKeyHandler.onPost, if_neg (by decide)]
  exact ⟨hadd, percentEncode_found_iff k "v" _ hadd⟩

/-- The key `a b` is stored, and `GET /query/a%20b` looks for `a%20b`. -/
theorem percentEncode_not_decoded :
    ¬ ∀ (k : List UInt8) (value : String) (kv : KvManager),
        (AddKeyHandler.onPost kv ⟨ofBytes k, value⟩).status = .ok →
        (Route.query.params ("/query/" ++ percentEncode k)).map (fun params => params.param "key")
            = some (some (ofBytes k)) ∧
          (Route.del.params ("/del/" ++ percentEncode k)).map (fun params => params.param "key")
            = some (some (ofBytes k)) := by
  intro h
  have hadd : (AddKeyHandler.onPost (KvManager.init String.length) ⟨ofBytes [97, 32, 98], "v"⟩).status
      = .ok := by
    rw [AddKeyHandler.onPost, if_neg (by decide)]
  have hkey := (h [97, 32, 98] "v" _ hadd).1
  exact absurd hkey (by decide +kernel)

end ZhiCache
