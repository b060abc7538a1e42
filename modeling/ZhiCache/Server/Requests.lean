import ZhiCache.Server.Service
import ZhiCache.Server.Restart

/-!
# `Server.Requests` — requests as clients send them, handled one at a time

The requests of this module name their keys in the path, so that they pass through the routes and the
templates of their handlers before they reach the managers.

* Keys and values: whatever is sent, `/query/k` answers with what the last accepted operation on `k` has left
  (`query_answers_last_write`). The template puts no restriction on `k`.
* Sorted sets: `/zadd/k` and `/zrange/k` mean the same set for every `k`. `/zrmv/k/v` means it only when `k`
  has no slash (`zrmv_removes_iff`).
-/

namespace ZhiCache

open Lib

/-! ## Keys and values -/

/-- A request about keys and values. The body of `/add` and `/batch` has been decoded. -/
inductive KvHttpRequest where
  | add (request : InsertRequest)
  | batch (b : DistinctBatch)
  | del (k : PathText)
  | query (k : PathText)

namespace KvHttpRequest

/-- A `GET` request: the status, the body, and `KvManager`. None when the URI leads to another handler. -/
def serveGet (kv : KvManager) (uri : String) : Option (HttpStatus × String × KvManager) :=
  match Service.findHandler uri with
  | some .query => (QueryKeyHandler.get kv uri).map (fun r => (r.1, r.2, kv))
  | some .del => (DelKeyHandler.get kv uri).map (fun s => (s.status, "", s.kv))
  | _ => none

/-- The request is served: the status, the body, and `KvManager`. -/
def serve (kv : KvManager) : KvHttpRequest → Option (HttpStatus × String × KvManager)
  | add request =>
    let s := AddKeyHandler.onPost kv request
    some (s.status, "", s.kv)
  | batch b =>
    let s := BatchAddKeyHandler.onPost kv b.requests b.schedule
    some (s.status, "", s.kv)
  | del k => serveGet kv ("/del/" ++ k.1)
  | query k => serveGet kv ("/query/" ++ k.1)

/-- Requests served one after another. -/
def serveAll (kv : KvManager) (rs : List KvHttpRequest) : Option KvManager :=
  rs.foldlM (fun kv r => (r.serve kv).map (fun a => a.2.2)) kv

/-- The operations of a request on keys and values, where it is accepted. -/
def writes : KvHttpRequest → List (String × Option String)
  | add request => request.write.toList
  | batch b => stores (b.requests.map (fun r => (r.key, r.value)))
  | del k => [(k.1, none)]
  | query _ => []

/-- The last accepted operation on a key. -/
def lastWrite (rs : List KvHttpRequest) (key : String) : Option (String × Option String) :=
  latest (fun w => decide (w.1 = key)) (rs.flatMap writes)

theorem serve_query (kv : KvManager) (k : PathText) :
    (query k).serve kv = match kv.view k.1 with
      | none => some (.notFound, "", kv)
      | some v => some (.ok, v, kv) := by
  have hroute : Service.findHandler ("/query/" ++ k.1) = some .query :=
    Service.findHandler_of_literal (by decide) k
  show serveGet kv ("/query/" ++ k.1) = _
  unfold serveGet
  rw [hroute]
  show (QueryKeyHandler.get kv ("/query/" ++ k.1)).map _ = _
  rw [QueryKeyHandler.get_eq, QueryKeyHandler.onGet_eq]
  cases kv.view k.1 with
  | none => rfl
  | some v => rfl

theorem serve_del (kv : KvManager) (k : PathText) : (del k).serve kv = some (.ok, "", kv.del k.1) := by
  have hroute : Service.findHandler ("/del/" ++ k.1) = some .del :=
    Service.findHandler_of_literal (by decide) k
  show serveGet kv ("/del/" ++ k.1) = _
  unfold serveGet
  rw [hroute]
  show (DelKeyHandler.get kv ("/del/" ++ k.1)).map _ = _
  rw [DelKeyHandler.get_eq]
  rfl

/-- Every request is served, and writes what it says. -/
theorem serve_view (kv : KvManager) (r : KvHttpRequest) :
    ∃ status body kv', r.serve kv = some (status, body, kv') ∧ kv'.view = replay kv.view r.writes := by
  cases r with
  | add request => exact ⟨_, _, _, rfl, AddKeyHandler.view_onPost kv request⟩
  | batch b => exact ⟨_, _, _, rfl, KvRequest.view_handle kv (.batch b)⟩
  | del k => exact ⟨_, _, _, serve_del kv k, KvManager.view_del kv k.1⟩
  | query k =>
      have hq := serve_query kv k
      cases hv : kv.view k.1 with
      | none =>
          rw [hv] at hq
          exact ⟨_, _, _, hq, rfl⟩
      | some v =>
          rw [hv] at hq
          exact ⟨_, _, _, hq, rfl⟩

theorem serveAll_view (hash : String → Nat) (rs : List KvHttpRequest) :
    ∃ kv, serveAll (KvManager.init hash) rs = some kv ∧
      kv.view = replay (fun _ => none) (rs.flatMap writes) := by
  induction rs using List.reverseRecOn with
  | nil => exact ⟨_, rfl, KvManager.view_init hash⟩
  | append_singleton rs r ih =>
      obtain ⟨kv, hkv, hview⟩ := ih
      obtain ⟨status, body, kv', hserve, hview'⟩ := serve_view kv r
      refine ⟨kv', ?_, ?_⟩
      · have hkv₀ : rs.foldlM (fun kv r => (serve kv r).map (fun a => a.2.2)) (KvManager.init hash) = some kv :=
          hkv
        unfold serveAll
        rw [List.foldlM_append, hkv₀]
        simp [hserve]
      · rw [hview', hview, List.flatMap_append, replay_append]
        simp

/-- **`/query/k` answers with the last accepted operation on `k`.** After any sequence of requests on an empty
    store it answers 200 with the body `v` exactly when the last accepted operation on `k` has written `v`,
    and 404 otherwise. `/add` with an empty key or value answers 400 and changes nothing. -/
theorem query_answers_last_write (hash : String → Nat) (rs : List KvHttpRequest) :
    ∃ kv, serveAll (KvManager.init hash) rs = some kv ∧
      (∀ (k : PathText) (v : String),
        (query k).serve kv = some (.ok, v, kv) ↔ lastWrite rs k.1 = some (k.1, some v)) ∧
      (∀ k : PathText,
        (query k).serve kv = some (.notFound, "", kv) ↔ ¬ ∃ v, lastWrite rs k.1 = some (k.1, some v)) ∧
      (∀ request : InsertRequest, request.key = "" ∨ request.value = "" →
        (add request).serve kv = some (.badRequest, "", kv)) := by
  obtain ⟨kv, hkv, hview⟩ := serveAll_view hash rs
  have hvalue : ∀ (k v : String), kv.view k = some v ↔ lastWrite rs k = some (k, some v) := by
    intro k v
    rw [hview, replay_apply]
    show ((lastWrite rs k).map Prod.snd).getD none = some v ↔ _
    cases hl : lastWrite rs k with
    | none => simp
    | some w =>
        obtain ⟨k', o⟩ := w
        obtain rfl : k' = k := of_decide_eq_true (latest_some hl).2
        simp
  refine ⟨kv, hkv, ?_, ?_, ?_⟩
  · intro k v
    rw [← hvalue, serve_query]
    cases kv.view k.1 with
    | none => simp
    | some v' => simp
  · intro k
    simp only [← hvalue]
    rw [serve_query]
    cases kv.view k.1 with
    | none => simp
    | some v' => simp
  · intro request hempty
    have hrefused : AddKeyHandler.onPost kv request = ⟨.badRequest, kv, none⟩ := if_pos hempty
    show some ((AddKeyHandler.onPost kv request).status, "", (AddKeyHandler.onPost kv request).kv) = _
    rw [hrefused]

end KvHttpRequest

/-! ## Sorted sets -/

/-- A request that changes sorted sets. -/
inductive ZsetHttpRequest where
  | zadd (k : PathText) (request : ZaddRequest)
  | zrmv (k v : PathText)

/-- Two texts with a slash between them. -/
def PathText.join (k v : PathText) : PathText :=
  ⟨k.1 ++ "/" ++ v.1, by
    refine ⟨?_, ?_⟩
    · intro h
      have hlen := congrArg String.toList h
      simp at hlen
    · intro c hc
      have hc' : c ∈ k.1.toList ∨ c = '/' ∨ c ∈ v.1.toList := by simpa [or_assoc] using hc
      rcases hc' with hk | rfl | hv
      · exact k.2.2 c hk
      · decide
      · exact v.2.2 c hv⟩

namespace ZsetHttpRequest

/-- The request is served: the status, and the sorted sets. None when the URI leads to another handler. -/
def serve (zsets : ZsetManager) : ZsetHttpRequest → Option (HttpStatus × ZsetManager)
  | zadd k request =>
    match Service.findHandler ("/zadd/" ++ k.1) with
    | some .zadd => ZaddHandler.post zsets ("/zadd/" ++ k.1) request
    | _ => none
  | zrmv k v =>
    match Service.findHandler ("/zrmv/" ++ (k.join v).1) with
    | some .zrmv => ZrmvHandler.get zsets ("/zrmv/" ++ (k.join v).1)
    | _ => none

/-- Requests served one after another. -/
def serveAll (zsets : ZsetManager) (rs : List ZsetHttpRequest) : Option ZsetManager :=
  rs.foldlM (fun zsets r => (r.serve zsets).map Prod.snd) zsets

/-- `POST /zrange/k`. -/
def zrange (zsets : ZsetManager) (k : PathText) (request : ZrangeRequest) :
    Option (HttpStatus × List ZaddRequest) :=
  match Service.findHandler ("/zrange/" ++ k.1) with
  | some .zrange => ZrangeHandler.post zsets ("/zrange/" ++ k.1) request
  | _ => none

/-- Some `POST /zrange/k` returns `v`. -/
def Returns (zsets : ZsetManager) (k v : PathText) : Prop :=
  ∃ request status L score, zrange zsets k request = some (status, L) ∧ ⟨score, v.1⟩ ∈ L

/-- The call of `ZsetManager` that a request comes to. For `/zrmv` the path is cut at its first slash. -/
def op : ZsetHttpRequest → ZsetManagerOp
  | zadd k request => .add k.1 request.score request.value
  | zrmv k v =>
    .del (String.ofList ((k.join v).1.toList.takeWhile (fun c => c != '/')))
      (String.ofList (((k.join v).1.toList.dropWhile (fun c => c != '/')).tail))

theorem serve_zadd (zsets : ZsetManager) (k : PathText) (request : ZaddRequest) :
    (zadd k request).serve zsets
      = (zsets.add k.1 request.score request.value).map (fun zsets => (.ok, zsets)) := by
  have hroute : Service.findHandler ("/zadd/" ++ k.1) = some .zadd :=
    Service.findHandler_of_literal (by decide) k
  unfold serve
  simp only [hroute]
  exact ZaddHandler.post_eq zsets k request

theorem zrange_eq (zsets : ZsetManager) (k : PathText) (request : ZrangeRequest) :
    zrange zsets k request = (zsets.range k.1 request.minScore request.maxScore).map
      (fun res => (if res.1 then .ok else .notFound, res.2)) := by
  have hroute : Service.findHandler ("/zrange/" ++ k.1) = some .zrange :=
    Service.findHandler_of_literal (by decide) k
  unfold zrange
  rw [hroute]
  exact ZrangeHandler.post_eq zsets k request

theorem toList_join (k v : PathText) : (k.join v).1.toList = k.1.toList ++ '/' :: v.1.toList := by
  simp [PathText.join]

theorem all_ne_slash {s : List Char} (h : '/' ∉ s) : ∀ c ∈ s, (c != '/') = true := by
  intro c hc
  have hne : c ≠ '/' := fun e => h (e ▸ hc)
  simpa using hne

/-- A text with a slash, cut at the first one. -/
theorem cut_at_slash {s : List Char} (h : '/' ∈ s) :
    s = s.takeWhile (fun c => c != '/') ++ '/' :: (s.dropWhile (fun c => c != '/')).tail := by
  have hdrop : s.dropWhile (fun c => c != '/') = '/' :: (s.dropWhile (fun c => c != '/')).tail := by
    cases hd : s.dropWhile (fun c => c != '/') with
    | nil =>
        have hall := List.dropWhile_eq_nil_iff.mp hd '/' h
        exact absurd hall (by decide)
    | cons c rest =>
        have hc : ¬ (c != '/') = true := by
          have hne : s.dropWhile (fun c => c != '/') ≠ [] := by simp [hd]
          have hhead := List.head_dropWhile_not (fun c => c != '/') hne
          simpa [hd] using hhead
        obtain rfl : c = '/' := by simpa using hc
        rfl
  calc s = s.takeWhile (fun c => c != '/') ++ s.dropWhile (fun c => c != '/') :=
        List.takeWhile_append_dropWhile.symm
    _ = _ := by rw [← hdrop]

theorem serve_zrmv (zsets : ZsetManager) (k v : PathText) :
    (zrmv k v).serve zsets = (zsets.apply (zrmv k v).op).map (fun zsets => (.ok, zsets)) := by
  have hroute : Service.findHandler ("/zrmv/" ++ (k.join v).1) = some .zrmv :=
    Service.findHandler_of_literal (by decide) (k.join v)
  have hslash : '/' ∈ (k.join v).1.toList := by simp [toList_join]
  have hdot := (k.join v).dot
  unfold serve
  simp only [hroute]
  rw [ZrmvHandler.get_eq (u := String.ofList ((k.join v).1.toList.takeWhile (fun c => c != '/')))
    (v := String.ofList (((k.join v).1.toList.dropWhile (fun c => c != '/')).tail))]
  · rfl
  · intro c hc
    rw [String.toList_ofList] at hc
    exact hdot c (List.takeWhile_subset _ hc)
  · rw [String.toList_ofList]
    intro hmem
    exact absurd (List.mem_takeWhile_imp hmem) (by decide)
  · intro c hc
    rw [String.toList_ofList] at hc
    exact hdot c ((List.dropWhile_sublist _).subset (List.mem_of_mem_tail hc))
  · simp only [String.toList_append, String.toList_ofList]
    rw [← cut_at_slash hslash]

/-- A request is a call of `ZsetManager`. -/
theorem serve_eq (zsets : ZsetManager) (r : ZsetHttpRequest) :
    r.serve zsets = (zsets.apply r.op).map (fun zsets => (.ok, zsets)) := by
  cases r with
  | zadd k request => exact serve_zadd zsets k request
  | zrmv k v => exact serve_zrmv zsets k v

theorem serveAll_eq (zsets : ZsetManager) (rs : List ZsetHttpRequest) :
    serveAll zsets rs = (rs.map op).foldlM ZsetManager.apply zsets := by
  unfold serveAll
  rw [List.foldlM_map]
  refine congrArg (fun f => rs.foldlM f zsets) ?_
  funext zsets r
  rw [serve_eq, Option.map_map]
  exact Option.map_id'

/-! ### What a set is said to hold -/

/-- A member is returned exactly when the last call on it in its set has added it. -/
theorem returns_iff {ops : List ZsetManagerOp} {zsets : ZsetManager} (h : ZsetManager.After ops zsets)
    (k v : PathText) :
    Returns zsets k v ↔
      ∃ score, Zset.mostRecent (ZsetManager.opsOn k.1 ops) v.1 = some (.add score v.1) := by
  classical
  constructor
  · rintro ⟨request, status, L, score, hz, hmem⟩
    rw [zrange_eq, h.range_eq] at hz
    obtain ⟨_, rfl⟩ := Prod.mk.inj (Option.some.inj hz)
    split at hmem
    · exact ⟨score, (Zset.mem_rangeOf.mp hmem).1⟩
    · exact absurd hmem List.not_mem_nil
  · rintro ⟨score, hrec⟩
    have hadded : ZsetManager.Added k.1 ops := ZsetManager.added_iff.mpr ⟨score, v.1, (latest_some hrec).1⟩
    refine ⟨⟨score, score⟩, .ok, Zset.rangeOf (ZsetManager.opsOn k.1 ops) score score, score, ?_, ?_⟩
    · rw [zrange_eq, h.range_eq, if_pos hadded]
      rfl
    · exact Zset.mem_rangeOf.mpr ⟨hrec, Int32.le_refl _, Int32.le_refl _⟩

/-- The part of the path that `/zrmv` takes for the key is `k` exactly when `k` has no slash, and then the rest
    is `v`. -/
theorem zrmv_op (k v : PathText) :
    (zrmv k v).op.key = k.1 ↔ '/' ∉ k.1.toList := by
  show String.ofList ((k.join v).1.toList.takeWhile (fun c => c != '/')) = k.1 ↔ _
  constructor
  · intro heq hslash
    have hk : (k.join v).1.toList.takeWhile (fun c => c != '/') = k.1.toList := by
      rw [← heq, String.toList_ofList]
    rw [← hk] at hslash
    exact absurd (List.mem_takeWhile_imp hslash) (by decide)
  · intro hslash
    have htake : (k.join v).1.toList.takeWhile (fun c => c != '/') = k.1.toList := by
      rw [toList_join, List.takeWhile_append_of_pos (all_ne_slash hslash)]
      simp
    rw [htake, String.ofList_toList]

theorem zrmv_op_value {k v : PathText} (hslash : '/' ∉ k.1.toList) : (zrmv k v).op.op = .del v.1 := by
  have hdrop : ((k.join v).1.toList.dropWhile (fun c => c != '/')).tail = v.1.toList := by
    rw [toList_join, List.dropWhile_append_of_pos (all_ne_slash hslash)]
    simp
  show ZsetOp.del (String.ofList ((k.join v).1.toList.dropWhile (fun c => c != '/')).tail) = _
  rw [hdrop, String.ofList_toList]

/-- **Which set `/zrmv/k/v` means.** After any requests on empty sets: `/zadd/k` stores a member where
    `/zrange/k` finds it, for every `k`. If `/zrange/k` finds `v`, then `/zrmv/k/v` is answered with 200, and
    `/zrange/k` finds `v` no longer exactly when `k` contains no slash. Otherwise `/zrmv` takes the part of `k`
    before its first slash for the key. -/
theorem zrmv_removes_iff (hash : String → Nat) (rs : List ZsetHttpRequest) (k v : PathText) :
    ∃ zsets, serveAll (ZsetManager.init hash) rs = some zsets ∧
      (∀ score, ∃ zsets₁, (zadd k ⟨score, v.1⟩).serve zsets = some (.ok, zsets₁) ∧ Returns zsets₁ k v) ∧
      (Returns zsets k v → ∃ zsets₂, (zrmv k v).serve zsets = some (.ok, zsets₂) ∧
        (¬ Returns zsets₂ k v ↔ '/' ∉ k.1.toList)) := by
  obtain ⟨zsets, hzsets, hafter⟩ := ZsetManager.run_spec hash (rs.map op)
  -- the set of a key after one more request
  have hserve : ∀ r : ZsetHttpRequest, ∃ zsets', r.serve zsets = some (.ok, zsets') ∧
      ZsetManager.After (rs.map op ++ [r.op]) zsets' := by
    intro r
    obtain ⟨zsets', happly, hafter'⟩ := hafter.apply r.op
    refine ⟨zsets', ?_, hafter'⟩
    rw [serve_eq, happly]
    rfl
  refine ⟨zsets, (serveAll_eq _ _).trans hzsets, ?_, ?_⟩
  · intro score
    obtain ⟨zsets₁, hok, hafter₁⟩ := hserve (zadd k ⟨score, v.1⟩)
    refine ⟨zsets₁, hok, (returns_iff hafter₁ k v).mpr ⟨score, ?_⟩⟩
    have hkey : (zadd k ⟨score, v.1⟩).op.key = k.1 := rfl
    rw [ZsetManager.opsOn_snoc, if_pos hkey]
    exact (latest_snoc _ _ _).trans (if_pos (decide_eq_true rfl))
  · intro hreturns
    obtain ⟨score, hrec⟩ := (returns_iff hafter k v).mp hreturns
    obtain ⟨zsets₂, hok, hafter₂⟩ := hserve (zrmv k v)
    refine ⟨zsets₂, hok, ?_⟩
    rw [returns_iff hafter₂ k v, ZsetManager.opsOn_snoc]
    by_cases hslash : '/' ∈ k.1.toList
    · -- another set is meant, and this one stays
      have hkey : ¬ (zrmv k v).op.key = k.1 := fun h => (zrmv_op k v).mp h hslash
      rw [if_neg hkey]
      exact iff_of_false (fun hno => hno ⟨score, hrec⟩) (fun hno => hno hslash)
    · rw [if_pos ((zrmv_op k v).mpr hslash), zrmv_op_value hslash]
      refine iff_of_true ?_ hslash
      rintro ⟨score', hrec'⟩
      have hlast : Zset.mostRecent (ZsetManager.opsOn k.1 (rs.map op) ++ [.del v.1]) v.1 = some (.del v.1) :=
        (latest_snoc _ _ _).trans (if_pos (decide_eq_true rfl))
      rw [hlast] at hrec'
      exact absurd hrec' (by simp)

/-- A key with a slash: the member stays where it is. -/
theorem zrmv_misses_key_with_slash :
    ¬ ∀ (hash : String → Nat) (rs : List ZsetHttpRequest) (k v : PathText) (zsets zsets₂ : ZsetManager),
        serveAll (ZsetManager.init hash) rs = some zsets → Returns zsets k v →
        (zrmv k v).serve zsets = some (.ok, zsets₂) → ¬ Returns zsets₂ k v := by
  intro hall
  let k : PathText := ⟨"a/b", pathText_of_all (by decide) (by decide)⟩
  let v : PathText := ⟨"c", pathText_of_all (by decide) (by decide)⟩
  have hrun : ((serveAll (ZsetManager.init String.length) [zadd k ⟨1, "c"⟩]).bind (fun zsets =>
      ((zrmv k v).serve zsets).bind (fun r => (zrange zsets k ⟨0, 9⟩).bind (fun before =>
        (zrange r.2 k ⟨0, 9⟩).map (fun after => (r.1, before, after))))))
      = some (.ok, (.ok, [⟨1, "c"⟩]), (.ok, [⟨1, "c"⟩])) := by decide +kernel
  obtain ⟨zsets, hzsets, hrest⟩ := Option.bind_eq_some_iff.mp hrun
  obtain ⟨⟨status, zsets₂⟩, hzrmv, hrest⟩ := Option.bind_eq_some_iff.mp hrest
  obtain ⟨before, hbefore, hrest⟩ := Option.bind_eq_some_iff.mp hrest
  obtain ⟨after, hafter, hresult⟩ := Option.map_eq_some_iff.mp hrest
  obtain ⟨rfl, hlists⟩ := Prod.mk.inj hresult
  obtain ⟨rfl, rfl⟩ := Prod.mk.inj hlists
  exact hall _ _ k v zsets zsets₂ hzsets ⟨_, _, _, 1, hbefore, by decide⟩ hzrmv ⟨_, _, _, 1, hafter, by decide⟩

end ZsetHttpRequest

end ZhiCache
