import ZhiCache.Model.Json
import ZhiCache.Server.Service

/-!
# `Server.Bodies` — a POST request from its body on

Five handlers take a body. Each decodes it and goes on with what it has got; none of them catches what
`xpack::json::decode` throws, so a body that does not decode leaves the handler by an exception and not with a
status. `/zadd` and `/zrange` look for their key first, and `/list` and `/batch` decode into a vector, which
takes a value that is no array for an empty one: `/list` refuses an empty list and `/batch` does not.
-/

namespace ZhiCache

open Lib

/-- How a handler can end without an answer. -/
inductive Failure where
  /-- `xpack::json::decode` has thrown, and no handler catches it. -/
  | thrown (e : RuntimeError)
  /-- `std::regex` has thrown. -/
  | regexError
  /-- A pointer of a sorted set has led nowhere. -/
  | lost
  deriving DecidableEq, Repr

/-- What the handlers work on: the two managers, the database, and the tasks that are to write to it. -/
structure Store where
  kv : KvManager
  zsets : ZsetManager
  db : LevelDb
  tasks : List Task

/-- What a handler of keys has left behind. -/
def Store.serve (st : Store) (served : Served) : HttpStatus × Store :=
  (served.status, { st with kv := served.kv, tasks := st.tasks ++ served.task.toList })

/-- The order in which `/batch` stores its entries, which depends on how their fibers are scheduled. -/
abbrev BatchOrder := { order : List InsertRequest → List InsertRequest // ∀ l, (order l).Perm l }

section Handlers

variable (parse : JsonParser)

/-- `xpack::json::decode` in a handler. -/
def decodeOrThrow {β : Type} (target : JsonDecoder → Except RuntimeError β) (body : String) :
    Except Failure β :=
  (decodeBody parse target body).mapError .thrown

/-- `AddKeyHandler::OnPost`, from the body. -/
def AddKeyHandler.servePost (st : Store) (body : String) : Except Failure (HttpStatus × Store) := do
  let request ← decodeOrThrow parse InsertRequest.decode body
  return st.serve (onPost st.kv request)

/-- `BatchQueryKeyHandler::OnPost`. -/
def BatchQueryKeyHandler.servePost (st : Store) (body : String) : Except Failure (HttpStatus × Store) := do
  let keys ← decodeOrThrow parse (JsonDecoder.decodeVector decodeString) body
  return ((onPost st.kv keys).1, st)

/-- `BatchAddKeyHandler::OnPost`. -/
def BatchAddKeyHandler.servePost (order : BatchOrder) (st : Store) (body : String) :
    Except Failure (HttpStatus × Store) := do
  let requests ← decodeOrThrow parse (JsonDecoder.decodeVector InsertRequest.decode) body
  return st.serve (onPost st.kv requests (order.1 requests))

/-- How the handlers of sorted sets begin: without a key in the URI they answer at once. -/
def serveWithKey (template : String) (st : Store) (uri : String)
    (answer : String → Except Failure (HttpStatus × Store)) : Except Failure (HttpStatus × Store) :=
  match ParamParse.getPathParam uri template with
  | none => .error .regexError
  | some params =>
    match params.param "key" with
    | none => .ok (.badRequest, st)
    | some key => answer key

/-- `ZaddHandler::OnPost`. -/
def ZaddHandler.servePost (st : Store) (uri body : String) : Except Failure (HttpStatus × Store) :=
  serveWithKey "/zadd/\x7bkey\x7d$" st uri (fun key => do
    let request ← decodeOrThrow parse ZaddRequest.decode body
    match onPost st.zsets (some key) request with
    | none => .error .lost
    | some (status, zsets) => return (status, { st with zsets := zsets }))

/-- `ZrangeHandler::OnPost`. -/
def ZrangeHandler.servePost (st : Store) (uri body : String) : Except Failure (HttpStatus × Store) :=
  serveWithKey "/zrange/\x7bkey\x7d$" st uri (fun key => do
    let request ← decodeOrThrow parse ZrangeRequest.decode body
    match onPost st.zsets (some key) request with
    | none => .error .lost
    | some (status, _) => return (status, st))

end Handlers

/-- A POST request. -/
inductive PostRequest where
  | add (body : String)
  | list (body : String)
  | batch (body : String)
  | zadd (uri body : String)
  | zrange (uri body : String)

namespace PostRequest

def body : PostRequest → String
  | add body | list body | batch body | zadd _ body | zrange _ body => body

/-- What the handler makes of it. -/
def serve (parse : JsonParser) (order : BatchOrder) (st : Store) :
    PostRequest → Except Failure (HttpStatus × Store)
  | add body => AddKeyHandler.servePost parse st body
  | list body => BatchQueryKeyHandler.servePost parse st body
  | batch body => BatchAddKeyHandler.servePost parse order st body
  | zadd uri body => ZaddHandler.servePost parse st uri body
  | zrange uri body => ZrangeHandler.servePost parse st uri body

/-! ## What a body should look like -/

/-- The shape that the handler expects: an array of texts for `/list`, of objects for `/batch`, and otherwise
    an object; a field may be missing or `null`, and any other one has its type. -/
def shape : PostRequest → Json → Bool
  | add _, v => v.fieldHas Json.isString "key" && v.fieldHas Json.isString "value"
  | list _, v => v.isArray && v.elementsHave Json.isString
  | batch _, v =>
    v.isArray && v.elementsHave (fun e => e.fieldHas Json.isString "key" && e.fieldHas Json.isString "value")
  | zadd _ _, v => v.fieldHas Json.isInt "score" && v.fieldHas Json.isString "value"
  | zrange _ _, v => v.fieldHas Json.isInt "min_score" && v.fieldHas Json.isInt "max_score"

/-- The body is JSON, of the expected shape. -/
def Expected (parse : JsonParser) (r : PostRequest) : Prop := ∃ v, parse r.body = .ok v ∧ r.shape v = true

/-- The body is JSON, but no array. -/
def NoArray (parse : JsonParser) (r : PostRequest) : Prop := ∃ v, parse r.body = .ok v ∧ v.isArray = false

/-- The request is answered, and if its body is not as expected, refused without an effect. -/
def Handled (parse : JsonParser) (order : BatchOrder) (st : Store) (r : PostRequest) : Prop :=
  ∃ status st', r.serve parse order st = .ok (status, st') ∧
    (¬ r.Expected parse → status ≠ .ok ∧ st' = st)

/-- What it takes for that: a body as expected, or a request that is refused whatever its body is, or for
    `/list` any value that is no array. -/
def Fine (parse : JsonParser) : PostRequest → Prop
  | zadd uri body => ¬ ParamParse.Names "/zadd/" uri ∨ Expected parse (zadd uri body)
  | zrange uri body => ¬ ParamParse.Names "/zrange/" uri ∨ Expected parse (zrange uri body)
  | list body => NoArray parse (list body) ∨ Expected parse (list body)
  | r => Expected parse r

end PostRequest

/-! ## Bodies that decode -/

section Decoding

variable {parse : JsonParser} {β : Type} {target : JsonDecoder → Except RuntimeError β} {p : Json → Bool}

/-- Decoding succeeds on the bodies that parse to a value of the shape. -/
theorem decodeOrThrow_ok_iff (parse : JsonParser) (h : JsonDecoder.Decodes target p) (body : String) :
    (∃ b, decodeOrThrow parse target body = .ok b) ↔ ∃ v, parse body = .ok v ∧ p v = true := by
  unfold decodeOrThrow decodeBody
  simp only [mapError_eq_ok_iff]
  cases parse body with
  | error e => simp
  | ok v => simpa using h ⟨v, ""⟩

/-- A vector decoded from what is no array is empty. -/
theorem decodeOrThrow_noArray {v : Json} {body : String} (hparse : parse body = .ok v)
    (hv : v.isArray = false) : decodeOrThrow parse (JsonDecoder.decodeVector target) body = .ok [] := by
  unfold decodeOrThrow decodeBody JsonDecoder.decodeVector
  rw [hparse]
  cases v with
  | array elements => exact absurd hv (by simp [Json.isArray])
  | null => rfl
  | bool b => rfl
  | number int => rfl
  | string s => rfl
  | object members => rfl

theorem decodes_insertRequest : JsonDecoder.Decodes InsertRequest.decode
    (fun v => v.fieldHas Json.isString "key" && v.fieldHas Json.isString "value") :=
  (JsonDecoder.decode_field Json.getString "key" "").both (JsonDecoder.decode_field Json.getString "value" "")
    InsertRequest.mk

theorem decodes_zaddRequest : JsonDecoder.Decodes ZaddRequest.decode
    (fun v => v.fieldHas Json.isInt "score" && v.fieldHas Json.isString "value") :=
  (JsonDecoder.decode_field Json.getInt "score" 0).both (JsonDecoder.decode_field Json.getString "value" "")
    ZaddRequest.mk

theorem decodes_zrangeRequest : JsonDecoder.Decodes ZrangeRequest.decode
    (fun v => v.fieldHas Json.isInt "min_score" && v.fieldHas Json.isInt "max_score") :=
  (JsonDecoder.decode_field Json.getInt "min_score" 0).both (JsonDecoder.decode_field Json.getInt "max_score" 0)
    ZrangeRequest.mk

theorem decodes_keys : JsonDecoder.Decodes (JsonDecoder.decodeVector decodeString)
    (Json.elementsHave Json.isString) :=
  (JsonDecoder.decode_itself Json.getString "").vector

end Decoding

/-- The handlers of sorted sets answer at once, or they go on with a key. -/
theorem serveWithKey_cases {template w : String} (hc : ParamParse.compile template
      = some (["key"], ⟨false, lits w.toList [.run 0 true], true⟩)) (st : Store) (uri : String)
    (answer : String → Except Failure (HttpStatus × Store)) :
    (¬ ParamParse.Names w uri ∧ serveWithKey template st uri answer = .ok (.badRequest, st)) ∨
      ∃ key, ParamParse.Names w uri ∧ serveWithKey template st uri answer = answer key := by
  obtain ⟨params, hparams, hkey⟩ := ParamParse.getPathParam_isNone_iff hc uri
  cases hp : params.param "key" with
  | none => exact Or.inl ⟨hkey.mp hp, by simp [serveWithKey, hparams, hp]⟩
  | some key =>
      refine Or.inr ⟨key, ?_, by simp [serveWithKey, hparams, hp]⟩
      by_contra hno
      exact absurd (hp.symm.trans (hkey.mpr hno)) (by simp)

namespace PostRequest

variable {parse : JsonParser} {order : BatchOrder} {st : Store}

/-- A request with a body as expected only has to be answered. -/
theorem Handled.of_answer {r : PostRequest} {answer : HttpStatus × Store} (hexpected : r.Expected parse)
    (h : r.serve parse order st = .ok answer) : r.Handled parse order st :=
  ⟨answer.1, answer.2, h, fun hno => absurd hexpected hno⟩

/-! ## The handlers of keys -/

theorem add_handled_iff (body : String) :
    Handled parse order st (add body) ↔ Expected parse (add body) := by
  have hdecode := decodeOrThrow_ok_iff parse decodes_insertRequest body
  constructor
  · rintro ⟨status, st', hserve, _⟩
    obtain ⟨request, hrequest, _⟩ := bind_eq_ok hserve
    exact hdecode.mp ⟨request, hrequest⟩
  · intro hexpected
    obtain ⟨request, hrequest⟩ := hdecode.mpr hexpected
    have hserve : (add body).serve parse order st = .ok (st.serve (AddKeyHandler.onPost st.kv request)) := by
      simp only [serve, AddKeyHandler.servePost, hrequest]
      rfl
    exact Handled.of_answer hexpected hserve

theorem list_handled_iff (body : String) :
    Handled parse order st (list body) ↔ NoArray parse (list body) ∨ Expected parse (list body) := by
  have hdecode := decodeOrThrow_ok_iff parse decodes_keys body
  have hserve (keys : List String)
      (hkeys : decodeOrThrow parse (JsonDecoder.decodeVector decodeString) body = .ok keys) :
      (list body).serve parse order st = .ok ((BatchQueryKeyHandler.onPost st.kv keys).1, st) := by
    simp only [serve, BatchQueryKeyHandler.servePost, hkeys]
    rfl
  constructor
  · rintro ⟨status, st', hok, _⟩
    obtain ⟨keys, hkeys, _⟩ := bind_eq_ok hok
    obtain ⟨v, hparse, hv⟩ := hdecode.mp ⟨keys, hkeys⟩
    cases harray : v.isArray with
    | false => exact Or.inl ⟨v, hparse, harray⟩
    | true => exact Or.inr ⟨v, hparse, by simp [shape, harray, hv]⟩
  · rintro (⟨v, hparse, hv⟩ | ⟨v, hparse, hv⟩)
    · -- no keys are decoded, and an empty list is refused
      exact ⟨.badRequest, st, hserve [] (decodeOrThrow_noArray hparse hv), fun _ => ⟨by simp, rfl⟩⟩
    · obtain ⟨keys, hkeys⟩ := hdecode.mpr ⟨v, hparse, (Bool.and_eq_true_iff.mp hv).2⟩
      exact Handled.of_answer ⟨v, hparse, hv⟩ (hserve keys hkeys)

theorem batch_handled_iff (body : String) :
    Handled parse order st (batch body) ↔ Expected parse (batch body) := by
  have hdecode := decodeOrThrow_ok_iff parse decodes_insertRequest.vector body
  constructor
  · rintro ⟨status, st', hok, hrefused⟩
    obtain ⟨requests, _, hanswer⟩ := bind_eq_ok hok
    -- whatever has been decoded, the answer is 200
    obtain ⟨rfl, _⟩ := Prod.mk.inj (Except.ok.inj hanswer)
    by_contra hno
    exact (hrefused hno).1 rfl
  · rintro ⟨v, hparse, hv⟩
    obtain ⟨requests, hrequests⟩ := hdecode.mpr ⟨v, hparse, (Bool.and_eq_true_iff.mp hv).2⟩
    have hserve : (batch body).serve parse order st
        = .ok (st.serve (BatchAddKeyHandler.onPost st.kv requests (order.1 requests))) := by
      simp only [serve, BatchAddKeyHandler.servePost, hrequests]
      rfl
    exact Handled.of_answer ⟨v, hparse, hv⟩ hserve

/-! ## The handlers of sorted sets -/

/-- A request with a key in the URI, which is answered once its body is decoded. -/
theorem handled_iff_of_key {r : PostRequest} {template w uri : String} {β : Type}
    {target : JsonDecoder → Except RuntimeError β} (answer : String → β → Except Failure (HttpStatus × Store))
    (hc : ParamParse.compile template = some (["key"], ⟨false, lits w.toList [.run 0 true], true⟩))
    (hdecodes : JsonDecoder.Decodes target r.shape)
    (hserve : r.serve parse order st
      = serveWithKey template st uri (fun key => decodeOrThrow parse target r.body >>= answer key))
    (hanswer : ∀ key request, ∃ res, answer key request = .ok res) :
    r.Handled parse order st ↔ ¬ ParamParse.Names w uri ∨ r.Expected parse := by
  have hdecode := decodeOrThrow_ok_iff parse hdecodes r.body
  rcases serveWithKey_cases hc st uri (fun key => decodeOrThrow parse target r.body >>= answer key)
    with ⟨hno, hrefused⟩ | ⟨key, hyes, hgoes⟩
  · exact iff_of_true ⟨.badRequest, st, hserve.trans hrefused, fun _ => ⟨by simp, rfl⟩⟩ (Or.inl hno)
  · rw [or_iff_right (not_not_intro hyes)]
    constructor
    · rintro ⟨status, st', hok, _⟩
      obtain ⟨request, hrequest, _⟩ := bind_eq_ok ((hserve.trans hgoes).symm.trans hok)
      exact hdecode.mp ⟨request, hrequest⟩
    · intro hexpected
      obtain ⟨request, hrequest⟩ := hdecode.mpr hexpected
      obtain ⟨res, hres⟩ := hanswer key request
      have hrest : decodeOrThrow parse target r.body >>= answer key = .ok res := by
        rw [hrequest]
        exact hres
      exact Handled.of_answer hexpected ((hserve.trans hgoes).trans hrest)

/-- The sorted sets are those that some run of `Add` and `Del` leaves behind. -/
theorem zadd_handled_iff {ops : List ZsetManagerOp} (hafter : ZsetManager.After ops st.zsets)
    (uri body : String) :
    Handled parse order st (zadd uri body)
      ↔ ¬ ParamParse.Names "/zadd/" uri ∨ Expected parse (zadd uri body) := by
  refine handled_iff_of_key _ ParamParse.compile_zadd decodes_zaddRequest rfl (fun key request => ?_)
  obtain ⟨zsets, happly, _⟩ := hafter.apply (.add key request.score request.value)
  have hadd : st.zsets.add key request.score request.value = some zsets := happly
  have hpost : ZaddHandler.onPost st.zsets (some key) request = some (.ok, zsets) := by
    simp [ZaddHandler.onPost, hadd]
  exact ⟨(.ok, { st with zsets := zsets }), by rw [hpost]; rfl⟩

open Classical in
theorem zrange_handled_iff {ops : List ZsetManagerOp} (hafter : ZsetManager.After ops st.zsets)
    (uri body : String) :
    Handled parse order st (zrange uri body)
      ↔ ¬ ParamParse.Names "/zrange/" uri ∨ Expected parse (zrange uri body) := by
  refine handled_iff_of_key _ ParamParse.compile_zrange decodes_zrangeRequest rfl (fun key request => ?_)
  obtain ⟨answer, hpost⟩ : ∃ answer, ZrangeHandler.onPost st.zsets (some key) request = some answer := by
    simp only [ZrangeHandler.onPost, hafter.range_eq key request.minScore request.maxScore, Option.map_some]
    exact ⟨_, rfl⟩
  exact ⟨(answer.1, st), by rw [hpost]; rfl⟩

/-! ## Every POST request -/

/-- **Which POST requests are answered as they should be.** In every state of the store a request is answered,
    and if its body is not JSON of the expected shape refused without an effect, exactly when the body is of
    that shape, or the URI of `/zadd` or `/zrange` has no key, or the body of `/list` is JSON other than an
    array. On every other body an exception leaves the handler, or `/batch` answers 200. -/
theorem handled_iff_fine (parse : JsonParser) (order : BatchOrder) (hash : String → Nat)
    (ops : List ZsetManagerOp) :
    ∃ zsets, ZsetManager.run hash ops = some zsets ∧
      ∀ (kv : KvManager) (db : LevelDb) (tasks : List Task) (r : PostRequest),
        r.Handled parse order ⟨kv, zsets, db, tasks⟩ ↔ r.Fine parse := by
  obtain ⟨zsets, hrun, hafter⟩ := ZsetManager.run_spec hash ops
  refine ⟨zsets, hrun, fun kv db tasks r => ?_⟩
  cases r with
  | add body => exact add_handled_iff body
  | list body => exact list_handled_iff body
  | batch body => exact batch_handled_iff body
  | zadd uri body => exact zadd_handled_iff hafter uri body
  | zrange uri body => exact zrange_handled_iff hafter uri body

/-- A body that is no JSON at all: `/add` does not answer. -/
theorem malformed_body_throws :
    ¬ ∀ (parse : JsonParser) (order : BatchOrder) (hash : String → Nat) (ops : List ZsetManagerOp),
      ∃ zsets, ZsetManager.run hash ops = some zsets ∧
        ∀ (kv : KvManager) (db : LevelDb) (tasks : List Task) (r : PostRequest),
          r.Handled parse order ⟨kv, zsets, db, tasks⟩ := by
  intro h
  obtain ⟨zsets, _, hall⟩ := h (fun _ => .error ("Invalid value.", 0)) ⟨id, fun _ => .rfl⟩ (fun _ => 0) []
  obtain ⟨status, st', hserve, _⟩ := hall (KvManager.init (fun _ => 0)) ∅ [] (.add "x")
  obtain ⟨request, hdecode, _⟩ := bind_eq_ok hserve
  exact absurd hdecode (by simp [decodeOrThrow, decodeBody])

end PostRequest

end ZhiCache
