import ZhiCache.Model.RequestModel

/-!
# `Model.Json` — decoding a request body

`xpack::json::decode` parses the body with rapidjson and then walks over the value it got. The parser is a
parameter here; the walk is the decoder's own. A field that is missing or `null` leaves its target as it was.
A value that is not what the target needs throws, and so does a field of something that is not an object. A
vector is the exception: what is not an array has size 0, and the vector stays empty.

Each decoder succeeds exactly on the values of one shape (`Decodes`).
-/

namespace ZhiCache

/-- A parsed value. Of a number only one thing matters here: the `int` that it is, if it is one. -/
inductive Json where
  | null
  | bool (b : Bool)
  | number (int : Option Int32)
  | string (s : String)
  | array (elements : List Json)
  | object (members : List (String × Json))

/-- `std::runtime_error`, with its text. -/
structure RuntimeError where
  what : String
  deriving DecidableEq, Repr

namespace Json

/-- `GetString` of rapidjson, assigned to a `std::string`: it ends at the first NUL. None when it throws. -/
def getString : Json → Option String
  | string s => some (String.ofList (s.toList.takeWhile (fun c => c != '\x00')))
  | _ => none

/-- `GetInt` of rapidjson; none when it throws. -/
def getInt : Json → Option Int32
  | number int => int
  | _ => none

/-- `FindMember`, and nothing for a member that is `null`; none when the value is not an object. -/
def findMember : Json → String → Option (Option Json)
  | object members, key =>
    match members.lookup key with
    | none => some none
    | some null => some none
    | some v => some (some v)
  | _, _ => none

end Json

/-- `JsonDecoder`: the value it stands at, and the path that its exceptions name. -/
structure JsonDecoder where
  val : Json
  path : String

namespace JsonDecoder

/-- `decode_exception`. -/
def decodeException (d : JsonDecoder) (what : String) (key : Option String) : RuntimeError :=
  ⟨what ++ "[" ++ (if d.path = "" then "" else d.path ++ ".") ++ key.getD "" ++ "]"⟩

/-- `get_val`; without a key it is the value itself. -/
def getVal (d : JsonDecoder) : Option String → Except RuntimeError (Option Json)
  | none => .ok (some d.val)
  | some key =>
    match d.val.findMember key with
    | none => .error ⟨"IsObject()"⟩
    | some v => .ok v

variable {β : Type}

/-- `XPACK_JSON_DECODE` for a field that is not mandatory. -/
def decode (d : JsonDecoder) (get : Json → Option β) (key : Option String) (val : β) :
    Except RuntimeError β := do
  match ← d.getVal key with
  | none => return val
  | some v =>
    match get v with
    | none => .error (d.decodeException "type unmatch" key)
    | some b => return b

/-- `At`. -/
def atIndex (d : JsonDecoder) (element : Json) (index : Nat) : JsonDecoder :=
  ⟨element, d.path ++ "[" ++ toString index ++ "]"⟩

/-- `decode` into a vector. -/
def decodeVector (each : JsonDecoder → Except RuntimeError β) (d : JsonDecoder) :
    Except RuntimeError (List β) :=
  match d.val with
  | .array elements => elements.zipIdx.mapM (fun e => each (d.atIndex e.1 e.2))
  | _ => .ok []

end JsonDecoder

/-! ## The bodies -/

def InsertRequest.decode (d : JsonDecoder) : Except RuntimeError InsertRequest := do
  let key ← d.decode Json.getString (some "key") ""
  let value ← d.decode Json.getString (some "value") ""
  return ⟨key, value⟩

def ZaddRequest.decode (d : JsonDecoder) : Except RuntimeError ZaddRequest := do
  let score ← d.decode Json.getInt (some "score") 0
  let value ← d.decode Json.getString (some "value") ""
  return ⟨score, value⟩

def ZrangeRequest.decode (d : JsonDecoder) : Except RuntimeError ZrangeRequest := do
  let minScore ← d.decode Json.getInt (some "min_score") 0
  let maxScore ← d.decode Json.getInt (some "max_score") 0
  return ⟨minScore, maxScore⟩

/-- A `std::string` that is an element of a vector. -/
def decodeString (d : JsonDecoder) : Except RuntimeError String := d.decode Json.getString none ""

/-- A parser of JSON: the value, or the text of the error and where it is. -/
abbrev JsonParser := String → Except (String × Nat) Json

/-- `xpack::json::decode`. -/
def decodeBody {β : Type} (parse : JsonParser) (target : JsonDecoder → Except RuntimeError β) (body : String) :
    Except RuntimeError β :=
  match parse body with
  | .error (err, offset) =>
    .error ⟨"Parse json string fail. err=" ++ err ++ ". offset="
      ++ String.ofList ((body.toList.drop offset).take 32)⟩
  | .ok v => target ⟨v, ""⟩

/-! ## Computations that may throw -/

section Throwing

variable {ε α β : Type}

/-- A sequence of two returns when the first does, and then the second with what it got. -/
theorem bind_eq_ok {x : Except ε α} {f : α → Except ε β} {b : β} (h : x >>= f = .ok b) :
    ∃ a, x = .ok a ∧ f a = .ok b := by
  cases x with
  | error e => exact absurd h (by simp [bind, Except.bind])
  | ok a => exact ⟨a, rfl, h⟩

/-- Renaming the exceptions changes no result. -/
@[simp] theorem mapError_eq_ok_iff {ε' : Type} {x : Except ε α} {f : ε → ε'} {a : α} :
    x.mapError f = .ok a ↔ x = .ok a := by
  cases x with
  | error e =>
      show Except.error (f e) = .ok a ↔ _
      simp
  | ok b =>
      show Except.ok b = .ok a ↔ _
      simp

/-- A loop returns when every round does. -/
theorem mapM_ok_iff (f : α → Except ε β) (l : List α) :
    (∃ bs, l.mapM f = .ok bs) ↔ ∀ a ∈ l, ∃ b, f a = .ok b := by
  induction l with
  | nil => simp [pure, Except.pure]
  | cons a l ih =>
      rw [List.mapM_cons, List.forall_mem_cons, ← ih]
      cases hf : f a with
      | error e => simp [bind, Except.bind]
      | ok b =>
          cases hl : l.mapM f with
          | error e => simp [bind, Except.bind]
          | ok bs => simp [bind, Except.bind, pure, Except.pure]

end Throwing

/-! ## Shapes -/

namespace Json

/-- An object whose member `key`, if it has one that is not `null`, satisfies `p`. -/
def fieldHas (p : Json → Bool) (key : String) (v : Json) : Bool :=
  match v.findMember key with
  | none => false
  | some none => true
  | some (some x) => p x

def isString (v : Json) : Bool := v.getString.isSome

def isInt (v : Json) : Bool := v.getInt.isSome

def isArray : Json → Bool
  | array _ => true
  | _ => false

/-- What every element of an array satisfies; true of what is no array. -/
def elementsHave (p : Json → Bool) : Json → Bool
  | array elements => elements.all p
  | _ => true

end Json

namespace JsonDecoder

variable {β γ : Type}

/-- The decoder succeeds on the values of a shape, wherever they stand, and throws on all others. -/
def Decodes (target : JsonDecoder → Except RuntimeError β) (shape : Json → Bool) : Prop :=
  ∀ d, (∃ b, target d = .ok b) ↔ shape d.val = true

theorem decode_field (get : Json → Option β) (key : String) (val : β) :
    Decodes (fun d => d.decode get (some key) val) (Json.fieldHas (fun v => (get v).isSome) key) := by
  intro d
  unfold decode getVal Json.fieldHas
  cases hm : d.val.findMember key with
  | none => simp [bind, Except.bind, hm]
  | some member =>
      cases member with
      | none => simp [bind, Except.bind, pure, Except.pure, hm]
      | some v =>
          cases hv : get v with
          | none => simp [bind, Except.bind, hm, hv]
          | some b => simp [bind, Except.bind, pure, Except.pure, hm, hv]

theorem decode_itself (get : Json → Option β) (val : β) :
    Decodes (fun d => d.decode get none val) (fun v => (get v).isSome) := by
  intro d
  unfold decode getVal
  cases hv : get d.val with
  | none => simp [bind, Except.bind, hv]
  | some b => simp [bind, Except.bind, pure, Except.pure, hv]

/-- Two fields one after the other. -/
theorem Decodes.both {first : JsonDecoder → Except RuntimeError β}
    {second : JsonDecoder → Except RuntimeError γ}
    {p q : Json → Bool} (hp : Decodes first p) (hq : Decodes second q) {δ : Type} (make : β → γ → δ) :
    Decodes (fun d => do let b ← first d; let c ← second d; return make b c) (fun v => p v && q v) := by
  intro d
  rw [Bool.and_eq_true_iff, ← hp d, ← hq d]
  constructor
  · rintro ⟨_, h⟩
    obtain ⟨b, hb, h⟩ := bind_eq_ok h
    obtain ⟨c, hc, _⟩ := bind_eq_ok h
    exact ⟨⟨b, hb⟩, ⟨c, hc⟩⟩
  · rintro ⟨⟨b, hb⟩, ⟨c, hc⟩⟩
    refine ⟨make b c, ?_⟩
    simp only [hb, hc]
    rfl

theorem Decodes.vector {each : JsonDecoder → Except RuntimeError β} {p : Json → Bool} (hp : Decodes each p) :
    Decodes (decodeVector each) (Json.elementsHave p) := by
  intro d
  unfold decodeVector Json.elementsHave
  cases d.val with
  | array elements =>
      have helements : ∀ e : Json × Nat, (∃ b, each (d.atIndex e.1 e.2) = .ok b) ↔ p e.1 = true :=
        fun e => hp (d.atIndex e.1 e.2)
      simp only [mapM_ok_iff, helements, List.all_eq_true]
      constructor
      · intro h v hv
        obtain ⟨i, hi⟩ := List.getElem?_of_mem hv
        exact h (v, i) (List.mk_mem_zipIdx_iff_getElem?.mpr hi)
      · rintro h ⟨v, i⟩ hv
        exact h v (List.fst_mem_of_mem_zipIdx hv)
  | null => simp
  | bool b => simp
  | number int => simp
  | string s => simp
  | object members => simp

end JsonDecoder

end ZhiCache
