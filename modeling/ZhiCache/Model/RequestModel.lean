/-!
# `Model.RequestModel` — the bodies of requests, after decoding

The structures that `xpack::json` decodes request bodies into. A `std::string` is a Lean `String`, each of
its characters standing for one byte; the scores are 32-bit integers.
-/

namespace ZhiCache

/-- The body of `/add`, and an entry of the body of `/batch`. -/
structure InsertRequest where
  key : String
  value : String
  deriving DecidableEq, Repr, Inhabited

/-- The body of `/zadd/{key}`, and an entry of the answer of `/zrange/{key}`. -/
structure ZaddRequest where
  score : Int32
  value : String
  deriving DecidableEq, Repr, Inhabited

/-- The body of `/zrange/{key}`. -/
structure ZrangeRequest where
  minScore : Int32
  maxScore : Int32
  deriving DecidableEq, Repr, Inhabited

end ZhiCache
