import Mathlib.Logic.Relation
import ZhiCache.Manager.ZsetManager
import ZhiCache.Handler.KvHandler

/-!
# `Handler.ZsetHandler` — the handlers of sorted sets

`/zrmv` is one call of `ZsetManager::Del`. `/zrange` is a longer walk: `ZsetManager::Range` looks the set up
and reads it through the pointer it got, and for every node of the interval `Zset::Range` looks the member
up in the value map and then reads its score through that pointer. `ZrangePc` takes these steps one by one;
a request that runs without interruption answers with what `ZsetManager.range` computes
(`ZrangePc.alone`).
-/

namespace ZhiCache

open SkipList

/-- `ZaddHandler::OnPost`; no key when the path has none. -/
def ZaddHandler.onPost (zsets : ZsetManager) : Option String → ZaddRequest → Option (HttpStatus × ZsetManager)
  | none, _ => some (.badRequest, zsets)
  | some key, request =>
    (zsets.add key request.score request.value).map (fun zsets => (.ok, zsets))

/-- `ZrangeHandler::OnPost` without interruption: the status and the list in the body. -/
def ZrangeHandler.onPost (zsets : ZsetManager) :
    Option String → ZrangeRequest → Option (HttpStatus × List ZaddRequest)
  | none, _ => some (.badRequest, [])
  | some key, request =>
    (zsets.range key request.minScore request.maxScore).map
      (fun res => (if res.1 then .ok else .notFound, res.2))

/-- `ZrmvHandler::OnGet`; no key or value when the path has none. -/
def ZrmvHandler.onGet (zsets : ZsetManager) : Option String → Option String → Option (HttpStatus × ZsetManager)
  | some key, some value => (zsets.del key value).map (fun zsets => (.ok, zsets))
  | _, _ => some (.badRequest, zsets)

/-- `ZrangeHandler::OnPost`, in `ZsetManager::Range` and `Zset::Range`. -/
inductive ZrangePc where
  /-- `_zset_map.Get` is next. -/
  | asked (key : String) (request : ZrangeRequest)
  /-- The pointer to the set is to be read. -/
  | found (key : String) (zset : Addr) (request : ZrangeRequest)
  /-- The iterator stands at `n`, at the head of the loop. -/
  | standing (key : String) (zset : Addr) (maxScore : Int32) (n : Option NodeId) (result : List ZaddRequest)
  /-- The pointer to the score of the member of `node`, the key of `n`, is to be read. -/
  | holding (key : String) (zset : Addr) (maxScore : Int32) (n : NodeId) (node : ZsetSkipListNode)
      (score : Addr) (result : List ZaddRequest)
  | answered (status : HttpStatus) (result : List ZaddRequest)
  /-- The iterator has left the list. -/
  | derailed
  /-- A pointer has been read after its element was destroyed. -/
  | fault

namespace ZrangePc

/-- The request arrives; no key when the path has none. -/
def start : Option String → ZrangeRequest → ZrangePc
  | none, _ => .answered .badRequest []
  | some key, request => .asked key request

/-- `iter.Next()`. -/
def next (z : Zset) (key : String) (zset : Addr) (maxScore : Int32) (n : NodeId)
    (result : List ZaddRequest) : ZrangePc :=
  match z.scoreRangeMap.iterNext n with
  | none => .derailed
  | some n => .standing key zset maxScore n result

/-- Up to the next pointer: the lookup of the set, or the test of the loop and the lookup of a member. -/
def get (zsets : ZsetManager) : ZrangePc → Option ZrangePc
  | asked key request =>
    match zsets.zsetMap.get key with
    | none => some (.answered .notFound [])
    | some zset => some (.found key zset request)
  | standing key zset maxScore n result =>
    match zsets.zsetMap.deref zset with
    | none => some .fault
    | some z =>
      match n with
      | none => some (.answered .ok result)
      | some n =>
        if (z.scoreRangeMap.key n).score ≤ maxScore then
          match z.valueMap.get (z.scoreRangeMap.key n).value with
          | none => some (next z key zset maxScore n result)
          | some score => some (.holding key zset maxScore n (z.scoreRangeMap.key n) score result)
        else some (.answered .ok result)
  | _ => none

/-- The pointer is read: the set's, to place the iterator, or `*score`, to keep the node or not. -/
def read (zsets : ZsetManager) : ZrangePc → Option ZrangePc
  | found key zset request =>
    match zsets.zsetMap.deref zset with
    | none => some .fault
    | some z =>
      match z.scoreRangeMap.seek ⟨request.minScore, ""⟩ with
      | none => some .derailed
      | some n => some (.standing key zset request.maxScore n [])
  | holding key zset maxScore n node score result =>
    match zsets.zsetMap.deref zset with
    | none => some .fault
    | some z =>
      match z.valueMap.deref score with
      | none => some .fault
      | some v => some (next z key zset maxScore n (if v = node.score then result ++ [node] else result))
  | _ => none

/-! ## A request without interruption -/

/-- The request gets on while nothing else happens. -/
def Alone (zsets : ZsetManager) : ZrangePc → ZrangePc → Prop :=
  Relation.ReflTransGen (fun pc pc' => pc.get zsets = some pc' ∨ pc.read zsets = some pc')

variable {zsets : ZsetManager} {key : String} {zset : Addr} {z : Zset} {maxScore : Int32}

/-- One node: it is looked up, read and kept or not, and the iterator goes on. -/
theorem Alone.node (hz : zsets.zsetMap.deref zset = some z) {n : NodeId} {after : Option NodeId}
    (hle : (z.scoreRangeMap.key n).score ≤ maxScore) (hnext : z.scoreRangeMap.iterNext n = some after)
    (result : List ZaddRequest) :
    Alone zsets (.standing key zset maxScore (some n) result) (.standing key zset maxScore after
      (if z.isLive (z.scoreRangeMap.key n) then result ++ [z.scoreRangeMap.key n] else result)) := by
  unfold Zset.isLive
  cases hg : z.valueMap.get (z.scoreRangeMap.key n).value with
  | none =>
      refine .single (Or.inl ?_)
      simp [get, hz, hle, hg, next, hnext]
  | some score =>
      obtain ⟨v, hv⟩ := Option.isSome_iff_exists.mp (HashKv.view_isSome hg)
      rw [← HashKv.deref_of_get hg] at hv
      have hget : (ZrangePc.standing key zset maxScore (some n) result).get zsets
          = some (.holding key zset maxScore n (z.scoreRangeMap.key n) score result) := by
        simp [get, hz, hle, hg]
      refine .head (Or.inl hget) (.single (Or.inr ?_))
      simp [read, hz, hv, next, hnext]

/-- The loop of `Range`. -/
theorem Alone.loop (hz : zsets.zsetMap.deref zset = some z) {fuel : Nat} {n : Option NodeId}
    {rest : List ZaddRequest} (h : z.rangeLoop maxScore fuel n = some rest) (result : List ZaddRequest) :
    Alone zsets (.standing key zset maxScore n result) (.answered .ok (result ++ rest)) := by
  induction fuel generalizing n rest result with
  | zero => exact absurd h (by simp [Zset.rangeLoop])
  | succ fuel ih =>
      cases n with
      | none =>
          obtain rfl : [] = rest := Option.some.inj h
          refine .single (Or.inl ?_)
          simp [get, hz]
      | some n =>
          rcases Zset.rangeLoop_cases h with ⟨hgt, rfl⟩ | ⟨hle, after, tail, hnext, htail, rfl⟩
          · refine .single (Or.inl ?_)
            simp [get, hz, hgt]
          · refine (Alone.node hz hle hnext result).trans ?_
            have hrest := ih htail (if z.isLive (z.scoreRangeMap.key n)
              then result ++ [z.scoreRangeMap.key n] else result)
            split
            · rename_i hlive
              rw [if_pos hlive, List.append_assoc] at hrest
              exact hrest
            · rename_i hdead
              rw [if_neg hdead] at hrest
              exact hrest

/-- **A request without interruption** answers with what `ZsetManager::Range` returns. -/
theorem alone (request : ZrangeRequest) {found : Bool} {result : List ZaddRequest}
    (h : zsets.range key request.minScore request.maxScore = some (found, result)) :
    Alone zsets (start (some key) request) (.answered (if found then .ok else .notFound) result) := by
  unfold ZsetManager.range at h
  cases hg : zsets.zsetMap.get key with
  | none =>
      rw [hg] at h
      obtain ⟨rfl, rfl⟩ := Prod.mk.inj (Option.some.inj h)
      refine .single (Or.inl ?_)
      simp [start, get, hg]
  | some zset =>
      rw [hg] at h
      obtain ⟨z, hz, h⟩ := Option.bind_eq_some_iff.mp h
      obtain ⟨rest, hrange, h⟩ := Option.bind_eq_some_iff.mp h
      obtain ⟨rfl, rfl⟩ := Prod.mk.inj (Option.some.inj h)
      obtain ⟨n, hseek, hloop⟩ := Option.bind_eq_some_iff.mp hrange
      have hfound : (start (some key) request).get zsets = some (.found key zset request) := by
        simp [start, get, hg]
      have hstanding : (ZrangePc.found key zset request).read zsets
          = some (.standing key zset request.maxScore n []) := by
        simp [read, hz, hseek]
      have hrest : Alone zsets (.standing key zset request.maxScore n []) (.answered .ok rest) :=
        Alone.loop hz hloop []
      exact .head (Or.inl hfound) (.head (Or.inr hstanding) hrest)

end ZrangePc

end ZhiCache
