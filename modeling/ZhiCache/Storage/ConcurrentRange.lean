import ZhiCache.Storage.Zset
import ZhiCache.Lib.Run

/-!
# `Storage.ConcurrentRange` — one `Range` while members are added and deleted

`Add` writes the value map and then the skip list, and `Range` looks every node up in the value map when it
gets there. `RangeSys` interleaves one `Range` with writers that take turns: a step is an operation of the
value map, a whole `Insert`, the `Seek` or a `Next`. The score that a lookup finds is read in the same step.

What `Range` returns need not be what the set contained at any one moment. It is right pair by pair: what it
returns was a member at some moment (`found`), and what stays a member is returned, unless its `Add` had not
yet inserted the node when `Range` began (`ahead`). When at most one pair comes or goes this is enough for the
whole result to be that of one moment (`snapshot_of_one_change`).
-/

namespace ZhiCache

open Lib SkipList

/-- `Zset::Range`. -/
inductive RangePc where
  | idle
  /-- `Seek` is next. -/
  | called
  /-- The iterator stands at `n`, whose score is within the maximum. -/
  | standing (n : NodeId) (result : List ZaddRequest)
  /-- The member of `n` has been looked up. -/
  | looked (n : NodeId) (result : List ZaddRequest)
  | finished (result : List ZaddRequest)
  deriving DecidableEq

inductive RangeEvent where
  /-- `Add` writes the value map. -/
  | addValue (score : Int32) (value : String)
  /-- `Add` inserts its node. -/
  | insert
  | del (value : String)
  | call
  | seek
  | lookup
  | next
  deriving DecidableEq

/-- The events of `Range`; the others are those of the writers. -/
def RangeEvent.ofRange : RangeEvent → Bool
  | call | seek | lookup | next => true
  | addValue _ _ | insert | del _ => false

/-- A sorted set with one `Range` on it; `writer` is the node of an `Add` between its two steps. -/
structure RangeSys where
  zset : Zset
  writer : Option ZsetSkipListNode
  range : RangePc

namespace RangeSys

def idle (hash : String → Nat) : RangeSys := ⟨Zset.new hash, none, .idle⟩

/-- The test of the loop, where `Seek` or `Next` has put the iterator. -/
def arrive (z : Zset) (maxScore : Int32) (result : List ZaddRequest) : Option NodeId → RangePc
  | none => .finished result
  | some n => if (z.scoreRangeMap.key n).score ≤ maxScore then .standing n result else .finished result

/-- What `result` becomes after the lookup at `n`. -/
def collect (z : Zset) (n : NodeId) (result : List ZaddRequest) : List ZaddRequest :=
  if z.isLive (z.scoreRangeMap.key n) then result ++ [z.scoreRangeMap.key n] else result

variable (minScore maxScore : Int32)

/-- The event `e` of a system whose `Range` has the given interval. Nothing happens once it has returned. -/
def step (s : RangeSys) (e : RangeEvent) : Option RangeSys :=
  match s.range with
  | .finished _ => none
  | range =>
    match e, s.writer, range with
    | .addValue score value, none, _ =>
      some { s with zset := { s.zset with valueMap := s.zset.valueMap.add value score },
                    writer := some ⟨score, value⟩ }
    | .insert, some node, _ => do
      let scoreRangeMap ← s.zset.scoreRangeMap.insert node
      return { s with zset := { s.zset with scoreRangeMap := scoreRangeMap }, writer := none }
    | .del value, none, _ => some { s with zset := s.zset.del value }
    | .call, _, .idle => some { s with range := .called }
    | .seek, _, .called => do
      let n ← s.zset.scoreRangeMap.seek ⟨minScore, ""⟩
      return { s with range := arrive s.zset maxScore [] n }
    | .lookup, _, .standing n result => some { s with range := .looked n (collect s.zset n result) }
    | .next, _, .looked n result => do
      let after ← s.zset.scoreRangeMap.iterNext n
      return { s with range := arrive s.zset maxScore result after }
    | _, _, _ => none

/-- What a step of a writer does. -/
inductive Writes (s : RangeSys) : RangeSys → Prop where
  | addValue (score : Int32) (value : String) (hwriter : s.writer = none) :
      Writes s { s with zset := { s.zset with valueMap := s.zset.valueMap.add value score },
                        writer := some ⟨score, value⟩ }
  | insert {node : ZsetSkipListNode} {l : SkipList ZsetSkipListNode} (hwriter : s.writer = some node)
      (hl : s.zset.scoreRangeMap.insert node = some l) :
      Writes s { s with zset := { s.zset with scoreRangeMap := l }, writer := none }
  | del (value : String) (hwriter : s.writer = none) : Writes s { s with zset := s.zset.del value }

/-- What a step of `Range` does. -/
inductive Reads (s : RangeSys) : RangeSys → Prop where
  | call (hrange : s.range = .idle) : Reads s { s with range := .called }
  | seek {n : Option NodeId} (hrange : s.range = .called)
      (hn : s.zset.scoreRangeMap.seek ⟨minScore, ""⟩ = some n) :
      Reads s { s with range := arrive s.zset maxScore [] n }
  | lookup {n : NodeId} {result : List ZaddRequest} (hrange : s.range = .standing n result) :
      Reads s { s with range := .looked n (collect s.zset n result) }
  | next {n : NodeId} {after : Option NodeId} {result : List ZaddRequest} (hrange : s.range = .looked n result)
      (hafter : s.zset.scoreRangeMap.iterNext n = some after) :
      Reads s { s with range := arrive s.zset maxScore result after }

variable {minScore maxScore}

theorem step_cases {s s' : RangeSys} {e : RangeEvent} (h : s.step minScore maxScore e = some s') :
    Writes s s' ∨ Reads minScore maxScore s s' := by
  unfold step at h
  split at h
  · exact absurd h (by simp)
  · split at h
    · rename_i hw
      obtain rfl := Option.some.inj h
      exact Or.inl (.addValue _ _ hw)
    · rename_i hw
      obtain ⟨l, hl, hs⟩ := Option.bind_eq_some_iff.mp h
      obtain rfl := Option.some.inj hs
      exact Or.inl (.insert hw hl)
    · rename_i hw
      obtain rfl := Option.some.inj h
      exact Or.inl (.del _ hw)
    · rename_i hr
      obtain rfl := Option.some.inj h
      exact Or.inr (.call hr)
    · rename_i hr
      obtain ⟨n, hn, hs⟩ := Option.bind_eq_some_iff.mp h
      obtain rfl := Option.some.inj hs
      exact Or.inr (.seek hr hn)
    · rename_i hr
      obtain rfl := Option.some.inj h
      exact Or.inr (.lookup hr)
    · rename_i hr
      obtain ⟨after, ha, hs⟩ := Option.bind_eq_some_iff.mp h
      obtain rfl := Option.some.inj hs
      exact Or.inr (.next hr ha)
    · exact absurd h (by simp)

/-! ## Without interruption -/

/-- The two steps of `Add` are `Add`. -/
theorem add_steps {s : RangeSys} {score : Int32} {value : String} {z : Zset} (hwriter : s.writer = none)
    (hrange : ∀ result, s.range ≠ .finished result) (h : s.zset.add score value = some z) :
    Run (step minScore maxScore) always s [.addValue score value, .insert] { s with zset := z } := by
  obtain ⟨l, hl, hz⟩ := Option.bind_eq_some_iff.mp h
  obtain rfl := Option.some.inj hz
  let s₁ : RangeSys := { s with zset := { s.zset with valueMap := s.zset.valueMap.add value score },
                                writer := some ⟨score, value⟩ }
  have hsteps : s.step minScore maxScore (.addValue score value) = some s₁ ∧
      s₁.step minScore maxScore .insert = some { s with zset := ⟨s.zset.valueMap.add value score, l⟩ } := by
    cases hr : s.range with
    | finished result => exact absurd hr (hrange result)
    | idle | called | standing n result | looked n result =>
        simp only [step, s₁, hr, hwriter, hl]
        exact ⟨trivial, rfl⟩
  exact .cons trivial hsteps.1 (.cons trivial hsteps.2 .nil)

/-- The loop of `Range` from where the iterator has arrived. -/
theorem loop_steps {maxScore : Int32} {fuel : Nat} {n : Option NodeId} {rest : List ZaddRequest} {s : RangeSys}
    (h : s.zset.rangeLoop maxScore fuel n = some rest) (result : List ZaddRequest)
    (hrange : s.range = arrive s.zset maxScore result n) :
    ∃ es, Run (step minScore maxScore) always s es { s with range := .finished (result ++ rest) } := by
  induction fuel generalizing n rest result s with
  | zero => exact absurd h (by simp [Zset.rangeLoop])
  | succ fuel ih =>
      cases n with
      | none =>
          obtain rfl : [] = rest := Option.some.inj h
          refine ⟨[], ?_⟩
          rw [List.append_nil, ← (show s.range = .finished result from hrange)]
          exact .nil
      | some n =>
          rcases Zset.rangeLoop_cases h with ⟨hgt, rfl⟩ | ⟨hle, after, tail, hnext, htail, rfl⟩
          · rw [arrive, if_neg hgt] at hrange
            refine ⟨[], ?_⟩
            rw [List.append_nil, ← hrange]
            exact .nil
          · rw [arrive, if_pos hle] at hrange
            have hlookup : s.step minScore maxScore .lookup
                = some { s with range := .looked n (collect s.zset n result) } := by simp [step, hrange]
            have hstep : step minScore maxScore { s with range := .looked n (collect s.zset n result) } .next
                = some { s with range := arrive s.zset maxScore (collect s.zset n result) after } := by
              simp [step, hnext]
            obtain ⟨es, hes⟩ :=
              ih (s := { s with range := arrive s.zset maxScore (collect s.zset n result) after })
                htail (collect s.zset n result) rfl
            have hrest : collect s.zset n result ++ tail = result
                ++ (if s.zset.isLive (s.zset.scoreRangeMap.key n) then s.zset.scoreRangeMap.key n :: tail
                  else tail) := by
              unfold collect
              split <;> simp
            rw [hrest] at hes
            exact ⟨.lookup :: .next :: es, .cons trivial hlookup (.cons trivial hstep hes)⟩

/-- The steps of `Range`, with no others between them, are `Range`. -/
theorem range_steps {s : RangeSys} {result : List ZaddRequest} (hrange : s.range = .idle)
    (h : s.zset.range minScore maxScore = some result) :
    ∃ es, Run (step minScore maxScore) always s (.call :: es) { s with range := .finished result } := by
  obtain ⟨n, hn, hloop⟩ := Option.bind_eq_some_iff.mp h
  obtain ⟨es, hes⟩ := loop_steps (s := { s with range := arrive s.zset maxScore [] n }) hloop [] rfl
  have hcall : s.step minScore maxScore .call = some { s with range := .called } := by simp [step, hrange]
  have hseek : step minScore maxScore { s with range := .called } .seek
      = some { s with range := arrive s.zset maxScore [] n } := by simp [step, hn]
  exact ⟨.seek :: es, .cons trivial hcall (.cons trivial hseek hes)⟩

end RangeSys

/-! ## The list while `Range` walks over it -/

/-- The list of level 0 before and after some inserts. -/
structure Grown (l l' : SkipList ZsetSkipListNode) (N N' : List NodeId) : Prop where
  sublist : N.Sublist N'
  key : ∀ n ∈ N, l'.key n = l.key n

namespace RangePc

def result : RangePc → List ZaddRequest
  | standing _ result | looked _ result | finished result => result
  | idle | called => []

/-- The iterator is at a node of level 0 with a score in the interval. -/
def Placed (l : SkipList ZsetSkipListNode) (N : List NodeId) (minScore maxScore : Int32) : RangePc → Prop
  | standing n _ | looked n _ => n ∈ N.tail ∧ minScore ≤ (l.key n).score ∧ (l.key n).score ≤ maxScore
  | idle | called | finished _ => True

/-- The iterator has yet to look at the node `a`. -/
def Before (N : List NodeId) (a : NodeId) : RangePc → Prop
  | idle | called => True
  | standing n _ => a = n ∨ Precedes N n a
  | looked n _ => Precedes N n a
  | finished _ => False

variable {l l' : SkipList ZsetSkipListNode} {N N' : List NodeId} {minScore maxScore : Int32} {pc : RangePc}

theorem Placed.grow (h : pc.Placed l N minScore maxScore) (hg : Grown l l' N N') :
    pc.Placed l' N' minScore maxScore := by
  have hnode : ∀ n ∈ N.tail, n ∈ N'.tail ∧ l'.key n = l.key n := fun n hn =>
    ⟨hg.sublist.tail.subset hn, hg.key n (List.mem_of_mem_tail hn)⟩
  cases pc with
  | standing n result | looked n result =>
      obtain ⟨hmem, hkey⟩ := hnode n h.1
      refine ⟨hmem, ?_⟩
      rw [hkey]
      exact h.2
  | idle | called | finished result => trivial

theorem Before.grow {a : NodeId} (h : pc.Before N a) (hs : N.Sublist N') : pc.Before N' a := by
  cases pc with
  | idle | called => trivial
  | standing n result => exact h.imp_right (fun hp => hp.mono hs)
  | looked n result => exact Precedes.mono h hs
  | finished result => exact h

end RangePc

/-- Of two nodes of level 0, the earlier one may stand before the later one. -/
theorem SkipList.Levels.inOrder {l : SkipList ZsetSkipListNode} {T : Nat → List NodeId} (h : Levels l T)
    {a b : NodeId} (ha : a ∈ (T 0).tail) (hab : Precedes (T 0) a b) : l.InOrder a b := by
  obtain ⟨N, hN⟩ := List.head?_eq_some_iff.mp h.threaded.first
  have hnodup := h.threaded.nodup 0
  have hsorted := h.sorted
  rw [hN] at ha hab hnodup hsorted
  rcases precedes_cons.mp hab with hab | ⟨rfl, _⟩
  · simpa using hsorted.sublist hab
  · exact absurd ha (List.nodup_cons.mp hnodup).1

namespace RangeSys

variable (minScore maxScore : Int32)

/-- What holds at every moment: a member has its node in the list, or its `Add` is still to insert it. -/
structure Sound (s : RangeSys) (T : Nat → List NodeId) : Prop where
  levels : Levels s.zset.scoreRangeMap T
  listed : ∀ p : ZsetSkipListNode, s.zset.valueMap.view p.value = some p.score →
    s.writer = some p ∨ p ∈ (T 0).tail.map s.zset.scoreRangeMap.key
  placed : s.range.Placed s.zset.scoreRangeMap (T 0) minScore maxScore

variable {minScore maxScore} {s s' : RangeSys} {T : Nat → List NodeId}

theorem Sound.idle (hash : String → Nat) : Sound minScore maxScore (idle hash) emptyLevels where
  levels := new_levels
  listed := by
    intro p hp
    exact absurd ((HashKv.view_init hash 87719).symm.trans hp) (by simp)
  placed := trivial

/-- The list grows, and the iterator stays where it is. -/
theorem Sound.writes (h : Sound minScore maxScore s T) (hs : Writes s s') :
    ∃ T', Sound minScore maxScore s' T' ∧
      Grown s.zset.scoreRangeMap s'.zset.scoreRangeMap (T 0) (T' 0) ∧ s'.range = s.range := by
  cases hs with
  | addValue score value hwriter =>
      refine ⟨T, ⟨h.levels, ?_, h.placed⟩, ⟨List.Sublist.refl _, fun _ _ => rfl⟩, rfl⟩
      intro p hp
      have hview : Function.update s.zset.valueMap.view value (some score) p.value = some p.score := by
        rw [← HashKv.view_add]
        exact hp
      by_cases hv : p.value = value
      · rw [hv, Function.update_self] at hview
        refine Or.inl ?_
        rw [← hv, Option.some.inj hview]
      · rw [Function.update_of_ne hv] at hview
        refine Or.inr ((h.listed p hview).resolve_left ?_)
        rw [hwriter]
        simp
  | @insert node l hwriter hl =>
      obtain ⟨l', T', hl', hlev, hkeys, hsub, hkey⟩ := h.levels.insert node
      obtain rfl : l' = l := Option.some.inj (hl'.symm.trans hl)
      have hg : Grown s.zset.scoreRangeMap l' (T 0) (T' 0) := ⟨hsub, hkey⟩
      refine ⟨T', ⟨hlev, ?_, h.placed.grow hg⟩, hg, rfl⟩
      intro p hp
      refine Or.inr ?_
      show p ∈ (T' 0).tail.map l'.key
      rw [hkeys, List.mem_orderedInsert]
      rcases h.listed p hp with hw | hin
      · exact Or.inl (Option.some.inj (hw.symm.trans hwriter))
      · exact Or.inr hin
  | del value hwriter =>
      refine ⟨T, ⟨h.levels, ?_, h.placed⟩, ⟨List.Sublist.refl _, fun _ _ => rfl⟩, rfl⟩
      intro p hp
      have hview : Function.update s.zset.valueMap.view value none p.value = some p.score := by
        rw [← HashKv.view_del]
        exact hp
      by_cases hv : p.value = value
      · rw [hv, Function.update_self] at hview
        exact absurd hview (by simp)
      · rw [Function.update_of_ne hv] at hview
        exact h.listed p hview

/-- Where `Seek` and `Next` put the iterator, if it is still within the maximum. -/
theorem placed_arrive {z : Zset} {N : List NodeId} {result : List ZaddRequest} {n : Option NodeId}
    (h : ∀ m, n = some m → m ∈ N.tail ∧ minScore ≤ (z.scoreRangeMap.key m).score) :
    (arrive z maxScore result n).Placed z.scoreRangeMap N minScore maxScore := by
  cases n with
  | none => trivial
  | some m =>
      obtain ⟨hmem, hge⟩ := h m rfl
      by_cases hle : (z.scoreRangeMap.key m).score ≤ maxScore
      · simp only [arrive, if_pos hle]
        exact ⟨hmem, hge, hle⟩
      · simp only [arrive, if_neg hle]
        trivial

/-- The list stays, and the iterator moves on. -/
theorem Sound.reads (h : Sound minScore maxScore s T) (hs : Reads minScore maxScore s s') :
    Sound minScore maxScore s' T := by
  have hplaced := h.placed
  cases hs with
  | call hrange => exact ⟨h.levels, h.listed, trivial⟩
  | @seek n hrange hn =>
      refine ⟨h.levels, h.listed, placed_arrive ?_⟩
      obtain ⟨A, B, hT, hseek, _, hB⟩ := h.levels.threaded.seek_spec ⟨minScore, ""⟩
      rintro m rfl
      have hm : m ∈ B := List.mem_of_head? (Option.some.inj (hseek.symm.trans hn))
      refine ⟨?_, ?_⟩
      · rw [hT]
        exact List.mem_append_right A hm
      · exact Int32.not_lt.mp (fun hlt => hB m hm ((compare_lt_zero _ _).mpr hlt))
  | @lookup n result hrange =>
      rw [hrange] at hplaced
      exact ⟨h.levels, h.listed, hplaced⟩
  | @next n after result hrange hafter =>
      rw [hrange] at hplaced
      refine ⟨h.levels, h.listed, placed_arrive ?_⟩
      rintro m rfl
      have hlater : Precedes (T 0) n m :=
        h.levels.threaded.fwd 0 n (List.mem_of_mem_tail hplaced.1) m hafter
      have hle := inOrder_iff.mp (h.levels.inOrder hplaced.1 hlater)
      exact ⟨hlater.mem_tail, Int32.le_trans hplaced.2.1 hle⟩

/-- Every moment of a run is sound. -/
theorem sound_of_run {s₁ : RangeSys} {es : List RangeEvent} (h₁ : ∃ T, Sound minScore maxScore s₁ T)
    (h : Run (step minScore maxScore) always s₁ es s) : ∃ T, Sound minScore maxScore s T := by
  refine Run.invariant (I := fun s => ∃ T, Sound minScore maxScore s T) h₁ ?_ h
  rintro s e s' ⟨T, hT⟩ _ hs
  rcases step_cases hs with hw | hr
  · obtain ⟨T', hT', _⟩ := hT.writes hw
    exact ⟨T', hT'⟩
  · exact ⟨T, hT.reads hr⟩

/-- **`Range` is never stuck**: at every moment of a run it has returned or has a next step, whatever the
    writers have done. -/
theorem range_goes_on {hash : String → Nat} {es : List RangeEvent}
    (h : Run (step minScore maxScore) always (RangeSys.idle hash) es s) :
    (∃ result, s.range = .finished result) ∨
      ∃ e s', e.ofRange = true ∧ s.step minScore maxScore e = some s' := by
  obtain ⟨T, hT⟩ := sound_of_run ⟨emptyLevels, Sound.idle hash⟩ h
  have hplaced := hT.placed
  cases hrange : s.range with
  | idle => exact Or.inr ⟨.call, _, rfl, by simp only [step, hrange]; rfl⟩
  | called =>
      obtain ⟨A, B, _, hseek, _, _⟩ := hT.levels.threaded.seek_spec ⟨minScore, ""⟩
      exact Or.inr ⟨.seek, _, rfl, by simp only [step, hrange, hseek]; rfl⟩
  | standing n result => exact Or.inr ⟨.lookup, _, rfl, by simp only [step, hrange]; rfl⟩
  | looked n result =>
      rw [hrange] at hplaced
      obtain ⟨after, hafter⟩ := Option.ne_none_iff_exists'.mp
        (hT.levels.threaded.init 0 n (List.mem_of_mem_tail hplaced.1))
      have hnext : s.zset.scoreRangeMap.iterNext n = some after := hafter
      exact Or.inr ⟨.next, _, rfl, by simp only [step, hrange, hnext]; rfl⟩
  | finished result => exact Or.inl ⟨result, rfl⟩

end RangeSys

/-! ## What is returned was a member, what stays a member is returned -/

/-- The members with a score in the interval, by the value map. -/
def Zset.members (z : Zset) (minScore maxScore : Int32) : Set ZaddRequest :=
  { p | minScore ≤ p.score ∧ p.score ≤ maxScore ∧ z.valueMap.view p.value = some p.score }

namespace RangeSys

variable {minScore maxScore : Int32} {s s' s₁ : RangeSys} {T : Nat → List NodeId} {es : List RangeEvent}

theorem result_arrive (z : Zset) (result : List ZaddRequest) (n : Option NodeId) :
    (arrive z maxScore result n).result = result := by
  cases n with
  | none => rfl
  | some m =>
      unfold arrive
      simp only
      split <;> rfl

/-- A step adds to the result only what is a member at that moment. -/
theorem Sound.new_result (h : Sound minScore maxScore s T) {e : RangeEvent}
    (hs : s.step minScore maxScore e = some s') {p : ZaddRequest} (hp : p ∈ s'.range.result) :
    p ∈ s.range.result ∨ p ∈ s.zset.members minScore maxScore := by
  rcases step_cases hs with hw | hr
  · obtain ⟨_, _, _, hrange⟩ := h.writes hw
    rw [hrange] at hp
    exact Or.inl hp
  · have hplaced := h.placed
    cases hr with
    | call hrange => exact absurd hp List.not_mem_nil
    | seek hrange hn =>
        rw [result_arrive] at hp
        exact absurd hp List.not_mem_nil
    | @lookup n result hrange =>
        rw [hrange] at hplaced ⊢
        by_cases hlive : s.zset.isLive (s.zset.scoreRangeMap.key n) = true
        · have hp' : p ∈ result ++ [s.zset.scoreRangeMap.key n] := by
            simpa [RangePc.result, collect, hlive] using hp
          rcases List.mem_append.mp hp' with hp' | hp'
          · exact Or.inl hp'
          · obtain rfl := List.mem_singleton.mp hp'
            exact Or.inr ⟨hplaced.2.1, hplaced.2.2, Zset.isLive_iff.mp hlive⟩
        · refine Or.inl ?_
          simpa [RangePc.result, collect, hlive] using hp
    | next hrange hafter =>
        rw [result_arrive] at hp
        rw [hrange]
        exact Or.inl hp

/-- Every pair of the result was a member when it was looked up. -/
theorem found (h : Run (step minScore maxScore) always s₁ es s) (h₁ : ∃ T, Sound minScore maxScore s₁ T)
    (hnew : s₁.range.result = []) : ∀ p ∈ s.range.result,
      ∃ s', Passes (step minScore maxScore) always s₁ es s' ∧ p ∈ s'.zset.members minScore maxScore := by
  induction h with
  | nil =>
      intro p hp
      rw [hnew] at hp
      exact absurd hp List.not_mem_nil
  | snoc hrun _ hs ih =>
      intro p hp
      obtain ⟨T, hT⟩ := sound_of_run h₁ hrun
      rcases hT.new_result hs hp with hp | hp
      · obtain ⟨s', hpass, hmem⟩ := ih p hp
        exact ⟨s', hpass.mono _, hmem⟩
      · exact ⟨_, hrun.passes.mono _, hp⟩

/-- The pair has been returned, or one of its nodes is yet to be looked at. -/
def Ahead (p : ZaddRequest) (s : RangeSys) (T : Nat → List NodeId) : Prop :=
  p ∈ s.range.result ∨
    ∃ a ∈ (T 0).tail, s.zset.scoreRangeMap.key a = p ∧ s.range.Before (T 0) a

theorem Ahead.writes {p : ZaddRequest} {T' : Nat → List NodeId} (h : Ahead p s T)
    (hg : Grown s.zset.scoreRangeMap s'.zset.scoreRangeMap (T 0) (T' 0)) (hrange : s'.range = s.range) :
    Ahead p s' T' := by
  unfold Ahead
  rw [hrange]
  refine h.imp_right ?_
  rintro ⟨a, ha, hkey, hbefore⟩
  exact ⟨a, hg.sublist.tail.subset ha, (hg.key a (List.mem_of_mem_tail ha)).trans hkey, hbefore.grow hg.sublist⟩

/-- `Seek` or `Next` has put the iterator at or before the node `a`, whose score is within the maximum. -/
theorem before_arrive (h : Sound minScore maxScore s T) {result : List ZaddRequest} {m a : NodeId}
    (hm : m ∈ (T 0).tail) (ha : a = m ∨ Precedes (T 0) m a)
    (hle : (s.zset.scoreRangeMap.key a).score ≤ maxScore) :
    (arrive s.zset maxScore result (some m)).Before (T 0) a := by
  have hle' : (s.zset.scoreRangeMap.key m).score ≤ maxScore := by
    rcases ha with rfl | ha
    · exact hle
    · exact Int32.le_trans (inOrder_iff.mp (h.levels.inOrder hm ha)) hle
  simp only [arrive, if_pos hle']
  exact ha

/-- `Seek` stays before every node with a score in the interval. -/
theorem before_seek (h : Sound minScore maxScore s T) {n : Option NodeId} {a : NodeId}
    (hn : s.zset.scoreRangeMap.seek ⟨minScore, ""⟩ = some n) (ha : a ∈ (T 0).tail)
    (hmin : minScore ≤ (s.zset.scoreRangeMap.key a).score)
    (hmax : (s.zset.scoreRangeMap.key a).score ≤ maxScore) :
    (arrive s.zset maxScore [] n).Before (T 0) a := by
  obtain ⟨A, B, hT, hseek, hA, _⟩ := h.levels.threaded.seek_spec ⟨minScore, ""⟩
  obtain rfl : B.head? = n := Option.some.inj (hseek.symm.trans hn)
  have hB : a ∈ B := by
    rw [hT, List.tail_cons] at ha
    refine (List.mem_append.mp ha).resolve_left (fun haA => ?_)
    have hlt : (s.zset.scoreRangeMap.key a).score < minScore :=
      (compare_lt_zero (s.zset.scoreRangeMap.key a) ⟨minScore, ""⟩).mp (hA a haA)
    exact Int32.not_le.mpr hlt hmin
  cases B with
  | nil => exact absurd hB List.not_mem_nil
  | cons m B =>
      have hm : a = m ∨ Precedes (T 0) m a := by
        refine (List.mem_cons.mp hB).imp_right (fun haB => ?_)
        have hnodup := h.levels.threaded.nodup 0
        rw [hT, ← List.cons_append] at hnodup ⊢
        exact (precedes_split hnodup).mpr haB
      have hmem : m ∈ (T 0).tail := by
        rw [hT]
        exact List.mem_append_right A List.mem_cons_self
      exact before_arrive h hmem hm hmax

/-- `Next` goes past no node but the one it leaves. -/
theorem before_next (h : Sound minScore maxScore s T) {n a : NodeId} {after : Option NodeId}
    {result : List ZaddRequest} (hafter : s.zset.scoreRangeMap.iterNext n = some after)
    (hlater : Precedes (T 0) n a) (hmax : (s.zset.scoreRangeMap.key a).score ≤ maxScore) :
    (arrive s.zset maxScore result after).Before (T 0) a := by
  obtain ⟨m, hnext, hm⟩ := h.levels.threaded.linked.next_towards hlater
  obtain rfl : some m = after := Option.some.inj (hnext.symm.trans hafter)
  have hmem : m ∈ (T 0).tail := (h.levels.threaded.fwd 0 n hlater.mem_left m hnext).mem_tail
  exact before_arrive h hmem hm hmax

/-- `Range` does not pass by a node of a pair that is a member. -/
theorem Ahead.reads {p : ZaddRequest} (h : Ahead p s T) (hsound : Sound minScore maxScore s T)
    (hp : p ∈ s.zset.members minScore maxScore) (hs : Reads minScore maxScore s s') : Ahead p s' T := by
  obtain ⟨hmin, hmax, hview⟩ := hp
  unfold Ahead at h ⊢
  cases hs with
  | call hrange =>
      rw [hrange] at h
      rcases h with h | ⟨a, ha, hkey, _⟩
      · exact absurd h List.not_mem_nil
      · exact Or.inr ⟨a, ha, hkey, trivial⟩
  | @seek n hrange hn =>
      rw [hrange] at h
      rcases h with h | ⟨a, ha, hkey, _⟩
      · exact absurd h List.not_mem_nil
      · exact Or.inr ⟨a, ha, hkey, before_seek hsound hn ha (hkey ▸ hmin) (hkey ▸ hmax)⟩
  | @lookup n result hrange =>
      rw [hrange] at h
      rcases h with h | ⟨a, ha, hkey, rfl | hlater⟩
      · refine Or.inl ?_
        show p ∈ collect s.zset n result
        unfold collect
        split
        · exact List.mem_append_left _ h
        · exact h
      · -- the node is the one looked at, and it is live
        have hlive : s.zset.isLive p = true := Zset.isLive_iff.mpr hview
        refine Or.inl ?_
        show p ∈ collect s.zset a result
        simp [collect, hkey, hlive]
      · exact Or.inr ⟨a, ha, hkey, hlater⟩
  | @next n after result hrange hafter =>
      rw [hrange] at h
      rcases h with h | ⟨a, ha, hkey, hlater⟩
      · refine Or.inl ?_
        rw [result_arrive]
        exact h
      · exact Or.inr ⟨a, ha, hkey, before_next hsound hafter hlater (hkey ▸ hmax)⟩

/-- A pair that is a member at every moment of `Range`, and whose node is in the list when it begins, is
    returned. -/
theorem ahead {p : ZaddRequest} (h : Run (step minScore maxScore) always s₁ es s)
    (h₁ : ∃ T, Sound minScore maxScore s₁ T ∧ Ahead p s₁ T)
    (hp : ∀ s', Passes (step minScore maxScore) always s₁ es s' → p ∈ s'.zset.members minScore maxScore) :
    ∃ T, Sound minScore maxScore s T ∧ Ahead p s T := by
  refine Run.along (Q := fun s => p ∈ s.zset.members minScore maxScore)
    (I := fun s => ∃ T, Sound minScore maxScore s T ∧ Ahead p s T) h₁ ?_ h hp
  rintro s e s' ⟨T, hsound, hahead⟩ hmem _ hs
  rcases step_cases hs with hw | hr
  · obtain ⟨T', hsound', hg, hrange⟩ := hsound.writes hw
    exact ⟨T', hsound', hahead.writes hg hrange⟩
  · exact ⟨T, hsound.reads hr, hahead.reads hsound hmem hr⟩

theorem idle_of_call (h : Run (step minScore maxScore) always s₁ (.call :: es) s) : s₁.range = .idle := by
  obtain ⟨s', _, hs, _⟩ := h.uncons
  cases hrange : s₁.range with
  | idle => rfl
  | called => exact absurd hs (by simp [step, hrange])
  | standing n result => exact absurd hs (by simp [step, hrange])
  | looked n result => exact absurd hs (by simp [step, hrange])
  | finished result => exact absurd hs (by simp [step, hrange])

variable (minScore maxScore s₁ es) in
/-- The moments of a `Range` that is called in `s₁`, with the events `es` up to its return. -/
def Moment (s : RangeSys) : Prop := Passes (step minScore maxScore) always s₁ (.call :: es) s

variable (minScore maxScore s₁ es) in
/-- The result is what the set contained at one of the moments. -/
def Snapshot (result : List ZaddRequest) : Prop :=
  ∃ s, Moment minScore maxScore s₁ es s ∧ ∀ p, p ∈ result ↔ p ∈ s.zset.members minScore maxScore

/-- If every returned pair was a member at some moment, and every pair that stayed one is returned, then at
    most one pair that comes or goes makes the result that of one moment. -/
theorem snapshot_of_one_change {result : List ZaddRequest}
    (hfound : ∀ p ∈ result, ∃ s, Moment minScore maxScore s₁ es s ∧ p ∈ s.zset.members minScore maxScore)
    (hkept : ∀ p, (∀ s, Moment minScore maxScore s₁ es s → p ∈ s.zset.members minScore maxScore) → p ∈ result)
    {x : ZaddRequest} (hothers : ∀ s s', Moment minScore maxScore s₁ es s → Moment minScore maxScore s₁ es s' →
      ∀ p ∈ s.zset.members minScore maxScore, p ≠ x → p ∈ s'.zset.members minScore maxScore) :
    Snapshot minScore maxScore s₁ es result := by
  -- a moment at which `x` is a member exactly if it is returned
  have hx : ∃ s, Moment minScore maxScore s₁ es s ∧ (x ∈ result ↔ x ∈ s.zset.members minScore maxScore) := by
    by_cases hxr : x ∈ result
    · obtain ⟨s, hs, hmem⟩ := hfound x hxr
      exact ⟨s, hs, iff_of_true hxr hmem⟩
    · by_contra hno
      refine hxr (hkept x (fun s hs => ?_))
      by_contra hmem
      exact hno ⟨s, hs, iff_of_false hxr hmem⟩
  obtain ⟨s, hs, hxs⟩ := hx
  refine ⟨s, hs, fun p => ?_⟩
  by_cases hpx : p = x
  · rw [hpx]
    exact hxs
  · -- all others are the same at every moment
    constructor
    · intro hp
      obtain ⟨s', hs', hmem⟩ := hfound p hp
      exact hothers s' s hs' hs p hmem hpx
    · intro hp
      exact hkept p (fun s' hs' => hothers s s' hs hs' p hp hpx)

/-- **What one `Range` returns while members are added and deleted**, in every interleaving.

    * Every pair that it returns was a member with a score in the interval at one of its moments.
    * Every pair that was such a member at all of them is returned, unless its `Add` had written the value map
      but not yet the list when `Range` was called.
    * If no `Add` of a score in the interval was between its two steps then, and at most one pair enters or
      leaves the interval, the result is exactly what the set contained at one of the moments. -/
theorem range_among_writers {hash : String → Nat} {es₀ : List RangeEvent} {result : List ZaddRequest}
    (h₀ : Run (step minScore maxScore) always (idle hash) es₀ s₁)
    (h : Run (step minScore maxScore) always s₁ (.call :: es) s) (hres : s.range = .finished result) :
    (∀ p ∈ result, ∃ s, Moment minScore maxScore s₁ es s ∧ p ∈ s.zset.members minScore maxScore) ∧
    (∀ p, s₁.writer ≠ some p →
      (∀ s, Moment minScore maxScore s₁ es s → p ∈ s.zset.members minScore maxScore) → p ∈ result) ∧
    ((∀ p, s₁.writer = some p → ¬ (minScore ≤ p.score ∧ p.score ≤ maxScore)) →
      (∃ x, ∀ s s', Moment minScore maxScore s₁ es s → Moment minScore maxScore s₁ es s' →
        ∀ p ∈ s.zset.members minScore maxScore, p ≠ x → p ∈ s'.zset.members minScore maxScore) →
      Snapshot minScore maxScore s₁ es result) := by
  have hidle := idle_of_call h
  have hsound₁ : ∃ T, Sound minScore maxScore s₁ T := sound_of_run ⟨emptyLevels, Sound.idle hash⟩ h₀
  have hstart : Moment minScore maxScore s₁ es s₁ := ⟨[], List.nil_prefix, .nil⟩
  have hfound : ∀ p ∈ result, ∃ s, Moment minScore maxScore s₁ es s ∧ p ∈ s.zset.members minScore maxScore := by
    have hall := found h hsound₁ (by rw [hidle]; rfl)
    rw [hres] at hall
    exact hall
  have hkept : ∀ p, s₁.writer ≠ some p →
      (∀ s, Moment minScore maxScore s₁ es s → p ∈ s.zset.members minScore maxScore) → p ∈ result := by
    intro p hwriter hmem
    obtain ⟨T, hT⟩ := hsound₁
    obtain ⟨_, _, hview⟩ := hmem s₁ hstart
    obtain ⟨a, ha, hkey⟩ := List.mem_map.mp ((hT.listed p hview).resolve_left hwriter)
    have hahead : Ahead p s₁ T := Or.inr ⟨a, ha, hkey, by rw [hidle]; trivial⟩
    obtain ⟨T', _, hend⟩ := ahead h ⟨T, hT, hahead⟩ hmem
    unfold Ahead at hend
    rw [hres] at hend
    exact hend.resolve_right (fun ⟨_, _, _, hno⟩ => hno)
  refine ⟨hfound, hkept, ?_⟩
  rintro hwriter ⟨x, hothers⟩
  refine snapshot_of_one_change hfound (fun p hp => hkept p ?_ hp) hothers
  intro hw
  obtain ⟨hmin, hmax, _⟩ := hp s₁ hstart
  exact hwriter p hw ⟨hmin, hmax⟩

/-- `Add` is over once its node has been inserted. -/
theorem writer_of_insert {hash : String → Nat} (es₀ : List RangeEvent)
    (h : Run (step minScore maxScore) always (idle hash) (es₀ ++ [.insert]) s) : s.writer = none := by
  obtain ⟨s', -, -, hs⟩ := h.last
  unfold step at hs
  split at hs
  · cases hs
  · split at hs <;> try contradiction
    obtain ⟨l, -, hs⟩ := Option.bind_eq_some_iff.mp hs
    rw [← Option.some.inj hs]

/-- A run of concrete events, with what its `Range` has returned and what holds at each of its moments. -/
theorem exec_moments (hash : String → Nat) (minScore maxScore : Int32) (es₀ es : List RangeEvent)
    (result : List ZaddRequest) (P : RangeSys → Bool)
    (hreturns : ((es₀ ++ .call :: es).foldlM (step minScore maxScore) (idle hash)).map range
      = some (.finished result))
    (hP : ∀ es' ∈ (RangeEvent.call :: es).inits,
      ((es₀ ++ es').foldlM (step minScore maxScore) (idle hash)).all P = true) :
    ∃ s₁ s, Run (step minScore maxScore) always (idle hash) es₀ s₁ ∧
      Run (step minScore maxScore) always s₁ (.call :: es) s ∧ s.range = .finished result ∧
      ∀ s, Moment minScore maxScore s₁ es s → P s = true := by
  obtain ⟨s, hs, hrange⟩ := Option.map_eq_some_iff.mp hreturns
  have hrun : Run (step minScore maxScore) always (idle hash) (es₀ ++ .call :: es) s :=
    run_of_forall (fun _ _ _ => trivial) hs
  obtain ⟨s₁, hrun₀, hrun₁⟩ := hrun.split
  refine ⟨s₁, s, hrun₀, hrun₁, hrange, ?_⟩
  rintro s' ⟨es', hpre, hrun'⟩
  have hall := hP es' ((List.mem_inits es' _).mpr hpre)
  rw [(hrun₀.trans hrun').foldlM_eq] at hall
  exact hall

/-- The value map gets a pair from an `Add` only. -/
theorem view_step {e : RangeEvent} {s s' : RangeSys} (h : s.step minScore maxScore e = some s') {value : String}
    {score : Int32} (hview : s'.zset.valueMap.view value = some score) :
    e = .addValue score value ∨ s.zset.valueMap.view value = some score := by
  unfold step at h
  split at h
  · cases h
  · split at h
    · rename_i score' value' _
      obtain rfl := Option.some.inj h
      rw [HashKv.view_add] at hview
      by_cases hv : value = value'
      · subst hv
        rw [Function.update_self] at hview
        exact Or.inl (by rw [Option.some.inj hview])
      · rw [Function.update_of_ne hv] at hview
        exact Or.inr hview
    · obtain ⟨l, -, hs⟩ := Option.bind_eq_some_iff.mp h
      obtain rfl := Option.some.inj hs
      exact Or.inr hview
    · rename_i value' _
      obtain rfl := Option.some.inj h
      rw [Zset.del, HashKv.view_del] at hview
      by_cases hv : value = value'
      · subst hv
        rw [Function.update_self] at hview
        cases hview
      · rw [Function.update_of_ne hv] at hview
        exact Or.inr hview
    · obtain rfl := Option.some.inj h
      exact Or.inr hview
    · obtain ⟨n, -, hs⟩ := Option.bind_eq_some_iff.mp h
      obtain rfl := Option.some.inj hs
      exact Or.inr hview
    · obtain rfl := Option.some.inj h
      exact Or.inr hview
    · obtain ⟨after, -, hs⟩ := Option.bind_eq_some_iff.mp h
      obtain rfl := Option.some.inj hs
      exact Or.inr hview
    · cases h

/-- What is a member at a moment has been added during the run. -/
theorem added_of_moment {hash : String → Nat} {es₀ : List RangeEvent}
    (h₀ : Run (step minScore maxScore) always (idle hash) es₀ s₁) (hs : Moment minScore maxScore s₁ es s)
    {p : ZaddRequest} (hp : p ∈ s.zset.members minScore maxScore) :
    .addValue p.score p.value ∈ es₀ ++ .call :: es := by
  obtain ⟨es', hpre, hrun⟩ := hs
  have hall : ∀ value score, s.zset.valueMap.view value = some score → .addValue score value ∈ es₀ ++ es' := by
    refine Run.history (I := fun es s => ∀ value score, s.zset.valueMap.view value = some score →
      .addValue score value ∈ es) ?_ ?_ (h₀.trans hrun)
    · intro value score hview
      rw [show (idle hash).zset.valueMap.view value = none from HashKv.view_init hash 87719] at hview
      cases hview
    · intro es s e s' ih _ hs value score hview
      rcases view_step hs hview with rfl | hview
      · simp
      · exact List.mem_append_left _ (ih value score hview)
  exact (List.prefix_append_right_inj es₀).mpr hpre |>.subset (hall _ _ hp.2.2)

/-- A member is added while `Range` stands at the first one. The new one is returned because it was a member
    at some moment, the old one because it was a member at all of them, and both together were the members at
    one. -/
theorem range_among_writers_one_added :
    ∃ s₁ s, Run (step 0 10) always (idle (fun _ => 0)) [.addValue 2 "z", .insert] s₁ ∧
      Run (step 0 10) always s₁ [.call, .seek, .lookup, .addValue 5 "b", .insert, .next, .lookup, .next] s ∧
      ∃ result, s.range = .finished result ∧
      (⟨5, "b"⟩ ∈ result ∧
        ∃ s', Moment 0 10 s₁ [.seek, .lookup, .addValue 5 "b", .insert, .next, .lookup, .next] s' ∧
          ⟨5, "b"⟩ ∈ s'.zset.members 0 10) ∧
      ⟨2, "z"⟩ ∈ result ∧
      Snapshot 0 10 s₁ [.seek, .lookup, .addValue 5 "b", .insert, .next, .lookup, .next] result := by
  obtain ⟨s₁, s, h₀, h, hres, hmoments⟩ := exec_moments (fun _ => 0) 0 10 [.addValue 2 "z", .insert]
    [.seek, .lookup, .addValue 5 "b", .insert, .next, .lookup, .next] [⟨2, "z"⟩, ⟨5, "b"⟩]
    (fun s => s.zset.valueMap.view "z" == some 2) (by decide +kernel) (by decide +kernel)
  have hwriter : s₁.writer = none := writer_of_insert [.addValue 2 "z"] h₀
  have hstays : ∀ s', Moment 0 10 s₁ [.seek, .lookup, .addValue 5 "b", .insert, .next, .lookup, .next] s' →
      ⟨2, "z"⟩ ∈ s'.zset.members 0 10 :=
    fun s' hs' => ⟨by decide, by decide, by simpa using hmoments s' hs'⟩
  obtain ⟨hfound, hkept, hsnapshot⟩ := range_among_writers h₀ h hres
  refine ⟨s₁, s, h₀, h, _, hres, ⟨by simp, hfound ⟨5, "b"⟩ (by simp)⟩, hkept ⟨2, "z"⟩ ?_ hstays,
    hsnapshot ?_ ?_⟩
  · simp [hwriter]
  · simp [hwriter]
  · -- nothing else has been added than these two
    refine ⟨⟨5, "b"⟩, fun s s' hs hs' p hp hne => ?_⟩
    have hadded := added_of_moment h₀ hs hp
    have hold : p = ⟨2, "z"⟩ := by
      simp only [List.cons_append, List.nil_append, List.mem_cons, RangeEvent.addValue.injEq, reduceCtorEq,
        List.not_mem_nil, or_false, false_or] at hadded
      rcases hadded with ⟨hscore, hvalue⟩ | ⟨hscore, hvalue⟩
      · rw [← hscore, ← hvalue]
      · exact absurd (by rw [← hscore, ← hvalue]) hne
    rw [hold]
    exact hstays s' hs'

/-- **The result need not be that of one moment.** Not when no `Add` is between its steps as `Range` begins: of
    two members added during `Range`, the first behind the iterator and the second ahead of it, only the second
    is returned. And not when no writer takes a step during `Range`: a member that an `Add` has moved in the
    value map, and not yet in the list, is not returned at all. -/
theorem range_mixes_moments :
    (¬ ∀ (hash : String → Nat) (minScore maxScore : Int32) (es₀ es : List RangeEvent) (s₁ s : RangeSys)
        (result : List ZaddRequest), Run (step minScore maxScore) always (idle hash) es₀ s₁ →
        Run (step minScore maxScore) always s₁ (.call :: es) s → s.range = .finished result →
        s₁.writer = none → Snapshot minScore maxScore s₁ es result) ∧
    (¬ ∀ (hash : String → Nat) (minScore maxScore : Int32) (es₀ es : List RangeEvent) (s₁ s : RangeSys)
        (result : List ZaddRequest), Run (step minScore maxScore) always (idle hash) es₀ s₁ →
        Run (step minScore maxScore) always s₁ (.call :: es) s → s.range = .finished result →
        (∀ e ∈ es, e.ofRange = true) → Snapshot minScore maxScore s₁ es result) := by
  constructor
  · intro hall
    obtain ⟨s₁, s, h₀, h, hres, hmoments⟩ := exec_moments (fun _ => 0) 0 10 [.addValue 2 "z", .insert]
      [.seek, .lookup, .addValue 1 "a", .insert, .addValue 5 "b", .insert, .next, .lookup, .next]
      [⟨2, "z"⟩, ⟨5, "b"⟩]
      (fun s => s.zset.valueMap.view "b" == none || s.zset.valueMap.view "a" == some 1)
      (by decide +kernel) (by decide +kernel)
    have hwriter : s₁.writer = none := writer_of_insert [.addValue 2 "z"] h₀
    obtain ⟨s', hs', hsame⟩ := hall _ _ _ _ _ _ _ _ h₀ h hres hwriter
    -- whenever `b` is a member, `a` is one too
    have hb : s'.zset.valueMap.view "b" = some 5 := ((hsame ⟨5, "b"⟩).mp (by simp)).2.2
    have ha : s'.zset.valueMap.view "a" = some 1 := by simpa [hb] using hmoments s' hs'
    have hmem := (hsame ⟨1, "a"⟩).mpr ⟨by decide, by decide, ha⟩
    exact absurd hmem (by decide)
  · intro hall
    obtain ⟨s₁, s, h₀, h, hres, hmoments⟩ := exec_moments (fun _ => 0) 0 10
      [.addValue 1 "m", .insert, .addValue 5 "m"] [.seek, .lookup, .next] []
      (fun s => s.zset.valueMap.view "m" == some 5) (by decide +kernel) (by decide +kernel)
    obtain ⟨s', hs', hsame⟩ := hall _ _ _ _ _ _ _ _ h₀ h hres (by decide)
    have hm : s'.zset.valueMap.view "m" = some 5 := by simpa using hmoments s' hs'
    have hmem := (hsame ⟨5, "m"⟩).mpr ⟨by decide, by decide, hm⟩
    exact absurd hmem List.not_mem_nil

end RangeSys

end ZhiCache
