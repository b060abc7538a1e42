import ZhiCache.Lib.Chain
import ZhiCache.Utils.Random

/-!
# `Storage.SkipList` — the skip list, its memory and its operations

`SkipList<Key, Comparator>` is a heap of nodes. A node has a key, fixed when it is allocated, and an array
`next_` of links whose length is the node's height. Slot `i` links the node into the list of level `i`.
Nodes are numbered in the order of their allocation; number 0 is `head_`, which the constructor allocates
with the full height and which carries no key of the list.

A link slot that was never written is kept apart from one that holds null (`Lib.Link`), so that a load of
an uninitialised slot is visible: the operation then has no result. The two search loops have no bound in
the source; here they run with a number of iterations that no list built by `insert` exhausts
(`findGreaterOrEqual_spec`), and have no result when it is exhausted.

One iteration of the search loop performs exactly one link load (`Search.step`). The sequential operations
iterate it, and the interleaved ones of `Storage.Interleaved` take it as one atomic step.
-/

namespace ZhiCache

open Lib

/-- The comparator of the template: negative, zero or positive as the first key comes before, together
    with, or after the second. -/
class Comparator (Key : Type) where
  compare : Key → Key → Int

export Comparator (compare)

/-- What the skip list relies on: `compare a b < 0` is a strict weak order, and `compare a b = 0` holds
    between the keys it leaves unordered. -/
class LawfulComparator (Key : Type) [Comparator Key] : Prop where
  asymm : ∀ a b : Key, compare a b < 0 → ¬ compare b a < 0
  not_lt_trans : ∀ a b c : Key, ¬ compare a b < 0 → ¬ compare b c < 0 → ¬ compare a c < 0
  eq_zero : ∀ a b : Key, compare a b = 0 ↔ ¬ compare a b < 0 ∧ ¬ compare b a < 0

/-- `kMaxHeight`. -/
def kMaxHeight : Nat := 12

theorem kMaxHeight_pos : 0 < kMaxHeight := Nat.succ_pos 11

/-- A node height, as `RandomHeight` draws it. -/
abbrev Height := { h : Nat // 1 ≤ h ∧ h ≤ kMaxHeight }

/-- A node, named by its place in the order of allocation. -/
abbrev NodeId := Nat

/-- The skip list: the nodes allocated so far and the two members that `Insert` modifies. -/
structure SkipList (Key : Type) where
  /-- How many nodes `NewNode` has allocated, `head_` included. -/
  count : Nat
  key : NodeId → Key
  /-- The length of the node's array `next_`. -/
  height : NodeId → Nat
  next : NodeId → Nat → Link NodeId
  maxHeight : Nat
  rnd : Random

namespace SkipList

variable {Key : Type}

/-- `head_`, the first node allocated. -/
def head : NodeId := 0

/-- The links of level `i`. -/
def level (l : SkipList Key) (i : Nat) : NodeId → Link NodeId := fun n => l.next n i

/-! ## Allocation and link stores -/

/-- `NewNode`: a node with the given key and `height` uninitialised links. -/
def newNode (l : SkipList Key) (key : Key) (height : Nat) : NodeId × SkipList Key :=
  (l.count,
   { l with
     count := l.count + 1
     key := Function.update l.key l.count key
     height := Function.update l.height l.count height
     next := Function.update l.next l.count (fun _ => none) })

/-- `Node::SetNext`. -/
def setNext (l : SkipList Key) (n : NodeId) (i : Nat) (x : Option NodeId) : SkipList Key :=
  { l with next := Function.update l.next n (Function.update (l.next n) i (some x)) }

/-- The constructor: `head_` with all its links null. -/
def new [Inhabited Key] : SkipList Key :=
  let l : SkipList Key :=
    { count := 0, key := fun _ => default, height := fun _ => 0, next := fun _ _ => none, maxHeight := 1,
      rnd := Random.new 0xdeadbeef }
  let l := (l.newNode default kMaxHeight).2
  (List.range kMaxHeight).foldl (fun l i => l.setNext head i none) l

/-! ## Random heights -/

/-- The loop of `RandomHeight`, with the number of increments still possible. -/
def randomHeightLoop : Nat → Nat → Random → Nat × Random
  | 0, height, rnd => (height, rnd)
  | n + 1, height, rnd =>
    let (word, rnd) := rnd.next
    if word % 4 = 0 then randomHeightLoop n (height + 1) rnd else (height, rnd)

theorem randomHeightLoop_bounds (n height : Nat) (rnd : Random) :
    height ≤ (randomHeightLoop n height rnd).1 ∧ (randomHeightLoop n height rnd).1 ≤ height + n := by
  induction n generalizing height rnd with
  | zero => exact ⟨Nat.le_refl _, Nat.le_refl _⟩
  | succ n ih =>
      unfold randomHeightLoop
      dsimp only
      split
      · have h := ih (height + 1) rnd.next.2
        omega
      · exact ⟨Nat.le_refl _, Nat.le_add_right _ _⟩

/-- `RandomHeight`: one more level with probability 1 in 4, at most `kMaxHeight`. -/
def randomHeight (rnd : Random) : Height × Random :=
  let drawn := randomHeightLoop (kMaxHeight - 1) 1 rnd
  (⟨drawn.1, randomHeightLoop_bounds (kMaxHeight - 1) 1 rnd⟩, drawn.2)

/-! ## Searching -/

variable [Comparator Key]

/-- `KeyIsAfterNode`: null counts as infinite. -/
def keyIsAfterNode (l : SkipList Key) (key : Key) : Option NodeId → Bool
  | none => false
  | some n => compare (l.key n) key < 0

/-- The array `prev` that a search fills; `none` where it has not been written. -/
abbrev Prev := Nat → Option NodeId

/-- The local variables of `FindGreaterOrEqual`. -/
structure Search where
  x : NodeId
  level : Nat
  prev : Prev

/-- How an iteration of the search loop ends. -/
inductive Search.Outcome where
  | more (s : Search)
  | found (next : Option NodeId) (prev : Prev)

/-- One iteration of the loop of `FindGreaterOrEqual`: a link load and what follows from it. No outcome when
    the slot loaded was never written. -/
def Search.step (l : SkipList Key) (key : Key) (s : Search) : Option Search.Outcome :=
  match l.next s.x s.level with
  | none => none
  | some next =>
    match next, l.keyIsAfterNode key next, s.level with
    -- Keep searching in this list
    | some n, true, _ => some (.more { s with x := n })
    | _, _, 0 => some (.found next (Function.update s.prev 0 (some s.x)))
    -- Switch to next list
    | _, _, level + 1 =>
      some (.more { s with level := level, prev := Function.update s.prev (level + 1) (some s.x) })

/-- The local variables when the loop is entered: at `head_`, on the top level of height `maxHeight`. -/
def Search.start (maxHeight : Nat) : Search := ⟨head, maxHeight - 1, fun _ => none⟩

/-- The loop of `FindGreaterOrEqual`, for a given number of iterations. -/
def findLoop (l : SkipList Key) (key : Key) : Nat → Search → Option (Option NodeId × Prev)
  | 0, _ => none
  | fuel + 1, s =>
    match s.step l key with
    | none => none
    | some (.found next prev) => some (next, prev)
    | some (.more s') => findLoop l key fuel s'

/-- `FindGreaterOrEqual`: the node found and the array `prev` as filled. -/
def findGreaterOrEqual (l : SkipList Key) (key : Key) : Option (Option NodeId × Prev) :=
  l.findLoop key (kMaxHeight * l.count) (Search.start l.maxHeight)

/-! ## Insertion -/

/-- The loop at the end of `Insert`, with the number of levels left to link `x` into, the next of them
    being `i`. -/
def linkLoop (x : NodeId) (prev : Prev) : Nat → Nat → SkipList Key → Option (SkipList Key)
  | 0, _, l => some l
  | n + 1, i, l => do
    let p ← prev i
    let succ ← l.next p i
    let l := l.setNext x i succ
    let l := l.setNext p i (some x)
    linkLoop x prev n (i + 1) l

/-- The entries of `prev` above the list's height, as `Insert` fills them before it raises the height. -/
def raisePrev (prev : Prev) (maxHeight height : Nat) : Prev :=
  fun i => if maxHeight ≤ i ∧ i < height then some head else prev i

/-- `Insert`, after it has drawn `height`. The assertion is compiled out. -/
def insertWith (l : SkipList Key) (key : Key) (height : Height) : Option (SkipList Key) := do
  let (_, prev) ← l.findGreaterOrEqual key
  let prev := if l.maxHeight < height.1 then raisePrev prev l.maxHeight height.1 else prev
  let l := if l.maxHeight < height.1 then { l with maxHeight := height.1 } else l
  let (x, l) := l.newNode key height.1
  linkLoop x prev height.1 0 l

/-- `Insert`: with the height that the list's own generator draws. -/
def insert (l : SkipList Key) (key : Key) : Option (SkipList Key) :=
  let (height, rnd) := randomHeight l.rnd
  { l with rnd := rnd }.insertWith key height

theorem insert_eq (l : SkipList Key) (key : Key) :
    l.insert key = { l with rnd := (randomHeight l.rnd).2 }.insertWith key (randomHeight l.rnd).1 :=
  rfl

/-! ## Iteration -/

/-- `Iterator::Seek`: the node the iterator then stands at, none when it is invalid. -/
def seek (l : SkipList Key) (target : Key) : Option (Option NodeId) :=
  (l.findGreaterOrEqual target).map Prod.fst

/-- `Iterator::Next` from node `n`. -/
def iterNext (l : SkipList Key) (n : NodeId) : Link NodeId := l.next n 0

end SkipList

end ZhiCache
