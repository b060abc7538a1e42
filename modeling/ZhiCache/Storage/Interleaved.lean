import ZhiCache.Storage.SkipList
import ZhiCache.Lib.Run
import Mathlib.Logic.Relation

/-!
# `Storage.Interleaved` — inserts and readers that run at the same time

Any number of `Insert` calls and of iterators work on one skip list. Each of them is a small machine whose
step is **one access to shared memory**: a load or store of a link, a load or store of `max_height_`, the
allocation of a node or a draw of the generator. Between two steps of one of them the others may take any
number of steps; memory is sequentially consistent.

* `InsertPc` — where an `Insert` call stands, with its local variables. `max_height_` is loaded three times
  (by the search, by the test of the height and by the loop that fills `prev`) and each load may see
  another value.
* `Reader` — an iterator that seeks and then moves to the next node until it is invalid.
* `Sys`, `Event`, `Sys.step` — the system.

Two things end a machine outside the code's meaning: the load of a link slot that was never written, and
the use of an entry of `prev` that was never written (`InsertPc.derailed`, `ReaderPc.fault`).

Run on its own, the machine of an `Insert` call does what `SkipList.insert` computes (`insert_steps`).
-/

namespace ZhiCache.SkipList

open Lib

variable {Key : Type} [Comparator Key]

/-! ## One `Insert` call -/

/-- The local variables of the last loop of `Insert`. -/
structure Splice where
  prev : Prev
  height : Nat
  x : NodeId
  level : Nat

/-- Where an `Insert` call stands: what it accesses next. -/
inductive InsertPc where
  /-- `FindGreaterOrEqual` loads `max_height_`. -/
  | enter
  /-- `FindGreaterOrEqual` loads a link. -/
  | search (s : Search)
  /-- `RandomHeight` uses the generator. -/
  | draw (prev : Prev)
  /-- `max_height_` is loaded for the test `height > GetMaxHeight()`. -/
  | check (prev : Prev) (height : Height)
  /-- `max_height_` is loaded again for the loop that fills `prev`. -/
  | fill (prev : Prev) (height : Height)
  /-- `max_height_` is stored. -/
  | raise (prev : Prev) (height : Height)
  /-- `NewNode`. -/
  | alloc (prev : Prev) (height : Height)
  /-- The link of `prev[i]` is loaded. -/
  | load (sp : Splice)
  /-- The link of the new node is stored. -/
  | own (sp : Splice) (p : NodeId) (succ : Option NodeId)
  /-- The link of `prev[i]` is stored. -/
  | publish (sp : Splice) (p : NodeId)
  | finished (x : NodeId)
  | derailed

/-- The node that the call has allocated. -/
def InsertPc.node : InsertPc → Option NodeId
  | load sp => some sp.x
  | own sp _ _ => some sp.x
  | publish sp _ => some sp.x
  | finished x => some x
  | _ => none

/-- The node that the call has inserted. -/
def InsertPc.result : InsertPc → Option NodeId
  | finished x => some x
  | _ => none

theorem InsertPc.eq_finished {pc : InsertPc} {x : NodeId} (h : pc.result = some x) : pc = finished x := by
  cases pc with
  | finished y => rw [Option.some.inj h]
  | _ => cases h

/-- One access of an `Insert` call. `draw` is `RandomHeight`. -/
def InsertPc.step (draw : Random → Height × Random) (l : SkipList Key) (key : Key) :
    InsertPc → Option (SkipList Key × InsertPc)
  | enter => some (l, search (Search.start l.maxHeight))
  | search s =>
    match s.step l key with
    | none => some (l, derailed)
    | some (.more s') => some (l, search s')
    | some (.found _ prev) => some (l, .draw prev)
  | .draw prev => some ({ l with rnd := (draw l.rnd).2 }, check prev (draw l.rnd).1)
  | check prev height => some (l, if l.maxHeight < height.1 then fill prev height else alloc prev height)
  | fill prev height => some (l, raise (raisePrev prev l.maxHeight height.1) height)
  | raise prev height => some ({ l with maxHeight := height.1 }, alloc prev height)
  | alloc prev height => some ((l.newNode key height.1).2, load ⟨prev, height.1, l.count, 0⟩)
  | load sp =>
    match sp.prev sp.level with
    | none => some (l, derailed)
    | some p =>
      match l.next p sp.level with
      | none => some (l, derailed)
      | some succ => some (l, own sp p succ)
  | own sp p succ => some (l.setNext sp.x sp.level succ, publish sp p)
  | publish sp p =>
    some (l.setNext p sp.level (some sp.x),
      if sp.level + 1 < sp.height then load { sp with level := sp.level + 1 } else finished sp.x)
  | finished _ => none
  | derailed => none

/-- An `Insert` call. -/
structure Insertion (Key : Type) where
  key : Key
  pc : InsertPc

/-! ## One reader -/

/-- Where an iterator stands. -/
inductive ReaderPc where
  /-- `Seek` loads `max_height_`. -/
  | enter
  /-- `Seek` loads a link. -/
  | search (s : Search)
  /-- The iterator stands at `n`; `Next` loads its link. -/
  | standing (n : NodeId)
  /-- The iterator is invalid. -/
  | finished
  | fault

/-- The iterator has got to the end. -/
def ReaderPc.isFinished : ReaderPc → Bool
  | finished => true
  | _ => false

theorem ReaderPc.eq_finished {pc : ReaderPc} (h : pc.isFinished = true) : pc = finished := by
  cases pc with
  | finished => rfl
  | _ => cases h

/-- An iterator that was sent to `target`, and the nodes it has stood at since. -/
structure Reader (Key : Type) where
  target : Key
  pc : ReaderPc
  yielded : List NodeId

/-- The iterator after `node_` has been assigned. -/
def Reader.moveTo (rd : Reader Key) : Option NodeId → Reader Key
  | none => { rd with pc := .finished }
  | some n => { rd with pc := .standing n, yielded := rd.yielded ++ [n] }

/-- One access of a reader. -/
def Reader.step (l : SkipList Key) (rd : Reader Key) : Option (Reader Key) :=
  match rd.pc with
  | .enter => some { rd with pc := .search (Search.start l.maxHeight) }
  | .search s =>
    match s.step l rd.target with
    | none => some { rd with pc := .fault }
    | some (.more s') => some { rd with pc := .search s' }
    | some (.found next _) => some (rd.moveTo next)
  | .standing n =>
    match l.iterNext n with
    | none => some { rd with pc := .fault }
    | some next => some (rd.moveTo next)
  | .finished => none
  | .fault => none

/-! ## The system -/

/-- The list, the `Insert` calls and the readers, each under a number of its own. -/
structure Sys (Key : Type) where
  list : SkipList Key
  inserts : Nat → Option (Insertion Key)
  readers : Nat → Option (Reader Key)

/-- What can happen. -/
inductive Event (Key : Type) where
  /-- A call of `Insert` begins. -/
  | insert (w : Nat) (key : Key)
  /-- An `Insert` call takes its next step. -/
  | write (w : Nat)
  /-- A reader calls `Seek`. -/
  | seek (r : Nat) (target : Key)
  /-- A reader takes its next step. -/
  | read (r : Nat)

namespace Sys

/-- A list on which nothing is running. -/
def idle (l : SkipList Key) : Sys Key := ⟨l, fun _ => none, fun _ => none⟩

/-- The system after an event; none when the event is not possible. -/
def step (draw : Random → Height × Random) (s : Sys Key) : Event Key → Option (Sys Key)
  | .insert w key =>
    if (s.inserts w).isNone then
      some { s with inserts := Function.update s.inserts w (some ⟨key, .enter⟩) }
    else none
  | .write w => do
    let ins ← s.inserts w
    let (l, pc) ← ins.pc.step draw s.list ins.key
    return { s with list := l, inserts := Function.update s.inserts w (some ⟨ins.key, pc⟩) }
  | .seek r target =>
    if (s.readers r).isNone then
      some { s with readers := Function.update s.readers r (some ⟨target, .enter, []⟩) }
    else none
  | .read r => do
    let rd ← s.readers r
    let rd ← rd.step s.list
    return { s with readers := Function.update s.readers r (some rd) }

/-- **What an event does.** -/
theorem step_cases {draw : Random → Height × Random} {s s' : Sys Key} {e : Event Key}
    (h : s.step draw e = some s') :
    (∃ w key, e = .insert w key ∧ s.inserts w = none ∧
      s' = { s with inserts := Function.update s.inserts w (some ⟨key, .enter⟩) }) ∨
    (∃ w ins l pc, e = .write w ∧ s.inserts w = some ins ∧ ins.pc.step draw s.list ins.key = some (l, pc) ∧
      s' = { s with list := l, inserts := Function.update s.inserts w (some ⟨ins.key, pc⟩) }) ∨
    (∃ r target, e = .seek r target ∧ s.readers r = none ∧
      s' = { s with readers := Function.update s.readers r (some ⟨target, .enter, []⟩) }) ∨
    (∃ r rd rd', e = .read r ∧ s.readers r = some rd ∧ rd.step s.list = some rd' ∧
      s' = { s with readers := Function.update s.readers r (some rd') }) := by
  cases e with
  | insert w key =>
      obtain ⟨hw, h⟩ := Option.ite_none_right_eq_some.mp h
      exact Or.inl ⟨w, key, rfl, Option.isNone_iff_eq_none.mp hw, (Option.some.inj h).symm⟩
  | write w =>
      obtain ⟨ins, hins, h⟩ := Option.bind_eq_some_iff.mp h
      obtain ⟨⟨l, pc⟩, hpc, h⟩ := Option.bind_eq_some_iff.mp h
      exact Or.inr (Or.inl ⟨w, ins, l, pc, rfl, hins, hpc, (Option.some.inj h).symm⟩)
  | seek r target =>
      obtain ⟨hr, h⟩ := Option.ite_none_right_eq_some.mp h
      exact Or.inr (Or.inr (Or.inl ⟨r, target, rfl, Option.isNone_iff_eq_none.mp hr,
        (Option.some.inj h).symm⟩))
  | read r =>
      obtain ⟨rd, hrd, h⟩ := Option.bind_eq_some_iff.mp h
      obtain ⟨rd', hrd', h⟩ := Option.bind_eq_some_iff.mp h
      exact Or.inr (Or.inr (Or.inr ⟨r, rd, rd', rfl, hrd, hrd', (Option.some.inj h).symm⟩))

/-- Every `Insert` call has begun during the run. -/
theorem begun {draw : Random → Height × Random} {ok : Sys Key → Event Key → Prop} {l : SkipList Key}
    {es : List (Event Key)} {s : Sys Key} (h : Run (step draw) ok (idle l) es s) :
    ∀ w ins, s.inserts w = some ins → .insert w ins.key ∈ es := by
  refine Run.history (I := fun es s => ∀ w ins, s.inserts w = some ins → .insert w ins.key ∈ es) ?_ ?_ h
  · exact fun w ins hw => absurd hw (by simp [idle])
  · intro es s e s' ih _ hs w ins hw
    rcases step_cases hs with ⟨w', key, rfl, -, rfl⟩ | ⟨w', old, l, pc, rfl, hold, -, rfl⟩ |
      ⟨r, target, rfl, -, rfl⟩ | ⟨r, rd, rd', rfl, -, -, rfl⟩
    · rcases update_cases hw with ⟨rfl, rfl⟩ | ⟨-, hw⟩
      · simp
      · exact List.mem_append_left _ (ih w ins hw)
    · rcases update_cases hw with ⟨rfl, rfl⟩ | ⟨-, hw⟩
      · exact List.mem_append_left _ (ih w old hold)
      · exact List.mem_append_left _ (ih w ins hw)
    · exact List.mem_append_left _ (ih w ins hw)
    · exact List.mem_append_left _ (ih w ins hw)

end Sys

/-! ## An `Insert` call on its own -/

section Alone

variable (draw : Random → Height × Random) (key : Key)

/-- An `Insert` call takes steps while nothing else happens. -/
def Steps : SkipList Key × InsertPc → SkipList Key × InsertPc → Prop :=
  Relation.ReflTransGen (fun a b => a.2.step draw a.1 key = some b)

variable {draw key}

theorem Steps.single {a b : SkipList Key × InsertPc} (h : a.2.step draw a.1 key = some b) :
    Steps draw key a b :=
  Relation.ReflTransGen.single h

/-- The search. -/
theorem findLoop_steps {l : SkipList Key} {fuel : Nat} {s : Search} {next : Option NodeId} {prev : Prev}
    (h : l.findLoop key fuel s = some (next, prev)) : Steps draw key (l, .search s) (l, .draw prev) := by
  induction fuel generalizing s with
  | zero => exact absurd h (by simp [findLoop])
  | succ fuel ih =>
      unfold findLoop at h
      cases hs : s.step l key with
      | none =>
          rw [hs] at h
          exact absurd h (by simp)
      | some o =>
          rw [hs] at h
          cases o with
          | found next' prev' =>
              have hp : prev' = prev := (Prod.mk.inj (Option.some.inj h)).2
              subst hp
              exact Steps.single (by simp only [InsertPc.step, hs])
          | more s' =>
              refine Relation.ReflTransGen.head ?_ (ih h)
              simp only [InsertPc.step, hs]

/-- One iteration of the last loop. -/
theorem link_steps (draw : Random → Height × Random) (key : Key) (sp : Splice) {l : SkipList Key}
    {p : NodeId} {succ : Option NodeId}
    (hp : sp.prev sp.level = some p) (hsucc : l.next p sp.level = some succ) :
    Steps draw key (l, .load sp)
      ((l.setNext sp.x sp.level succ).setNext p sp.level (some sp.x),
        if sp.level + 1 < sp.height then .load { sp with level := sp.level + 1 } else .finished sp.x) := by
  have hload : Steps draw key (l, .load sp) (l, .own sp p succ) :=
    Steps.single (by simp only [InsertPc.step, hp, hsucc])
  exact (hload.tail rfl).tail rfl

/-- The last loop, entered with at least one level to link. -/
theorem linkLoop_steps {x : NodeId} {prev : Prev} {height n i : Nat} {l l' : SkipList Key}
    (h0 : 0 < n) (hn : i + n = height) (h : linkLoop x prev n i l = some l') :
    Steps draw key (l, .load ⟨prev, height, x, i⟩) (l', .finished x) := by
  induction n generalizing i l with
  | zero => exact absurd h0 (Nat.lt_irrefl 0)
  | succ n ih =>
      obtain ⟨p, hp, h⟩ := Option.bind_eq_some_iff.mp h
      obtain ⟨succ, hsucc, h⟩ := Option.bind_eq_some_iff.mp h
      have hsteps := link_steps draw key ⟨prev, height, x, i⟩ hp hsucc
      simp only at hsteps
      by_cases hlast : n = 0
      · subst hlast
        rw [if_neg (by omega), Option.some.inj h] at hsteps
        exact hsteps
      · rw [if_pos (by omega)] at hsteps
        exact hsteps.trans (ih (Nat.pos_of_ne_zero hlast) (by omega) h)

/-- The generator plays no part in a search. -/
theorem findLoop_setRnd (l : SkipList Key) (rnd : Random) (key : Key) (fuel : Nat) (s : Search) :
    { l with rnd := rnd }.findLoop key fuel s = l.findLoop key fuel s := by
  induction fuel generalizing s with
  | zero => rfl
  | succ fuel ih =>
      have hstep : s.step { l with rnd := rnd } key = s.step l key := rfl
      unfold findLoop
      rw [hstep]
      cases s.step l key with
      | none => rfl
      | some o =>
          cases o with
          | found next prev => rfl
          | more s' => exact ih s'

/-- **An `Insert` call that nothing interrupts does what `SkipList.insert` computes.** -/
theorem insert_steps {l l' : SkipList Key} (h : l.insert key = some l') :
    ∃ x, Steps randomHeight key (l, .enter) (l', .finished x) := by
  obtain ⟨height, rnd, hdraw⟩ : ∃ height rnd, randomHeight l.rnd = (height, rnd) := ⟨_, _, rfl⟩
  rw [insert_eq, hdraw] at h
  obtain ⟨⟨next, prev⟩, hfind, h⟩ := Option.bind_eq_some_iff.mp h
  have hloop : l.findLoop key (kMaxHeight * l.count) (Search.start l.maxHeight) = some (next, prev) :=
    (findLoop_setRnd l rnd key _ _).symm.trans hfind
  have hsearch : Steps randomHeight key (l, .enter) (l, .draw prev) :=
    Relation.ReflTransGen.head rfl (findLoop_steps hloop)
  have hdrawn : Steps randomHeight key (l, .enter) ({ l with rnd := rnd }, .check prev height) :=
    hsearch.tail (by simp only [InsertPc.step, hdraw])
  have h0 : 0 < height.1 := height.2.1
  refine ⟨l.count, ?_⟩
  by_cases hlt : l.maxHeight < height.1
  · simp only [hlt, if_true] at h
    have hfill : Steps randomHeight key (l, .enter) ({ l with rnd := rnd }, .fill prev height) :=
      hdrawn.tail (by simp only [InsertPc.step, hlt, if_true])
    refine (((hfill.tail rfl).tail rfl).tail rfl).trans ?_
    exact linkLoop_steps h0 (Nat.zero_add _) h
  · simp only [hlt, if_false] at h
    have halloc : Steps randomHeight key (l, .enter) ({ l with rnd := rnd }, .alloc prev height) :=
      hdrawn.tail (by simp only [InsertPc.step, hlt, if_false])
    refine (halloc.tail rfl).trans ?_
    exact linkLoop_steps h0 (Nat.zero_add _) h

end Alone

end ZhiCache.SkipList
