import ZhiCache.Storage.Threaded
import ZhiCache.Storage.Interleaved

/-!
# `Storage.Publication` — what holds between any two accesses

The invariant of the interleaved system, for any number of `Insert` calls and readers. Memory is `Threaded`
with some published nodes `T`, and every machine stands on them: searches at published nodes below their
key, entries of `prev` likewise, a node that is being spliced in on exactly the levels done so far, a reader
behind what it has yielded.

One access changes little (`Effect`): nodes are only added to `T`, a node is added only by the call that
owns it, and a slot that is not published changes only at the hands of its owner. Everything a machine
relies on survives the accesses of the others (`InsertPc.On.mono`, `Reader.On.mono`).

The invariant needs two things of the accesses of an `Insert` call (`InsertPc.Fresh`): that an entry of
`prev` is there when it is used, and that a node is published on level 0 at a place that is still the right
one. The code itself does not establish them. A single writer at a time has them for free
(`Storage.ConcurrentReaders`); several at once do not (`Storage.ConcurrentAdds`).
-/

namespace ZhiCache.SkipList

open Lib

variable {Key : Type} [Comparator Key] {l l' : SkipList Key} {T T' : Nat → List NodeId} {key : Key}

/-! ## Where the machines stand -/

/-- The entries of `prev` are published nodes below the key. -/
def PrevOn (l : SkipList Key) (T : Nat → List NodeId) (key : Key) (prev : Prev) : Prop :=
  ∀ i p, prev i = some p → p ∈ T i ∧ l.Below key p

/-- `p` is published on level `i`, below the key, and before `succ`. -/
def Behind (l : SkipList Key) (T : Nat → List NodeId) (key : Key) (i : Nat) (p : NodeId)
    (succ : Option NodeId) : Prop :=
  p ∈ T i ∧ l.Below key p ∧ ∀ b, succ = some b → Precedes (T i) p b

/-- A node that is being spliced in: published on exactly the levels done so far. -/
structure Splice.On (l : SkipList Key) (T : Nat → List NodeId) (key : Key) (sp : Splice) : Prop where
  prev : PrevOn l T key sp.prev
  alloc : sp.x < l.count
  key_eq : l.key sp.x = key
  mem : ∀ j, sp.x ∈ T j ↔ j < sp.level
  ne_head : sp.x ≠ head

/-- Where an `Insert` call may stand. -/
def InsertPc.On (l : SkipList Key) (T : Nat → List NodeId) (key : Key) : InsertPc → Prop
  | enter => True
  | search s => s.On l T key ∧ PrevOn l T key s.prev
  | draw prev => PrevOn l T key prev
  | check prev _ => PrevOn l T key prev
  | fill prev _ => PrevOn l T key prev
  | raise prev _ => PrevOn l T key prev
  | alloc prev _ => PrevOn l T key prev
  | load sp => sp.On l T key
  | own sp p succ => sp.On l T key ∧ Behind l T key sp.level p succ
  | publish sp p => sp.On l T key ∧ ∃ succ, l.next sp.x sp.level = some succ ∧ Behind l T key sp.level p succ
  | finished x => x < l.count ∧ x ≠ head ∧ x ∈ T 0 ∧ l.key x = key
  | derailed => False

/-- What an access of an `Insert` call needs and the code does not check: the entry of `prev` that it uses
    has been written, and when it publishes on level 0, the predecessor still points where the new node
    does, to a node that is not below the key. -/
def InsertPc.Fresh (l : SkipList Key) (key : Key) : InsertPc → Prop
  | load sp => sp.prev sp.level ≠ none
  | publish sp p => sp.level = 0 →
      l.next p 0 = l.next sp.x 0 ∧ ∀ succ ∈ l.next p 0, l.keyIsAfterNode key succ = false
  | _ => True

instance (l : SkipList Key) (key : Key) : (pc : InsertPc) → Decidable (pc.Fresh l key)
  | .load sp => inferInstanceAs (Decidable (sp.prev sp.level ≠ none))
  | .publish sp p => inferInstanceAs (Decidable (sp.level = 0 →
      l.next p 0 = l.next sp.x 0 ∧ ∀ succ ∈ l.next p 0, l.keyIsAfterNode key succ = false))
  | .enter | .search _ | .draw _ | .check _ _ | .fill _ _ | .raise _ _ | .alloc _ _ | .own _ _ _
  | .finished _ | .derailed => isTrue trivial

/-- Where a reader may stand. -/
def Reader.On (l : SkipList Key) (T : Nat → List NodeId) (rd : Reader Key) : Prop :=
  match rd.pc with
  | .enter => rd.yielded = []
  | .search s => s.On l T rd.target ∧ rd.yielded = []
  | .standing n => (∃ ys, rd.yielded = ys ++ [n]) ∧ rd.yielded.Sublist (T 0).tail
  | .finished => rd.yielded.Sublist (T 0).tail
  | .fault => False

/-! ## What the others see of an access -/

/-- What one access does to memory, seen by everyone but the call that owns the node `mine`. -/
structure Effect (l l' : SkipList Key) (T T' : Nat → List NodeId) (mine : Option NodeId) : Prop where
  count : l.count ≤ l'.count
  key : ∀ n, n < l.count → l'.key n = l.key n
  sub : ∀ j, (T j).Sublist (T' j)
  new : ∀ j n, n ∈ T' j → n ∈ T j ∨ mine = some n
  slot : ∀ j n, n < l.count → n ∉ T j → mine ≠ some n → l'.next n j = l.next n j

omit [Comparator Key] in
/-- An access that leaves the nodes alone. -/
theorem Effect.of_eq (hcount : l'.count = l.count) (hkey : l'.key = l.key) (hnext : l'.next = l.next)
    (mine : Option NodeId) : Effect l l' T T mine where
  count := Nat.le_of_eq hcount.symm
  key := fun n _ => by rw [hkey]
  sub := fun j => List.Sublist.refl _
  new := fun j n hn => Or.inl hn
  slot := fun j n _ _ _ => by rw [hnext]

variable {mine : Option NodeId}

theorem Effect.below (he : Effect l l' T T' mine) {p : NodeId} (hp : p < l.count) (h : l.Below key p) :
    l'.Below key p := by
  rcases h with hh | hlt
  · exact Or.inl hh
  · refine Or.inr ?_
    rw [he.key p hp]
    exact hlt

theorem PrevOn.mono (h : Threaded l T) (he : Effect l l' T T' mine) {prev : Prev}
    (hp : PrevOn l T key prev) : PrevOn l' T' key prev := by
  intro i p hip
  obtain ⟨hmem, hbelow⟩ := hp i p hip
  exact ⟨(he.sub i).subset hmem, he.below (h.alloc i p hmem) hbelow⟩

theorem Behind.mono (h : Threaded l T) (he : Effect l l' T T' mine) {i : Nat} {p : NodeId}
    {succ : Option NodeId} (hb : Behind l T key i p succ) : Behind l' T' key i p succ := by
  obtain ⟨hmem, hbelow, hprec⟩ := hb
  exact ⟨(he.sub i).subset hmem, he.below (h.alloc i p hmem) hbelow,
    fun b hs => (hprec b hs).mono (he.sub i)⟩

theorem Search.On.mono (h : Threaded l T) (he : Effect l l' T T' mine) {s : Search}
    (hs : s.On l T key) : s.On l' T' key :=
  ⟨hs.level_lt, (he.sub s.level).subset hs.mem, he.below (h.alloc s.level s.x hs.mem) hs.below⟩

theorem Splice.On.mono (h : Threaded l T) (he : Effect l l' T T' mine) {sp : Splice}
    (hs : sp.On l T key) (hne : mine ≠ some sp.x) : sp.On l' T' key where
  prev := hs.prev.mono h he
  alloc := Nat.lt_of_lt_of_le hs.alloc he.count
  key_eq := (he.key sp.x hs.alloc).trans hs.key_eq
  mem := fun j => by
    rw [← hs.mem j]
    constructor
    · exact fun hm => (he.new j sp.x hm).resolve_right hne
    · exact fun hm => (he.sub j).subset hm
  ne_head := hs.ne_head

/-- An `Insert` call stands as it stood before an access of another. -/
theorem InsertPc.On.mono (h : Threaded l T) (he : Effect l l' T T' mine) {pc : InsertPc}
    (hon : pc.On l T key) (hne : ∀ x, pc.node = some x → mine ≠ some x) : pc.On l' T' key := by
  cases pc with
  | enter => trivial
  | search s => exact ⟨hon.1.mono h he, hon.2.mono h he⟩
  | draw prev => exact PrevOn.mono h he hon
  | check prev height => exact PrevOn.mono h he hon
  | fill prev height => exact PrevOn.mono h he hon
  | raise prev height => exact PrevOn.mono h he hon
  | alloc prev height => exact PrevOn.mono h he hon
  | load sp => exact Splice.On.mono h he hon (hne sp.x rfl)
  | own sp p succ => exact ⟨hon.1.mono h he (hne sp.x rfl), hon.2.mono h he⟩
  | publish sp p =>
      obtain ⟨hsp, succ, hown, hb⟩ := hon
      have hx : sp.x ∉ T sp.level := fun hm => Nat.lt_irrefl _ ((hsp.mem sp.level).mp hm)
      refine ⟨hsp.mono h he (hne sp.x rfl), succ, ?_, hb.mono h he⟩
      rw [he.slot sp.level sp.x hsp.alloc hx (hne sp.x rfl)]
      exact hown
  | finished x =>
      obtain ⟨hc, hh, hmem, hkey⟩ := hon
      exact ⟨Nat.lt_of_lt_of_le hc he.count, hh, (he.sub 0).subset hmem, (he.key x hc).trans hkey⟩
  | derailed => exact hon

/-- A reader stands as it stood before an access of an `Insert` call. -/
theorem Reader.On.mono (h : Threaded l T) (he : Effect l l' T T' mine) {rd : Reader Key}
    (hon : rd.On l T) : rd.On l' T' := by
  have htail : (T 0).tail.Sublist (T' 0).tail := (he.sub 0).tail
  unfold Reader.On at hon ⊢
  cases hpc : rd.pc with
  | enter =>
      rw [hpc] at hon
      exact hon
  | search s =>
      rw [hpc] at hon
      exact ⟨hon.1.mono h he, hon.2⟩
  | standing n =>
      rw [hpc] at hon
      exact ⟨hon.1, hon.2.trans htail⟩
  | finished =>
      rw [hpc] at hon
      exact List.Sublist.trans hon htail
  | fault =>
      rw [hpc] at hon
      exact hon

/-! ## One access of an `Insert` call -/

/-- What an access keeps, for the call that makes it and for the others. The node of a call, once allocated,
    stays its node; a new one is the next to be allocated. -/
structure Kept (l l' : SkipList Key) (T T' : Nat → List NodeId) (key : Key) (pc pc' : InsertPc) : Prop where
  threaded : Threaded l' T'
  on : pc'.On l' T' key
  effect : Effect l l' T T' pc'.node
  node : pc'.node = pc.node ∨ pc.node = none ∧ pc'.node = some l.count

/-- An access that changes no node. -/
theorem Kept.of_eq (h : Threaded l T) {pc pc' : InsertPc} (hcount : l'.count = l.count)
    (hkey : l'.key = l.key) (hnext : l'.next = l.next) (h1 : 1 ≤ l'.maxHeight)
    (h2 : l'.maxHeight ≤ kMaxHeight) (hon : pc'.On l' T key) (hnode : pc'.node = pc.node) :
    Kept l l' T T key pc pc' where
  threaded := h.frame (Nat.le_of_eq hcount.symm) (fun i n _ => by rw [hnext]) (fun n _ => by rw [hkey]) h1 h2
  on := hon
  effect := Effect.of_eq hcount hkey hnext _
  node := Or.inl hnode

theorem PrevOn.update {prev : Prev} (hp : PrevOn l T key prev) {i : Nat} {x : NodeId} (hx : x ∈ T i)
    (hb : l.Below key x) : PrevOn l T key (Function.update prev i (some x)) := by
  intro j p hj
  by_cases hji : j = i
  · subst hji
    rw [Function.update_self] at hj
    exact Option.some.inj hj ▸ ⟨hx, hb⟩
  · rw [Function.update_of_ne hji] at hj
    exact hp j p hj

/-- The entries that `Insert` fills in above the list's height are `head_`. -/
theorem PrevOn.raisePrev (h : Threaded l T) {prev : Prev} (hp : PrevOn l T key prev) (m : Nat)
    (height : Height) : PrevOn l T key (raisePrev prev m height.1) := by
  intro i p hi
  unfold SkipList.raisePrev at hi
  split at hi
  · rename_i hrange
    have hlt : i < kMaxHeight := Nat.lt_of_lt_of_le hrange.2 height.2.2
    exact Option.some.inj hi ▸ ⟨h.head_mem i hlt, Or.inl rfl⟩
  · exact hp i p hi

/-- A step of the search. -/
theorem search_kept (h : Threaded l T) {s : Search} (hon : (InsertPc.search s).On l T key)
    {draw : Random → Height × Random} {pc' : InsertPc}
    (hs : (InsertPc.search s).step draw l key = some (l', pc')) :
    Kept l l' T T key (.search s) pc' := by
  obtain ⟨hson, hprev⟩ := hon
  obtain ⟨o, ho⟩ := Option.ne_none_iff_exists'.mp (h.step_ne_none hson)
  obtain ⟨next, hn, hcase⟩ := Search.step_cases ho
  have hkept : ∀ pc', pc'.On l T key → pc'.node = none → Kept l l T T key (.search s) pc' :=
    fun pc' hon' hnode => Kept.of_eq h rfl rfl rfl h.one_le h.le_max hon' hnode
  cases o with
  | more s' =>
      have heq : l = l' ∧ InsertPc.search s' = pc' := by simpa [InsertPc.step, ho] using hs
      obtain ⟨rfl, rfl⟩ := heq
      refine hkept _ ⟨h.step_on hson ho, ?_⟩ rfl
      rcases hcase with ⟨n, _, _, hc⟩ | ⟨_, _, hc⟩ | ⟨_, level, hl, hc⟩
      · cases hc
        exact hprev
      · cases hc
      · cases hc
        exact hprev.update (hl ▸ hson.mem) hson.below
  | found next' prev =>
      have heq : l = l' ∧ InsertPc.draw prev = pc' := by simpa [InsertPc.step, ho] using hs
      obtain ⟨rfl, rfl⟩ := heq
      refine hkept _ ?_ rfl
      rcases hcase with ⟨n, _, _, hc⟩ | ⟨_, hl, hc⟩ | ⟨_, level, _, hc⟩
      · cases hc
      · cases hc
        exact hprev.update (hl ▸ hson.mem) hson.below
      · cases hc

/-- The allocation of the node. -/
theorem alloc_kept (h : Threaded l T) {prev : Prev} {height : Height} (hon : PrevOn l T key prev) :
    Kept l (l.newNode key height.1).2 T T key (.alloc prev height) (.load ⟨prev, height.1, l.count, 0⟩) := by
  have hnot : ∀ j, l.count ∉ T j := fun j hm => Nat.lt_irrefl _ (h.alloc j _ hm)
  have hhead : head < l.count := h.alloc 0 head (h.head_mem 0 kMaxHeight_pos)
  have heff : Effect l (l.newNode key height.1).2 T T (some l.count) := by
    refine ⟨Nat.le_succ _, ?_, fun j => List.Sublist.refl _, fun j n hn => Or.inl hn, ?_⟩
    · intro n hn
      rw [newNode_key, if_neg (Nat.ne_of_lt hn)]
    · intro j n hn _ _
      rw [newNode_next, if_neg (Nat.ne_of_lt hn)]
  refine ⟨h.newNode key height.1, ⟨hon.mono h heff, Nat.lt_succ_self _, ?_, ?_, ?_⟩, heff, Or.inr ⟨rfl, rfl⟩⟩
  · exact (newNode_key l key height.1 l.count).trans (if_pos rfl)
  · exact fun j => iff_of_false (hnot j) (Nat.not_lt_zero j)
  · exact fun e => Nat.lt_irrefl _ (e ▸ hhead)

/-- The load of the link of `prev[i]`. -/
theorem load_kept (h : Threaded l T) {sp : Splice} (hon : sp.On l T key)
    (hfresh : sp.prev sp.level ≠ none) {draw : Random → Height × Random} {pc' : InsertPc}
    (hs : (InsertPc.load sp).step draw l key = some (l', pc')) : Kept l l' T T key (.load sp) pc' := by
  obtain ⟨p, hp⟩ := Option.ne_none_iff_exists'.mp hfresh
  obtain ⟨hmem, hbelow⟩ := hon.prev sp.level p hp
  obtain ⟨succ, hsucc⟩ := Option.ne_none_iff_exists'.mp (h.init sp.level p hmem)
  have heq : l = l' ∧ InsertPc.own sp p succ = pc' := by simpa [InsertPc.step, hp, hsucc] using hs
  obtain ⟨rfl, rfl⟩ := heq
  refine Kept.of_eq h rfl rfl rfl h.one_le h.le_max ⟨hon, hmem, hbelow, ?_⟩ rfl
  intro b hb
  exact h.fwd sp.level p hmem b (hsucc.trans (congrArg some hb))

/-- The store of the new node's own link. -/
theorem own_kept (h : Threaded l T) {sp : Splice} {p : NodeId} {succ : Option NodeId}
    (hon : (InsertPc.own sp p succ).On l T key) :
    Kept l (l.setNext sp.x sp.level succ) T T key (.own sp p succ) (.publish sp p) := by
  obtain ⟨hsp, hb⟩ := hon
  have hx : sp.x ∉ T sp.level := fun hm => Nat.lt_irrefl _ ((hsp.mem sp.level).mp hm)
  have heff : Effect l (l.setNext sp.x sp.level succ) T T (some sp.x) := by
    refine ⟨Nat.le_refl _, fun _ _ => rfl, fun j => List.Sublist.refl _, fun j n hn => Or.inl hn, ?_⟩
    intro j n _ _ hne
    rw [setNext_next, if_neg]
    exact fun hjn => hne (congrArg some hjn.1.symm)
  refine ⟨h.setOwn succ hx, ⟨?_, succ, ?_, hb.mono h heff⟩, heff, Or.inl rfl⟩
  · exact ⟨hsp.prev.mono h heff, hsp.alloc, hsp.key_eq, hsp.mem, hsp.ne_head⟩
  · rw [setNext_next, if_pos ⟨rfl, rfl⟩]

/-- The publication on a level. -/
theorem publish_kept [LawfulComparator Key] (h : Threaded l T) {sp : Splice} {p : NodeId}
    (hon : (InsertPc.publish sp p).On l T key) (hfresh : (InsertPc.publish sp p).Fresh l key) :
    Kept l (l.setNext p sp.level (some sp.x)) T (linkAt T sp.level p sp.x) key (.publish sp p)
      (if sp.level + 1 < sp.height then .load { sp with level := sp.level + 1 } else .finished sp.x) := by
  obtain ⟨hsp, succ, hown, hp, hbelow, hprec⟩ := hon
  have hx : sp.x ∉ T sp.level := fun hm => Nat.lt_irrefl _ ((hsp.mem sp.level).mp hm)
  have hthreaded : Threaded (l.setNext p sp.level (some sp.x)) (linkAt T sp.level p sp.x) := by
    refine h.publish hp hx hsp.alloc ?_ hown hprec ?_
    · intro j hj
      rw [hsp.mem]
      omega
    · intro h0
      obtain ⟨hsame, hkey⟩ := hfresh h0
      rw [h0] at hown hp
      have hnext : l.next p 0 = some succ := hsame.trans hown
      rw [hsp.key_eq]
      exact ⟨⟨hp, hbelow, succ, hnext, hkey succ hnext⟩, hnext⟩
  have heff : Effect l (l.setNext p sp.level (some sp.x)) T (linkAt T sp.level p sp.x) (some sp.x) := by
    refine ⟨Nat.le_refl _, fun _ _ => rfl, fun j => sublist_linkAt T sp.level j p sp.x, ?_, ?_⟩
    · intro j n hn
      rcases (mem_linkAt hp).mp hn with ⟨_, rfl⟩ | hn
      · exact Or.inr rfl
      · exact Or.inl hn
    · intro j n _ hnot _
      rw [setNext_next, if_neg]
      rintro ⟨rfl, rfl⟩
      exact hnot hp
  -- on every level up to this one, and on no other
  have hmem : ∀ j, sp.x ∈ linkAt T sp.level p sp.x j ↔ j < sp.level + 1 := by
    intro j
    rw [mem_linkAt hp, hsp.mem j]
    simp only [and_true]
    omega
  split
  · exact ⟨hthreaded, ⟨hsp.prev.mono h heff, hsp.alloc, hsp.key_eq, hmem, hsp.ne_head⟩, heff, Or.inl rfl⟩
  · exact ⟨hthreaded, ⟨hsp.alloc, hsp.ne_head, (hmem 0).mpr (Nat.succ_pos _), hsp.key_eq⟩, heff, Or.inl rfl⟩

/-- **One access of an `Insert` call.** -/
theorem InsertPc.On.step [LawfulComparator Key] (h : Threaded l T) {pc pc' : InsertPc}
    (hon : pc.On l T key) (hfresh : pc.Fresh l key) {draw : Random → Height × Random}
    (hs : pc.step draw l key = some (l', pc')) : ∃ T', Kept l l' T T' key pc pc' := by
  cases pc with
  | enter =>
      cases hs
      refine ⟨T, Kept.of_eq h rfl rfl rfl h.one_le h.le_max ⟨h.start_on key, ?_⟩ rfl⟩
      exact fun i p hp => absurd hp (by simp [Search.start])
  | search s => exact ⟨T, search_kept h hon hs⟩
  | draw prev =>
      cases hs
      exact ⟨T, Kept.of_eq h rfl rfl rfl h.one_le h.le_max hon rfl⟩
  | check prev height =>
      cases hs
      split
      · exact ⟨T, Kept.of_eq h rfl rfl rfl h.one_le h.le_max hon rfl⟩
      · exact ⟨T, Kept.of_eq h rfl rfl rfl h.one_le h.le_max hon rfl⟩
  | fill prev height =>
      cases hs
      exact ⟨T, Kept.of_eq h rfl rfl rfl h.one_le h.le_max (hon.raisePrev h _ height) rfl⟩
  | raise prev height =>
      cases hs
      exact ⟨T, Kept.of_eq h rfl rfl rfl height.2.1 height.2.2 hon rfl⟩
  | alloc prev height =>
      cases hs
      exact ⟨T, alloc_kept h hon⟩
  | load sp => exact ⟨T, load_kept h hon hfresh hs⟩
  | own sp p succ =>
      cases hs
      exact ⟨T, own_kept h hon⟩
  | publish sp p =>
      cases hs
      exact ⟨_, publish_kept h hon hfresh⟩
  | finished x => exact absurd hs (by simp [InsertPc.step])
  | derailed => exact absurd hs (by simp [InsertPc.step])

/-- The node of a call is allocated. -/
theorem InsertPc.On.node_lt {pc : InsertPc} (hon : pc.On l T key) {x : NodeId} (hx : pc.node = some x) :
    x < l.count := by
  cases pc with
  | load sp => exact Option.some.inj hx ▸ Splice.On.alloc hon
  | own sp p succ => exact Option.some.inj hx ▸ hon.1.alloc
  | publish sp p => exact Option.some.inj hx ▸ hon.1.alloc
  | finished y => exact Option.some.inj hx ▸ hon.1
  | _ => exact absurd hx (by simp [InsertPc.node])

/-! ## One access of a reader -/

/-- The reader has yielded `x` or still has it ahead. -/
def Reader.Owes (T : Nat → List NodeId) (x : NodeId) (rd : Reader Key) : Prop :=
  match rd.pc with
  | .standing n => x ∈ rd.yielded ∨ Precedes (T 0) n x
  | .finished => x ∈ rd.yielded
  | _ => True

omit [Comparator Key] in
theorem Reader.Owes.mono {x : NodeId} {rd : Reader Key} (hsub : (T 0).Sublist (T' 0)) (ho : rd.Owes T x) :
    rd.Owes T' x := by
  unfold Reader.Owes at ho ⊢
  cases hpc : rd.pc with
  | standing n =>
      rw [hpc] at ho
      exact ho.imp_right (fun hp => hp.mono hsub)
  | finished =>
      rw [hpc] at ho
      exact ho
  | _ => trivial

theorem Threaded.eq_head_cons (h : Threaded l T) : ∃ N, T 0 = head :: N := by
  have hf := h.first
  cases hT : T 0 with
  | nil =>
      rw [hT] at hf
      exact absurd hf (by simp)
  | cons a N =>
      rw [hT] at hf
      exact ⟨N, by rw [Option.some.inj hf]⟩

/-- **What an access of a reader does.** It continues the search, or it moves to the start of a part `w` of
    level 0, past a part `u` that has nothing left to yield. -/
theorem Reader.On.step_cases [LawfulComparator Key] (h : Threaded l T) {rd rd' : Reader Key}
    (hon : rd.On l T) (hs : rd.step l = some rd') :
    (∃ s', rd' = { rd with pc := .search s' } ∧ s'.On l T rd.target ∧ rd.yielded = []) ∨
    (∃ u w, T 0 = head :: (u ++ w) ∧ rd' = rd.moveTo w.head? ∧ rd.yielded.Sublist u ∧
      ∀ x ∈ u, rd.Owes T x → ¬ compare (l.key x) rd.target < 0 → x ∈ rd.yielded) := by
  unfold Reader.On at hon
  unfold Reader.step at hs
  cases hpc : rd.pc with
  | enter =>
      simp only [hpc] at hon hs
      exact Or.inl ⟨_, (Option.some.inj hs).symm, h.start_on rd.target, hon⟩
  | search s =>
      simp only [hpc] at hon hs
      obtain ⟨hson, hnil⟩ := hon
      obtain ⟨o, ho⟩ := Option.ne_none_iff_exists'.mp (h.step_ne_none hson)
      rw [ho] at hs
      cases o with
      | more s' => exact Or.inl ⟨s', (Option.some.inj hs).symm, h.step_on hson ho, hnil⟩
      | found next prev =>
          obtain ⟨next', hn, hcase⟩ := Search.step_cases ho
          rcases hcase with ⟨n, _, _, hc⟩ | ⟨hk, hl, hc⟩ | ⟨_, level, _, hc⟩
          · cases hc
          · cases hc
            -- the search ends where level 0 is cut by the target
            rw [hl] at hn
            obtain ⟨A, B, hT, hB, hA, _, _⟩ := h.cut ⟨hl ▸ hson.mem, hson.below, next, hn, hk⟩
            have hnext : next = B.head? := Option.some.inj (hn.symm.trans hB)
            refine Or.inr ⟨A, B, hT, ?_, hnil ▸ List.nil_sublist A, fun x hx _ hge => absurd (hA x hx) hge⟩
            rw [← hnext]
            exact (Option.some.inj hs).symm
          · cases hc
  | standing n =>
      simp only [hpc] at hon hs
      obtain ⟨⟨ys, hys⟩, hsub⟩ := hon
      obtain ⟨N, hN⟩ := h.eq_head_cons
      rw [hN, List.tail_cons] at hsub
      obtain ⟨u, w, rfl⟩ := List.append_of_mem (hsub.subset (hys ▸ List.mem_append_right ys List.mem_cons_self))
      have hnd : (head :: (u ++ n :: w)).Nodup := hN ▸ h.nodup 0
      have hlink : Linked (l.level 0) ((head :: u) ++ n :: w) := by
        have hl := h.linked
        rw [hN] at hl
        exact hl
      have hnext : l.iterNext n = some w.head? := hlink.next_eq
      rw [hnext] at hs
      refine Or.inr ⟨u ++ [n], w, by rw [hN]; simp, (Option.some.inj hs).symm, ?_, ?_⟩
      · rw [hys] at hsub ⊢
        exact sublist_upto (List.nodup_cons.mp hnd).2 hsub
      · -- a node that is still ahead stands in `w`, not in `u ++ [n]`
        intro x hx howes _
        unfold Reader.Owes at howes
        rw [hpc] at howes
        refine howes.resolve_right (fun hprec => ?_)
        have hxw : x ∈ w := by
          rw [hN] at hprec
          exact (precedes_split (u := head :: u) hnd).mp hprec
        have hnd' : ((u ++ [n]) ++ w).Nodup := by
          have := (List.nodup_cons.mp hnd).2
          simpa using this
        exact (List.nodup_append.mp hnd').2.2 x hx x hxw rfl
  | finished =>
      simp only [hpc] at hs
      exact absurd hs (by simp)
  | fault =>
      simp only [hpc] at hon

/-- A reader stays on the published nodes. -/
theorem Reader.On.step [LawfulComparator Key] (h : Threaded l T) {rd rd' : Reader Key} (hon : rd.On l T)
    (hs : rd.step l = some rd') : rd'.On l T := by
  rcases hon.step_cases h hs with ⟨s', rfl, hson, hnil⟩ | ⟨u, w, hT, rfl, hsub, _⟩
  · exact ⟨hson, hnil⟩
  · cases w with
    | nil =>
        show rd.yielded.Sublist (T 0).tail
        rw [hT, List.tail_cons, List.append_nil]
        exact hsub
    | cons m w =>
        refine ⟨⟨rd.yielded, rfl⟩, ?_⟩
        show (rd.yielded ++ [m]).Sublist (T 0).tail
        rw [hT, List.tail_cons]
        exact hsub.append (List.singleton_sublist.mpr List.mem_cons_self)

/-- A reader passes over no node that it owes. -/
theorem Reader.Owes.step [LawfulComparator Key] (h : Threaded l T) {rd rd' : Reader Key} (hon : rd.On l T)
    (hs : rd.step l = some rd') {x : NodeId} (hx : x ∈ T 0) (hne : x ≠ head)
    (hge : ¬ compare (l.key x) rd.target < 0) (ho : rd.Owes T x) : rd'.Owes T x := by
  rcases hon.step_cases h hs with ⟨s', rfl, _, _⟩ | ⟨u, w, hT, rfl, _, hu⟩
  · trivial
  · have hxuw : x ∈ u ∨ x ∈ w := by
      rw [hT] at hx
      exact List.mem_append.mp ((List.mem_cons.mp hx).resolve_left hne)
    cases w with
    | nil =>
        show x ∈ rd.yielded
        exact hu x (hxuw.resolve_right List.not_mem_nil) ho hge
    | cons m w =>
        show x ∈ rd.yielded ++ [m] ∨ Precedes (T 0) m x
        rcases hxuw with hxu | hxw
        · exact Or.inl (List.mem_append_left _ (hu x hxu ho hge))
        · rcases List.mem_cons.mp hxw with rfl | hxw
          · exact Or.inl (List.mem_append_right _ List.mem_cons_self)
          · refine Or.inr ?_
            have hprec : Precedes (m :: w) m x := precedes_cons.mpr (Or.inr ⟨rfl, hxw⟩)
            rw [hT]
            exact hprec.mono ((List.sublist_append_right u _).trans (List.sublist_cons_self head _))

/-- The target of a reader is fixed. -/
theorem Reader.step_target {rd rd' : Reader Key} (hs : rd.step l = some rd') : rd'.target = rd.target := by
  unfold Reader.step at hs
  split at hs
  · cases hs
    rfl
  · split at hs
    · cases hs
      rfl
    · cases hs
      rfl
    · cases hs
      rename_i next _ _
      cases next <;> rfl
  · split at hs
    · cases hs
      rfl
    · cases hs
      rename_i next _
      cases next <;> rfl
  · cases hs
  · cases hs

/-! ## The system -/

namespace Sys

/-- What the event `e` needs in state `s` of the `Insert` call that moves, if one does. -/
def Fresh (s : Sys Key) : Event Key → Prop
  | .write w => ∀ ins ∈ s.inserts w, ins.pc.Fresh s.list ins.key
  | _ => True

instance (s : Sys Key) : (e : Event Key) → Decidable (s.Fresh e)
  | .write w => inferInstanceAs (Decidable (∀ ins ∈ s.inserts w, ins.pc.Fresh s.list ins.key))
  | .insert _ _ | .seek _ _ | .read _ => isTrue trivial

/-- **The invariant**, for a system that started on a list with the nodes `T₀` on level 0. Level 0 holds
    those and nodes of `Insert` calls, and every call has a node of its own. -/
structure Sound (T₀ : List NodeId) (s : Sys Key) (T : Nat → List NodeId) : Prop where
  threaded : Threaded s.list T
  inserts : ∀ w ins, s.inserts w = some ins → ins.pc.On s.list T ins.key
  readers : ∀ r rd, s.readers r = some rd → rd.On s.list T
  owner : ∀ w w' ins ins' x, s.inserts w = some ins → s.inserts w' = some ins' →
    ins.pc.node = some x → ins'.pc.node = some x → w = w'
  kept : ∀ n ∈ T₀, n ∈ T 0
  foreign : ∀ w ins x, s.inserts w = some ins → ins.pc.node = some x → x ∉ T₀
  origin : ∀ n ∈ T 0, n ∈ T₀ ∨ ∃ w ins, s.inserts w = some ins ∧ ins.pc.node = some n

theorem sound_idle (h : Threaded l T) : Sound (T 0) (idle l) T where
  threaded := h
  inserts := fun w ins hw => absurd hw (by simp [idle])
  readers := fun r rd hr => absurd hr (by simp [idle])
  owner := fun w w' ins ins' x hw => absurd hw (by simp [idle])
  kept := fun n hn => hn
  foreign := fun w ins x hw => absurd hw (by simp [idle])
  origin := fun n hn => Or.inl hn

variable {T₀ : List NodeId} {s s' : Sys Key} {draw : Random → Height × Random}

/-- An `Insert` call begins. -/
theorem Sound.begin (h : Sound T₀ s T) {w : Nat} (key : Key) (hw : s.inserts w = none) :
    Sound T₀ { s with inserts := Function.update s.inserts w (some ⟨key, .enter⟩) } T := by
  -- a call that has a node is one of the old ones
  have hold : ∀ w' ins x, Function.update s.inserts w (some ⟨key, .enter⟩) w' = some ins →
      ins.pc.node = some x → s.inserts w' = some ins := by
    intro w' ins x hw' hx
    rcases update_cases hw' with ⟨_, rfl⟩ | ⟨_, hw'⟩
    · exact absurd hx (by simp [InsertPc.node])
    · exact hw'
  constructor
  case threaded => exact h.threaded
  case readers => exact h.readers
  case kept => exact h.kept
  case inserts =>
    intro w' ins hw'
    rcases update_cases hw' with ⟨_, rfl⟩ | ⟨_, hw'⟩
    · trivial
    · exact h.inserts w' ins hw'
  case owner =>
    intro w₁ w₂ ins₁ ins₂ x h₁ h₂ hx₁ hx₂
    exact h.owner w₁ w₂ ins₁ ins₂ x (hold _ _ _ h₁ hx₁) (hold _ _ _ h₂ hx₂) hx₁ hx₂
  case foreign => exact fun w' ins x hw' hx => h.foreign w' ins x (hold _ _ _ hw' hx) hx
  case origin =>
    intro n hn
    rcases h.origin n hn with h0 | ⟨w', ins, hw', hx⟩
    · exact Or.inl h0
    · refine Or.inr ⟨w', ins, ?_, hx⟩
      have hww : w' ≠ w := fun e => absurd (hw.symm.trans (e ▸ hw')) (by simp)
      exact (Function.update_of_ne hww _ _).trans hw'

/-- An `Insert` call makes an access. -/
theorem Sound.write (h : Sound T₀ s T) {w : Nat} {ins : Insertion Key} {pc' : InsertPc}
    (hw : s.inserts w = some ins) (hk : Kept s.list l' T T' ins.key ins.pc pc') :
    Sound T₀ { s with list := l', inserts := Function.update s.inserts w (some ⟨ins.key, pc'⟩) } T' := by
  -- no other call has the node that this one has after the access
  have hother : ∀ w' ins' x, w' ≠ w → s.inserts w' = some ins' → ins'.pc.node = some x →
      pc'.node ≠ some x := by
    intro w' ins' x hww hw' hx hmine
    rcases hk.node with hsame | hnew
    · exact hww (h.owner w' w ins' ins x hw' hw hx (hsame.symm.trans hmine))
    · have hlt := (h.inserts w' ins' hw').node_lt hx
      rw [← Option.some.inj (hnew.2.symm.trans hmine)] at hlt
      exact Nat.lt_irrefl _ hlt
  constructor
  case threaded => exact hk.threaded
  case readers => exact fun r rd hr => (h.readers r rd hr).mono h.threaded hk.effect
  case kept => exact fun n hn => (hk.effect.sub 0).subset (h.kept n hn)
  case inserts =>
    intro w' ins' hw'
    rcases update_cases hw' with ⟨rfl, rfl⟩ | ⟨hww, hold⟩
    · exact hk.on
    · exact (h.inserts w' ins' hold).mono h.threaded hk.effect (fun x hx => hother w' ins' x hww hold hx)
  case owner =>
    intro w₁ w₂ ins₁ ins₂ x h₁ h₂ hx₁ hx₂
    rcases update_cases h₁ with ⟨rfl, rfl⟩ | ⟨hne₁, hold₁⟩
    · rcases update_cases h₂ with ⟨rfl, rfl⟩ | ⟨hne₂, hold₂⟩
      · rfl
      · exact absurd hx₁ (hother w₂ ins₂ x hne₂ hold₂ hx₂)
    · rcases update_cases h₂ with ⟨rfl, rfl⟩ | ⟨_, hold₂⟩
      · exact absurd hx₂ (hother w₁ ins₁ x hne₁ hold₁ hx₁)
      · exact h.owner w₁ w₂ ins₁ ins₂ x hold₁ hold₂ hx₁ hx₂
  case foreign =>
    intro w' ins' x hw' hx
    rcases update_cases hw' with ⟨rfl, rfl⟩ | ⟨_, hold⟩
    · rcases hk.node with hsame | hnew
      · exact h.foreign w' ins x hw (hsame.symm.trans hx)
      · -- the node just allocated is new
        intro hmem
        have hlt := h.threaded.alloc 0 x (h.kept x hmem)
        rw [← Option.some.inj (hnew.2.symm.trans hx)] at hlt
        exact Nat.lt_irrefl _ hlt
    · exact h.foreign w' ins' x hold hx
  case origin =>
    intro n hn
    have hself : Function.update s.inserts w (some ⟨ins.key, pc'⟩) w = some ⟨ins.key, pc'⟩ :=
      Function.update_self ..
    rcases hk.effect.new 0 n hn with hn | hmine
    · rcases h.origin n hn with h0 | ⟨w', ins', hw', hx⟩
      · exact Or.inl h0
      · by_cases hww : w' = w
        · subst hww
          have hins : ins = ins' := Option.some.inj (hw.symm.trans hw')
          subst hins
          refine Or.inr ⟨w', _, hself, ?_⟩
          rcases hk.node with hsame | hnew
          · exact hsame.trans hx
          · exact absurd (hnew.1.symm.trans hx) (by simp)
        · exact Or.inr ⟨w', ins', (Function.update_of_ne hww _ _).trans hw', hx⟩
    · exact Or.inr ⟨w, _, hself, hmine⟩

/-- A reader begins or makes an access. -/
theorem Sound.read (h : Sound T₀ s T) {r : Nat} {rd : Reader Key} (hon : rd.On s.list T) :
    Sound T₀ { s with readers := Function.update s.readers r (some rd) } T where
  threaded := h.threaded
  inserts := h.inserts
  owner := h.owner
  kept := h.kept
  foreign := h.foreign
  origin := h.origin
  readers := fun r' rd' hr' => by
    rcases update_cases hr' with ⟨_, rfl⟩ | ⟨_, hr'⟩
    · exact hon
    · exact h.readers r' rd' hr'

/-- **One event keeps the invariant**, and memory changes as `Effect` says. -/
theorem Sound.step [LawfulComparator Key] (h : Sound T₀ s T) {e : Event Key} (hfresh : s.Fresh e)
    (hs : s.step draw e = some s') : ∃ T' mine, Sound T₀ s' T' ∧ Effect s.list s'.list T T' mine := by
  have hsame : Effect s.list s.list T T none := Effect.of_eq rfl rfl rfl none
  rcases step_cases hs with ⟨w, key, rfl, hw, rfl⟩ | ⟨w, ins, l', pc', rfl, hw, hpc, rfl⟩ |
    ⟨r, target, rfl, _, rfl⟩ | ⟨r, rd, rd', rfl, hr, hrd, rfl⟩
  · exact ⟨T, none, h.begin key hw, hsame⟩
  · obtain ⟨T', hk⟩ := (h.inserts w ins hw).step h.threaded (hfresh ins hw) hpc
    exact ⟨T', _, h.write hw hk, hk.effect⟩
  · exact ⟨T, none, h.read rfl, hsame⟩
  · exact ⟨T, none, h.read ((h.readers r rd hr).step h.threaded hrd), hsame⟩

end Sys

end ZhiCache.SkipList
