import ZhiCache.Handler.KvHandler
import ZhiCache.Lib.Run
import Mathlib.Algebra.GroupWithZero.Nat

/-!
# `Handler.BatchQuery` — the fibers of `/list` and the strings they refer to

`BatchQueryKeyHandler::OnPost` starts a fiber for every key, and the fiber reads the key through a reference
into `key_vec`: `HashKv::Get` reads it once for the hash and once more for the search. Meanwhile the loop that
collects the values moves the strings out of the same vector. `ListCall` is the handler with these accesses
apart. What a move leaves behind is unspecified, so the event of the loop brings it along.

* No fiber reads a string that has been moved: the loop moves a key only when the fiber of this key has
  returned (`Intact`). So, what the accesses can do, `BatchQueryPc` can do, whose keys never change
  (`Intact.simulates`).
* With no writers about, `BatchQueryPc` answers what the handler answers without interruption (`Collects`).
* Every run ends, and ends with the answer (`list_answers`).
-/

namespace ZhiCache

open Lib

/-! ## The handler, one access after another -/

/-- A fiber that runs `KvManager::Query`. -/
inductive QueryFiber where
  | spawned
  /-- `Hash(key)` has chosen the partition. -/
  | hashed (partition : Nat)
  | returned (value : Option Addr)
  deriving DecidableEq

/-- Where `BatchQueryKeyHandler::OnPost` stands. -/
inductive ListPc where
  /-- In the loop that starts the fibers. -/
  | spawning
  /-- In the loop that collects their values. -/
  | collecting (index : Nat) (results : List InsertRequest)
  | answered (status : HttpStatus) (results : List InsertRequest)
  /-- The loop has read a string outside `key_vec` or a destroyed value. -/
  | fault (index : Nat)
  deriving DecidableEq

/-- A `/list` request that is being handled; `fibers` are those started so far. -/
structure ListCall where
  keyVec : List String
  fibers : List QueryFiber
  pc : ListPc

/-- What can happen. -/
inductive ListEvent where
  /-- The next turn of the loop that starts the fibers. -/
  | spawn
  /-- The fiber of the key at `i` hashes its key. -/
  | hash (i : Nat)
  /-- It searches the partition for its key, and returns. -/
  | find (i : Nat)
  /-- The next turn of the loop that collects the values; a key that it moves becomes `left`. -/
  | collect (left : String)

namespace ListCall

/-- The request arrives. -/
def start (keys : List String) : ListCall :=
  ⟨keys, [], if keys = [] then .answered .badRequest [] else .spawning⟩

/-- The call after an event; none when the event is not possible. -/
def step (kv : KvManager) (s : ListCall) : ListEvent → Option ListCall
  | .spawn =>
    match s.pc with
    | .spawning =>
      if s.fibers.length < s.keyVec.length then some { s with fibers := s.fibers ++ [.spawned] }
      else some { s with pc := .collecting 0 [] }
    | _ => none
  | .hash i =>
    match s.fibers[i]?, s.keyVec[i]? with
    | some .spawned, some key => some { s with fibers := s.fibers.set i (.hashed (kv.memdb.index key)) }
    | _, _ => none
  | .find i =>
    match s.fibers[i]?, s.keyVec[i]? with
    | some (.hashed partition), some key =>
      some { s with fibers := s.fibers.set i (.returned ((kv.memdb.mapVec partition).lookup key)) }
    | _, _ => none
  | .collect left =>
    match s.pc with
    | .collecting index results =>
      match s.fibers[index]? with
      | none => some { s with pc := .answered (if results = [] then .notFound else .ok) results }
      | some (.returned none) => some { s with pc := .collecting (index + 1) results }
      | some (.returned (some value)) =>
        match s.keyVec[index]?, kv.memdb.deref value with
        | some key, some v => some { s with
            keyVec := s.keyVec.set index left, pc := .collecting (index + 1) (results ++ [⟨key, v⟩]) }
        | _, _ => some { s with pc := .fault index }
      -- `BlockingGet` waits for the fiber
      | some _ => none
    | _ => none

end ListCall

/-! ## What an event can do -/

/-- The possible events and their effects, as a relation. -/
inductive ListCall.Effect (kv : KvManager) (s : ListCall) : ListEvent → ListCall → Prop where
  | spawn : s.pc = .spawning → s.fibers.length < s.keyVec.length →
      Effect kv s .spawn { s with fibers := s.fibers ++ [.spawned] }
  | spawned : s.pc = .spawning → s.keyVec.length ≤ s.fibers.length →
      Effect kv s .spawn { s with pc := .collecting 0 [] }
  | hash {i key} : s.fibers[i]? = some .spawned → s.keyVec[i]? = some key →
      Effect kv s (.hash i) { s with fibers := s.fibers.set i (.hashed (kv.memdb.index key)) }
  | find {i partition key} : s.fibers[i]? = some (.hashed partition) → s.keyVec[i]? = some key →
      Effect kv s (.find i)
        { s with fibers := s.fibers.set i (.returned ((kv.memdb.mapVec partition).lookup key)) }
  | answer {index results} (left) : s.pc = .collecting index results → s.fibers[index]? = none →
      Effect kv s (.collect left) { s with pc := .answered (if results = [] then .notFound else .ok) results }
  | absent {index results} (left) : s.pc = .collecting index results →
      s.fibers[index]? = some (.returned none) →
      Effect kv s (.collect left) { s with pc := .collecting (index + 1) results }
  | present {index results value key v} (left) : s.pc = .collecting index results →
      s.fibers[index]? = some (.returned (some value)) → s.keyVec[index]? = some key →
      kv.memdb.deref value = some v →
      Effect kv s (.collect left) { s with
        keyVec := s.keyVec.set index left, pc := .collecting (index + 1) (results ++ [⟨key, v⟩]) }
  | fault {index results value} (left) : s.pc = .collecting index results →
      s.fibers[index]? = some (.returned (some value)) →
      s.keyVec[index]? = none ∨ kv.memdb.deref value = none →
      Effect kv s (.collect left) { s with pc := .fault index }

namespace ListCall

variable {kv : KvManager} {keys : List String} {s s' : ListCall} {e : ListEvent} {es : List ListEvent}

/-- **Inversion of a step.** -/
theorem step_cases (h : s.step kv e = some s') : s.Effect kv e s' := by
  cases e with
  | spawn =>
      simp only [step] at h
      split at h
      · rename_i hpc
        split at h
        · rename_i hlt
          exact Option.some.inj h ▸ .spawn hpc hlt
        · rename_i hge
          exact Option.some.inj h ▸ .spawned hpc (Nat.le_of_not_lt hge)
      · exact absurd h (by simp)
  | hash i =>
      simp only [step] at h
      split at h
      · rename_i hf hk
        exact Option.some.inj h ▸ .hash hf hk
      · exact absurd h (by simp)
  | find i =>
      simp only [step] at h
      split at h
      · rename_i hf hk
        exact Option.some.inj h ▸ .find hf hk
      · exact absurd h (by simp)
  | collect left =>
      simp only [step] at h
      split at h
      · rename_i index results hpc
        split at h
        · rename_i hf
          exact Option.some.inj h ▸ .answer left hpc hf
        · rename_i hf
          exact Option.some.inj h ▸ .absent left hpc hf
        · rename_i value hf
          split at h
          · rename_i hk hd
            exact Option.some.inj h ▸ .present left hpc hf hk hd
          · rename_i hnone
            refine Option.some.inj h ▸ .fault left hpc hf ?_
            by_contra hboth
            obtain ⟨hk, hd⟩ := not_or.mp hboth
            obtain ⟨key, hk⟩ := Option.ne_none_iff_exists'.mp hk
            obtain ⟨v, hd⟩ := Option.ne_none_iff_exists'.mp hd
            exact hnone key v hk hd
        · exact absurd h (by simp)
      · exact absurd h (by simp)

end ListCall

/-! ## The strings that the fibers read -/

/-- The element found after one has been replaced is the new one, or an old one. -/
theorem getElem?_set_cases {α : Type*} {l : List α} {i j : Nat} {a b : α} (h : (l.set i a)[j]? = some b) :
    (j = i ∧ b = a) ∨ (j ≠ i ∧ l[j]? = some b) := by
  by_cases hji : j = i
  · subst hji
    obtain ⟨hlt, hb⟩ := List.getElem?_eq_some_iff.mp h
    exact Or.inl ⟨rfl, hb.symm.trans (List.getElem_set_self hlt)⟩
  · rw [List.getElem?_set_ne (Ne.symm hji)] at h
    exact Or.inr ⟨hji, h⟩

/-- The element found after one has been appended is the new one, or an old one. -/
theorem getElem?_concat_cases {α : Type*} {l : List α} {i : Nat} {a b : α} (h : (l ++ [a])[i]? = some b) :
    b = a ∨ l[i]? = some b := by
  rw [List.getElem?_append] at h
  split at h
  · exact Or.inr h
  · exact Or.inl (List.mem_singleton.mp (List.mem_of_getElem? h))

/-- The loop that collects the values is done with the key at `i`. -/
def ListPc.Passed : ListPc → Nat → Prop
  | spawning, _ => False
  | collecting index _, i => i < index
  | answered _ _, _ => True
  | fault index, i => i < index

namespace ListCall

/-- The keys that fibers have yet to read are those of the request. -/
structure Intact (kv : KvManager) (keys : List String) (s : ListCall) : Prop where
  size : s.keyVec.length = keys.length
  /-- Only keys that the loop has passed can have been moved. -/
  unmoved : ∀ i : Nat, ¬ s.pc.Passed i → s.keyVec[i]? = keys[i]?
  started : s.fibers.length ≤ keys.length
  allStarted : ∀ index results, s.pc = .collecting index results →
    s.fibers.length = keys.length ∧ index ≤ keys.length
  hashed : ∀ (i partition : Nat), s.fibers[i]? = some (.hashed partition) →
    ∃ key, keys[i]? = some key ∧ kv.memdb.index key = partition
  /-- The loop passes a key only when its fiber has returned. -/
  returned : ∀ (i : Nat) (f : QueryFiber), s.pc.Passed i → s.fibers[i]? = some f → ∃ value, f = .returned value

variable {kv : KvManager} {keys : List String} {s s' : ListCall} {e : ListEvent} {es : List ListEvent}

theorem intact_start (kv : KvManager) (keys : List String) : (start keys).Intact kv keys where
  size := rfl
  unmoved := fun _ _ => rfl
  started := Nat.zero_le _
  allStarted := by
    intro index results hpc
    unfold start at hpc
    split at hpc
    · exact absurd hpc (by simp)
    · exact absurd hpc (by simp)
  hashed := fun i partition h => absurd h (by simp [start])
  returned := fun i f _ h => absurd h (by simp [start])

/-- A fiber that has not returned finds the key of the request. -/
theorem Intact.key_eq (h : s.Intact kv keys) {i : Nat} {f : QueryFiber} {key : String}
    (hf : s.fibers[i]? = some f) (hrunning : ∀ value, f ≠ .returned value) (hk : s.keyVec[i]? = some key) :
    ¬ s.pc.Passed i ∧ keys[i]? = some key := by
  have hpassed : ¬ s.pc.Passed i := by
    intro hp
    obtain ⟨value, rfl⟩ := h.returned i f hp hf
    exact hrunning value rfl
  exact ⟨hpassed, h.unmoved i hpassed ▸ hk⟩

/-- The loop is at a key that has not been moved. -/
theorem Intact.current (h : s.Intact kv keys) {index : Nat} {results : List InsertRequest}
    (hpc : s.pc = .collecting index results) : s.keyVec[index]? = keys[index]? := by
  refine h.unmoved index ?_
  rw [hpc]
  exact Nat.lt_irrefl index

theorem Intact.exists_key (h : s.Intact kv keys) {i : Nat} {f : QueryFiber} (hf : s.fibers[i]? = some f) :
    ∃ key, keys[i]? = some key :=
  ⟨_, List.getElem?_eq_getElem (Nat.lt_of_lt_of_le (List.getElem?_eq_some_iff.mp hf).1 h.started)⟩

/-- A fiber takes a step. -/
theorem Intact.setFiber (h : s.Intact kv keys) {i : Nat} {f : QueryFiber} {key : String}
    (hpassed : ¬ s.pc.Passed i) (hk : keys[i]? = some key)
    (hf : ∀ partition, f = .hashed partition → kv.memdb.index key = partition) :
    { s with fibers := s.fibers.set i f }.Intact kv keys where
  size := h.size
  unmoved := h.unmoved
  started := by
    rw [List.length_set]
    exact h.started
  allStarted := by
    intro index results hpc
    rw [List.length_set]
    exact h.allStarted index results hpc
  hashed := by
    intro j partition hj
    rcases getElem?_set_cases hj with ⟨rfl, hjf⟩ | ⟨-, hjold⟩
    · exact ⟨key, hk, hf partition hjf.symm⟩
    · exact h.hashed j partition hjold
  returned := by
    intro j g hp hj
    rcases getElem?_set_cases hj with ⟨rfl, -⟩ | ⟨-, hjold⟩
    · exact absurd hp hpassed
    · exact h.returned j g hp hjold

/-- The loop goes on to the next key, and has perhaps moved this one. -/
theorem Intact.next (h : s.Intact kv keys) {index : Nat} {results results' : List InsertRequest}
    {value : Option Addr} {keyVec : List String} (hpc : s.pc = .collecting index results)
    (hf : s.fibers[index]? = some (.returned value)) (hsize : keyVec.length = s.keyVec.length)
    (hothers : ∀ i, i ≠ index → keyVec[i]? = s.keyVec[i]?) :
    { s with keyVec := keyVec, pc := .collecting (index + 1) results' }.Intact kv keys where
  size := hsize.trans h.size
  unmoved := by
    intro i hi
    have hlt : ¬ i < index + 1 := hi
    rw [hothers i (by omega)]
    refine h.unmoved i ?_
    rw [hpc]
    exact fun hp => hlt (Nat.lt_succ_of_lt hp)
  started := h.started
  allStarted := by
    intro index' _ hpc'
    obtain ⟨rfl, -⟩ := ListPc.collecting.inj hpc'
    have hall := (h.allStarted index results hpc).1
    exact ⟨hall, hall ▸ (List.getElem?_eq_some_iff.mp hf).1⟩
  hashed := h.hashed
  returned := by
    intro i f hp hfi
    rcases Nat.lt_succ_iff_lt_or_eq.mp hp with hlt | rfl
    · refine h.returned i f ?_ hfi
      rw [hpc]
      exact hlt
    · exact ⟨value, Option.some.inj (hfi.symm.trans hf)⟩

/-- **Every event keeps the keys intact.** -/
theorem Intact.effect (h : s.Intact kv keys) (he : s.Effect kv e s') : s'.Intact kv keys := by
  cases he with
  | spawn hpc hlt =>
      refine ⟨h.size, h.unmoved, ?_, fun index results hc => ?_, fun i partition hi => ?_, fun i f hp => ?_⟩
      · rw [List.length_append, List.length_singleton, ← h.size]
        exact hlt
      · exact absurd (hpc.symm.trans hc) (by simp)
      · rcases getElem?_concat_cases hi with hnew | hold
        · exact absurd hnew (by simp)
        · exact h.hashed i partition hold
      · rw [hpc] at hp
        exact hp.elim
  | spawned hpc hle =>
      have hunmoved : ∀ i, s.keyVec[i]? = keys[i]? := fun i => h.unmoved i (by rw [hpc]; exact not_false)
      refine ⟨h.size, fun i _ => hunmoved i, h.started, fun index _ hc => ?_, h.hashed, fun i f hp => ?_⟩
      · obtain ⟨rfl, -⟩ := ListPc.collecting.inj hc
        exact ⟨Nat.le_antisymm h.started (h.size ▸ hle), Nat.zero_le _⟩
      · exact absurd hp (Nat.not_lt_zero i)
  | hash hf hk =>
      obtain ⟨hpassed, hkey⟩ := h.key_eq hf (by simp) hk
      exact h.setFiber hpassed hkey (fun partition hp => QueryFiber.hashed.inj hp)
  | find hf hk =>
      obtain ⟨hpassed, hkey⟩ := h.key_eq hf (by simp) hk
      exact h.setFiber hpassed hkey (fun partition hp => absurd hp (by simp))
  | @answer index results left hpc hf =>
      refine ⟨h.size, fun i hi => absurd trivial hi, h.started, fun _ _ hc => absurd hc (by simp), h.hashed, ?_⟩
      intro i f _ hfi
      refine h.returned i f ?_ hfi
      rw [hpc]
      exact Nat.lt_of_lt_of_le (List.getElem?_eq_some_iff.mp hfi).1 (List.getElem?_eq_none_iff.mp hf)
  | absent left hpc hf => exact h.next hpc hf rfl (fun _ _ => rfl)
  | present left hpc hf hk hd =>
      exact h.next hpc hf List.length_set (fun i hi => List.getElem?_set_ne hi.symm)
  | @fault index results value left hpc hf hnone =>
      have hsame : s.pc.Passed = (ListPc.fault index).Passed := by
        rw [hpc]
        rfl
      refine ⟨h.size, fun i hi => ?_, h.started, fun _ _ hc => absurd hc (by simp), h.hashed, fun i f hp => ?_⟩
      · exact h.unmoved i (hsame ▸ hi)
      · exact h.returned i f (hsame ▸ hp)

end ListCall

/-! ## The handler with keys that do not change -/

/-- What the fiber has returned. -/
def QueryFiber.value : QueryFiber → Option (Option Addr)
  | returned value => some value
  | _ => none

namespace ListCall

/-- What the fibers have returned. -/
def values (fibers : List QueryFiber) (i : Nat) : Option (Option Addr) := fibers[i]?.bind QueryFiber.value

/-- The call, seen as one whose keys are those of the request throughout. -/
def coarse (keys : List String) (s : ListCall) : BatchQueryPc :=
  match s.pc with
  | .spawning => .collecting keys (values s.fibers) 0 []
  | .collecting index results => .collecting keys (values s.fibers) index results
  | .answered status results => .answered status results
  | .fault _ => .fault

theorem coarse_start (keys : List String) : (start keys).coarse keys = BatchQueryPc.start keys := by
  unfold coarse start BatchQueryPc.start
  by_cases hnil : keys = []
  · rw [if_pos hnil, if_pos hnil]
  · rw [if_neg hnil, if_neg hnil]
    rfl

end ListCall

/-- What can happen to the call with unchanging keys. -/
inductive BatchQueryEvent where
  | get (i : Nat)
  | read (i : Nat)

/-- The call after an event; none when the event is not possible. -/
def BatchQueryPc.step (kv : KvManager) (pc : BatchQueryPc) : BatchQueryEvent → Option BatchQueryPc
  | .get i => pc.get kv i
  | .read i => pc.read kv i

namespace ListCall

variable {kv : KvManager} {keys : List String} {s s' : ListCall} {e : ListEvent} {es : List ListEvent}

theorem values_of_getElem? {fibers : List QueryFiber} {i : Nat} {f : QueryFiber} (h : fibers[i]? = some f) :
    values fibers i = f.value := by
  rw [values, h, Option.bind_some]

/-- A fiber that has just been started has returned nothing. -/
theorem values_concat (fibers : List QueryFiber) : values (fibers ++ [.spawned]) = values fibers := by
  funext i
  unfold values
  rcases Nat.lt_trichotomy i fibers.length with hlt | rfl | hgt
  · rw [List.getElem?_append_left hlt]
  · simp [QueryFiber.value]
  · rw [List.getElem?_eq_none (by simp; omega), List.getElem?_eq_none (by omega)]

/-- The fiber at `i` takes a step. -/
theorem values_set {fibers : List QueryFiber} {i : Nat} {f : QueryFiber} (hf : fibers[i]? = some f)
    (g : QueryFiber) : values (fibers.set i g) = Function.update (values fibers) i g.value := by
  funext j
  by_cases hji : j = i
  · subst hji
    rw [Function.update_self]
    exact values_of_getElem? (List.getElem?_set_self (List.getElem?_eq_some_iff.mp hf).1)
  · rw [Function.update_of_ne hji]
    unfold values
    rw [List.getElem?_set_ne (Ne.symm hji)]

/-- The fiber at `i` returns. -/
theorem get_eq {i index : Nat} {key : String} {f : QueryFiber} (hf : s.fibers[i]? = some f)
    (hrunning : f.value = none) (hk : keys[i]? = some key) (results : List InsertRequest) :
    (BatchQueryPc.collecting keys (values s.fibers) index results).step kv (.get i) =
      some (.collecting keys (values (s.fibers.set i (.returned (kv.query key)))) index results) := by
  have hnone : values s.fibers i = none := (values_of_getElem? hf).trans hrunning
  rw [values_set hf]
  simp [BatchQueryPc.step, BatchQueryPc.get, hk, hnone, QueryFiber.value]

/-- **What the accesses do, the handler with unchanging keys does.** -/
theorem Intact.simulates (h : s.Intact kv keys) (he : s.Effect kv e s') :
    s'.coarse keys = s.coarse keys ∨ ∃ e', (s.coarse keys).step kv e' = some (s'.coarse keys) := by
  cases he with
  | spawn hpc hlt =>
      left
      simp only [coarse, hpc, values_concat]
  | spawned hpc hle =>
      left
      simp only [coarse, hpc]
  | @hash i key hf hk =>
      left
      have hnone : (QueryFiber.hashed (kv.memdb.index key)).value = values s.fibers i := by
        rw [values_of_getElem? hf]
        rfl
      simp only [coarse, values_set hf, hnone, Function.update_eq_self]
  | @find i partition key hf hk =>
      obtain ⟨hpassed, hkey⟩ := h.key_eq hf (by simp) hk
      obtain ⟨key', hkey', rfl⟩ := h.hashed i partition hf
      obtain rfl : key' = key := Option.some.inj (hkey'.symm.trans hkey)
      unfold coarse
      cases hpc : s.pc with
      | spawning => exact Or.inr ⟨.get i, get_eq hf rfl hkey []⟩
      | collecting index results => exact Or.inr ⟨.get i, get_eq hf rfl hkey results⟩
      | answered status results =>
          rw [hpc] at hpassed
          exact absurd trivial hpassed
      | fault index => exact Or.inl rfl
  | @answer index results left hpc hf =>
      have hkey : keys[index]? = none := by
        rw [List.getElem?_eq_none_iff, ← (h.allStarted index results hpc).1]
        exact List.getElem?_eq_none_iff.mp hf
      refine Or.inr ⟨.read index, ?_⟩
      simp [coarse, hpc, BatchQueryPc.step, BatchQueryPc.read, hkey]
  | @absent index results left hpc hf =>
      have hv : values s.fibers index = some none := values_of_getElem? hf
      obtain ⟨key, hkey⟩ := h.exists_key hf
      refine Or.inr ⟨.read index, ?_⟩
      simp [coarse, hpc, BatchQueryPc.step, BatchQueryPc.read, hkey, hv]
  | @present index results value key v left hpc hf hk hd =>
      have hv : values s.fibers index = some (some value) := values_of_getElem? hf
      have hkey : keys[index]? = some key := h.current hpc ▸ hk
      refine Or.inr ⟨.read index, ?_⟩
      simp [coarse, hpc, BatchQueryPc.step, BatchQueryPc.read, hkey, hv, hd]
  | @fault index results value left hpc hf hnone =>
      have hv : values s.fibers index = some (some value) := values_of_getElem? hf
      obtain ⟨key, hkey⟩ := h.exists_key hf
      have hd : kv.memdb.deref value = none := by
        refine hnone.resolve_left ?_
        rw [h.current hpc, hkey]
        simp
      refine Or.inr ⟨.read index, ?_⟩
      simp [coarse, hpc, BatchQueryPc.step, BatchQueryPc.read, hkey, hv, hd]

/-- The handler sees the unchanging keys in every run. -/
theorem run_simulates (h : Run (step kv) always (start keys) es s) :
    s.Intact kv keys ∧ ∃ es', Run (BatchQueryPc.step kv) always (.start keys) es' (s.coarse keys) := by
  rw [← coarse_start keys]
  refine h.simulate (intact_start kv keys) ?_
  intro s e s' hs _ hstep
  have he := step_cases hstep
  exact ⟨hs.effect he, hs.simulates he⟩

end ListCall

/-! ## The answer -/

/-- Without writers, the loop has collected what the keys behind it hold. -/
def BatchQueryPc.Collects (kv : KvManager) (keys : List String) : BatchQueryPc → Prop
  | collecting keys' values index results =>
    keys' = keys ∧ keys ≠ [] ∧
      results = (keys.take index).filterMap (fun key => (kv.view key).map (fun v => ⟨key, v⟩)) ∧
      ∀ i value, values i = some value → ∃ key, keys[i]? = some key ∧ kv.query key = value
  | answered status results => BatchQueryKeyHandler.onPost kv keys = (status, results)
  | fault => False

namespace BatchQueryPc

variable {kv : KvManager} {keys : List String} {pc pc' : BatchQueryPc}

theorem collects_start (kv : KvManager) (keys : List String) : (start keys).Collects kv keys := by
  unfold start
  split
  · rename_i hnil
    exact if_pos hnil
  · rename_i hne
    exact ⟨rfl, hne, rfl, fun i value h => absurd h (by simp)⟩

/-- A fiber returns. -/
theorem Collects.get (h : pc.Collects kv keys) {i : Nat} (hget : pc.get kv i = some pc') :
    pc'.Collects kv keys := by
  cases pc with
  | collecting keys' values index results =>
      obtain ⟨rfl, hne, hresults, hvalues⟩ := h
      obtain ⟨key, hkey, hget⟩ := Option.bind_eq_some_iff.mp hget
      split at hget
      · exact absurd hget (by simp)
      · obtain rfl := Option.some.inj hget
        refine ⟨rfl, hne, hresults, fun j value hj => ?_⟩
        rcases update_cases hj with ⟨rfl, rfl⟩ | ⟨-, hold⟩
        · exact ⟨key, hkey, rfl⟩
        · exact hvalues j value hold
  | answered status results => exact absurd hget (by simp [BatchQueryPc.get])
  | fault => exact h.elim

/-- The loop takes a value, or answers. -/
theorem Collects.read (h : pc.Collects kv keys) {i : Nat} (hread : pc.read kv i = some pc') :
    pc'.Collects kv keys := by
  cases pc with
  | collecting keys' values index results =>
      obtain ⟨rfl, hne, hresults, hvalues⟩ := h
      obtain ⟨rfl, hread⟩ := Option.ite_none_right_eq_some.mp hread
      split at hread
      · rename_i hend
        obtain rfl := Option.some.inj hread
        have hall : keys'.take i = keys' := List.take_of_length_le (List.getElem?_eq_none_iff.mp hend)
        rw [hall] at hresults
        show BatchQueryKeyHandler.onPost kv keys' = _
        rw [BatchQueryKeyHandler.onPost, if_neg hne, hresults]
      · rename_i key hkey
        -- the value that the fiber has returned is the one of this key
        have hquery : ∀ value, values i = some value → kv.query key = value := by
          intro value hv
          obtain ⟨key', hkey', hq⟩ := hvalues i value hv
          obtain rfl : key' = key := Option.some.inj (hkey'.symm.trans hkey)
          exact hq
        have htake : keys'.take (i + 1) = keys'.take i ++ [key] := by
          rw [List.take_add_one, hkey, Option.toList_some]
        split at hread
        · exact absurd hread (by simp)
        · rename_i hv
          obtain rfl := Option.some.inj hread
          have hview : kv.view key = none := HashKv.view_eq_none_iff.mpr (hquery none hv)
          refine ⟨rfl, hne, ?_, hvalues⟩
          rw [htake, List.filterMap_append, ← hresults]
          simp [hview]
        · rename_i value hv
          have hview : kv.memdb.deref value = kv.view key := HashKv.deref_of_get (hquery _ hv)
          split at hread
          · rename_i hd
            have hsome : (kv.view key).isSome := HashKv.view_isSome (hquery _ hv)
            rw [← hview, hd] at hsome
            exact absurd hsome (by simp)
          · rename_i v hd
            obtain rfl := Option.some.inj hread
            refine ⟨rfl, hne, ?_, hvalues⟩
            rw [htake, List.filterMap_append, ← hresults]
            simp [← hview, hd]
  | answered status results => exact absurd hread (by simp [BatchQueryPc.read])
  | fault => exact h.elim

/-- **The answer with unchanging keys.** It is the one without interruption. -/
theorem run_collects {es : List BatchQueryEvent} (h : Run (step kv) always (start keys) es pc) :
    pc.Collects kv keys := by
  refine h.invariant (I := Collects kv keys) (collects_start kv keys) ?_
  intro pc e pc' hpc _ hstep
  cases e with
  | get i => exact hpc.get hstep
  | read i => exact hpc.read hstep

end BatchQueryPc

/-- The answer without interruption: 404 when none of the keys is present. -/
theorem BatchQueryKeyHandler.onPost_of_ne_nil {kv : KvManager} {keys : List String} (hne : keys ≠ []) :
    onPost kv keys = (if ∀ key ∈ keys, kv.view key = none then .notFound else .ok,
      keys.filterMap (fun key => (kv.view key).map (fun v => ⟨key, v⟩))) := by
  have hnone : keys.filterMap (fun key => (kv.view key).map (fun v => (⟨key, v⟩ : InsertRequest))) = [] ↔
      ∀ key ∈ keys, kv.view key = none := by
    simp only [List.filterMap_eq_nil_iff, Option.map_eq_none_iff]
  rw [onPost, if_neg hne]
  simp only [hnone]

/-! ## Every run ends -/

/-- The events that a fiber has had. -/
def QueryFiber.progress : QueryFiber → Nat
  | spawned => 1
  | hashed _ => 2
  | returned _ => 3

/-- The events that the loops have had, apart from those that start a fiber. -/
def ListPc.progress (n : Nat) : ListPc → Nat
  | spawning => 0
  | collecting index _ => index + 1
  | _ => n + 2

namespace ListCall

variable {kv : KvManager} {keys : List String} {s s' : ListCall} {e : ListEvent} {es : List ListEvent}

/-- The events that the call has had. -/
def progress (n : Nat) (s : ListCall) : Nat := (s.fibers.map QueryFiber.progress).sum + s.pc.progress n

theorem sum_progress_set {fibers : List QueryFiber} {i : Nat} {f : QueryFiber} (hf : fibers[i]? = some f)
    (g : QueryFiber) : ((fibers.set i g).map QueryFiber.progress).sum + f.progress =
      (fibers.map QueryFiber.progress).sum + g.progress := by
  induction fibers generalizing i with
  | nil => exact absurd hf (by simp)
  | cons f' fibers ih =>
      cases i with
      | zero =>
          obtain rfl : f' = f := Option.some.inj hf
          simp only [List.set_cons_zero, List.map_cons, List.sum_cons]
          omega
      | succ i =>
          have hrest := ih (i := i) hf
          simp only [List.set_cons_succ, List.map_cons, List.sum_cons]
          omega

theorem sum_progress_le (fibers : List QueryFiber) :
    (fibers.map QueryFiber.progress).sum ≤ 3 * fibers.length := by
  induction fibers with
  | nil => exact Nat.le_refl 0
  | cons f fibers ih =>
      have hf : f.progress ≤ 3 := by
        cases f with
        | _ => simp [QueryFiber.progress]
      rw [List.map_cons, List.sum_cons, List.length_cons]
      omega

/-- Every event is progress. -/
theorem Intact.progress_lt (h : s.Intact kv keys) (he : s.Effect kv e s') :
    s.progress keys.length < s'.progress keys.length := by
  cases he with
  | spawn hpc hlt => simp [progress, QueryFiber.progress]
  | spawned hpc hle => simp [progress, ListPc.progress, hpc]
  | @hash i key hf hk =>
      have hset := sum_progress_set hf (.hashed (kv.memdb.index key))
      simp only [QueryFiber.progress] at hset
      simp only [progress]
      omega
  | @find i partition key hf hk =>
      have hset := sum_progress_set hf (.returned ((kv.memdb.mapVec partition).lookup key))
      simp only [QueryFiber.progress] at hset
      simp only [progress]
      omega
  | answer left hpc hf =>
      have hle := (h.allStarted _ _ hpc).2
      simp only [progress, ListPc.progress, hpc]
      omega
  | absent left hpc hf => simp [progress, ListPc.progress, hpc]
  | present left hpc hf hk hd => simp [progress, ListPc.progress, hpc]
  | fault left hpc hf hnone =>
      have hle := (h.allStarted _ _ hpc).2
      simp only [progress, ListPc.progress, hpc]
      omega

theorem Intact.progress_le (h : s.Intact kv keys) : s.progress keys.length ≤ 4 * keys.length + 2 := by
  have hfibers := sum_progress_le s.fibers
  have hpc : s.pc.progress keys.length ≤ keys.length + 2 := by
    cases hpc : s.pc with
    | collecting index results =>
        have hle := (h.allStarted _ _ hpc).2
        show index + 1 ≤ keys.length + 2
        omega
    | spawning => exact Nat.zero_le _
    | answered status results => exact Nat.le_refl _
    | fault index => exact Nat.le_refl _
  have hstarted := h.started
  unfold progress
  omega

/-- A run has at most so many events. -/
theorem run_length (h : Run (step kv) always (start keys) es s) : es.length ≤ 4 * keys.length + 2 := by
  have hI : s.Intact kv keys ∧ es.length ≤ s.progress keys.length := by
    refine h.history (I := fun es s => s.Intact kv keys ∧ es.length ≤ s.progress keys.length)
      ⟨intact_start kv keys, Nat.zero_le _⟩ ?_
    rintro es s e s' ⟨hs, hle⟩ - hstep
    have he := step_cases hstep
    refine ⟨hs.effect he, ?_⟩
    rw [List.length_append, List.length_singleton]
    exact Nat.lt_of_le_of_lt hle (hs.progress_lt he)
  exact Nat.le_trans hI.2 hI.1.progress_le

/-- A call in one of its loops can go on: the loop itself, or the fiber that it waits for. -/
theorem Intact.exists_step (h : s.Intact kv keys)
    (hloop : s.pc = .spawning ∨ ∃ index results, s.pc = .collecting index results) :
    ∃ e, (s.step kv e).isSome := by
  rcases hloop with hpc | ⟨index, results, hpc⟩
  · by_cases hlt : s.fibers.length < s.keyVec.length
    · exact ⟨.spawn, by simp [step, hpc, hlt]⟩
    · exact ⟨.spawn, by simp [step, hpc, hlt]⟩
  · cases hf : s.fibers[index]? with
    | none => exact ⟨.collect "", by simp [step, hpc, hf]⟩
    | some f =>
        obtain ⟨key, hkey⟩ := h.exists_key hf
        rw [← h.current hpc] at hkey
        cases f with
        | spawned => exact ⟨.hash index, by simp [step, hf, hkey]⟩
        | hashed partition => exact ⟨.find index, by simp [step, hf, hkey]⟩
        | returned value =>
            refine ⟨.collect "", ?_⟩
            cases value with
            | none => simp [step, hpc, hf]
            | some value =>
                cases hd : kv.memdb.deref value with
                | none => simp [step, hpc, hf, hkey, hd]
                | some v => simp [step, hpc, hf, hkey, hd]

/-- **The answer of `/list`.** For every state of `KvManager`, every list of keys and every order of the
    accesses of the fibers and the loops: nothing destroyed or missing is read; an answer is 400 for the
    empty list, and otherwise the entries of the keys that are present, in the order of the request, with
    200, or 404 when there are none; a call that has not answered can go on, and not for long. -/
theorem list_answers (h : Run (step kv) always (start keys) es s) :
    (∀ index, s.pc ≠ .fault index) ∧
    (∀ status results, s.pc = .answered status results →
      (keys = [] → status = .badRequest) ∧
      (keys ≠ [] → results = keys.filterMap (fun key => (kv.view key).map (fun v => ⟨key, v⟩)) ∧
        status = if ∀ key ∈ keys, kv.view key = none then .notFound else .ok)) ∧
    ((∀ e, s.step kv e = none) → ∃ status results, s.pc = .answered status results) ∧
    es.length ≤ 4 * keys.length + 2 := by
  obtain ⟨hintact, es', hrun⟩ := run_simulates h
  have hcollects := BatchQueryPc.run_collects hrun
  unfold coarse at hcollects
  have hfault : ∀ index, s.pc ≠ .fault index := by
    intro index hpc
    rw [hpc] at hcollects
    exact hcollects
  refine ⟨hfault, ?_, ?_, run_length h⟩
  · intro status results hpc
    rw [hpc] at hcollects
    have hanswer : BatchQueryKeyHandler.onPost kv keys = (status, results) := hcollects
    constructor
    · intro hnil
      rw [BatchQueryKeyHandler.onPost, if_pos hnil] at hanswer
      exact (Prod.mk.inj hanswer).1.symm
    · intro hne
      rw [BatchQueryKeyHandler.onPost_of_ne_nil hne] at hanswer
      obtain ⟨hstatus, hresults⟩ := Prod.mk.inj hanswer
      exact ⟨hresults.symm, hstatus.symm⟩
  · intro hstuck
    by_contra hrunning
    have hloop : s.pc = .spawning ∨ ∃ index results, s.pc = .collecting index results := by
      cases hpc : s.pc with
      | spawning => exact Or.inl rfl
      | collecting index results => exact Or.inr ⟨index, results, rfl⟩
      | answered status results => exact absurd ⟨status, results, hpc⟩ hrunning
      | fault index => exact absurd hpc (hfault index)
    obtain ⟨e, hstep⟩ := hintact.exists_step hloop
    rw [hstuck e] at hstep
    exact absurd hstep Bool.false_ne_true

/-- Three keys, two of them the same; the last two fibers run after the loop has moved the first key. -/
theorem list_answers_three_keys :
    ∃ kv es s, Run (step kv) always (start ["a", "b", "a"]) es s ∧
      s.pc = .answered .ok [⟨"a", "1"⟩, ⟨"a", "1"⟩] ∧
      ["a", "b", "a"].filterMap (fun key => (kv.view key).map (fun v => (⟨key, v⟩ : InsertRequest))) =
        [⟨"a", "1"⟩, ⟨"a", "1"⟩] := by
  let kv := (KvManager.init String.length).add "a" "1"
  let es : List ListEvent := [.spawn, .spawn, .spawn, .spawn, .hash 0, .find 0, .collect "", .hash 2, .find 2,
    .hash 1, .find 1, .collect "", .collect "", .collect ""]
  have hcheck : (es.foldlM (step kv) (start ["a", "b", "a"])).map pc =
      some (.answered .ok [⟨"a", "1"⟩, ⟨"a", "1"⟩]) := by
    decide +kernel
  obtain ⟨s, hs, hpc⟩ := Option.map_eq_some_iff.mp hcheck
  have hrun : Run (step kv) always (start ["a", "b", "a"]) es s := run_of_forall (fun _ _ _ => trivial) hs
  obtain ⟨hresults, -⟩ := ((list_answers hrun).2.1 _ _ hpc).2 (by simp)
  exact ⟨kv, es, s, hrun, hpc, hresults.symm⟩

end ListCall

end ZhiCache
