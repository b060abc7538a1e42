import ZhiCache.Lib.Run
import Mathlib.Data.UInt
import Mathlib.Order.Interval.Finset.Nat

/-!
# `Utils.Arena` — the memory of the skip-list nodes

An `Arena` hands out memory from blocks that it obtains from `operator new[]` and keeps until it is destroyed.
Small requests are served from the current small-object block by moving a pointer through it; `AllocateAligned`
first skips to a multiple of 8. A request that does not fit gets a new block: one of its own if it is large,
and otherwise a new small-object block, which then replaces the current one.

Addresses and sizes are 64-bit words and wrap around. What `operator new[]` returns is not computed here: each
call comes with the address that it would return, and `Allowed` says what is assumed of it.

* A call either advances in the current block, or obtains a block for itself, or obtains a new current block
  (`call_cases`). Everything else is derived from that.
* Whatever the calls, the ranges handed out lie inside blocks of the arena and never overlap
  (`arena_ranges_disjoint`).
-/

namespace ZhiCache

open Lib

/-! ## Regions of memory -/

/-- The bytes from `addr` on. -/
structure Region where
  addr : UInt64
  size : UInt64
  deriving DecidableEq, Repr

namespace Region

/-- The address behind the last byte, as a number that does not wrap around. -/
def stop (r : Region) : Nat := r.addr.toNat + r.size.toNat

def Disjoint (r r' : Region) : Prop := r.stop ≤ r'.addr.toNat ∨ r'.stop ≤ r.addr.toNat

def Inside (r b : Region) : Prop := b.addr.toNat ≤ r.addr.toNat ∧ r.stop ≤ b.stop

instance (r r' : Region) : Decidable (r.Disjoint r') := inferInstanceAs (Decidable (_ ∨ _))

theorem Inside.refl (b : Region) : b.Inside b := ⟨Nat.le_refl _, Nat.le_refl _⟩

theorem Disjoint.symm {r r' : Region} (h : r.Disjoint r') : r'.Disjoint r := Or.symm h

/-- What lies inside of disjoint regions is disjoint. -/
theorem Disjoint.inside {r r' b b' : Region} (h : b.Disjoint b') (hr : r.Inside b) (hr' : r'.Inside b') :
    r.Disjoint r' := by
  unfold Disjoint Inside at *
  omega

end Region

/-! ## The arena -/

/-- `kBlockSize`. -/
def kBlockSize : UInt64 := 4096

/-- The arena. A block is kept with the size that was asked for. -/
structure Arena where
  allocPtr : UInt64
  allocBytesRemaining : UInt64
  blocks : List Region
  memoryUsage : UInt64
  /-- Some subtraction from `alloc_bytes_remaining_` has wrapped around. -/
  underflowed : Bool
  deriving DecidableEq, Repr

namespace Arena

/-- The constructor. -/
def new : Arena := ⟨0, 0, [], 0, false⟩

/-- `alloc_ptr_ += bytes; alloc_bytes_remaining_ -= bytes;` -/
def advance (a : Arena) (bytes : UInt64) : Arena :=
  { a with
    allocPtr := a.allocPtr + bytes
    allocBytesRemaining := a.allocBytesRemaining - bytes
    underflowed := a.underflowed || a.allocBytesRemaining < bytes }

theorem advance_underflowed {a : Arena} {bytes : UInt64} (h : bytes ≤ a.allocBytesRemaining) :
    (a.advance bytes).underflowed = a.underflowed := by
  rw [advance, decide_eq_false (UInt64.not_lt.mpr h), Bool.or_false]

/-- `AllocateNewBlock`, with the address that `operator new[]` returns. -/
def allocateNewBlock (a : Arena) (blockBytes fresh : UInt64) : UInt64 × Arena :=
  (fresh, { a with
    blocks := a.blocks ++ [⟨fresh, blockBytes⟩]
    memoryUsage := a.memoryUsage + (blockBytes + 8) })

/-- `AllocateFallback`. -/
def allocateFallback (a : Arena) (bytes fresh : UInt64) : UInt64 × Arena :=
  if bytes > kBlockSize / 4 then
    -- Object is more than a quarter of our block size.
    a.allocateNewBlock bytes fresh
  else
    -- We waste the remaining space in the current block.
    let (block, a) := a.allocateNewBlock kBlockSize fresh
    let a := { a with allocPtr := block, allocBytesRemaining := kBlockSize }
    (a.allocPtr, a.advance bytes)

/-- `Allocate`. -/
def allocate (a : Arena) (bytes fresh : UInt64) : UInt64 × Arena :=
  if bytes ≤ a.allocBytesRemaining then (a.allocPtr, a.advance bytes) else a.allocateFallback bytes fresh

/-- How far the pointer is from the next multiple of 8. -/
def slop (a : Arena) : UInt64 :=
  let currentMod := a.allocPtr &&& (8 - 1)
  if currentMod = 0 then 0 else 8 - currentMod

/-- `AllocateAligned`. -/
def allocateAligned (a : Arena) (bytes fresh : UInt64) : UInt64 × Arena :=
  let needed := bytes + a.slop
  if needed ≤ a.allocBytesRemaining then (a.allocPtr + a.slop, a.advance needed)
  else a.allocateFallback bytes fresh

end Arena

/-- A call of `Allocate` or of `AllocateAligned`, with the address that `operator new[]` would return. -/
structure ArenaCall where
  aligned : Bool
  bytes : UInt64
  fresh : UInt64
  deriving DecidableEq, Repr

/-- The call: the address returned, and the arena. -/
def Arena.call (a : Arena) (c : ArenaCall) : UInt64 × Arena :=
  if c.aligned then a.allocateAligned c.bytes c.fresh else a.allocate c.bytes c.fresh

/-! ## What a call does -/

namespace Arena

/-- `slop` is less than 8 and leads to a multiple of 8. -/
theorem slop_spec (a : Arena) : a.slop.toNat < 8 ∧ (a.allocPtr.toNat + a.slop.toNat) % 8 = 0 := by
  have hmod : (a.allocPtr &&& (8 - 1)).toNat = a.allocPtr.toNat % 8 := by
    have hand : (a.allocPtr &&& (8 - 1)).toNat = a.allocPtr.toNat &&& (2 ^ 3 - 1) := UInt64.toNat_and _ _
    rw [hand, Nat.and_two_pow_sub_one_eq_mod]
  have hlt : a.allocPtr.toNat % 8 < 8 := Nat.mod_lt _ (by omega)
  unfold slop
  dsimp only
  split
  · rename_i hzero
    rw [hzero] at hmod
    have hmod : 0 = a.allocPtr.toNat % 8 := hmod
    exact ⟨by decide, by simp; omega⟩
  · rename_i hne
    have hpos : (a.allocPtr &&& (8 - 1)).toNat ≠ 0 := fun h => hne (UInt64.toNat_inj.mp h)
    have hsub : (8 - (a.allocPtr &&& (8 - 1))).toNat = 8 - a.allocPtr.toNat % 8 := by
      rw [UInt64.toNat_sub_of_le, hmod]
      · rfl
      · rw [UInt64.le_iff_toNat_le, hmod]
        exact Nat.le_of_lt hlt
    rw [hsub]
    omega

/-- **What a call can do.** It advances in the current block, past at most 7 bytes that it leaves unused; or it
    obtains a block for the request alone; or it obtains a new current block and advances in that. -/
theorem call_cases (a : Arena) (c : ArenaCall) (hbytes : c.bytes.toNat + 7 < 2 ^ 64) :
    (∃ skip : UInt64, c.bytes.toNat + skip.toNat ≤ a.allocBytesRemaining.toNat ∧
      (c.aligned = true → (a.allocPtr.toNat + skip.toNat) % 8 = 0) ∧
      a.call c = (a.allocPtr + skip, a.advance (c.bytes + skip)) ∧
      (c.bytes + skip).toNat = c.bytes.toNat + skip.toNat) ∨
    (kBlockSize / 4 < c.bytes ∧ a.call c = a.allocateNewBlock c.bytes c.fresh) ∨
    (c.bytes ≤ kBlockSize / 4 ∧ a.call c = (c.fresh,
      { (a.allocateNewBlock kBlockSize c.fresh).2 with
        allocPtr := c.fresh, allocBytesRemaining := kBlockSize }.advance c.bytes)) := by
  have hfallback : a.call c = a.allocateFallback c.bytes c.fresh →
      (kBlockSize / 4 < c.bytes ∧ a.call c = a.allocateNewBlock c.bytes c.fresh) ∨
      (c.bytes ≤ kBlockSize / 4 ∧ a.call c = (c.fresh,
        { (a.allocateNewBlock kBlockSize c.fresh).2 with
          allocPtr := c.fresh, allocBytesRemaining := kBlockSize }.advance c.bytes)) := by
    intro hcall
    rw [hcall]
    unfold allocateFallback
    by_cases hlarge : c.bytes > kBlockSize / 4
    · rw [if_pos hlarge]
      exact Or.inl ⟨hlarge, rfl⟩
    · rw [if_neg hlarge]
      exact Or.inr ⟨UInt64.not_lt.mp hlarge, rfl⟩
  cases hal : c.aligned with
  | true =>
      obtain ⟨hslop, hmod⟩ := a.slop_spec
      have hneeded : (c.bytes + a.slop).toNat = c.bytes.toNat + a.slop.toNat := by
        rw [UInt64.toNat_add, Nat.mod_eq_of_lt (by omega)]
      have hcall : a.call c = a.allocateAligned c.bytes c.fresh := by rw [call, hal, if_pos rfl]
      by_cases hfit : c.bytes + a.slop ≤ a.allocBytesRemaining
      · refine Or.inl ⟨a.slop, ?_, fun _ => hmod, ?_, hneeded⟩
        · rw [← hneeded]
          exact UInt64.le_iff_toNat_le.mp hfit
        · rw [hcall, allocateAligned, if_pos hfit]
      · exact Or.inr (hfallback (by rw [hcall, allocateAligned, if_neg hfit]))
  | false =>
      have hcall : a.call c = a.allocate c.bytes c.fresh := by
        rw [call, hal]
        rfl
      by_cases hfit : c.bytes ≤ a.allocBytesRemaining
      · refine Or.inl ⟨0, UInt64.le_iff_toNat_le.mp hfit, fun h => absurd h (by simp), ?_, ?_⟩
        · rw [hcall, allocate, if_pos hfit, UInt64.add_zero, UInt64.add_zero]
        · rw [UInt64.add_zero]
          rfl
      · exact Or.inr (hfallback (by rw [hcall, allocate, if_neg hfit]))

end Arena

/-! ## Runs of calls -/

/-- A range that was handed out, and whether it was asked to be aligned. -/
structure Handed where
  aligned : Bool
  range : Region
  deriving DecidableEq, Repr

/-- An arena with its history: the ranges handed out, and the current small-object block. -/
structure ArenaRun where
  arena : Arena
  handed : List Handed
  current : Option Region
  deriving DecidableEq, Repr

namespace ArenaRun

def init : ArenaRun := ⟨Arena.new, [], none⟩

/-- The block that a call obtains, if any. -/
def obtained (s : ArenaRun) (c : ArenaCall) : Option Region :=
  ((s.arena.call c).2.blocks.drop s.arena.blocks.length).head?

/-- One call. The block that it obtains becomes the current one unless the request is large. -/
def step (s : ArenaRun) (c : ArenaCall) : Option ArenaRun :=
  some {
    arena := (s.arena.call c).2
    handed := s.handed ++ [⟨c.aligned, ⟨(s.arena.call c).1, c.bytes⟩⟩]
    current := if c.bytes ≤ kBlockSize / 4 then (s.obtained c).or s.current else s.current }

/-- What is assumed of a block that `operator new[]` returns: it is aligned, lies in the address space, and is
    disjoint from the blocks that the arena has. -/
def NewBlock (blocks : List Region) (b : Region) : Prop :=
  b.addr.toNat % 8 = 0 ∧ b.stop ≤ 2 ^ 64 ∧ ∀ b' ∈ blocks, b.Disjoint b'

instance (blocks : List Region) (b : Region) : Decidable (NewBlock blocks b) :=
  inferInstanceAs (Decidable (_ ∧ _ ∧ _))

/-- The calls that are allowed: the size is at least 1 and not within 7 of the largest, and a block that the
    call obtains is one that `operator new[]` may return. -/
structure Allowed (s : ArenaRun) (c : ArenaCall) : Prop where
  pos : 1 ≤ c.bytes.toNat
  bound : c.bytes.toNat + 7 < 2 ^ 64
  fresh : ∀ b, s.obtained c = some b → NewBlock s.arena.blocks b

instance (s : ArenaRun) (c : ArenaCall) : Decidable (s.Allowed c) :=
  decidable_of_iff (1 ≤ c.bytes.toNat ∧ c.bytes.toNat + 7 < 2 ^ 64 ∧
      ∀ b ∈ (s.obtained c).toList, NewBlock s.arena.blocks b)
    ⟨fun h => ⟨h.1, h.2.1, fun b hb => h.2.2 b (by simp [hb])⟩,
      fun h => ⟨h.pos, h.bound, fun b hb => h.fresh b (by simpa using hb)⟩⟩

/-- The current block is used up to the pointer, and what follows has not been handed out. -/
def CurrentFree (s : ArenaRun) : Prop :=
  match s.current with
  | none => s.arena.allocBytesRemaining.toNat = 0
  | some b => b ∈ s.arena.blocks ∧ b.size = kBlockSize ∧
      ∃ used, used + s.arena.allocBytesRemaining.toNat = kBlockSize.toNat ∧
        s.arena.allocPtr.toNat = (b.addr.toNat + used) % 2 ^ 64 ∧
        ∀ h ∈ s.handed, h.range.stop ≤ b.addr.toNat + used ∨ b.stop ≤ h.range.addr.toNat

/-- The invariant of a run. -/
structure Sound (s : ArenaRun) : Prop where
  space : ∀ b ∈ s.arena.blocks, b.stop ≤ 2 ^ 64
  distinct : s.arena.blocks.Pairwise Region.Disjoint
  large : ∀ b ∈ s.arena.blocks, 1024 < b.size.toNat
  inside : ∀ h ∈ s.handed, ∃ b ∈ s.arena.blocks, h.range.Inside b
  disjoint : s.handed.Pairwise (fun h h' => h.range.Disjoint h'.range)
  aligned : ∀ h ∈ s.handed, h.aligned = true → h.range.addr.toNat % 8 = 0
  free : s.CurrentFree
  usage : s.arena.memoryUsage = (s.arena.blocks.map (fun b => b.size + 8)).sum
  noWrap : s.arena.underflowed = false

theorem init_sound : Sound init where
  space := fun _ hb => absurd hb List.not_mem_nil
  distinct := List.Pairwise.nil
  large := fun _ hb => absurd hb List.not_mem_nil
  inside := fun _ hh => absurd hh List.not_mem_nil
  disjoint := List.Pairwise.nil
  aligned := fun _ hh => absurd hh List.not_mem_nil
  free := rfl
  usage := rfl
  noWrap := rfl

/-! ### What a call adds -/

variable {s : ArenaRun} {c : ArenaCall}

theorem pairwise_snoc {α : Type} {R : α → α → Prop} {l : List α} {a : α} (h : l.Pairwise R)
    (ha : ∀ b ∈ l, R b a) : (l ++ [a]).Pairwise R :=
  List.pairwise_append.mpr ⟨h, List.pairwise_singleton R a, fun b hb _ hc => List.mem_singleton.mp hc ▸ ha b hb⟩

theorem forall_mem_snoc {α : Type} {P : α → Prop} {l : List α} {a : α} (h : ∀ b ∈ l, P b) (ha : P a) :
    ∀ b ∈ l ++ [a], P b :=
  List.forall_mem_append.mpr ⟨h, fun _ hb => List.mem_singleton.mp hb ▸ ha⟩

/-- A new block is disjoint from every range that was handed out. -/
theorem Sound.disjoint_new (h : Sound s) {b r : Region} (hb : NewBlock s.arena.blocks b) (hr : r.Inside b) :
    ∀ x ∈ s.handed, x.range.Disjoint r := by
  intro x hx
  obtain ⟨b', hb', hin⟩ := h.inside x hx
  exact ((hb.2.2 b' hb').inside hr hin).symm

/-- While bytes remain there is a current block, and the pointer has not wrapped around. -/
theorem Sound.current_of_room (h : Sound s) (hroom : 1 ≤ s.arena.allocBytesRemaining.toNat) :
    ∃ b used, s.current = some b ∧ b ∈ s.arena.blocks ∧ b.size = kBlockSize ∧
      b.stop = b.addr.toNat + used + s.arena.allocBytesRemaining.toNat ∧
      s.arena.allocPtr.toNat = b.addr.toNat + used ∧
      ∀ x ∈ s.handed, x.range.stop ≤ b.addr.toNat + used ∨ b.stop ≤ x.range.addr.toNat := by
  have hfree := h.free
  unfold CurrentFree at hfree
  cases hcur : s.current with
  | none =>
      rw [hcur] at hfree
      dsimp only at hfree
      omega
  | some b =>
      rw [hcur] at hfree
      obtain ⟨hb, hsize, used, hused, hptr, hclear⟩ := hfree
      have hspace := h.space b hb
      have hstop : b.stop = b.addr.toNat + kBlockSize.toNat := by rw [Region.stop, hsize]
      refine ⟨b, used, rfl, hb, hsize, by omega, ?_, hclear⟩
      rw [hptr, Nat.mod_eq_of_lt (by omega)]

/-- **In the current block.** -/
theorem Sound.advance (h : Sound s) {skip : UInt64} (hpos : 1 ≤ c.bytes.toNat)
    (hfit : c.bytes.toNat + skip.toNat ≤ s.arena.allocBytesRemaining.toNat)
    (hal : c.aligned = true → (s.arena.allocPtr.toNat + skip.toNat) % 8 = 0)
    (hsum : (c.bytes + skip).toNat = c.bytes.toNat + skip.toNat) :
    Sound ⟨s.arena.advance (c.bytes + skip),
      s.handed ++ [⟨c.aligned, ⟨s.arena.allocPtr + skip, c.bytes⟩⟩], s.current⟩ := by
  obtain ⟨b, used, hcur, hb, hsize, hstop, hptr, hclear⟩ := h.current_of_room (by omega)
  have hspace := h.space b hb
  have haddr : (s.arena.allocPtr + skip).toNat = b.addr.toNat + used + skip.toNat := by
    rw [UInt64.toNat_add, hptr, Nat.mod_eq_of_lt (by omega)]
  have hle : c.bytes + skip ≤ s.arena.allocBytesRemaining := by
    rw [UInt64.le_iff_toNat_le, hsum]
    exact hfit
  have hrange : Region.stop ⟨s.arena.allocPtr + skip, c.bytes⟩
      = b.addr.toNat + used + skip.toNat + c.bytes.toNat := by
    show (s.arena.allocPtr + skip).toNat + c.bytes.toNat = _
    rw [haddr]
  refine ⟨h.space, h.distinct, h.large, ?_, ?_, ?_, ?_, h.usage, ?_⟩
  · refine forall_mem_snoc h.inside ⟨b, hb, ?_, ?_⟩
    · show b.addr.toNat ≤ (s.arena.allocPtr + skip).toNat
      omega
    · show Region.stop ⟨s.arena.allocPtr + skip, c.bytes⟩ ≤ b.stop
      omega
  · refine pairwise_snoc h.disjoint (fun x hx => ?_)
    show x.range.stop ≤ (s.arena.allocPtr + skip).toNat ∨
      Region.stop ⟨s.arena.allocPtr + skip, c.bytes⟩ ≤ x.range.addr.toNat
    have hx := hclear x hx
    omega
  · refine forall_mem_snoc h.aligned (fun ha => ?_)
    show (s.arena.allocPtr + skip).toNat % 8 = 0
    rw [haddr, ← hptr]
    exact hal ha
  · show CurrentFree ⟨_, _, s.current⟩
    rw [hcur]
    refine ⟨hb, hsize, used + (skip.toNat + c.bytes.toNat), ?_, ?_, forall_mem_snoc ?_ ?_⟩
    · show _ + (s.arena.allocBytesRemaining - (c.bytes + skip)).toNat = _
      rw [Region.stop, hsize] at hstop
      rw [UInt64.toNat_sub_of_le _ _ hle, hsum]
      omega
    · show (s.arena.allocPtr + (c.bytes + skip)).toNat = _
      rw [UInt64.toNat_add, hptr, hsum]
      congr 1
      omega
    · intro x hx
      have hx := hclear x hx
      omega
    · left
      show Region.stop ⟨s.arena.allocPtr + skip, c.bytes⟩ ≤ _
      omega
  · exact (Arena.advance_underflowed hle).trans h.noWrap

/-- The blocks and the count after one more block, from which a range is handed out. -/
theorem Sound.newBlock (h : Sound s) {b : Region} (hb : NewBlock s.arena.blocks b)
    (hlarge : 1024 < b.size.toNat) {x : Handed} (hx : x.range.Inside b) :
    (∀ b' ∈ s.arena.blocks ++ [b], b'.stop ≤ 2 ^ 64) ∧ (s.arena.blocks ++ [b]).Pairwise Region.Disjoint ∧
      (∀ b' ∈ s.arena.blocks ++ [b], 1024 < b'.size.toNat) ∧
      (∀ y ∈ s.handed ++ [x], ∃ b' ∈ s.arena.blocks ++ [b], y.range.Inside b') ∧
      s.arena.memoryUsage + (b.size + 8) = ((s.arena.blocks ++ [b]).map (fun b => b.size + 8)).sum := by
  refine ⟨forall_mem_snoc h.space hb.2.1, pairwise_snoc h.distinct (fun b' hb' => (hb.2.2 b' hb').symm),
    forall_mem_snoc h.large hlarge, forall_mem_snoc (fun y hy => ?_) ⟨b, by simp, hx⟩, ?_⟩
  · obtain ⟨b', hmem, hin⟩ := h.inside y hy
    exact ⟨b', List.mem_append_left _ hmem, hin⟩
  · rw [List.map_append, List.sum_append, h.usage, List.map_singleton, List.sum_singleton]

/-- **A block of its own.** -/
theorem Sound.ownBlock (h : Sound s) (hb : NewBlock s.arena.blocks ⟨c.fresh, c.bytes⟩)
    (hlarge : kBlockSize / 4 < c.bytes) :
    Sound ⟨(s.arena.allocateNewBlock c.bytes c.fresh).2, s.handed ++ [⟨c.aligned, ⟨c.fresh, c.bytes⟩⟩],
      s.current⟩ := by
  have hbytes : 1024 < c.bytes.toNat := UInt64.lt_iff_toNat_lt.mp hlarge
  obtain ⟨hspace, hdistinct, hlarge, hinside, husage⟩ :=
    h.newBlock (x := ⟨c.aligned, ⟨c.fresh, c.bytes⟩⟩) hb hbytes (Region.Inside.refl _)
  refine ⟨hspace, hdistinct, hlarge, hinside, ?_, forall_mem_snoc h.aligned (fun _ => hb.1), ?_, husage,
    h.noWrap⟩
  · exact pairwise_snoc h.disjoint (h.disjoint_new hb (Region.Inside.refl _))
  · -- the current block stays, and the new one is disjoint from it
    have hfree := h.free
    unfold CurrentFree at hfree ⊢
    cases hcur : s.current with
    | none =>
        rw [hcur] at hfree
        exact hfree
    | some b =>
        rw [hcur] at hfree
        obtain ⟨hmem, hsize, used, hused, hptr, hclear⟩ := hfree
        refine ⟨List.mem_append_left _ hmem, hsize, used, hused, hptr, forall_mem_snoc hclear ?_⟩
        have hdis := hb.2.2 b hmem
        exact hdis.imp (fun hle => Nat.le_trans hle (Nat.le_add_right _ _)) id

/-- **A new current block.** -/
theorem Sound.newCurrent (h : Sound s) (hb : NewBlock s.arena.blocks ⟨c.fresh, kBlockSize⟩)
    (hsmall : c.bytes ≤ kBlockSize / 4) :
    Sound ⟨{ (s.arena.allocateNewBlock kBlockSize c.fresh).2 with
        allocPtr := c.fresh, allocBytesRemaining := kBlockSize }.advance c.bytes,
      s.handed ++ [⟨c.aligned, ⟨c.fresh, c.bytes⟩⟩], some ⟨c.fresh, kBlockSize⟩⟩ := by
  have hkb : kBlockSize.toNat = 4096 := rfl
  have hbytes : c.bytes.toNat ≤ 1024 := UInt64.le_iff_toNat_le.mp hsmall
  have hle : c.bytes ≤ kBlockSize := by
    rw [UInt64.le_iff_toNat_le]
    omega
  have hin : Region.Inside ⟨c.fresh, c.bytes⟩ ⟨c.fresh, kBlockSize⟩ := by
    refine ⟨Nat.le_refl _, ?_⟩
    show c.fresh.toNat + c.bytes.toNat ≤ c.fresh.toNat + kBlockSize.toNat
    omega
  have hblock : 1024 < kBlockSize.toNat := by omega
  obtain ⟨hspace, hdistinct, hlarge, hinside, husage⟩ :=
    h.newBlock (x := ⟨c.aligned, ⟨c.fresh, c.bytes⟩⟩) hb hblock hin
  refine ⟨hspace, hdistinct, hlarge, hinside, ?_, forall_mem_snoc h.aligned (fun _ => hb.1), ?_, husage, ?_⟩
  · exact pairwise_snoc h.disjoint (h.disjoint_new hb hin)
  · refine ⟨List.mem_append_right _ List.mem_cons_self, rfl, c.bytes.toNat, ?_, UInt64.toNat_add _ _,
      forall_mem_snoc (fun x hx => ?_) (Or.inl (Nat.le_refl _))⟩
    · show c.bytes.toNat + (kBlockSize - c.bytes).toNat = kBlockSize.toNat
      rw [UInt64.toNat_sub_of_le _ _ hle]
      omega
    · have hdis := h.disjoint_new hb (Region.Inside.refl _) x hx
      exact hdis.imp (fun hle => Nat.le_trans hle (Nat.le_add_right _ _)) id
  · exact (Arena.advance_underflowed hle).trans h.noWrap

/-- **One call keeps the invariant.** -/
theorem Sound.step (h : Sound s) (hok : s.Allowed c) {s' : ArenaRun} (hs : s.step c = some s') : Sound s' := by
  obtain rfl := Option.some.inj hs
  rcases s.arena.call_cases c hok.bound with ⟨skip, hfit, hal, hcall, hsum⟩ | ⟨hlarge, hcall⟩ | ⟨hsmall, hcall⟩
  · have hnone : s.obtained c = none := by simp [obtained, hcall, Arena.advance]
    rw [hnone, Option.none_or, ite_self, hcall]
    exact h.advance hok.pos hfit hal hsum
  · have hsome : s.obtained c = some ⟨c.fresh, c.bytes⟩ := by simp [obtained, hcall, Arena.allocateNewBlock]
    rw [if_neg (UInt64.not_le.mpr hlarge), hcall]
    exact h.ownBlock (hok.fresh _ hsome) hlarge
  · have hsome : s.obtained c = some ⟨c.fresh, kBlockSize⟩ := by
      simp [obtained, hcall, Arena.advance, Arena.allocateNewBlock]
    rw [if_pos hsmall, hsome, Option.some_or, hcall]
    exact h.newCurrent (hok.fresh _ hsome) hsmall

/-! ### How much memory there is -/

/-- Disjoint regions have no more bytes together than the space they lie in. -/
theorem sum_size_le {blocks : List Region} {n : Nat} (hdistinct : blocks.Pairwise Region.Disjoint)
    (hn : ∀ b ∈ blocks, b.stop ≤ n) : (blocks.map (fun b => b.size.toNat)).sum ≤ n := by
  have hcover : ∃ bytes : Finset Nat, bytes.card = (blocks.map (fun b => b.size.toNat)).sum ∧
      ∀ i, i ∈ bytes ↔ ∃ b ∈ blocks, b.addr.toNat ≤ i ∧ i < b.stop := by
    clear hn
    induction blocks with
    | nil => exact ⟨∅, rfl, fun i => by simp⟩
    | cons b blocks ih =>
        obtain ⟨hb, hrest⟩ := List.pairwise_cons.mp hdistinct
        obtain ⟨bytes, hcard, hmem⟩ := ih hrest
        have hdis : Disjoint (Finset.Ico b.addr.toNat b.stop) bytes := by
          rw [Finset.disjoint_left]
          intro i hi hi'
          obtain ⟨b', hb', hlo, hhi⟩ := (hmem i).mp hi'
          have hi := Finset.mem_Ico.mp hi
          have hsep := hb b' hb'
          unfold Region.Disjoint at hsep
          omega
        refine ⟨Finset.Ico b.addr.toNat b.stop ∪ bytes, ?_, fun i => ?_⟩
        · rw [Finset.card_union_of_disjoint hdis, Nat.card_Ico, hcard, List.map_cons, List.sum_cons]
          unfold Region.stop
          omega
        · rw [Finset.mem_union, Finset.mem_Ico, hmem]
          simp
  obtain ⟨bytes, hcard, hmem⟩ := hcover
  have hsub : bytes ⊆ Finset.range n := by
    intro i hi
    obtain ⟨b, hb, _, hlt⟩ := (hmem i).mp hi
    exact Finset.mem_range.mpr (Nat.lt_of_lt_of_le hlt (hn b hb))
  rw [← hcard, ← Finset.card_range n]
  exact Finset.card_le_card hsub

/-- A sum of 64-bit words. -/
theorem toNat_sum (words : List UInt64) : words.sum.toNat = (words.map UInt64.toNat).sum % 2 ^ 64 := by
  induction words with
  | nil => rfl
  | cons w words ih =>
      rw [List.sum_cons, UInt64.toNat_add, ih, List.map_cons, List.sum_cons, Nat.add_mod_mod]

/-- The bookkeeping of a block is small against the block. -/
theorem sum_with_header {blocks : List Region} (hlarge : ∀ b ∈ blocks, 1024 < b.size.toNat) :
    64 * (blocks.map (fun b => b.size.toNat + 8)).sum ≤ 65 * (blocks.map (fun b => b.size.toNat)).sum := by
  induction blocks with
  | nil => exact Nat.le_refl _
  | cons b blocks ih =>
      obtain ⟨hb, hrest⟩ := List.forall_mem_cons.mp hlarge
      have hle := ih hrest
      simp only [List.map_cons, List.sum_cons]
      omega

/-- As long as the blocks lie in the lower half of the address space, the count does not wrap around. -/
theorem Sound.usage_exact (h : Sound s) (hlow : ∀ b ∈ s.arena.blocks, b.stop ≤ 2 ^ 63) :
    s.arena.memoryUsage.toNat = (s.arena.blocks.map (fun b => b.size.toNat + 8)).sum := by
  have hsize : ∀ b ∈ s.arena.blocks, (b.size + 8).toNat = b.size.toNat + 8 := by
    intro b hb
    have hstop := hlow b hb
    unfold Region.stop at hstop
    rw [UInt64.toNat_add]
    exact Nat.mod_eq_of_lt (by show b.size.toNat + 8 < 2 ^ 64; omega)
  have hmap : (s.arena.blocks.map (fun b => b.size + 8)).map UInt64.toNat
      = s.arena.blocks.map (fun b => b.size.toNat + 8) := by
    rw [List.map_map]
    exact List.map_congr_left hsize
  have hsum := sum_size_le h.distinct hlow
  have hheader := sum_with_header h.large
  rw [h.usage, toNat_sum, hmap]
  exact Nat.mod_eq_of_lt (by omega)

/-- The ranges handed out are those that were asked for. -/
theorem handed_eq {es : List ArenaCall} (h : Run step Allowed init es s) :
    s.handed.map (fun x => (x.aligned, x.range.size)) = es.map (fun c => (c.aligned, c.bytes)) := by
  refine h.history (I := fun es s => s.handed.map (fun x => (x.aligned, x.range.size))
    = es.map (fun c => (c.aligned, c.bytes))) rfl ?_
  intro es s c s' hI _ hs
  obtain rfl := Option.some.inj hs
  simp [hI]

/-- **The ranges handed out never overlap.** After any sequence of calls of `Allocate` and `AllocateAligned`:
    there is one range for each call, of the size asked for; every range lies inside of a block of the arena;
    no two of them overlap; those of `AllocateAligned` begin at a multiple of 8. Once there is a small-object
    block, the pointer and the bytes remaining add up to its end, and no subtraction from the bytes remaining
    has wrapped around. `MemoryUsage` is the sum over the blocks of their size and 8, in 64-bit words; in the
    lower half of the address space that is the number itself. -/
theorem arena_ranges_disjoint {es : List ArenaCall} {s : ArenaRun} (h : Run step Allowed init es s) :
    s.handed.map (fun x => (x.aligned, x.range.size)) = es.map (fun c => (c.aligned, c.bytes)) ∧
      (∀ x ∈ s.handed, ∃ b ∈ s.arena.blocks, x.range.Inside b) ∧
      s.handed.Pairwise (fun x y => x.range.Disjoint y.range) ∧
      (∀ x ∈ s.handed, x.aligned = true → x.range.addr.toNat % 8 = 0) ∧
      (∀ b, s.current = some b → b ∈ s.arena.blocks ∧ b.size = kBlockSize ∧
        s.arena.allocPtr + s.arena.allocBytesRemaining = b.addr + b.size ∧
        s.arena.allocBytesRemaining ≤ kBlockSize) ∧
      s.arena.underflowed = false ∧
      s.arena.memoryUsage = (s.arena.blocks.map (fun b => b.size + 8)).sum ∧
      ((∀ b ∈ s.arena.blocks, b.stop ≤ 2 ^ 63) →
        s.arena.memoryUsage.toNat = (s.arena.blocks.map (fun b => b.size.toNat + 8)).sum) := by
  have hsound : Sound s := h.invariant init_sound (fun _ _ _ hI hok hs => hI.step hok hs)
  refine ⟨handed_eq h, hsound.inside, hsound.disjoint, hsound.aligned, ?_, hsound.noWrap, hsound.usage,
    hsound.usage_exact⟩
  intro b hb
  have hfree := hsound.free
  unfold CurrentFree at hfree
  rw [hb] at hfree
  obtain ⟨hmem, hsize, used, hused, hptr, _⟩ := hfree
  refine ⟨hmem, hsize, ?_, UInt64.le_iff_toNat_le.mpr (by omega)⟩
  rw [← UInt64.toNat_inj, UInt64.toNat_add, UInt64.toNat_add, hptr, hsize, Nat.mod_add_mod]
  congr 1
  omega

/-- A small request, an aligned one from the same block, and one with a block of its own. -/
theorem arena_ranges_disjoint_three :
    let es : List ArenaCall := [⟨false, 10, 65536⟩, ⟨true, 16, 0⟩, ⟨true, 5000, 131072⟩]
    ∃ s, Run step Allowed init es s ∧ s.handed.map (fun x => (x.aligned, x.range.addr.toNat))
        = [(false, 65536), (true, 65552), (true, 131072)] ∧
      s.handed.Pairwise (fun x y => x.range.Disjoint y.range) := by
  intro es
  have hcalls : (es.foldlM (fun s c => if Allowed s c then step s c else none) init).map
      (fun s : ArenaRun => s.handed.map (fun x => (x.aligned, x.range.addr.toNat)))
        = some [(false, 65536), (true, 65552), (true, 131072)] := by decide +kernel
  obtain ⟨s, hs, hhanded⟩ := Option.map_eq_some_iff.mp hcalls
  exact ⟨s, run_of_foldlM hs, hhanded, (arena_ranges_disjoint (run_of_foldlM hs)).2.2.1⟩

end ArenaRun

end ZhiCache
