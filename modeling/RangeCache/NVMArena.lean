import Mathlib.Data.Nat.Bitwise
import RangeCache.Lib.Carving
import RangeCache.Pmem

/-!
# The arena on a mapped file

`NVMArena` hands out memory of one mapping: aligned pieces from its low end, unaligned ones from
its high end. A request that does not fit goes to `AllocateFallback`, whose first statements leave
the process; nothing behind `exit(-1)` is reached, so the block list and the counter of irregular
blocks never change and are left out.

Addresses and sizes are words. A mapping ends below the top of the address space.

## Main definitions

* `Mapping`, `NVMArena`, `NVMArena.new`, `allocate`, `allocateAligned`, `approximateMemoryUsage`
* `Served` — the states an arena can reach, with what it has handed out
* `Reached` — the states it can reach when requests of any size are made

## Main results

* `ArenaOk` — the invariant: the cursors, and the pieces carved so far
* `served_arena` — no two pieces overlap, and the accounting is exact
* `guardExact_iff` — when the guard of `AllocateAligned` compares the right number
-/

namespace RangeCache

open ByteMemory

/-- What `pmem_map_file` returns for a file of `size` bytes. -/
structure Mapping where
  addr : ℕ
  size : ℕ
  pageAligned : 4096 ∣ addr
  inAddressSpace : addr + size < 2 ^ 64

/-- The mapping as an extent of addresses. -/
def Mapping.extent (block : Mapping) : Extent := ⟨block.addr, block.size⟩

structure NVMArena where
  blockAddr : ℕ
  blockSz : ℕ
  unalignedAllocPtr : ℕ
  alignedAllocPtr : ℕ
  allocBytesRemaining : ℕ
  blocksMemory : ℕ
  deriving DecidableEq, Repr

/-- How a request ends. -/
inductive Reply where
  /-- It returns this address. -/
  | block (result : ℕ)
  /-- `AllocateFallback` leaves the process. -/
  | exit
  deriving DecidableEq, Repr

namespace NVMArena

/-- `alignof(max_align_t)`. -/
def kAlignUnit : ℕ := 16

/-- `NVMArena::NVMArena`, once the file is mapped. -/
def new (block : Mapping) : NVMArena :=
  { blockAddr := block.addr, blockSz := block.size, alignedAllocPtr := block.addr,
    allocBytesRemaining := block.size, blocksMemory := u64 (0 + block.size),
    unalignedAllocPtr := block.addr + block.size }

def approximateMemoryUsage (a : NVMArena) : ℕ :=
  u64 (a.blocksMemory + (2 ^ 64 - a.allocBytesRemaining))

def allocateFallback (a : NVMArena) : Reply × NVMArena := (.exit, a)

def allocate (a : NVMArena) (bytes : UInt64) : Reply × NVMArena :=
  if bytes.toNat ≤ a.allocBytesRemaining then
    let unalignedAllocPtr := u64 (a.unalignedAllocPtr + (2 ^ 64 - bytes.toNat))
    (.block unalignedAllocPtr,
      { a with unalignedAllocPtr,
               allocBytesRemaining := a.allocBytesRemaining - bytes.toNat })
  else
    a.allocateFallback

/-- The bytes `AllocateAligned` skips to reach an aligned address. -/
def slop (a : NVMArena) : ℕ :=
  let currentMod := a.alignedAllocPtr &&& (kAlignUnit - 1)
  if currentMod = 0 then 0 else kAlignUnit - currentMod

def allocateAligned (a : NVMArena) (bytes : UInt64) : Reply × NVMArena :=
  let needed := u64 (bytes.toNat + a.slop)
  if needed ≤ a.allocBytesRemaining then
    (.block (u64 (a.alignedAllocPtr + a.slop)),
      { a with alignedAllocPtr := u64 (a.alignedAllocPtr + needed),
               allocBytesRemaining := a.allocBytesRemaining - needed })
  else
    a.allocateFallback

/-! ## Requests -/

/-- The calls that take memory. -/
inductive Request where
  | allocate (bytes : UInt64)
  | allocateAligned (bytes : UInt64)
  deriving DecidableEq

def Request.bytes : Request → ℕ
  | .allocate bytes => bytes.toNat
  | .allocateAligned bytes => bytes.toNat

/-- What a request skips for alignment. -/
def Request.slop (a : NVMArena) : Request → ℕ
  | .allocate _ => 0
  | .allocateAligned _ => a.slop

def serve (a : NVMArena) : Request → Reply × NVMArena
  | .allocate bytes => a.allocate bytes
  | .allocateAligned bytes => a.allocateAligned bytes

/-- A request for some bytes, whose sum with the slop is a word. -/
structure Sound (a : NVMArena) (r : Request) : Prop where
  pos : 0 < r.bytes
  noWrap : r.bytes + r.slop a < 2 ^ 64

/-- `Served block a regions used`: from a new arena over `block`, sound requests have led to `a`;
`regions` are the memory handed out, the latest first, and `used` is the sum of its bytes and the
slop. -/
inductive Served (block : Mapping) : NVMArena → List Extent → ℕ → Prop where
  | new : Served block (new block) [] 0
  | serve {a a' : NVMArena} {regions : List Extent} {used result : ℕ} {r : Request} :
      Served block a regions used → Sound a r → serve a r = (.block result, a') →
      Served block a' (⟨result, r.bytes⟩ :: regions) (used + (r.bytes + r.slop a))

/-! ## The invariant -/

/-- The cursors enclose what is left, inside the mapping. -/
structure CursorsOk (block : Mapping) (a : NVMArena) : Prop where
  base_le : block.addr ≤ a.alignedAllocPtr
  meet : a.alignedAllocPtr + a.allocBytesRemaining = a.unalignedAllocPtr
  le_end : a.unalignedAllocPtr ≤ block.addr + block.size

/-- **The invariant of the arena.** The cursors bound what is left of the mapping, the rest has
been handed out in pieces that do not overlap, and every byte is accounted for. -/
structure ArenaOk (block : Mapping) (a : NVMArena) (regions : List Extent) (used : ℕ) : Prop where
  carved : Carved block.extent a.alignedAllocPtr a.unalignedAllocPtr regions
  meet : a.alignedAllocPtr + a.allocBytesRemaining = a.unalignedAllocPtr
  blocksMemory : a.blocksMemory = block.size
  used : used + a.allocBytesRemaining = block.size

section Spec

variable {block : Mapping} {a a' : NVMArena} {regions : List Extent} {used result : ℕ}

theorem arenaOk_new (block : Mapping) : ArenaOk block (new block) [] 0 := by
  have hspace := block.inAddressSpace
  refine ⟨Carved.start block.extent, rfl, ?_, Nat.zero_add _⟩
  rw [new, Nat.zero_add]
  exact u64_of_lt (by omega)

theorem ArenaOk.cursorsOk (h : ArenaOk block a regions used) : CursorsOk block a :=
  ⟨h.carved.base_le, h.meet, h.carved.le_end⟩

theorem CursorsOk.lt (h : CursorsOk block a) : a.unalignedAllocPtr < 2 ^ 64 :=
  lt_of_le_of_lt h.le_end block.inAddressSpace

/-- The slop is what is missing to the next multiple of the unit. -/
theorem slop_eq (a : NVMArena) : a.slop = (kAlignUnit - a.alignedAllocPtr % 16) % 16 := by
  have hmod : a.alignedAllocPtr &&& (kAlignUnit - 1) = a.alignedAllocPtr % 16 :=
    Nat.and_two_pow_sub_one_eq_mod a.alignedAllocPtr 4
  rw [slop, hmod, kAlignUnit]
  split <;> omega

theorem dvd_add_slop (a : NVMArena) : kAlignUnit ∣ a.alignedAllocPtr + a.slop := by
  rw [slop_eq, kAlignUnit]
  omega

/-- `Allocate` of bytes that fit moves the upper cursor down. -/
theorem allocate_of_le (h : CursorsOk block a) {bytes : UInt64}
    (hle : bytes.toNat ≤ a.allocBytesRemaining) :
    a.allocate bytes = (.block (a.unalignedAllocPtr - bytes.toNat),
      { a with unalignedAllocPtr := a.unalignedAllocPtr - bytes.toNat,
               allocBytesRemaining := a.allocBytesRemaining - bytes.toNat }) := by
  have hmeet := h.meet
  have hlt := h.lt
  have hptr : u64 (a.unalignedAllocPtr + (2 ^ 64 - bytes.toNat))
      = a.unalignedAllocPtr - bytes.toNat := by
    rw [u64]
    omega
  rw [allocate, if_pos hle, hptr]

/-- `AllocateAligned` of bytes that fit with the slop moves the lower cursor up. -/
theorem allocateAligned_of_le (h : CursorsOk block a) {bytes : UInt64}
    (hle : bytes.toNat + a.slop ≤ a.allocBytesRemaining) :
    a.allocateAligned bytes = (.block (a.alignedAllocPtr + a.slop),
      { a with alignedAllocPtr := a.alignedAllocPtr + (bytes.toNat + a.slop),
               allocBytesRemaining := a.allocBytesRemaining - (bytes.toNat + a.slop) }) := by
  have hmeet := h.meet
  have hlt := h.lt
  simp only [allocateAligned]
  rw [u64_of_lt (n := bytes.toNat + a.slop) (by omega), if_pos hle, u64_of_lt (by omega),
    u64_of_lt (by omega)]

/-- **A request that does not fit** leaves the process, and the arena as it was. -/
theorem serve_of_not_le {r : Request} (hsound : Sound a r)
    (h : ¬ r.bytes + r.slop a ≤ a.allocBytesRemaining) : serve a r = (.exit, a) := by
  cases r with
  | allocate bytes => exact if_neg h
  | allocateAligned bytes =>
    have hneeded : u64 (bytes.toNat + a.slop) = bytes.toNat + a.slop := u64_of_lt hsound.noWrap
    simp only [serve, allocateAligned, hneeded]
    exact if_neg h

/-- **A request that fits** is served a piece of what was left, and keeps the invariant. -/
theorem ArenaOk.serve (h : ArenaOk block a regions used) {r : Request}
    (hle : r.bytes + r.slop a ≤ a.allocBytesRemaining) :
    ∃ result a', NVMArena.serve a r = (.block result, a') ∧
      ArenaOk block a' (⟨result, r.bytes⟩ :: regions) (used + (r.bytes + r.slop a)) := by
  have hmeet := h.meet
  have hused := h.used
  cases r with
  | allocate bytes =>
    simp only [Request.bytes, Request.slop, Nat.add_zero] at hle ⊢
    refine ⟨_, _, allocate_of_le h.cursorsOk hle, ?_, ?_, h.blocksMemory, ?_⟩
    · exact h.carved.takeHigh le_rfl (by simp only; omega) (by simp only; omega)
    · simp only
      omega
    · simp only
      omega
  | allocateAligned bytes =>
    simp only [Request.bytes, Request.slop] at hle ⊢
    refine ⟨_, _, allocateAligned_of_le h.cursorsOk hle, ?_, ?_, h.blocksMemory, ?_⟩
    · exact h.carved.takeLow (by simp only; omega) (by simp only; omega) (by simp only; omega)
    · simp only
      omega
    · simp only
      omega

/-- Every reachable arena keeps the invariant. -/
theorem Served.arenaOk (h : Served block a regions used) : ArenaOk block a regions used := by
  induction h with
  | new => exact arenaOk_new block
  | @serve a a' regions used result r _ hsound hserve ih =>
    by_cases hle : r.bytes + r.slop a ≤ a.allocBytesRemaining
    · obtain ⟨result', a'', hserve', hok⟩ := ih.serve hle
      rw [hserve, Prod.mk.injEq, Reply.block.injEq] at hserve'
      obtain ⟨rfl, rfl⟩ := hserve'
      exact hok
    · rw [serve_of_not_le hsound hle] at hserve
      cases hserve

/-- The memory usage is what has been handed out and skipped. -/
theorem ArenaOk.approximateMemoryUsage (h : ArenaOk block a regions used) :
    a.approximateMemoryUsage = used := by
  have hused := h.used
  have hspace := block.inAddressSpace
  rw [NVMArena.approximateMemoryUsage, h.blocksMemory, u64]
  omega

/-- An aligned piece starts at a multiple of the unit. -/
theorem ArenaOk.dvd_result (h : ArenaOk block a regions used) {bytes : UInt64}
    (hsound : Sound a (.allocateAligned bytes))
    (hserve : a.allocateAligned bytes = (.block result, a')) : kAlignUnit ∣ result := by
  by_cases hle : bytes.toNat + a.slop ≤ a.allocBytesRemaining
  · rw [allocateAligned_of_le h.cursorsOk hle, Prod.mk.injEq, Reply.block.injEq] at hserve
    rw [← hserve.1]
    exact dvd_add_slop a
  · have hexit := serve_of_not_le hsound hle
    rw [NVMArena.serve, hserve, Prod.mk.injEq] at hexit
    cases hexit.1

/-- **The arena never hands out overlapping memory.** In every state that sound requests reach: the
cursors bound the free bytes of the mapping; what was handed out lies in the mapping and does not
overlap; the usage is the sum of all bytes and slop; and the next sound request is served if it
fits, aligned if it asks for that, and otherwise leaves the process with the arena as it is. -/
theorem served_arena (h : Served block a regions used) :
    (block.addr ≤ a.alignedAllocPtr ∧
      a.alignedAllocPtr + a.allocBytesRemaining = a.unalignedAllocPtr ∧
      a.unalignedAllocPtr ≤ block.addr + block.size) ∧
    (∀ e ∈ regions, block.addr ≤ e.base ∧ e.base + e.size ≤ block.addr + block.size) ∧
    regions.Pairwise Extent.Disjoint ∧
    a.approximateMemoryUsage = used ∧
    (∀ r, Sound a r → r.bytes + r.slop a ≤ a.allocBytesRemaining →
      ∃ result a', serve a r = (.block result, a')) ∧
    (∀ r, Sound a r → ¬ r.bytes + r.slop a ≤ a.allocBytesRemaining → serve a r = (.exit, a)) ∧
    ∀ bytes result a', Sound a (.allocateAligned bytes) →
      serve a (.allocateAligned bytes) = (.block result, a') → kAlignUnit ∣ result := by
  have hok := h.arenaOk
  refine ⟨⟨hok.carved.base_le, hok.meet, hok.carved.le_end⟩, fun e he => hok.carved.inside he,
    hok.carved.disjoint, hok.approximateMemoryUsage, fun r _ hle => ?_,
    fun r hsound hn => serve_of_not_le hsound hn,
    fun bytes result a' hsound hserve => hok.dvd_result hsound hserve⟩
  obtain ⟨result, a', hserve, -⟩ := hok.serve hle
  exact ⟨result, a', hserve⟩

/-! ## The guard -/

/-- `Reached block a`: requests for some bytes lead to `a`, whether or not the sums of bytes and
slop are words. -/
inductive Reached (block : Mapping) : NVMArena → Prop where
  | new : Reached block (new block)
  | serve {a a' : NVMArena} {result : ℕ} {r : Request} :
      Reached block a → 0 < r.bytes → serve a r = (.block result, a') → Reached block a'

theorem Served.reached (h : Served block a regions used) : Reached block a := by
  induction h with
  | new => exact .new
  | serve _ hsound hserve ih => exact ih.serve hsound.pos hserve

theorem cursorsOk_new (block : Mapping) : CursorsOk block (new block) :=
  ⟨le_rfl, rfl, le_rfl⟩

/-- `AllocateAligned` compares the word that is left of the sum. -/
theorem allocateAligned_eq_block {bytes : UInt64} :
    a.allocateAligned bytes = (.block result, a') ↔
      u64 (bytes.toNat + a.slop) ≤ a.allocBytesRemaining ∧
        result = u64 (a.alignedAllocPtr + a.slop) ∧
        a' = { a with
          alignedAllocPtr := u64 (a.alignedAllocPtr + u64 (bytes.toNat + a.slop)),
          allocBytesRemaining := a.allocBytesRemaining - u64 (bytes.toNat + a.slop) } := by
  simp only [allocateAligned]
  split
  · next hle =>
    rw [Prod.mk.injEq, Reply.block.injEq, and_iff_right hle]
    exact and_congr eq_comm eq_comm
  · next hle =>
    constructor
    · intro h
      cases h
    · rintro ⟨hle', -⟩
      exact absurd hle' hle

/-- A request moves the cursors towards each other, also when a sum has wrapped. -/
theorem CursorsOk.serve (h : CursorsOk block a) {r : Request}
    (hserve : NVMArena.serve a r = (.block result, a')) : CursorsOk block a' := by
  obtain ⟨hbase, hmeet, hend⟩ := h
  have hlt := CursorsOk.lt ⟨hbase, hmeet, hend⟩
  cases r with
  | allocate bytes =>
    by_cases hle : bytes.toNat ≤ a.allocBytesRemaining
    · rw [NVMArena.serve, allocate_of_le ⟨hbase, hmeet, hend⟩ hle, Prod.mk.injEq] at hserve
      rw [← hserve.2]
      exact ⟨hbase, by simp only; omega, (Nat.sub_le _ _).trans hend⟩
    · rw [NVMArena.serve, allocate, if_neg hle] at hserve
      cases hserve
  | allocateAligned bytes =>
    obtain ⟨hle, -, rfl⟩ := allocateAligned_eq_block.mp hserve
    have hcursor : u64 (a.alignedAllocPtr + u64 (bytes.toNat + a.slop))
        = a.alignedAllocPtr + u64 (bytes.toNat + a.slop) := u64_of_lt (by omega)
    rw [hcursor]
    exact ⟨hbase.trans (Nat.le_add_right _ _), by simp only; omega, hend⟩

theorem Reached.cursorsOk (h : Reached block a) : CursorsOk block a := by
  induction h with
  | new => exact cursorsOk_new block
  | serve _ _ hserve ih => exact ih.serve hserve

/-- The guard of `AllocateAligned` is right for a request. -/
structure GuardExact (a : NVMArena) (bytes : UInt64) : Prop where
  /-- The request is served from the mapping exactly if bytes and slop are left, as numbers. -/
  served_iff : (∃ result a', a.allocateAligned bytes = (.block result, a')) ↔
    bytes.toNat + a.slop ≤ a.allocBytesRemaining
  /-- No sum that has wrapped passes. -/
  noWrap : u64 (bytes.toNat + a.slop) ≤ a.allocBytesRemaining →
    u64 (bytes.toNat + a.slop) = bytes.toNat + a.slop
  /-- What is returned has its bytes behind it, in what was left. -/
  behind : ∀ result a', a.allocateAligned bytes = (.block result, a') →
    a.alignedAllocPtr ≤ result ∧ result + bytes.toNat ≤ a.unalignedAllocPtr

/-- A sum that is a word is compared as it is. -/
theorem guardExact_of_lt (hok : CursorsOk block a) {bytes : UInt64}
    (hword : bytes.toNat + a.slop < 2 ^ 64) : GuardExact a bytes := by
  have hmeet := hok.meet
  have hlt := hok.lt
  have hneeded : u64 (bytes.toNat + a.slop) = bytes.toNat + a.slop := u64_of_lt hword
  refine ⟨⟨?_, fun hle => ⟨_, _, allocateAligned_of_le hok hle⟩⟩, fun _ => hneeded, ?_⟩
  · rintro ⟨result, a', hblock⟩
    rw [← hneeded]
    exact (allocateAligned_eq_block.mp hblock).1
  · intro result a' hblock
    obtain ⟨hle, rfl, -⟩ := allocateAligned_eq_block.mp hblock
    rw [hneeded] at hle
    rw [u64_of_lt (by omega)]
    exact ⟨Nat.le_add_right _ _, by omega⟩

/-- A request that does not pass is not served, and should not be. -/
theorem guardExact_of_not_le {bytes : UInt64}
    (hfail : ¬ u64 (bytes.toNat + a.slop) ≤ a.allocBytesRemaining) : GuardExact a bytes := by
  have hle : u64 (bytes.toNat + a.slop) ≤ bytes.toNat + a.slop := Nat.mod_le _ _
  refine ⟨⟨?_, fun hserve => by omega⟩, fun hpass => absurd hpass hfail, ?_⟩
  · rintro ⟨result, a', hblock⟩
    exact absurd (allocateAligned_eq_block.mp hblock).1 hfail
  · intro result a' hblock
    exact absurd (allocateAligned_eq_block.mp hblock).1 hfail

/-- **When the guard is right.** The sum is a word, or what is left of it is above the bytes that
remain. -/
theorem guardExact_iff (h : Reached block a) (bytes : UInt64) :
    GuardExact a bytes ↔ bytes.toNat + a.slop < 2 ^ 64 ∨
      a.allocBytesRemaining + 2 ^ 64 < bytes.toNat + a.slop := by
  constructor
  · intro hguard
    by_contra hwrap
    -- the sum wraps into a number that passes, and is too large as a number
    have hpass : u64 (bytes.toNat + a.slop) ≤ a.allocBytesRemaining := by
      rw [u64]
      omega
    have hsum := hguard.noWrap hpass
    have hmeet := h.cursorsOk.meet
    have hlt := h.cursorsOk.lt
    omega
  · rintro (hword | habove)
    · exact guardExact_of_lt h.cursorsOk hword
    · refine guardExact_of_not_le ?_
      have hslop : a.slop < 16 := by
        rw [slop_eq, kAlignUnit]
        omega
      have hbytes := bytes.toNat_lt
      rw [u64]
      omega

end Spec

/-! ## A small arena -/

/-- One page. -/
def smallMapping : Mapping :=
  { addr := 4096, size := 4096, pageAligned := ⟨1, rfl⟩, inAddressSpace := by decide }

/-- An unaligned and an aligned request leave two pieces, at the two ends of the page. -/
theorem served_arena_small :
    ∃ a : NVMArena, ([⟨4096, 3⟩, ⟨8187, 5⟩] : List Extent).Pairwise Extent.Disjoint ∧
      a.approximateMemoryUsage = 8 := by
  have hfirst : Served smallMapping _ [] 0 := .new
  have hsecond : Served smallMapping _ [⟨8187, 5⟩] 5 :=
    hfirst.serve (r := .allocate 5) ⟨by decide, by decide⟩ rfl
  have hthird : Served smallMapping _ [⟨4096, 3⟩, ⟨8187, 5⟩] 8 :=
    hsecond.serve (r := .allocateAligned 3) ⟨by decide, by decide⟩ rfl
  obtain ⟨-, -, hdisjoint, husage, -⟩ := served_arena hthird
  exact ⟨_, hdisjoint, husage⟩

/-- The page after an aligned request of 3 bytes. -/
def misaligned : NVMArena := ((new smallMapping).allocateAligned 3).2

theorem reached_misaligned : Reached smallMapping misaligned :=
  Reached.new.serve (r := .allocateAligned 3) (by decide) rfl

theorem guardExact_iff_misaligned :
    GuardExact misaligned 100 ↔ (100 : UInt64).toNat + misaligned.slop < 2 ^ 64 ∨
      misaligned.allocBytesRemaining + 2 ^ 64 < (100 : UInt64).toNat + misaligned.slop :=
  guardExact_iff reached_misaligned 100

/-- With a slop of 13, a request for `2 ^ 64 - 13` bytes is served: the sum wraps to zero. -/
theorem guard_wraps_misaligned :
    Reached smallMapping misaligned ∧
      (misaligned.allocateAligned 18446744073709551603).1 = .block 4112 ∧
      ¬ GuardExact misaligned 18446744073709551603 := by
  refine ⟨reached_misaligned, by decide, fun h => ?_⟩
  exact absurd (h.noWrap (by decide)) (by decide)

end NVMArena

end RangeCache
