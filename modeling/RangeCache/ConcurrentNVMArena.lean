import RangeCache.Lib.Carving
import RangeCache.Pmem

/-!
# The concurrent arena

`ConcurrentNVMArena::Allocate` hands out memory from the upper end of the current block and goes to
`AllocateFallback` when the block is used up. The fallback gives a request above a quarter of the
block size a block of its own. For a smaller one it opens a new current block: a huge page, when
the build has `MAP_HUGETLB` and `hugetlb_size_` is set, and a plain block in the other builds. With
`MAP_HUGETLB` and `hugetlb_size_` zero, its initial value, neither branch is taken: the block stays
null and its size zero, and `size - bytes` wraps.

`new char[n]` belongs to the language; what the code relies on is recorded in `Heap`.
`AllocateFromHugePage` is declared and not defined, and is a parameter. The counters of blocks and
of their bytes, and the tracker, do not bear on what is handed out and are left out.

## Main definitions

* `Heap`, `Build`, `ConcurrentNVMArena`, `allocate`, `allocateFallback`
* `ArenaHistory`, `request` — an arena with the regions it has returned
* `Safe` — the regions lie in blocks and do not overlap, and the bytes that remain are in the block

## Main results

* `ArenaOk.request` — a request that does not open a null block keeps the invariant
* `safe_iff` — which sequences of requests are safe, in each build
-/

namespace RangeCache

open ByteMemory

/-- `new char[n]` while the blocks `live` are in use: the address of the new block, or `none` when
`std::bad_alloc` is thrown. -/
structure Heap where
  newChar : List Extent → ℕ → Option ℕ
  fresh : ∀ live n b, newChar live n = some b → ∀ e ∈ live, e.Disjoint ⟨b, n⟩
  inAddressSpace : ∀ live n b, newChar live n = some b → b + n < 2 ^ 64

/-- A heap that never reuses an address. -/
def Heap.bump : Heap where
  newChar live n := if endOf live + n < 2 ^ 64 then some (endOf live) else none
  fresh := by
    intro live n b h e he
    split at h
    · rw [← Option.some.inj h]
      exact Extent.disjoint_of_le (le_endOf he)
    · cases h
  inAddressSpace := by
    intro live n b h
    split at h
    · next hlt =>
      rw [← Option.some.inj h]
      exact hlt
    · cases h

/-- What the source is compiled and constructed with. -/
structure Build where
  /-- `MAP_HUGETLB` is defined. -/
  mapHugetlb : Bool
  kBlockSize : UInt64
  heap : Heap
  allocateFromHugePage : List Extent → ℕ → ℕ

/-- The arena, with the blocks that `blocks_` points to. The block the pointers are in is recorded
here; the source knows it in `AllocateFallback` only. -/
structure ConcurrentNVMArena where
  unalignedAllocPtr : ℕ
  alignedAllocPtr : ℕ
  allocBytesRemaining : ℕ
  hugetlbSize : ℕ
  blocks : List Extent
  current : Extent
  deriving DecidableEq, Repr

namespace ConcurrentNVMArena

/-- The initial values of the members. -/
def new : ConcurrentNVMArena :=
  { unalignedAllocPtr := 0, alignedAllocPtr := 0, allocBytesRemaining := 0, hugetlbSize := 0,
    blocks := [], current := ⟨0, 0⟩ }

/-- `AllocateNewBlock`: the block and the arena afterwards, unless `new` throws. -/
def allocateNewBlock (B : Build) (a : ConcurrentNVMArena) (blockBytes : ℕ) :
    Option (ℕ × ConcurrentNVMArena) :=
  (B.heap.newChar a.blocks blockBytes).map fun block =>
    (block, { a with blocks := ⟨block, blockBytes⟩ :: a.blocks })

/-- The conditional part of `AllocateFallback`: `block_head`, `size`, and the arena afterwards. -/
def nextBlock (B : Build) (a : ConcurrentNVMArena) : Option (ℕ × ℕ × ConcurrentNVMArena) :=
  if B.mapHugetlb then
    if a.hugetlbSize ≠ 0 then
      let size := a.hugetlbSize
      let blockHead := B.allocateFromHugePage a.blocks size
      some (blockHead, size, { a with blocks := ⟨blockHead, size⟩ :: a.blocks })
    else
      -- `size` and `block_head` keep the values they are declared with
      some (0, 0, a)
  else
    let size := B.kBlockSize.toNat
    (a.allocateNewBlock B size).map fun (blockHead, a) => (blockHead, size, a)

/-- `AllocateFallback`: what it returns, `none` if it throws, and the arena afterwards. -/
def allocateFallback (B : Build) (a : ConcurrentNVMArena) (bytes : ℕ) (aligned : Bool) :
    Option ℕ × ConcurrentNVMArena :=
  if B.kBlockSize.toNat / 4 < bytes then
    match a.allocateNewBlock B bytes with
    | none => (none, a)
    | some (block, a) => (some block, a)
  else
    match a.nextBlock B with
    | none => (none, a)
    | some (blockHead, size, a) =>
      let a := { a with
        allocBytesRemaining := u64 (size + (2 ^ 64 - bytes)), current := ⟨blockHead, size⟩ }
      if aligned then
        (some blockHead, { a with
          alignedAllocPtr := u64 (blockHead + bytes), unalignedAllocPtr := u64 (blockHead + size) })
      else
        let unalignedAllocPtr := u64 (blockHead + size + (2 ^ 64 - bytes))
        (some unalignedAllocPtr, { a with alignedAllocPtr := blockHead, unalignedAllocPtr })

/-- `Allocate`. -/
def allocate (B : Build) (a : ConcurrentNVMArena) (bytes : UInt64) :
    Option ℕ × ConcurrentNVMArena :=
  if bytes.toNat ≤ a.allocBytesRemaining then
    let unalignedAllocPtr := u64 (a.unalignedAllocPtr + (2 ^ 64 - bytes.toNat))
    (some unalignedAllocPtr,
      { a with unalignedAllocPtr,
               allocBytesRemaining := a.allocBytesRemaining - bytes.toNat })
  else
    a.allocateFallback B bytes.toNat false

/-! ## Sequences of requests -/

/-- An arena, and the regions it has returned, the latest first. -/
structure ArenaHistory where
  arena : ConcurrentNVMArena
  regions : List Extent

def ArenaHistory.start : ArenaHistory := { arena := new, regions := [] }

/-- One call of `Allocate`. -/
def request (B : Build) (h : ArenaHistory) (bytes : UInt64) : ArenaHistory :=
  match h.arena.allocate B bytes with
  | (none, arena) => { h with arena }
  | (some result, arena) => { arena, regions := ⟨result, bytes.toNat⟩ :: h.regions }

/-- The memory handed out is real and disjoint, and what remains is in the current block. -/
structure Safe (h : ArenaHistory) : Prop where
  inside : ∀ e ∈ h.regions, ∃ b ∈ h.arena.blocks, e.Inside b
  disjoint : h.regions.Pairwise Extent.Disjoint
  remaining : h.arena.allocBytesRemaining ≤ h.arena.current.size

/-! ## The invariant -/

/-- **The invariant.** What remains is the lower part of the current block, up to the pointer. -/
structure ArenaOk (h : ArenaHistory) : Prop where
  carved : CarvedAll h.arena.blocks ⟨h.arena.current.base, h.arena.allocBytesRemaining⟩ h.regions
  unaligned : h.arena.unalignedAllocPtr = h.arena.current.base + h.arena.allocBytesRemaining
  remaining : h.arena.allocBytesRemaining ≤ h.arena.current.size
  inAddressSpace : h.arena.current.base + h.arena.current.size < 2 ^ 64

theorem ArenaOk.safe {h : ArenaHistory} (hok : ArenaOk h) : Safe h :=
  ⟨hok.carved.inside, hok.carved.disjoint, hok.remaining⟩

theorem arenaOk_start : ArenaOk .start :=
  ⟨CarvedAll.start 0, rfl, le_rfl, by decide⟩

section Spec

variable {B : Build} {h : ArenaHistory} {bytes : UInt64}

/-- A request that fits takes the upper end of what remains. -/
theorem ArenaOk.request_of_le (hok : ArenaOk h) (hpos : 0 < bytes.toNat)
    (hle : bytes.toNat ≤ h.arena.allocBytesRemaining) : ArenaOk (request B h bytes) := by
  have hunaligned := hok.unaligned
  have hremaining := hok.remaining
  have hspace := hok.inAddressSpace
  have hptr : u64 (h.arena.unalignedAllocPtr + (2 ^ 64 - bytes.toNat))
      = h.arena.unalignedAllocPtr - bytes.toNat := by
    rw [u64]
    omega
  have hreq : request B h bytes =
      { arena := { h.arena with
          unalignedAllocPtr := h.arena.unalignedAllocPtr - bytes.toNat
          allocBytesRemaining := h.arena.allocBytesRemaining - bytes.toNat }
        regions := ⟨h.arena.unalignedAllocPtr - bytes.toNat, bytes.toNat⟩ :: h.regions } := by
    simp only [request, allocate, if_pos hle, hptr]
  rw [hreq]
  refine ⟨hok.carved.take hpos ?_ ?_ ?_, ?_, ?_, hspace⟩
  · exact ⟨by simp only; omega, by simp only; omega⟩
  · exact ⟨le_rfl, by simp only; omega⟩
  · exact Extent.disjoint_of_le (by simp only; omega)
  · simp only
    omega
  · exact (Nat.sub_le _ _).trans hremaining

/-- A large request that does not fit gets a block of its own, or fails; the rest is as it was. -/
theorem request_of_large (hlt : ¬ bytes.toNat ≤ h.arena.allocBytesRemaining)
    (hlarge : B.kBlockSize.toNat / 4 < bytes.toNat) :
    request B h bytes = h ∨ ∃ b, B.heap.newChar h.arena.blocks bytes.toNat = some b ∧
      request B h bytes =
        { arena := { h.arena with blocks := ⟨b, bytes.toNat⟩ :: h.arena.blocks }
          regions := ⟨b, bytes.toNat⟩ :: h.regions } := by
  cases hnew : B.heap.newChar h.arena.blocks bytes.toNat with
  | none =>
    left
    simp only [request, allocate, if_neg hlt, allocateFallback, if_pos hlarge, allocateNewBlock,
      hnew, Option.map_none]
  | some b =>
    right
    refine ⟨b, rfl, ?_⟩
    simp only [request, allocate, if_neg hlt, allocateFallback, if_pos hlarge, allocateNewBlock,
      hnew, Option.map_some]

/-- A small request that does not fit opens a block, in builds without `MAP_HUGETLB`. -/
theorem request_of_small (hplain : B.mapHugetlb = false)
    (hlt : ¬ bytes.toNat ≤ h.arena.allocBytesRemaining)
    (hsmall : ¬ B.kBlockSize.toNat / 4 < bytes.toNat) :
    request B h bytes = h ∨ ∃ b, B.heap.newChar h.arena.blocks B.kBlockSize.toNat = some b ∧
      request B h bytes =
        { arena := { h.arena with
            unalignedAllocPtr := b + (B.kBlockSize.toNat - bytes.toNat)
            alignedAllocPtr := b
            allocBytesRemaining := B.kBlockSize.toNat - bytes.toNat
            blocks := ⟨b, B.kBlockSize.toNat⟩ :: h.arena.blocks
            current := ⟨b, B.kBlockSize.toNat⟩ }
          regions := ⟨b + (B.kBlockSize.toNat - bytes.toNat), bytes.toNat⟩ :: h.regions } := by
  cases hnew : B.heap.newChar h.arena.blocks B.kBlockSize.toNat with
  | none =>
    left
    simp only [request, allocate, if_neg hlt, allocateFallback, if_neg hsmall, nextBlock, hplain,
      Bool.false_eq_true, if_false, allocateNewBlock, hnew, Option.map_none]
  | some b =>
    right
    have hspace := B.heap.inAddressSpace _ _ b hnew
    have hrem : u64 (B.kBlockSize.toNat + (2 ^ 64 - bytes.toNat))
        = B.kBlockSize.toNat - bytes.toNat := by
      rw [u64]
      omega
    have hptr : u64 (b + B.kBlockSize.toNat + (2 ^ 64 - bytes.toNat))
        = b + (B.kBlockSize.toNat - bytes.toNat) := by
      rw [u64]
      omega
    refine ⟨b, rfl, ?_⟩
    simp only [request, allocate, if_neg hlt, allocateFallback, if_neg hsmall, nextBlock, hplain,
      Bool.false_eq_true, if_false, allocateNewBlock, hnew, Option.map_some, hrem, hptr]

/-- **A request that opens no null block keeps the invariant.** -/
theorem ArenaOk.request (hok : ArenaOk h) (hpos : 0 < bytes.toNat)
    (hbuild : B.mapHugetlb = false ∨ B.kBlockSize.toNat / 4 < bytes.toNat) :
    ArenaOk (request B h bytes) := by
  by_cases hle : bytes.toNat ≤ h.arena.allocBytesRemaining
  · exact hok.request_of_le hpos hle
  by_cases hlarge : B.kBlockSize.toNat / 4 < bytes.toNat
  · obtain heq | ⟨b, hnew, heq⟩ := request_of_large hle hlarge
    · rwa [heq]
    · rw [heq]
      exact ⟨hok.carved.whole (B.heap.fresh _ _ b hnew), hok.unaligned, hok.remaining,
        hok.inAddressSpace⟩
  · obtain heq | ⟨b, hnew, heq⟩ := request_of_small (hbuild.resolve_right hlarge) hle hlarge
    · rwa [heq]
    · rw [heq]
      have hopen := hok.carved.openBlock (B.heap.fresh _ _ b hnew)
      refine ⟨hopen.take hpos ?_ ?_ ?_, rfl, Nat.sub_le _ _, B.heap.inAddressSpace _ _ b hnew⟩
      · exact ⟨Nat.le_add_right _ _, by simp only; omega⟩
      · exact ⟨le_rfl, by simp only; omega⟩
      · exact Extent.disjoint_of_le le_rfl

/-- Every request of the sequence keeps the invariant. -/
theorem ArenaOk.requests {rs : List UInt64} (hok : ArenaOk h) (hpos : ∀ r ∈ rs, 0 < r.toNat)
    (hbuild : B.mapHugetlb = false ∨ ∀ r ∈ rs, B.kBlockSize.toNat / 4 < r.toNat) :
    ArenaOk (rs.foldl (ConcurrentNVMArena.request B) h) := by
  induction rs generalizing h with
  | nil => exact hok
  | cons r rs ih =>
    obtain ⟨hr, hrs⟩ := List.forall_mem_cons.mp hpos
    refine ih (hok.request hr ?_) hrs ?_
    · exact hbuild.imp_right fun hall => hall r (List.mem_cons_self ..)
    · exact hbuild.imp_right fun hall r' hr' => hall r' (List.mem_cons_of_mem _ hr')

/-! ## The null block -/

/-- No block is open, and none will be taken from huge pages. -/
structure NoBlock (h : ArenaHistory) : Prop where
  remaining : h.arena.allocBytesRemaining = 0
  hugetlbSize : h.arena.hugetlbSize = 0

/-- A large request opens no block. -/
theorem NoBlock.request (hno : NoBlock h) (hpos : 0 < bytes.toNat)
    (hlarge : B.kBlockSize.toNat / 4 < bytes.toNat) : NoBlock (request B h bytes) := by
  have hlt : ¬ bytes.toNat ≤ h.arena.allocBytesRemaining := by
    rw [hno.remaining]
    omega
  obtain heq | ⟨b, -, heq⟩ := request_of_large hlt hlarge
  · rwa [heq]
  · rw [heq]
    exact ⟨hno.remaining, hno.hugetlbSize⟩

/-- **A small request opens a null block** when the build has `MAP_HUGETLB`: almost the whole
address space appears to remain. -/
theorem NoBlock.not_safe (hno : NoBlock h) (hmap : B.mapHugetlb = true) (hpos : 0 < bytes.toNat)
    (hsmall : ¬ B.kBlockSize.toNat / 4 < bytes.toNat) :
    ¬ Safe (ConcurrentNVMArena.request B h bytes) := by
  have hlt : ¬ bytes.toNat ≤ h.arena.allocBytesRemaining := by
    rw [hno.remaining]
    omega
  have hword := bytes.toNat_lt
  intro hsafe
  have hremaining := hsafe.remaining
  simp only [ConcurrentNVMArena.request, allocate, if_neg hlt, allocateFallback, if_neg hsmall,
    nextBlock, hmap, if_true, hno.hugetlbSize, ne_eq, not_true_eq_false, if_false, u64,
    Bool.false_eq_true] at hremaining
  omega

/-- Throughout a safe sequence in such a build, every request is large. -/
theorem NoBlock.large_of_safe {rs : List UInt64} (hno : NoBlock h) (hmap : B.mapHugetlb = true)
    (hpos : ∀ r ∈ rs, 0 < r.toNat)
    (hsafe : ∀ pre, pre <+: rs → Safe (pre.foldl (ConcurrentNVMArena.request B) h)) :
    ∀ r ∈ rs, B.kBlockSize.toNat / 4 < r.toNat := by
  induction rs generalizing h with
  | nil => simp
  | cons r rs ih =>
    obtain ⟨hr, hrs⟩ := List.forall_mem_cons.mp hpos
    have hlarge : B.kBlockSize.toNat / 4 < r.toNat := by
      by_contra hsmall
      exact hno.not_safe hmap hr hsmall (hsafe [r] (by simp))
    refine List.forall_mem_cons.mpr ⟨hlarge, ih (hno.request hr hlarge) hrs fun pre hpre => ?_⟩
    exact hsafe (r :: pre) ((List.prefix_cons_inj r).mpr hpre)

/-- **When `Allocate` returns real, disjoint memory.** Throughout a sequence of requests it does,
exactly if the build has no `MAP_HUGETLB` or every request is above a quarter of the block size. -/
theorem safe_iff (B : Build) {rs : List UInt64} (hpos : ∀ r ∈ rs, 0 < r.toNat) :
    (∀ pre, pre <+: rs → Safe (pre.foldl (ConcurrentNVMArena.request B) .start)) ↔
      B.mapHugetlb = false ∨ ∀ r ∈ rs, B.kBlockSize.toNat / 4 < r.toNat := by
  constructor
  · intro hsafe
    cases hmap : B.mapHugetlb with
    | false => exact .inl rfl
    | true =>
      have hno : NoBlock .start := ⟨rfl, rfl⟩
      exact .inr (hno.large_of_safe hmap hpos hsafe)
  · intro hbuild pre hpre
    have hsub : ∀ r ∈ pre, r ∈ rs := fun r hr => hpre.subset hr
    exact (arenaOk_start.requests (fun r hr => hpos r (hsub r hr))
      (hbuild.imp_right fun hall r hr => hall r (hsub r hr))).safe

end Spec

/-- Blocks of one page, with or without `MAP_HUGETLB`. -/
def pageBuild (mapHugetlb : Bool) : Build :=
  { mapHugetlb, kBlockSize := 4096, heap := .bump, allocateFromHugePage := fun _ _ => 0 }

theorem safe_iff_pageBuild :
    (∀ pre, pre <+: [8, 2000] →
        Safe (pre.foldl (ConcurrentNVMArena.request (pageBuild false)) .start)) ↔
      (pageBuild false).mapHugetlb = false ∨
        ∀ r ∈ ([8, 2000] : List UInt64), (pageBuild false).kBlockSize.toNat / 4 < r.toNat :=
  safe_iff (pageBuild false) (by simp)

/-- With `MAP_HUGETLB`, a request of 8 bytes is answered with the address `2 ^ 64 - 8`, in no
block. -/
theorem null_block_pageBuild :
    (ArenaHistory.start.arena.allocate (pageBuild true) 8).1 = some (2 ^ 64 - 8) ∧
      (ConcurrentNVMArena.request (pageBuild true) .start 8).arena.blocks = [] ∧
      (ConcurrentNVMArena.request (pageBuild true) .start 8).arena.allocBytesRemaining
        = 2 ^ 64 - 8 ∧
      ¬ Safe (ConcurrentNVMArena.request (pageBuild true) .start 8) := by
  refine ⟨by decide, by decide, by decide, fun h => ?_⟩
  exact absurd h.remaining (by decide)

end ConcurrentNVMArena

end RangeCache
