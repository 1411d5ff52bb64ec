import Mathlib.Data.List.Induction
import RangeCache.Lib.Carving
import RangeCache.WriteCache

/-!
# The persistent allocator

`PersistentAllocator` cuts regions off one object of the pool by moving `cur_`. `Allocate` compares
the size it is asked for with nothing, so past the end of the space it hands out memory that the
allocator does not own; `cur_` is then above `total_size_`, and `Remain()` wraps to a large number,
which turns the trigger of `MaybeNeedCompaction` off.

## Main definitions

* `PersistentAllocator.allocate`, `allocateAll` — one call, and a sequence of calls
* `SpaceSafe` — what the allocator is for: regions of its own, an exact `Remain()`, and a trigger
  that stays on

## Main results

* `spaceSafe_iff` — the allocator is safe exactly for sizes whose sum it owns
-/

namespace RangeCache

open ByteMemory

namespace PersistentAllocator

/-- `Allocate`: the allocator afterwards, and the region. -/
def allocate (a : PersistentAllocator) (allocaSize : UInt64) : PersistentAllocator × ℕ :=
  let alloc := a.raw + a.cur
  ({ a with cur := u64 (a.cur + allocaSize.toNat) }, alloc)

/-- A sequence of calls: the allocator, and the regions handed out, the latest first. -/
def allocateAll (s : PersistentAllocator × List Extent) (sizes : List UInt64) :
    PersistentAllocator × List Extent :=
  sizes.foldl (fun s size =>
    ((s.1.allocate size).1, ⟨(s.1.allocate size).2, size.toNat⟩ :: s.2)) s

/-- The sum of the sizes. -/
def totalOf (sizes : List UInt64) : ℕ := (sizes.map UInt64.toNat).sum

/-- What holds after the calls `before`: the regions lie in the space and do not overlap, `cur_` is
in the space, and `Remain()` is what has not been handed out. -/
structure Owns (rawSpace total : ℕ) (before : List UInt64)
    (s : PersistentAllocator × List Extent) : Prop where
  inside : ∀ e ∈ s.2, rawSpace ≤ e.base ∧ e.base + e.size ≤ rawSpace + total
  disjoint : s.2.Pairwise Extent.Disjoint
  cur_le : s.1.cur ≤ s.1.totalSize
  remain : s.1.remain + totalOf before = total

/-- **The allocator never gives away more than it owns**: this holds after every prefix of a
sequence of calls, and no call turns the trigger off. -/
def SpaceSafe (rawSpace : ℕ) (total : UInt64) (sizes : List UInt64) : Prop :=
  ∀ before, before <+: sizes →
    Owns rawSpace total.toNat before (allocateAll (new rawSpace total.toNat, []) before) ∧
    ∀ size, before ++ [size] <+: sizes →
      (allocateAll (new rawSpace total.toNat, []) before).1.NeedsCompaction →
      (allocateAll (new rawSpace total.toNat, []) (before ++ [size])).1.NeedsCompaction

section Spec

variable {rawSpace total : ℕ} {before sizes : List UInt64}

theorem totalOf_append (sizes sizes' : List UInt64) :
    totalOf (sizes ++ sizes') = totalOf sizes + totalOf sizes' := by
  simp [totalOf]

theorem allocateAll_append (s : PersistentAllocator × List Extent) (sizes sizes' : List UInt64) :
    allocateAll s (sizes ++ sizes') = allocateAll (allocateAll s sizes) sizes' :=
  List.foldl_append ..

/-- The state after calls whose sizes fit: the cursor is their sum, and what lies behind it is
still free. -/
structure CutOff (rawSpace total : ℕ) (before : List UInt64)
    (s : PersistentAllocator × List Extent) : Prop where
  raw : s.1.raw = rawSpace
  totalSize : s.1.totalSize = total
  cur : s.1.cur = totalOf before
  carved : Carved ⟨rawSpace, total⟩ (rawSpace + s.1.cur) (rawSpace + total) s.2

theorem cutOff_nil (rawSpace total : ℕ) : CutOff rawSpace total [] (new rawSpace total, []) :=
  ⟨rfl, rfl, rfl, Carved.start ⟨rawSpace, total⟩⟩

/-- A call that fits cuts off the next region. -/
theorem CutOff.allocate {s : PersistentAllocator × List Extent} (h : CutOff rawSpace total before s)
    (htotal : total < 2 ^ 64) {size : UInt64} (hfits : totalOf (before ++ [size]) ≤ total) :
    CutOff rawSpace total (before ++ [size]) (allocateAll s [size]) := by
  have hcur := h.cur
  have hraw := h.raw
  have hsum : totalOf (before ++ [size]) = s.1.cur + size.toNat := by
    rw [totalOf_append, hcur]
    simp [totalOf]
  have hnext : u64 (s.1.cur + size.toNat) = s.1.cur + size.toNat := u64_of_lt (by omega)
  refine ⟨h.raw, h.totalSize, hnext.trans hsum.symm, ?_⟩
  show Carved ⟨rawSpace, total⟩ (rawSpace + u64 (s.1.cur + size.toNat)) (rawSpace + total)
    (⟨s.1.raw + s.1.cur, size.toNat⟩ :: s.2)
  rw [hnext]
  exact h.carved.takeLow (by simp only; omega) (by simp only; omega) (by omega)

/-- Calls that fit together are cut off one after the other. -/
theorem cutOff_of_le (rawSpace : ℕ) (htotal : total < 2 ^ 64) (hfits : totalOf before ≤ total) :
    CutOff rawSpace total before (allocateAll (new rawSpace total, []) before) := by
  induction before using List.reverseRecOn with
  | nil => exact cutOff_nil rawSpace total
  | append_singleton before size ih =>
    rw [allocateAll_append]
    refine (ih ?_).allocate htotal hfits
    rw [totalOf_append] at hfits
    omega

/-- What remains is exact as long as the cursor is in the space. -/
theorem CutOff.remain {s : PersistentAllocator × List Extent} (h : CutOff rawSpace total before s)
    (htotal : total < 2 ^ 64) (hfits : totalOf before ≤ total) :
    s.1.remain = total - totalOf before := by
  rw [PersistentAllocator.remain, h.totalSize, h.cur, u64]
  omega

theorem CutOff.owns {s : PersistentAllocator × List Extent} (h : CutOff rawSpace total before s)
    (htotal : total < 2 ^ 64) (hfits : totalOf before ≤ total) : Owns rawSpace total before s := by
  have hremain := h.remain htotal hfits
  refine ⟨fun e he => h.carved.inside he, h.carved.disjoint, ?_, by omega⟩
  rw [h.cur, h.totalSize]
  exact hfits

/-- **When the allocator is safe**: when the sum of the sizes is not above the space. -/
theorem spaceSafe_iff (rawSpace : ℕ) (total : UInt64) (sizes : List UInt64) :
    SpaceSafe rawSpace total sizes ↔ totalOf sizes ≤ total.toNat := by
  have htotal : total.toNat < 2 ^ 64 := total.toNat_lt
  constructor
  · intro h
    have hremain := (h sizes (List.prefix_refl sizes)).1.remain
    omega
  · intro hfits before hbefore
    have hle : ∀ sizes', sizes' <+: sizes → totalOf sizes' ≤ total.toNat := by
      rintro sizes' ⟨rest, rfl⟩
      rw [totalOf_append] at hfits
      omega
    have hcut := fun sizes' hsizes' =>
      cutOff_of_le rawSpace htotal (hle sizes' hsizes')
    refine ⟨(hcut before hbefore).owns htotal (hle before hbefore), fun size hsize htrigger => ?_⟩
    have hbound := hle _ hsize
    refine htrigger.of_le ?_ ?_
    · rw [(hcut _ hbefore).remain htotal (hle _ hbefore), (hcut _ hsize).remain htotal hbound,
        totalOf_append]
      omega
    · rw [capacity, capacity, (hcut _ hbefore).totalSize, (hcut _ hsize).totalSize]

end Spec

/-- From 16 bytes, a region of 32 bytes is handed out, and `Remain()` wraps. -/
theorem allocate_overruns_small : ¬ SpaceSafe 0 16 [32] := by
  intro h
  have hle := (h [32] (List.prefix_refl _)).1.cur_le
  revert hle
  decide

end PersistentAllocator

end RangeCache
