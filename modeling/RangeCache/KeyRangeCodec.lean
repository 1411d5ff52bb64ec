import RangeCache.KeyRange

/-!
# The encodings of a key range

Two functions encode a key range, `CheckAndUpdateKeyRange` and `freqUpdateInfo::update`; one
decodes it, `GetRealRange`. Each of the three works out for itself where the second string stands.

`freqUpdateInfo` does not declare the members `update` assigns; they are those of the node. Its
parameter `total_size` is not read.

## Main definitions

* `FreqUpdateInfo.update`
* `WritesRange` — a call of `CheckAndUpdateKeyRange` encodes a given pair
* `NewObject` — a pool has got one object more, filled with given bytes

## Main results

* `putKeyRange_new` — the encoding fills the object exactly
* `encoders_agree` — both encoders write the same bytes, and `GetRealRange` reads the pair back
-/

namespace RangeCache

open ByteMemory RecordLog

/-- `freqUpdateInfo::update`: the range is encoded in a new object, to which `key_range_` is set. -/
def FreqUpdateInfo.update (A : Allocator) (pool : Pool) (nv : NvRangeTab) (_totalSize : UInt64)
    (realStart realEnd : Bytes) : Except Fault (Pool × NvRangeTab) := do
  let size := realStart.length + realEnd.length + 2 * 8
  let (pool, keyRange) := pool.makePersistent A size
  let buf := 0
  let pool ← pool.memcpy ⟨keyRange, size⟩ buf (encodeFixed64 realStart.length)
  let pool ← pool.memcpy ⟨keyRange, size⟩ (buf + 8) realStart
  let buf := buf + (8 + realStart.length)
  let pool ← pool.memcpy ⟨keyRange, size⟩ buf (encodeFixed64 realEnd.length)
  let pool ← pool.memcpy ⟨keyRange, size⟩ (buf + 8) realEnd
  return (pool, { nv with keyRange := some keyRange, chunkNum := u64 (nv.chunkNum + 1),
                          seqNum := u64 (nv.seqNum + 1) })

/-- `q` is `p` with the new object `obj`: its bytes are `bs`, and no other byte has changed. -/
structure NewObject (p q : Pool) (obj : Extent) (bs : Bytes) : Prop where
  size : bs.length = obj.size
  fresh : ∀ e ∈ p.live, e.Disjoint obj
  live : q.live = obj :: p.live
  mem : q.mem = write p.mem obj.base bs

theorem NewObject.read {p q : Pool} {obj : Extent} {bs : Bytes} (h : NewObject p q obj bs) :
    read q.mem obj.base obj.size = bs := by
  rw [h.mem, ← h.size]
  exact read_write_self _ _ _

namespace FixedRangeTab

/-- This call of `CheckAndUpdateKeyRange` encodes the pair `r`. -/
structure WritesRange (icmp : Bytes → Bytes → Ordering) (pool : Pool) (nv : NvRangeTab)
    (newStart newEnd : Bytes) (r : Bytes × Bytes) : Prop where
  widened : widened icmp (getRealRange pool.mem nv) (newStart, newEnd) = r
  updates : icmp (getRealRange pool.mem nv).1 newStart = .gt ∨
    icmp (getRealRange pool.mem nv).2 newEnd = .lt

/-- The encoding of a pair. -/
def encodedRange (start stop : Bytes) : Bytes := encodeAll 8 (rangeRecords start stop)

theorem length_encodedRange (start stop : Bytes) :
    (encodedRange start stop).length = start.length + stop.length + 2 * 8 := by
  rw [encodedRange, length_encodeAll]
  simp only [rangeRecords, totalSize_cons, totalSize_nil, Record.size, List.length_nil]
  omega

/-- The object that holds an encoded pair. -/
def rangeObject (A : Allocator) (pool : Pool) (start stop : Bytes) : Extent :=
  ⟨(pool.makePersistent A (start.length + stop.length + 2 * 8)).2,
    start.length + stop.length + 2 * 8⟩

section Encoders

variable {A : Allocator} {pool : Pool} {nv : NvRangeTab} {start stop : Bytes}

/-- **The encoding fills a new object exactly.** -/
theorem putKeyRange_new (A : Allocator) (pool : Pool) (start stop : Bytes) :
    ∃ pool', putKeyRange (pool.makePersistent A (start.length + stop.length + 2 * 8)).1
        (rangeObject A pool start stop) start stop = .ok pool' ∧
      NewObject pool pool' (rangeObject A pool start stop) (encodedRange start stop) := by
  have hlen := length_encodedRange start stop
  rw [putKeyRange_eq, Pool.memcpy_of_le (by rw [Nat.zero_add]; exact hlen.le)]
  refine ⟨_, rfl, hlen, fun e he => Pool.disjoint_makePersistent A pool _ he, rfl, ?_⟩
  exact write_fill hlen

/-- `CheckAndUpdateKeyRange` encodes the widened range. -/
theorem WritesRange.checkAndUpdateKeyRange_eq {icmp : Bytes → Bytes → Ordering}
    {newStart newEnd : Bytes} (h : WritesRange icmp pool nv newStart newEnd (start, stop)) :
    checkAndUpdateKeyRange A icmp pool nv newStart newEnd =
      putKeyRange (pool.makePersistent A (start.length + stop.length + 2 * 8)).1
        (rangeObject A pool start stop) start stop := by
  have hwidened := h.widened
  rw [FixedRangeTab.widened, Prod.mk.injEq] at hwidened
  obtain ⟨hstart, hstop⟩ := hwidened
  simp only [checkAndUpdateKeyRange, beq_iff_eq, Bool.or_eq_true, if_pos h.updates]
  simp only [hstart, hstop]
  rfl

/-- `update` encodes the range it is given, and sets the pointer. -/
theorem update_eq {totalSize : UInt64} :
    FreqUpdateInfo.update A pool nv totalSize start stop =
      putKeyRange (pool.makePersistent A (start.length + stop.length + 2 * 8)).1
        (rangeObject A pool start stop) start stop >>= fun pool' =>
      .ok (pool', { nv with
        keyRange := some (rangeObject A pool start stop).base,
        chunkNum := u64 (nv.chunkNum + 1), seqNum := u64 (nv.seqNum + 1) }) := by
  simp only [FreqUpdateInfo.update, putKeyRange, Nat.zero_add, bind_assoc]
  rfl

/-- **What `update` leaves**: the object `key_range_` points to holds the pair. -/
theorem update_ok (A : Allocator) (pool : Pool) (nv : NvRangeTab) (totalSize : UInt64)
    (hlen : start.length + stop.length + 2 * 8 < 2 ^ 64) :
    ∃ pool' nv', FreqUpdateInfo.update A pool nv totalSize start stop = .ok (pool', nv') ∧
      NewObject pool pool' (rangeObject A pool start stop) (encodedRange start stop) ∧
      nv'.keyRange = some (rangeObject A pool start stop).base ∧
      getRealRange pool'.mem nv' = (start, stop) := by
  obtain ⟨pool', hput, hnew⟩ := putKeyRange_new A pool start stop
  refine ⟨pool', _, by rw [update_eq, hput]; rfl, hnew, rfl, ?_⟩
  exact getRealRange_putKeyRange hput (by omega) (by omega)
    { nv with chunkNum := u64 (nv.chunkNum + 1), seqNum := u64 (nv.seqNum + 1) }

/-- Every pair that has a place in memory can be stored. -/
theorem exists_getRealRange_eq (start stop : Bytes)
    (hlen : start.length + stop.length + 2 * 8 < 2 ^ 64) :
    ∃ (pool : Pool) (nv : NvRangeTab), getRealRange pool.mem nv = (start, stop) := by
  obtain ⟨pool, nv, -, -, -, hread⟩ :=
    update_ok .bump { mem := fun _ => 0, live := [] } (smallNv 0) 0 hlen
  exact ⟨pool, nv, hread⟩

/-- A smaller start replaces the old one. -/
theorem writesRange_start {icmp : Bytes → Bytes → Ordering} {old : Bytes}
    (hread : getRealRange pool.mem nv = (old, stop)) (hgt : icmp old start = .gt) :
    WritesRange icmp pool nv start stop (start, stop) := by
  refine ⟨?_, .inl ?_⟩
  · simp only [FixedRangeTab.widened, hread, hgt, if_true, ite_self]
  · rw [hread]
    exact hgt

/-- A larger end replaces the old one. -/
theorem writesRange_stop {icmp : Bytes → Bytes → Ordering} {old : Bytes}
    (hread : getRealRange pool.mem nv = (start, old)) (hlt : icmp old stop = .lt) :
    WritesRange icmp pool nv start stop (start, stop) := by
  refine ⟨?_, .inr ?_⟩
  · simp only [FixedRangeTab.widened, hread, hlt, if_true, ite_self]
  · rw [hread]
    exact hlt

/-- Every pair is one that some call of `CheckAndUpdateKeyRange` encodes. -/
theorem exists_writesRange (hlen : start.length + stop.length + 2 * 8 < 2 ^ 64) :
    ∃ (icmp : Bytes → Bytes → Ordering) (pool : Pool) (nv : NvRangeTab) (newStart newEnd : Bytes),
      Std.TransCmp icmp ∧ WritesRange icmp pool nv newStart newEnd (start, stop) := by
  match start, stop, hlen with
  | b :: start, stop, hlen =>
    -- the start is widened from the empty string, in the reversed order
    obtain ⟨pool, nv, hread⟩ := exists_getRealRange_eq [] stop
      (by simp only [List.length_nil]; omega)
    exact ⟨fun x y => compare y x, pool, nv, b :: start, stop, inferInstance,
      writesRange_start hread rfl⟩
  | [], b :: stop, hlen =>
    obtain ⟨pool, nv, hread⟩ := exists_getRealRange_eq [] [] (by decide)
    exact ⟨compare, pool, nv, [], b :: stop, inferInstance, writesRange_stop hread rfl⟩
  | [], [], _ =>
    obtain ⟨pool, nv, hread⟩ := exists_getRealRange_eq [0] [] (by decide)
    exact ⟨compare, pool, nv, [], [], inferInstance, writesRange_start hread rfl⟩

/-- **Both encoders agree, and the decoder with them.** For every pair of strings there is a call
of `CheckAndUpdateKeyRange` that encodes it, and every such call and every call of `update` with
the pair write the same bytes, fill with them exactly the object they allocate, and
`GetRealRange` reads the pair back from it. -/
theorem encoders_agree (start stop : Bytes)
    (hlen : start.length + stop.length + 2 * 8 < 2 ^ 64) :
    (∃ (icmp : Bytes → Bytes → Ordering) (pool : Pool) (nv : NvRangeTab) (newStart newEnd : Bytes),
      Std.TransCmp icmp ∧ WritesRange icmp pool nv newStart newEnd (start, stop)) ∧
    ∀ (A B : Allocator) (icmp : Bytes → Bytes → Ordering) (p q : Pool) (nv mv : NvRangeTab)
      (newStart newEnd : Bytes) (totalSize : UInt64),
      WritesRange icmp p nv newStart newEnd (start, stop) →
      ∃ (p' q' : Pool) (mv' : NvRangeTab),
        checkAndUpdateKeyRange A icmp p nv newStart newEnd = .ok p' ∧
        FreqUpdateInfo.update B q mv totalSize start stop = .ok (q', mv') ∧
        NewObject p p' (rangeObject A p start stop) (encodedRange start stop) ∧
        NewObject q q' (rangeObject B q start stop) (encodedRange start stop) ∧
        read p'.mem (rangeObject A p start stop).base (start.length + stop.length + 2 * 8) =
          read q'.mem (rangeObject B q start stop).base (start.length + stop.length + 2 * 8) ∧
        mv'.keyRange = some (rangeObject B q start stop).base ∧
        getRealRange p'.mem { nv with keyRange := some (rangeObject A p start stop).base } =
          (start, stop) ∧
        getRealRange q'.mem mv' = (start, stop) := by
  refine ⟨exists_writesRange hlen, ?_⟩
  intro A B icmp p q nv mv newStart newEnd totalSize hwrites
  obtain ⟨p', hput, hp⟩ := putKeyRange_new A p start stop
  obtain ⟨q', mv', hupdate, hq, hmv, hread⟩ := update_ok B q mv totalSize hlen
  refine ⟨p', q', mv', ?_, hupdate, hp, hq, hp.read.trans hq.read.symm, hmv, ?_, hread⟩
  · rw [hwrites.checkAndUpdateKeyRange_eq, hput]
  · exact getRealRange_putKeyRange hput (by omega) (by omega) nv

end Encoders

/-- The range from `[1]` to `[2]`. -/
theorem encoders_agree_small :
    ∃ (icmp : Bytes → Bytes → Ordering) (pool : Pool) (nv : NvRangeTab) (newStart newEnd : Bytes)
      (pool' : Pool), WritesRange icmp pool nv newStart newEnd ([1], [2]) ∧
      checkAndUpdateKeyRange .bump icmp pool nv newStart newEnd = .ok pool' ∧
      getRealRange pool'.mem { nv with keyRange := some (rangeObject .bump pool [1] [2]).base } =
        ([1], [2]) := by
  obtain ⟨⟨icmp, pool, nv, newStart, newEnd, -, hwrites⟩, hall⟩ :=
    encoders_agree [1] [2] (by decide)
  obtain ⟨pool', -, -, hcheck, -, -, -, -, -, hread, -⟩ :=
    hall .bump .bump icmp pool pool nv nv newStart newEnd 0 hwrites
  exact ⟨icmp, pool, nv, newStart, newEnd, pool', hwrites, hcheck, hread⟩

end FixedRangeTab

end RangeCache
