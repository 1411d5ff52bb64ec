import RangeCache.FixedRangeTab
import RangeCache.Lib.FallibleRun

/-!
# The log of a range

What a range is for: a list of records, each the filter and the data of one chunk, in the order
they were appended. This module says what `Append` and `RebuildBlkList` do to it, once, so that
no later proof unfolds either.

## Main definitions

* `AppendArgs.record`, `ChunkBlk.ofPlace` — a chunk as a record, and the index entry of a record
* `AppendStep` — everything a successful `Append` does
* `RangeHolds` — the abstraction relation: the tab's index and buffer hold a list of records

## Main results

* `append_inv`, `append_of_fits`, `append_of_not_fits` — `Append` succeeds exactly when the block
  fits, and then it is an `AppendStep`
* `RangeHolds.append`, `RangeHolds.appendAll` — one `Append`, and any run of them, refine
  appending to the list
* `rebuildBlkList_of_holdsAt` — `RebuildBlkList` parses the log format
-/

namespace RangeCache

open ByteMemory RecordLog FallibleRun

/-- The index entry of a record at a position, for filters of `b` bytes. -/
def ChunkBlk.ofPlace (b : ℕ) (p : ℕ × Record) : ChunkBlk := ⟨b, p.1, p.2.payload.length⟩

/-- An entry ends where its record does. -/
theorem ChunkBlk.stop_ofPlace {b : ℕ} {p : ℕ × Record} (htag : p.2.tag.length = b) :
    (ChunkBlk.ofPlace b p).stop = p.1 + p.2.size 8 := by
  rw [ChunkBlk.stop, ChunkBlk.ofPlace, Record.size, htag]
  simp only [Nat.add_assoc]

namespace FixedRangeTab

/-! ## One `Append` -/

/-- The record an `Append` adds to the log. -/
def AppendArgs.record (a : AppendArgs) : Record := ⟨a.bloomData, a.chunkData⟩

theorem AppendArgs.size_record (a : AppendArgs) :
    a.record.size 8 = 16 + a.chunkData.length := by
  simp [Record.size, AppendArgs.record, a.bloomData_length, CHUNK_BLOOM_FILTER_LEN]

/-- The block fits behind the data. -/
def Fits (s : RangeState) (a : AppendArgs) : Prop :=
  s.nv.dataLen + a.record.size 8 ≤ s.nv.bufSize

instance (s : RangeState) (a : AppendArgs) : Decidable (Fits s a) :=
  inferInstanceAs (Decidable (_ ≤ _))

/-- The pool once `Append` has copied the block. -/
def writeBlock (s : RangeState) (a : AppendArgs) : Pool :=
  { s.pool with mem := write s.pool.mem (s.nv.buf + s.nv.dataLen) (a.record.encode 8) }

/-- Everything a successful `Append` does. The last clause is the key range: it is written to
storage that nothing lived in. -/
structure AppendStep (s : RangeState) (a : AppendArgs) (s' : RangeState) : Prop where
  fits : Fits s a
  nv : s'.nv = { s.nv with dataLen := s.nv.dataLen + a.record.size 8 }
  tab : s'.tab = { s.tab with
    blklist := s.tab.blklist ++ [ChunkBlk.ofPlace 8 (s.nv.dataLen, a.record)] }
  pool : (writeBlock s a).Extends s'.pool

/-- Putting a key range into a fresh object of the right size succeeds and frames the rest. -/
theorem putKeyRange_ok {p q : Pool} (h : p.Extends q) {obj : Extent}
    (hobj : ∀ e ∈ p.live, e.Disjoint obj) {start stop : Bytes}
    (hsize : start.length + stop.length + 2 * 8 ≤ obj.size) :
    ∃ q', putKeyRange q obj start stop = .ok q' ∧ p.Extends q' := by
  obtain ⟨q₁, hq₁, h₁⟩ := h.memcpy 0 (encodeFixed64 start.length) hobj
    (by rw [length_encodeFixed64]; omega)
  obtain ⟨q₂, hq₂, h₂⟩ := h₁.memcpy 8 start hobj (by omega)
  obtain ⟨q₃, hq₃, h₃⟩ := h₂.memcpy (8 + start.length)
    (encodeFixed64 stop.length) hobj (by rw [length_encodeFixed64]; omega)
  obtain ⟨q₄, hq₄, h₄⟩ := h₃.memcpy (8 + start.length + 8) stop hobj (by omega)
  refine ⟨q₄, ?_, h₄⟩
  simp only [putKeyRange, hq₁, bind, Except.bind, hq₂, hq₃, hq₄]

/-- `CheckAndUpdateKeyRange` succeeds, and touches nothing that was allocated. -/
theorem checkAndUpdateKeyRange_ok (A : Allocator) (icmp : Bytes → Bytes → Ordering) (pool : Pool)
    (nv : NvRangeTab) (newStart newEnd : Bytes) :
    ∃ pool', checkAndUpdateKeyRange A icmp pool nv newStart newEnd = .ok pool' ∧
      pool.Extends pool' := by
  simp only [checkAndUpdateKeyRange]
  split
  · exact putKeyRange_ok (Pool.extends_makePersistent A pool _)
      (fun e he => Pool.disjoint_makePersistent A pool _ he) le_rfl
  · exact ⟨pool, rfl, Pool.Extends.refl pool⟩

/-- The three copies of `Append` are one copy of the block's encoding. -/
theorem copyBlock_eq (pool : Pool) (obj : Extent) (curLen : ℕ) (a : AppendArgs) :
    copyBlock pool obj curLen a.bloomData a.chunkData =
      pool.memcpy obj curLen (a.record.encode 8) := by
  have hbloom : curLen + CHUNK_BLOOM_FILTER_LEN = curLen + a.bloomData.length := by
    rw [a.bloomData_length]
  have hlen : ∀ n, n + 8 = n + (encodeFixed64 a.chunkData.length).length := by simp
  rw [Record.encode, ← Pool.memcpy_append]
  simp only [copyBlock, hbloom, AppendArgs.record]
  refine congrArg _ (funext fun p => ?_)
  rw [hlen (curLen + a.bloomData.length)]
  exact Pool.memcpy_append p obj _ (encodeFixed64 a.chunkData.length) a.chunkData

/-- The new data length does not wrap. -/
theorem dataLen_of_fits {s : RangeState} {a : AppendArgs} (h : Fits s a) :
    u64 (s.nv.dataLen + CHUNK_BLOOM_FILTER_LEN + 8 + a.chunkData.length) =
      s.nv.dataLen + a.record.size 8 := by
  have hlt := s.nv.bufSize_lt
  have hsize := a.size_record
  rw [Fits] at h
  rw [CHUNK_BLOOM_FILTER_LEN, u64_of_lt (by omega)]
  omega

/-- `Append` of a block that fits: the block is copied, and the key range is checked. -/
theorem append_eq (A : Allocator) (icmp : Bytes → Bytes → Ordering) {s : RangeState}
    {a : AppendArgs} (h : Fits s a) :
    append A icmp s a = (checkAndUpdateKeyRange A icmp (writeBlock s a)
        { s.nv with dataLen := s.nv.dataLen + a.record.size 8 } a.newStart a.newEnd).map fun pool =>
      { pool, nv := { s.nv with dataLen := s.nv.dataLen + a.record.size 8 },
        tab := { s.tab with
          blklist := s.tab.blklist ++ [ChunkBlk.ofPlace 8 (s.nv.dataLen, a.record)] } } := by
  have hcopy : copyBlock s.pool s.nv.bufExtent s.nv.dataLen a.bloomData a.chunkData
      = .ok (writeBlock s a) := by
    rw [copyBlock_eq, Pool.memcpy_of_le (by rw [Record.length_encode]; exact h)]
    rfl
  simp only [append, hcopy, dataLen_of_fits h, bind, Except.bind, pure, Except.pure, ite_self,
    Except.map]
  rfl

theorem append_of_fits (A : Allocator) (icmp : Bytes → Bytes → Ordering) {s : RangeState}
    {a : AppendArgs} (h : Fits s a) : ∃ s', append A icmp s a = .ok s' ∧ AppendStep s a s' := by
  obtain ⟨pool', hpool, hext⟩ := checkAndUpdateKeyRange_ok A icmp (writeBlock s a)
    { s.nv with dataLen := s.nv.dataLen + a.record.size 8 } a.newStart a.newEnd
  exact ⟨_, by rw [append_eq A icmp h, hpool]; rfl, h, rfl, rfl, hext⟩

/-- A block that does not fit is copied over the end of the buffer. -/
theorem append_of_not_fits (A : Allocator) (icmp : Bytes → Bytes → Ordering) {s : RangeState}
    {a : AppendArgs} (h : ¬ Fits s a) : append A icmp s a = .error .outOfBounds := by
  have hcopy : copyBlock s.pool s.nv.bufExtent s.nv.dataLen a.bloomData a.chunkData
      = .error .outOfBounds := by
    rw [copyBlock_eq, Pool.memcpy_of_not_le (by rw [Record.length_encode]; exact h)]
  simp only [append, hcopy, bind, Except.bind, ite_self]

/-- `Append` succeeds only as an `AppendStep`. -/
theorem append_inv {A : Allocator} {icmp : Bytes → Bytes → Ordering} {s s' : RangeState}
    {a : AppendArgs} (h : append A icmp s a = .ok s') : AppendStep s a s' := by
  by_cases hfits : Fits s a
  · obtain ⟨s'', hs'', hstep⟩ := append_of_fits A icmp hfits
    rw [h, Except.ok.injEq] at hs''
    exact hs'' ▸ hstep
  · rw [append_of_not_fits A icmp hfits] at h
    cases h

/-! ## Runs of `Append` -/

/-- A sequence of `Append` calls. -/
def appendAll (A : Allocator) (icmp : Bytes → Bytes → Ordering) (s : RangeState)
    (as : List AppendArgs) : Except Fault RangeState :=
  run (append A icmp) s as

/-- The records a run of `Append` adds. -/
def records (as : List AppendArgs) : List Record := as.map AppendArgs.record

/-- The abstraction relation. Behind the index entries `old`, the tab lists the records `recs` in
order; the buffer holds them from offset `d₀` on, and nothing follows them. -/
structure RangeHolds (d₀ : ℕ) (old : List ChunkBlk) (recs : List Record) (s : RangeState) :
    Prop where
  /-- The buffer is an object of the pool. -/
  live : s.nv.bufExtent ∈ s.pool.live
  blklist : s.tab.blklist = old ++ (place 8 d₀ recs).map (ChunkBlk.ofPlace 8)
  dataLen : s.nv.dataLen = d₀ + totalSize 8 recs
  bytes : HoldsAt 8 s.pool.mem (s.nv.buf + d₀) recs
  /-- What has been appended lies in the buffer. -/
  le : recs ≠ [] → s.nv.dataLen ≤ s.nv.bufSize

/-- Before the first `Append` a tab holds no records behind its data. -/
theorem RangeHolds.start {s : RangeState} (hlive : s.nv.bufExtent ∈ s.pool.live) :
    RangeHolds s.nv.dataLen s.tab.blklist [] s :=
  ⟨hlive, by simp, by simp, holdsAt_nil _ _, fun h => absurd rfl h⟩

/-- An `Append` leaves everything that was allocated alone, but for the bytes of the block. -/
theorem AppendStep.frame {s s' : RangeState} {a : AppendArgs} (h : AppendStep s a s') {e : Extent}
    (he : e ∈ s.pool.live) {x : ℕ} (hl : e.base ≤ x) (hu : x < e.base + e.size)
    (hout : x < s.nv.buf + s.nv.dataLen ∨ s.nv.buf + s.nv.dataLen + a.record.size 8 ≤ x) :
    s'.pool.mem x = s.pool.mem x := by
  rw [h.pool.same e he x hl hu, writeBlock]
  exact write_of_not_mem (by rw [Record.length_encode]; exact hout)

/-- An `Append` leaves the bytes of the buffer in front of the data alone. -/
theorem AppendStep.mem_of_lt {s s' : RangeState} {a : AppendArgs} (h : AppendStep s a s')
    (hlive : s.nv.bufExtent ∈ s.pool.live) {i : ℕ} (hi : i < s.nv.dataLen) :
    s'.pool.mem (s.nv.buf + i) = s.pool.mem (s.nv.buf + i) := by
  have hfits := h.fits
  rw [Fits] at hfits
  exact h.frame hlive (Nat.le_add_right _ _) (by simp only [NvRangeTab.bufExtent]; omega)
    (.inl (by omega))

/-- The block is in the buffer afterwards. -/
theorem AppendStep.recordAt {s s' : RangeState} {a : AppendArgs} (h : AppendStep s a s')
    (hlive : s.nv.bufExtent ∈ s.pool.live) :
    RecordAt 8 s'.pool.mem (s.nv.buf + s.nv.dataLen) a.record := by
  have hfits := h.fits
  rw [Fits] at hfits
  have hread := (h.pool.same _ hlive).read (a := s.nv.buf + s.nv.dataLen) (n := a.record.size 8)
    (Nat.le_add_right _ _) (by simp only [NvRangeTab.bufExtent]; omega)
  rw [recordAt_iff, hread, writeBlock, ← Record.length_encode, read_write_self]

theorem AppendStep.live {s s' : RangeState} {a : AppendArgs} (h : AppendStep s a s')
    (hlive : s.nv.bufExtent ∈ s.pool.live) : s'.nv.bufExtent ∈ s'.pool.live := by
  rw [h.nv]
  exact h.pool.live _ hlive

/-- **`Append` refines appending to the list of records.** -/
theorem RangeHolds.append {d₀ : ℕ} {old : List ChunkBlk} {recs : List Record} {s s' : RangeState}
    {a : AppendArgs} (hs : RangeHolds d₀ old recs s) (h : AppendStep s a s') :
    RangeHolds d₀ old (recs ++ [a.record]) s' := by
  have hbuf : s'.nv.buf = s.nv.buf := by rw [h.nv]
  refine ⟨h.live hs.live, ?_, ?_, ?_, fun _ => ?_⟩
  · rw [h.tab, hs.blklist, place_append, List.map_append, List.append_assoc, hs.dataLen]
    rfl
  · rw [h.nv, hs.dataLen]
    simp only [totalSize_append, totalSize_cons, totalSize_nil]
    omega
  · rw [hbuf, holdsAt_append_iff, holdsAt_singleton_iff, Nat.add_assoc, ← hs.dataLen]
    refine ⟨hs.bytes.congr fun i hi => ?_, h.recordAt hs.live⟩
    rw [Nat.add_assoc]
    exact h.mem_of_lt hs.live (by rw [hs.dataLen]; omega)
  · rw [h.nv]
    exact h.fits

/-- **Any run of `Append` refines appending the whole list.** -/
theorem RangeHolds.appendAll {A : Allocator} {icmp : Bytes → Bytes → Ordering} {d₀ : ℕ}
    {old : List ChunkBlk} {recs : List Record} {s s' : RangeState} {as : List AppendArgs}
    (hs : RangeHolds d₀ old recs s) (h : appendAll A icmp s as = .ok s') :
    RangeHolds d₀ old (recs ++ records as) s' := by
  induction as generalizing recs s with
  | nil =>
    cases h
    simpa [records] using hs
  | cons a as ih =>
    obtain ⟨s₁, ha, has⟩ := run_cons_ok.mp h
    have := ih (hs.append (append_inv ha)) has
    simpa [records] using this

/-- A run of `Append` changes nothing of the node but its data length. -/
theorem appendAll_nv {A : Allocator} {icmp : Bytes → Bytes → Ordering} {s s' : RangeState}
    {as : List AppendArgs} (h : appendAll A icmp s as = .ok s') :
    s'.nv = { s.nv with dataLen := s.nv.dataLen + totalSize 8 (records as) } := by
  induction as generalizing s with
  | nil => cases h; rfl
  | cons a as ih =>
    obtain ⟨s₁, ha, has⟩ := run_cons_ok.mp h
    rw [ih has, (append_inv ha).nv]
    simp only [records, List.map_cons, totalSize_cons, Nat.add_assoc]

/-- A run whose blocks fit together succeeds. -/
theorem appendAll_of_fits (A : Allocator) (icmp : Bytes → Bytes → Ordering) {s : RangeState}
    {as : List AppendArgs} (h : s.nv.dataLen + totalSize 8 (records as) ≤ s.nv.bufSize) :
    ∃ s', appendAll A icmp s as = .ok s' := by
  induction as generalizing s with
  | nil => exact ⟨s, rfl⟩
  | cons a as ih =>
    simp only [records, List.map_cons, totalSize_cons] at h ih
    obtain ⟨s₁, ha, hstep⟩ := append_of_fits A icmp (s := s) (a := a) (by rw [Fits]; omega)
    obtain ⟨s', hs'⟩ := ih (s := s₁) (by rw [hstep.nv]; simp only; omega)
    exact ⟨s', run_cons_ok.mpr ⟨s₁, ha, hs'⟩⟩

/-! ## Parsing the log -/

/-- One turn of the loop over a log in memory: it lists the first record and moves to the
second. -/
theorem rebuildLoop_of_holdsAt {opts : FixedRangeBasedOptions} {m : Memory} {nv : NvRangeTab}
    {recs : List Record} {o fuel : ℕ} {blks : List ChunkBlk}
    (htag : ∀ r ∈ recs, r.tag.length = opts.chunkBloomBits)
    (hlog : HoldsAt 8 m (nv.buf + o) recs) (hend : o + totalSize 8 recs = nv.dataLen)
    (hle : nv.dataLen ≤ nv.bufSize) (hfuel : recs.length ≤ fuel) :
    rebuildLoop opts m nv fuel o blks =
      .ok (blks ++ (place 8 o recs).map (ChunkBlk.ofPlace opts.chunkBloomBits)) := by
  have hlt := nv.bufSize_lt
  induction recs generalizing o fuel blks with
  | nil =>
    have hstop : ¬ o < nv.dataLen := by simp at hend; omega
    cases fuel <;> simp [rebuildLoop, hstop]
  | cons r rs ih =>
    obtain ⟨fuel, rfl⟩ : ∃ k, fuel = k + 1 := ⟨fuel - 1, by simp at hfuel; omega⟩
    have hr : r.tag.length = opts.chunkBloomBits := htag r (List.mem_cons_self ..)
    have hsize : r.size 8 = opts.chunkBloomBits + 8 + r.payload.length := by
      rw [Record.size, hr]
    rw [totalSize_cons] at hend
    obtain ⟨hrec, hrest⟩ := holdsAt_cons_iff.mp hlog
    have hpos : u64 (o + opts.chunkBloomBits) = o + opts.chunkBloomBits := u64_of_lt (by omega)
    have hlen : decodeFixed64 m (nv.buf + (o + opts.chunkBloomBits)) = r.payload.length := by
      rw [decodeFixed64, ← hr, ← Nat.add_assoc]
      exact hrec.decodeLE_length (by omega)
    have hnext : u64 (o + opts.chunkBloomBits + 8 + r.payload.length) = o + r.size 8 := by
      rw [u64_of_lt (by omega)]
      omega
    rw [rebuildLoop, if_pos (by omega)]
    simp only [hpos, hlen, hnext]
    rw [if_pos (by omega), ih (fun r' hr' => htag r' (List.mem_cons_of_mem _ hr'))
      (by rw [← Nat.add_assoc]; exact hrest) (by omega) (by simpa using hfuel)]
    simp [place_cons, ChunkBlk.ofPlace]

/-- **`RebuildBlkList` parses the log.** If the buffer holds, behind its 16-byte header and up to
`dataLen`, a log with filters of the configured length, its entries are appended to the list. -/
theorem rebuildBlkList_of_holdsAt {opts : FixedRangeBasedOptions} {m : Memory} {nv : NvRangeTab}
    {recs : List Record} (blks : List ChunkBlk)
    (htag : ∀ r ∈ recs, r.tag.length = opts.chunkBloomBits)
    (hlog : HoldsAt 8 m (nv.buf + 16) recs) (hend : 16 + totalSize 8 recs = nv.dataLen)
    (hle : nv.dataLen ≤ nv.bufSize) :
    rebuildBlkList opts m nv blks =
      .ok (blks ++ (place 8 16 recs).map (ChunkBlk.ofPlace opts.chunkBloomBits)) := by
  have := length_mul_le_totalSize (w := 8) recs
  exact rebuildLoop_of_holdsAt htag hlog hend hle (by omega)

/-- With no data behind the header, `RebuildBlkList` adds nothing. -/
theorem rebuildBlkList_of_le {opts : FixedRangeBasedOptions} {m : Memory} {nv : NvRangeTab}
    {blks : List ChunkBlk} (h : nv.dataLen ≤ 16) : rebuildBlkList opts m nv blks = .ok blks := by
  rw [rebuildBlkList]
  cases nv.dataLen <;> simp [rebuildLoop] <;> omega

/-- Every entry `RebuildBlkList` adds has the configured filter length. -/
theorem rebuildLoop_bloomBits {opts : FixedRangeBasedOptions} {m : Memory} {nv : NvRangeTab}
    {fuel o : ℕ} {blks blks' : List ChunkBlk} (h : rebuildLoop opts m nv fuel o blks = .ok blks') :
    ∃ added, blks' = blks ++ added ∧ ∀ blk ∈ added, blk.bloomBits = opts.chunkBloomBits ∧
      blk.offset < nv.dataLen := by
  induction fuel generalizing o blks with
  | zero =>
    rw [rebuildLoop] at h
    split at h
    · cases h
    · exact ⟨[], by simpa using (Except.ok.inj h).symm, by simp⟩
  | succ fuel ih =>
    rw [rebuildLoop] at h
    split at h
    · next hlt =>
      simp only at h
      split at h
      · obtain ⟨added, rfl, hadded⟩ := ih h
        refine ⟨_ :: added, by rw [List.append_assoc, List.singleton_append], ?_⟩
        exact List.forall_mem_cons.mpr ⟨⟨rfl, hlt⟩, hadded⟩
      · cases h
    · exact ⟨[], by simpa using (Except.ok.inj h).symm, by simp⟩

/-- The first entry of a rebuilt index lies right behind the header. -/
theorem rebuildBlkList_head {opts : FixedRangeBasedOptions} {m : Memory} {nv : NvRangeTab}
    {blk : ChunkBlk} {rest : List ChunkBlk}
    (h : rebuildBlkList opts m nv [] = .ok (blk :: rest)) : blk.offset = 16 := by
  by_cases hlt : 16 < nv.dataLen
  · obtain ⟨fuel, hfuel⟩ : ∃ k, nv.dataLen = k + 1 := ⟨nv.dataLen - 1, by omega⟩
    rw [rebuildBlkList, hfuel, rebuildLoop, if_pos hlt] at h
    simp only [List.nil_append] at h
    split at h
    · obtain ⟨added, hadded, -⟩ := rebuildLoop_bloomBits h
      rw [List.singleton_append, List.cons.injEq] at hadded
      rw [hadded.1]
    · cases h
  · rw [rebuildBlkList_of_le (not_lt.mp hlt)] at h
    cases h

/-! ## Leaving the index -/

/-- The loop of `Get` throws at an index past the end. -/
theorem getLoop_of_le {opts : FixedRangeBasedOptions}
    {newIter : Memory → ℕ → ℕ → Except Fault PersistentChunkIterator} {s : RangeState}
    {icmp : Bytes → Bytes → Ordering} {i : ℕ} (h : s.tab.blklist.length ≤ i) (key : Bytes)
    (fuel : ℕ) (value : Bytes) :
    getLoop opts newIter s icmp key (fuel + 1) i value = .error .outOfRange := by
  rw [getLoop, vectorAt_of_le h]
  rfl

/-- A lookup in an empty index throws: the first index it visits has wrapped. -/
theorem get_of_nil {opts : FixedRangeBasedOptions}
    {newIter : Memory → ℕ → ℕ → Except Fault PersistentChunkIterator} {s : RangeState}
    {icmp : Bytes → Bytes → Ordering} (h : s.tab.blklist = []) (key value : Bytes) :
    get opts newIter s icmp key value = .error .outOfRange :=
  getLoop_of_le (by rw [h]; exact Nat.zero_le _) key _ value

/-! ## The constructor -/

/-- The two words of the header, zeroed. -/
def zeroHeader : Bytes := encodeFixed64 0 ++ encodeFixed64 0

/-- The volatile tab of a new node. -/
def newTab (nonVolatileTab : ℕ) (nv : NvRangeTab) : FixedRangeTab :=
  { nonVolatileTab, blklist := [], raw := some (nv.buf + 16), inCompaction := some false,
    penddingClean := 0 }

/-- The state of a tab constructed over a new node. -/
def newState (pool : Pool) (nonVolatileTab : ℕ) (nv : NvRangeTab) : RangeState :=
  { pool := { pool with mem := write pool.mem nv.buf zeroHeader }, nv,
    tab := newTab nonVolatileTab nv }

/-- Over a new node the constructor zeroes the header and lists nothing. -/
theorem new_of_seqNum_zero (opts : FixedRangeBasedOptions) {pool : Pool} {nonVolatileTab : ℕ}
    {nv : NvRangeTab} (hseq : nv.seqNum = 0) :
    new opts pool nonVolatileTab nv =
      if 16 ≤ nv.bufSize then .ok (newState pool nonVolatileTab nv) else .error .outOfBounds := by
  have hheader := Pool.memcpy_append pool nv.bufExtent 0 (encodeFixed64 0) (encodeFixed64 0)
  simp only [length_encodeFixed64, Nat.zero_add] at hheader
  have hcopy : (pool.memcpy nv.bufExtent 0 (encodeFixed64 0)).bind
      (fun q => q.memcpy nv.bufExtent 8 (encodeFixed64 0))
        = if 16 ≤ nv.bufSize then .ok (newState pool nonVolatileTab nv).pool
          else .error .outOfBounds := by
    rw [hheader, Pool.memcpy]
    rfl
  have hnew : new opts pool nonVolatileTab nv
      = ((pool.memcpy nv.bufExtent 0 (encodeFixed64 0)).bind
          fun q => q.memcpy nv.bufExtent 8 (encodeFixed64 0)).bind fun pool =>
            .ok { pool, nv, tab := newTab nonVolatileTab nv } := by
    rw [new, if_pos hseq]
    simp only [bind, Except.bind, pure, Except.pure, newTab]
    cases pool.memcpy nv.bufExtent 0 (encodeFixed64 0) <;> rfl
  rw [hnew, hcopy]
  split <;> rfl

/-- The state of a tab constructed over a node that is not new. -/
def rebuiltState (pool : Pool) (nonVolatileTab : ℕ) (nv : NvRangeTab) (blklist : List ChunkBlk) :
    RangeState :=
  { pool, nv,
    tab := { nonVolatileTab, blklist, raw := none, inCompaction := none, penddingClean := 0 } }

/-- Everything that the constructor can do. -/
theorem new_eq_ok {opts : FixedRangeBasedOptions} {pool : Pool} {nonVolatileTab : ℕ}
    {nv : NvRangeTab} {s : RangeState} :
    new opts pool nonVolatileTab nv = .ok s ↔
      (nv.seqNum = 0 ∧ 16 ≤ nv.bufSize ∧ s = newState pool nonVolatileTab nv) ∨
      (nv.seqNum ≠ 0 ∧ ∃ blks, rebuildBlkList opts pool.mem nv [] = .ok blks ∧
        s = rebuiltState pool nonVolatileTab nv blks) := by
  by_cases hseq : nv.seqNum = 0
  · rw [new_of_seqNum_zero opts hseq]
    split
    · next hsize => simp [hseq, hsize, eq_comm]
    · next hsize => simp [hsize, hseq]
  · rw [new, if_neg hseq, bind_eq_ok]
    constructor
    · rintro ⟨blks, hblks, hs⟩
      exact .inr ⟨hseq, blks, hblks, (Except.ok.inj hs).symm⟩
    · rintro (⟨hzero, -⟩ | ⟨-, blks, hblks, rfl⟩)
      · exact absurd hzero hseq
      · exact ⟨blks, hblks, rfl⟩

/-! ## A small range

One zeroed buffer of 256 bytes at offset `0`, for runs on concrete inputs. -/

def smallPool : Pool := { mem := fun _ => 0, live := [⟨0, 256⟩] }

/-- A node over the small buffer whose log ends at `d`. -/
def smallNv (d : ℕ) : NvRangeTab :=
  { hash := 0, prefixLen := 0, prefixBuf := 0, keyRange := none, chunkNum := 0, seqNum := 0,
    bufSize := 256, buf := 0, dataLen := d, extraBuf := none, bufSize_lt := by decide }

def smallState (d : ℕ) : RangeState :=
  { pool := smallPool, nv := smallNv d, tab := newTab 0 (smallNv d) }

def smallOptions (b : ℕ) (hb : b < 2 ^ 64) : FixedRangeBasedOptions :=
  { chunkBloomBits := b, keyMayMatch := fun _ _ => true, chunkBloomBits_lt := hb }

/-- A chunk of one byte. -/
def smallAppend : AppendArgs :=
  { bloomData := List.replicate 8 1, chunkData := [5], newStart := [1], newEnd := [2],
    bloomData_length := rfl }

theorem small_live (d : ℕ) : (smallNv d).bufExtent ∈ smallPool.live := List.mem_singleton.mpr rfl

end FixedRangeTab

end RangeCache
