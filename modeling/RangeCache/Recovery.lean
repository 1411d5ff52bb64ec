import RangeCache.RangeLog

/-!
# Layout and restart

Two agreements recovery rests on, and where the code breaks them.

*The layout.* `Append` writes filters of `CHUNK_BLOOM_FILTER_LEN` bytes; `RebuildBlkList`, `Get`
and `getDatOffset` go by the option `chunk_bloom_bits_`. `layoutAgrees_iff` says that writer and
readers agree exactly when the option is `8` and the data already starts behind the header.

*The start.* The constructor zeroes a 16-byte header and `RebuildBlkList` starts behind it, but a
created node has `dataLen = 0`, so the first block is written over the header; and `seq_num_`
stays `0`, so a second construction takes the branch for new nodes again, drops the index and
zeroes the header once more. `restartPreserves_iff` says that a restart preserves a created range
exactly when nothing was ever appended to it.

## Main definitions

* `LayoutAgrees` — rebuilding after an `Append` adds one block, and it is the appended one
* `RestartPreserves` — constructing a second tab finds what the first one appended
-/

namespace RangeCache

open ByteMemory RecordLog

namespace FixedRangeTab

/-! ## Writer and readers -/

/-- The buffer holds, behind its header and up to `dataLen`, the log `recs` in the format that
`RebuildBlkList` reads. -/
structure LogRegion (opts : FixedRangeBasedOptions) (s : RangeState) (recs : List Record) :
    Prop where
  live : s.nv.bufExtent ∈ s.pool.live
  tags : ∀ r ∈ recs, r.tag.length = opts.chunkBloomBits
  bytes : read s.pool.mem (s.nv.buf + 16) (s.nv.dataLen - 16) = encodeAll 8 recs

theorem LogRegion.totalSize_eq {opts : FixedRangeBasedOptions} {s : RangeState}
    {recs : List Record} (h : LogRegion opts s recs) : totalSize 8 recs = s.nv.dataLen - 16 := by
  rw [← length_encodeAll, ← h.bytes, length_read]

theorem LogRegion.holdsAt {opts : FixedRangeBasedOptions} {s : RangeState} {recs : List Record}
    (h : LogRegion opts s recs) : HoldsAt 8 s.pool.mem (s.nv.buf + 16) recs := by
  rw [HoldsAt, h.totalSize_eq, h.bytes]

/-- From `s`, in which the log ends at `dataLen`, an `Append` of `a` has led to `s'`. Writer and
readers agree on the new block: rebuilding lists it behind the old ones, at its offset, with its
length and the position of its data, and `Get` is handed its filter. -/
def LayoutAgrees (opts : FixedRangeBasedOptions) (s s' : RangeState) (a : AppendArgs) : Prop :=
  ∃ blks blk, rebuildBlkList opts s.pool.mem s.nv [] = .ok blks ∧
    rebuildBlkList opts s'.pool.mem s'.nv [] = .ok (blks ++ [blk]) ∧
    blk.offset = s.nv.dataLen ∧ blk.chunkLen = a.chunkData.length ∧
    blk.getDatOffset = s.nv.dataLen + CHUNK_BLOOM_FILTER_LEN + 8 ∧
    bloomSlice opts s' blk = a.bloomData

/-- With the option at `8` the new block is parsed behind the old ones. -/
theorem layoutAgrees_of_eight {opts : FixedRangeBasedOptions} {s s' : RangeState}
    {a : AppendArgs} {recs : List Record} (hlog : LogRegion opts s recs) (h : AppendStep s a s')
    (hb : opts.chunkBloomBits = 8) (hd : 16 ≤ s.nv.dataLen) : LayoutAgrees opts s s' a := by
  have hfits := h.fits
  have hsize := a.size_record
  have htotal := hlog.totalSize_eq
  have hlt := s.nv.bufSize_lt
  have hbuf : s'.nv.buf = s.nv.buf := by rw [h.nv]
  have hrec := h.recordAt hlog.live
  rw [Fits] at hfits
  have hbefore : rebuildBlkList opts s.pool.mem s.nv []
      = .ok ((place 8 16 recs).map (ChunkBlk.ofPlace opts.chunkBloomBits)) :=
    rebuildBlkList_of_holdsAt [] hlog.tags hlog.holdsAt (by omega) (by omega)
  have hafter : HoldsAt 8 s'.pool.mem (s'.nv.buf + 16) (recs ++ [a.record]) := by
    rw [hbuf, holdsAt_append_iff, holdsAt_singleton_iff]
    refine ⟨hlog.holdsAt.congr fun i hi => ?_, ?_⟩
    · rw [Nat.add_assoc]
      exact h.mem_of_lt hlog.live (by omega)
    · rwa [htotal, Nat.add_assoc, show 16 + (s.nv.dataLen - 16) = s.nv.dataLen by omega]
  have htags : ∀ r ∈ recs ++ [a.record], r.tag.length = opts.chunkBloomBits := by
    intro r hr
    rcases List.mem_append.mp hr with hr | hr
    · exact hlog.tags r hr
    · rw [List.mem_singleton.mp hr, hb]
      exact a.bloomData_length
  have hrebuilt := rebuildBlkList_of_holdsAt [] htags hafter
    (by rw [h.nv, totalSize_append, totalSize_cons, totalSize_nil]; simp only; omega)
    (by rw [h.nv]; exact hfits)
  refine ⟨_, ChunkBlk.ofPlace 8 (s.nv.dataLen, a.record), hbefore, ?_, rfl, rfl, ?_, ?_⟩
  · rw [hrebuilt, place_append, List.map_append, htotal, hb,
      show 16 + (s.nv.dataLen - 16) = s.nv.dataLen by omega]
    rfl
  · exact u64_of_lt (by simp only [ChunkBlk.ofPlace]; omega)
  · have htag := hrec.tag
    rw [AppendArgs.record, a.bloomData_length] at htag
    rw [bloomSlice, hb, hbuf]
    exact htag

/-- The data offset of a rebuilt block is the position the writer used only when the option is
the writer's constant. -/
theorem chunkBloomBits_eq_of_getDatOffset {opts : FixedRangeBasedOptions} {blk : ChunkBlk} {d : ℕ}
    (hbits : blk.bloomBits = opts.chunkBloomBits) (hoff : blk.offset = d)
    (h : blk.getDatOffset = d + CHUNK_BLOOM_FILTER_LEN + 8) : opts.chunkBloomBits = 8 := by
  have hb := opts.chunkBloomBits_lt
  rw [ChunkBlk.getDatOffset, hbits, hoff, CHUNK_BLOOM_FILTER_LEN, u64] at h
  omega

/-- Writer and readers agree only if the option is the writer's constant and the log starts
behind the header. -/
theorem eight_of_layoutAgrees {opts : FixedRangeBasedOptions} {s s' : RangeState}
    {a : AppendArgs} (h : LayoutAgrees opts s s' a) :
    opts.chunkBloomBits = 8 ∧ 16 ≤ s.nv.dataLen := by
  obtain ⟨blks, blk, hbefore, hafter, hoff, -, hdat, -⟩ := h
  obtain ⟨added, hadded, hall⟩ := rebuildLoop_bloomBits hafter
  have hbits := (hall blk (by rw [← List.nil_append added, ← hadded]; simp)).1
  refine ⟨chunkBloomBits_eq_of_getDatOffset hbits hoff hdat, ?_⟩
  -- with the data inside the header nothing was listed before, so the block is the first one
  by_contra hd
  have hnil : blks = [] := by
    rw [rebuildBlkList_of_le (by omega)] at hbefore
    exact (Except.ok.inj hbefore).symm
  rw [hnil] at hafter
  have := rebuildBlkList_head hafter
  omega

/-- **When writer and readers agree.** -/
theorem layoutAgrees_iff {A : Allocator} {icmp : Bytes → Bytes → Ordering}
    {opts : FixedRangeBasedOptions} {s s' : RangeState} {a : AppendArgs} {recs : List Record}
    (hlog : LogRegion opts s recs) (happend : append A icmp s a = .ok s') :
    LayoutAgrees opts s s' a ↔ opts.chunkBloomBits = 8 ∧ 16 ≤ s.nv.dataLen :=
  ⟨eight_of_layoutAgrees, fun hb => layoutAgrees_of_eight hlog (append_inv happend) hb.1 hb.2⟩

theorem logRegion_small (opts : FixedRangeBasedOptions) : LogRegion opts (smallState 16) [] :=
  ⟨small_live 16, by simp, rfl⟩

theorem layoutAgrees_iff_small :
    ∃ s', append .bump compare (smallState 16) smallAppend = .ok s' ∧
      (LayoutAgrees (smallOptions 8 (by decide)) (smallState 16) s' smallAppend ↔
        (smallOptions 8 (by decide)).chunkBloomBits = 8 ∧ 16 ≤ (smallState 16).nv.dataLen) := by
  obtain ⟨s', hs', -⟩ := append_of_fits .bump compare (s := smallState 16) (a := smallAppend)
    (by decide)
  exact ⟨s', hs', layoutAgrees_iff (logRegion_small _) hs'⟩

/-- With filters configured to 4 bytes, the reader looks for the data four bytes early. -/
theorem layout_disagrees_fourBytes :
    ∃ s', append .bump compare (smallState 16) smallAppend = .ok s' ∧
      ¬ LayoutAgrees (smallOptions 4 (by decide)) (smallState 16) s' smallAppend := by
  obtain ⟨s', hs', -⟩ := append_of_fits .bump compare (s := smallState 16) (a := smallAppend)
    (by decide)
  exact ⟨s', hs', fun h => absurd (eight_of_layoutAgrees h).1 (by decide)⟩

/-! ## A created node -/

/-- What `NvRangeTab::NvRangeTab` builds: an empty range over a live buffer. -/
theorem nvRangeTab_new_ok (A : Allocator) (hashCode : Bytes → ℕ) (pool : Pool) (pre : Bytes)
    (rangeSize : UInt64) :
    ∃ pool' nv, NvRangeTab.new A hashCode pool pre rangeSize = .ok (pool', nv) ∧
      nv.dataLen = 0 ∧ nv.seqNum = 0 ∧ nv.keyRange = none ∧ nv.bufSize = rangeSize.toNat ∧
      nv.bufExtent ∈ pool'.live := by
  obtain ⟨q, hq, -⟩ := Pool.makePersistent_memcpy A pool pre rfl
  have hnew : NvRangeTab.new A hashCode pool pre rangeSize =
      .ok ((q.makePersistent A rangeSize.toNat).1,
        { hash := hashCode pre, prefixLen := pre.length,
          prefixBuf := (pool.makePersistent A pre.length).2, keyRange := none, chunkNum := 0,
          seqNum := 0, bufSize := rangeSize.toNat,
          buf := (q.makePersistent A rangeSize.toNat).2, dataLen := 0, extraBuf := none,
          bufSize_lt := rangeSize.toNat_lt }) := by
    simp only [NvRangeTab.new, hq, bind, Except.bind, pure, Except.pure]
  exact ⟨_, _, hnew, rfl, rfl, rfl, rfl, Pool.mem_live_makePersistent A q _⟩

/-! ## Restart -/

/-- A tab is constructed over the node, chunks are appended, and a second tab is constructed over
the node as it then is. The second tab lists the same blocks, and each is still the one that was
appended. -/
def RestartPreserves (A : Allocator) (icmp : Bytes → Bytes → Ordering)
    (opts : FixedRangeBasedOptions) (pool : Pool) (nonVolatileTab : ℕ) (nv : NvRangeTab)
    (as : List AppendArgs) : Prop :=
  ∃ s₀ s₁ s₂, new opts pool nonVolatileTab nv = .ok s₀ ∧ appendAll A icmp s₀ as = .ok s₁ ∧
    new opts s₁.pool nonVolatileTab s₁.nv = .ok s₂ ∧ s₂.tab.blklist = s₁.tab.blklist ∧
    ∀ p ∈ place 8 s₀.nv.dataLen (records as),
      RecordAt 8 s₂.pool.mem (s₂.nv.buf + p.1) p.2

/-- The second construction lists nothing, so a restart preserves nothing that was appended. -/
theorem nil_of_restartPreserves {A : Allocator} {icmp : Bytes → Bytes → Ordering}
    {opts : FixedRangeBasedOptions} {pool : Pool} {nonVolatileTab : ℕ} {nv : NvRangeTab}
    {as : List AppendArgs} (hseq : nv.seqNum = 0) (hlive : nv.bufExtent ∈ pool.live)
    (h : RestartPreserves A icmp opts pool nonVolatileTab nv as) :
    as = [] ∧ 16 ≤ nv.bufSize := by
  obtain ⟨s₀, s₁, s₂, h₀, h₁, h₂, hblk, -⟩ := h
  rw [new_of_seqNum_zero opts hseq] at h₀
  split at h₀
  · next hsize =>
    cases h₀
    have hnv := appendAll_nv h₁
    have hholds := (RangeHolds.start (s := newState pool nonVolatileTab nv) hlive).appendAll h₁
    rw [new_of_seqNum_zero opts (by rw [hnv]; exact hseq), if_pos (by rw [hnv]; exact hsize)] at h₂
    cases h₂
    have hlen := congrArg List.length (hblk.trans hholds.blklist)
    refine ⟨List.length_eq_zero_iff.mp ?_, hsize⟩
    simpa [newState, newTab, records] using hlen.symm
  · cases h₀

/-- **When a restart preserves a range.** -/
theorem restartPreserves_iff {A : Allocator} {icmp : Bytes → Bytes → Ordering}
    {opts : FixedRangeBasedOptions} {pool : Pool} {nonVolatileTab : ℕ} {nv : NvRangeTab}
    {as : List AppendArgs} (hseq : nv.seqNum = 0) (hlive : nv.bufExtent ∈ pool.live) :
    RestartPreserves A icmp opts pool nonVolatileTab nv as ↔ as = [] ∧ 16 ≤ nv.bufSize := by
  refine ⟨nil_of_restartPreserves hseq hlive, ?_⟩
  rintro ⟨rfl, hsize⟩
  have hnew : ∀ p : Pool, new opts p nonVolatileTab nv = .ok (newState p nonVolatileTab nv) :=
    fun p => by rw [new_of_seqNum_zero opts hseq, if_pos hsize]
  exact ⟨_, _, _, hnew pool, rfl, hnew _, rfl, by simp [records]⟩

theorem restartPreserves_iff_small :
    RestartPreserves .bump compare (smallOptions 8 (by decide)) smallPool 0 (smallNv 0)
        [smallAppend] ↔
      [smallAppend] = [] ∧ 16 ≤ (smallNv 0).bufSize :=
  restartPreserves_iff rfl (small_live 0)

/-- One small chunk is lost on restart. -/
theorem restart_loses_small :
    totalSize 8 (records [smallAppend]) ≤ (smallNv 0).bufSize ∧
      ¬ RestartPreserves .bump compare (smallOptions 8 (by decide)) smallPool 0 (smallNv 0)
        [smallAppend] :=
  ⟨by decide, fun h => absurd (nil_of_restartPreserves rfl (small_live 0) h).1 (by simp)⟩

end FixedRangeTab

end RangeCache
