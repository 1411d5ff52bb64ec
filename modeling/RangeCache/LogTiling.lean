import RangeCache.Crash

/-!
# Appends tile the log

What a whole run of `Append` does to the bytes: the blocks lie side by side behind the old data,
and nothing else that was allocated changes. All of this is for runs that fit. The README wants a
full range to trigger a compaction instead of the append, but the test `Append` makes first has an
empty branch, and it counts neither the filter nor the length field: a block that does not fit is
stored over the end of the buffer all the same.

## Main definitions

* `blockBytes` — what a run of `Append` adds to the log
* `NeverOverruns` — in every state of a run, `Append` stores inside the buffer, or not at all

## Main results

* `appendAll_tiles` — the index, the bytes and the frame of a run that fits
* `neverOverruns_iff` — a run stays inside the buffer exactly when its blocks fit together
-/

namespace RangeCache

open ByteMemory RecordLog TxMemory FallibleRun

namespace FixedRangeTab

/-- The bytes the blocks of a run take: a filter and a length field of 8 bytes each, and the
chunk. -/
def blockBytes (as : List AppendArgs) : ℕ := (as.map fun a => 16 + a.chunkData.length).sum

theorem totalSize_records (as : List AppendArgs) : totalSize 8 (records as) = blockBytes as := by
  rw [totalSize, records, List.map_map, blockBytes]
  exact congrArg List.sum (List.map_congr_left fun a _ => a.size_record)

section Run

variable {A : Allocator} {icmp : Bytes → Bytes → Ordering} {s s' : RangeState}
  {as : List AppendArgs}

/-- A run leaves everything that was allocated alone, but for the bytes of its blocks. -/
theorem frame_appendAll (h : appendAll A icmp s as = .ok s') {e : Extent}
    (he : e ∈ s.pool.live) {x : ℕ} (hl : e.base ≤ x) (hu : x < e.base + e.size)
    (hout : x < s.nv.buf + s.nv.dataLen ∨
      s.nv.buf + s.nv.dataLen + totalSize 8 (records as) ≤ x) :
    s'.pool.mem x = s.pool.mem x := by
  induction as generalizing s with
  | nil =>
    cases h
    rfl
  | cons a as ih =>
    obtain ⟨s₁, ha, has⟩ := run_cons_ok.mp h
    have hstep := append_inv ha
    simp only [records, List.map_cons, totalSize_cons] at hout ih
    have hrest : s'.pool.mem x = s₁.pool.mem x := by
      refine ih has (hstep.pool.live e he) ?_
      rw [hstep.nv]
      simp only
      omega
    rw [hrest]
    exact hstep.frame he hl hu (by omega)

/-- The entry a run lists for its `i`-th block. -/
theorem getElem?_blocks (d : ℕ) {i : ℕ} {a : AppendArgs} (ha : as[i]? = some a) :
    (place 8 d (records as))[i]? = some (d + blockBytes (as.take i), a.record) := by
  rw [getElem?_place, records, List.getElem?_map, ha, ← totalSize_records, records, List.map_take]
  rfl

/-- **Appends tile the log.** A run from a tab with an empty index, whose blocks fit behind the
data, lists its blocks in order, each where the one before it ends; the buffer holds filter, length
and data of every one of them; and no other byte that was allocated has changed. -/
theorem appendAll_tiles (A : Allocator) (icmp : Bytes → Bytes → Ordering)
    (hempty : s.tab.blklist = []) (hlive : s.nv.bufExtent ∈ s.pool.live)
    (hfits : s.nv.dataLen + blockBytes as ≤ s.nv.bufSize) :
    ∃ s', appendAll A icmp s as = .ok s' ∧ s'.tab.blklist.length = as.length ∧
      (∀ i a, as[i]? = some a → ∃ blk, s'.tab.blklist[i]? = some blk ∧
        blk.offset = s.nv.dataLen + blockBytes (as.take i) ∧
        blk.chunkLen = a.chunkData.length ∧
        read s'.pool.mem (s.nv.buf + blk.offset) 8 = a.bloomData ∧
        read s'.pool.mem (s.nv.buf + blk.offset + 8) 8 = encodeFixed64 a.chunkData.length ∧
        read s'.pool.mem (s.nv.buf + blk.offset + 8 + 8) a.chunkData.length = a.chunkData) ∧
      s'.nv = { s.nv with dataLen := s.nv.dataLen + blockBytes as } ∧
      ∀ e ∈ s.pool.live, ∀ x, e.base ≤ x → x < e.base + e.size →
        (x < s.nv.buf + s.nv.dataLen ∨ s.nv.buf + (s.nv.dataLen + blockBytes as) ≤ x) →
        s'.pool.mem x = s.pool.mem x := by
  have hrecords : s.nv.dataLen + totalSize 8 (records as) ≤ s.nv.bufSize := by
    rw [totalSize_records]
    exact hfits
  obtain ⟨s', hs'⟩ := appendAll_of_fits A icmp hrecords
  have hnv := appendAll_nv hs'
  rw [totalSize_records] at hnv
  have hholds := (RangeHolds.start hlive).appendAll hs'
  rw [hempty, List.nil_append] at hholds
  have hblks : s'.tab.blklist = (place 8 s.nv.dataLen (records as)).map (ChunkBlk.ofPlace 8) :=
    hholds.blklist
  refine ⟨s', hs', ?_, fun i a ha => ?_, hnv, fun e he x hl hu hout => ?_⟩
  · rw [hblks, List.length_map, length_place, records, List.length_map]
  · have hplace := getElem?_blocks s.nv.dataLen ha
    have hrec := holdsAt_iff_forall_place.mp hholds.bytes _ (List.mem_of_getElem? hplace)
    have hbloom : a.record.tag.length = 8 := a.bloomData_length
    have hbuf : s'.nv.buf = s.nv.buf := by rw [hnv]
    obtain ⟨htag, hlen, hpayload⟩ := hrec
    rw [hbloom, hbuf] at htag hlen hpayload
    exact ⟨_, by rw [hblks, List.getElem?_map, hplace]; rfl, rfl, rfl, htag, hlen, hpayload⟩
  · exact frame_appendAll hs' he hl hu (by rw [totalSize_records]; omega)

/-! ## Overrunning the buffer -/

/-- **A run never overruns the buffer.** Every state of it is reached and has its data in the
buffer; the next `Append` stores its block inside the buffer, and if the block does not fit it
changes neither the index nor the data length nor the buffer. -/
def NeverOverruns (A : Allocator) (icmp : Bytes → Bytes → Ordering) (s : RangeState)
    (as : List AppendArgs) : Prop :=
  ∀ before, before <+: as → ∃ s₁, appendAll A icmp s before = .ok s₁ ∧
    s₁.nv.dataLen ≤ s₁.nv.bufSize ∧
    ∀ a, before ++ [a] <+: as →
      (∀ op ∈ copyTrace s₁ a, TouchesIn s₁.nv.bufExtent op) ∧
      (¬ Fits s₁ a → ∃ s₂, append A icmp s₁ a = .ok s₂ ∧ s₂.tab.blklist = s₁.tab.blklist ∧
        s₂.nv.dataLen = s₁.nv.dataLen ∧ s₁.nv.bufExtent.SameOn s₁.pool.mem s₂.pool.mem)

/-- The stores of a block that fits lie in the buffer. -/
theorem touchesIn_of_fits {a : AppendArgs} (h : Fits s a) :
    ∀ op ∈ copyTrace s a, TouchesIn s.nv.bufExtent op := by
  intro op hop
  rw [copyTrace_eq] at hop
  rw [Fits] at h
  refine touchesIn_of_mem_storeBytes hop (Nat.le_add_right _ _) ?_
  rw [Record.length_encode]
  simp only [NvRangeTab.bufExtent]
  omega

/-- A block that does not fit is stored over the byte behind the buffer. -/
theorem exists_store_past {a : AppendArgs} (hle : s.nv.dataLen ≤ s.nv.bufSize) (h : ¬ Fits s a) :
    ∃ op ∈ copyTrace s a, ∃ v, op = .store (.byte (s.nv.buf + s.nv.bufSize)) v := by
  rw [Fits, ← Record.length_encode] at h
  rw [copyTrace_eq]
  generalize a.record.encode 8 = bytes at h ⊢
  have hi : s.nv.bufSize - s.nv.dataLen < bytes.length := by omega
  have hsplit := storeBytes_append (s.nv.buf + s.nv.dataLen)
    (bytes.take (s.nv.bufSize - s.nv.dataLen)) (bytes.drop (s.nv.bufSize - s.nv.dataLen))
  rw [List.take_append_drop, List.drop_eq_getElem_cons hi, storeBytes, List.length_take,
    Nat.min_eq_left (by omega), show s.nv.buf + s.nv.dataLen + (s.nv.bufSize - s.nv.dataLen)
      = s.nv.buf + s.nv.bufSize by omega] at hsplit
  exact ⟨_, by rw [hsplit]; exact List.mem_append_right _ (List.mem_cons_self ..), _, rfl⟩

/-- Each prefix of a run that fits is followed by a block that fits. -/
theorem fits_of_isPrefix {before : List AppendArgs} {a : AppendArgs} {s₁ : RangeState}
    (hfits : s.nv.dataLen + blockBytes as ≤ s.nv.bufSize) (hpre : before ++ [a] <+: as)
    (hs₁ : appendAll A icmp s before = .ok s₁) : Fits s₁ a := by
  obtain ⟨rest, rfl⟩ := hpre
  rw [Fits, appendAll_nv hs₁, totalSize_records, a.size_record]
  simp only [blockBytes, List.map_append, List.sum_append, List.map_cons, List.map_nil,
    List.sum_cons, List.sum_nil] at hfits ⊢
  omega

/-- **When a run stays inside the buffer**: when its blocks fit behind the data, one after the
other. -/
theorem neverOverruns_iff (A : Allocator) (icmp : Bytes → Bytes → Ordering) (s : RangeState)
    (as : List AppendArgs) :
    NeverOverruns A icmp s as ↔ s.nv.dataLen + blockBytes as ≤ s.nv.bufSize := by
  constructor
  · intro h
    obtain ⟨s₁, hs₁, hle, -⟩ := h as (List.prefix_refl as)
    rwa [appendAll_nv hs₁, totalSize_records] at hle
  · intro hfits before hbefore
    have hpre : s.nv.dataLen + blockBytes before ≤ s.nv.bufSize := by
      obtain ⟨rest, rfl⟩ := hbefore
      simp only [blockBytes, List.map_append, List.sum_append] at hfits ⊢
      omega
    obtain ⟨s₁, hs₁⟩ := appendAll_of_fits A icmp (by rw [totalSize_records]; exact hpre)
    refine ⟨s₁, hs₁, ?_, fun a ha => ?_⟩
    · rw [appendAll_nv hs₁, totalSize_records]
      exact hpre
    · have hfit := fits_of_isPrefix hfits ha hs₁
      exact ⟨touchesIn_of_fits hfit, fun hn => absurd hfit hn⟩

end Run

/-! ## Two runs on the small range -/

theorem appendAll_tiles_small :
    ∃ s', appendAll .bump compare (smallState 16) [smallAppend, smallAppend] = .ok s' ∧
      s'.tab.blklist.length = 2 := by
  have hfits : (smallState 16).nv.dataLen + blockBytes [smallAppend, smallAppend] ≤
      (smallState 16).nv.bufSize := by decide
  obtain ⟨s', hs', hlen, -⟩ := appendAll_tiles .bump compare rfl (small_live 16) hfits
  exact ⟨s', hs', hlen⟩

/-- With 8 bytes left, a chunk of one byte is stored over the end of the buffer. -/
theorem append_overruns_small : ¬ NeverOverruns .bump compare (smallState 248) [smallAppend] := by
  intro h
  obtain ⟨s₁, hs₁, -, hnext⟩ := h [] (List.nil_prefix)
  cases hs₁
  obtain ⟨op, hop, v, rfl⟩ := exists_store_past (s := smallState 248) (a := smallAppend)
    (by decide) (by decide)
  obtain ⟨x, -, hx, hstore | ⟨v', hstore⟩⟩ := (hnext smallAppend (List.prefix_refl _)).1 _ hop
  · cases hstore
  · cases hstore
    exact absurd hx (by decide)

end FixedRangeTab

end RangeCache
