import RangeCache.Isolation

/-!
# The bookkeeping of a tab

Two things a tab keeps beside its log. `RangeUsage` reports two words of the node, `chunk_num_` and
`dataLen`; `Append` and `CleanUp` keep the second up to date and never touch the first, whose
increments stand behind the `return` of `Append` and in `freqUpdateInfo::update`, which nothing
calls. And `raw_` is to point behind the 16-byte header of the buffer in use: the constructor sets
it so for a new node, leaves it uninitialised when it rebuilds, and `SetExtraBuf` sets it to the
start of the new buffer instead, so that `ConsistencyCheck` would read in front of that buffer.

## Main definitions

* `sinceCleanUp` — the chunks appended since the last `CleanUp`
* `UsageExact` — the reported usage is that of these chunks
* `HeaderState`, `HeaderOp`, `headerStep` — a tab that may switch to an extra buffer
* `HeaderOk` — `raw_` addresses the header of the buffer in use

## Main results

* `run_dataLen`, `run_chunkNum` — what a run does to the two words
* `usageExact_iff` — the usage is exact while no chunk is stored
* `headerOk_iff` — when `raw_` is right
-/

namespace RangeCache

open ByteMemory RecordLog FallibleRun

namespace FixedRangeTab

/-! ## The usage of a range -/

/-- The chunks behind the last `CleanUp`, after one more operation. -/
def uncleaned (as : List AppendArgs) : TabOp → List AppendArgs
  | .append a => as ++ [a]
  | .setCompactionWorking _ => as
  | .cleanUp => []

/-- The chunks a sequence of operations has appended since its last `CleanUp`. -/
def sinceCleanUp (ops : List TabOp) : List AppendArgs := ops.foldl uncleaned []

/-- The tab reports the number of the chunks `as` and the bytes of their blocks. -/
structure UsageExact (s : RangeState) (as : List AppendArgs) : Prop where
  chunkNum : (rangeUsage s.pool.mem s.nv).chunkNum = as.length
  rangeSize : (rangeUsage s.pool.mem s.nv).rangeSize = totalSize 8 (records as)

section Runs

variable {A : Allocator} {icmp : Bytes → Bytes → Ordering} {opts : FixedRangeBasedOptions}

/-- One operation keeps `dataLen` at the bytes of the blocks. -/
theorem step_dataLen {s s' : RangeState} {op : TabOp} {as : List AppendArgs}
    (hs : s.nv.dataLen = totalSize 8 (records as)) (h : step A icmp opts s op = .ok s') :
    s'.nv.dataLen = totalSize 8 (records (uncleaned as op)) := by
  obtain ⟨a, rfl, hstep⟩ | ⟨working, rfl, rfl⟩ | ⟨rfl, rfl⟩ := step_cases h
  · rw [hstep.nv, uncleaned, records, List.map_append, totalSize_append, ← records, ← hs]
    simp
  · exact hs
  · rfl

/-- **`dataLen` is the size of what was appended since the last `CleanUp`.** -/
theorem run_dataLen {s s' : RangeState} {ops : List TabOp} {as : List AppendArgs}
    (hs : s.nv.dataLen = totalSize 8 (records as))
    (h : run (step A icmp opts) s ops = .ok s') :
    s'.nv.dataLen = totalSize 8 (records (ops.foldl uncleaned as)) := by
  induction ops generalizing s as with
  | nil => cases h; exact hs
  | cons op ops ih =>
    obtain ⟨s₁, hop, h⟩ := run_cons_ok.mp h
    exact ih (step_dataLen hs hop) h

/-- **No operation counts a chunk.** -/
theorem run_chunkNum {s s' : RangeState} {ops : List TabOp}
    (h : run (step A icmp opts) s ops = .ok s') : s'.nv.chunkNum = s.nv.chunkNum := by
  refine run_induction (I := fun t => t.nv.chunkNum = s.nv.chunkNum) ?_ rfl h
  intro t op t' ht hop
  obtain ⟨a, -, hstep⟩ | ⟨working, -, rfl⟩ | ⟨-, rfl⟩ := step_cases hop
  · rw [hstep.nv]
    exact ht
  · exact ht
  · exact ht

/-- A tab over a node that no chunk has been appended to. -/
def Fresh (opts : FixedRangeBasedOptions) (s : RangeState) : Prop :=
  ∃ pool id nv, nv.dataLen = 0 ∧ nv.chunkNum = 0 ∧ new opts pool id nv = .ok s

/-- **What the two words are** in every state of a fresh tab. -/
theorem run_of_fresh {s s' : RangeState} {ops : List TabOp} (hfresh : Fresh opts s)
    (h : run (step A icmp opts) s ops = .ok s') :
    s'.nv.chunkNum = 0 ∧ s'.nv.dataLen = totalSize 8 (records (sinceCleanUp ops)) := by
  obtain ⟨pool, id, nv, hdata, hchunk, hnew⟩ := hfresh
  have hnv : s.nv = nv := (new_rangeStep hnew).1
  have hstart : s.nv.dataLen = totalSize 8 (records []) := by rw [hnv, hdata]; rfl
  exact ⟨by rw [run_chunkNum h, hnv, hchunk], run_dataLen hstart h⟩

/-- So the chunk count never triggers a compaction. -/
theorem penddingCompaction_of_fresh {s s' : RangeState} {ops : List TabOp} (hfresh : Fresh opts s)
    (h : run (step A icmp opts) s ops = .ok s') (chunkData : Bytes) :
    penddingCompaction s' chunkData =
      decide (s'.nv.bufSize ≤ s'.nv.dataLen + chunkData.length) := by
  rw [penddingCompaction, (run_of_fresh hfresh h).1]
  simp

/-- **When the reported usage is exact.** -/
theorem usageExact_iff {s s' : RangeState} {ops : List TabOp} (hfresh : Fresh opts s)
    (h : run (step A icmp opts) s ops = .ok s') :
    UsageExact s' (sinceCleanUp ops) ↔ sinceCleanUp ops = [] := by
  obtain ⟨hnum, hlen⟩ := run_of_fresh hfresh h
  constructor
  · intro hexact
    have hcount : s'.nv.chunkNum = (sinceCleanUp ops).length := hexact.chunkNum
    exact List.length_eq_zero_iff.mp (hcount.symm.trans hnum)
  · intro hnil
    refine ⟨?_, hlen⟩
    rw [hnil]
    exact hnum

end Runs

/-- A fresh tab over the small buffer. -/
def smallFresh : RangeState := newState smallPool 0 (smallNv 0)

theorem fresh_smallFresh (opts : FixedRangeBasedOptions) : Fresh opts smallFresh :=
  ⟨smallPool, 0, smallNv 0, rfl, rfl, new_of_seqNum_zero opts rfl⟩

/-- One chunk is appended to it. -/
theorem run_smallFresh : ∃ s', run (step .bump compare (smallOptions 8 (by decide))) smallFresh
    [.append smallAppend] = .ok s' := by
  obtain ⟨s', hs', -⟩ := append_of_fits .bump compare (s := smallFresh) (a := smallAppend)
    (by decide)
  exact ⟨s', run_singleton.mpr hs'⟩

theorem usageExact_iff_small :
    ∃ s', run (step .bump compare (smallOptions 8 (by decide))) smallFresh
        [.append smallAppend] = .ok s' ∧
      (UsageExact s' (sinceCleanUp [.append smallAppend]) ↔
        sinceCleanUp [.append smallAppend] = []) := by
  obtain ⟨s', hs'⟩ := run_smallFresh
  exact ⟨s', hs', usageExact_iff (fresh_smallFresh _) hs'⟩

/-- The one chunk of a fresh tab is not counted. -/
theorem usage_misses_small :
    Fresh (smallOptions 8 (by decide)) smallFresh ∧
      ∃ s', run (step .bump compare (smallOptions 8 (by decide))) smallFresh
          [.append smallAppend] = .ok s' ∧
        ¬ UsageExact s' (sinceCleanUp [.append smallAppend]) := by
  obtain ⟨s', hs'⟩ := run_smallFresh
  refine ⟨fresh_smallFresh _, s', hs', fun h => ?_⟩
  have hcount : s'.nv.chunkNum = 1 := h.chunkNum
  rw [run_chunkNum hs'] at hcount
  cases hcount

/-! ## The header pointer -/

/-- A tab, and the node that `extra_buf` points to once `SetExtraBuf` has been called. -/
structure HeaderState where
  range : RangeState
  extra : Option NvRangeTab

inductive HeaderOp where
  | tab (op : TabOp)
  | setExtraBuf (extraBuf : ℕ) (extra : NvRangeTab)

/-- `SetExtraBuf`, for a pointer and the node it points to. `raw_` becomes the start of the
buffer. -/
def setExtraBuf (s : HeaderState) (extraBuf : ℕ) (extra : NvRangeTab) : HeaderState :=
  { range :=
      { s.range with
        nv := { s.range.nv with extraBuf := some extraBuf }
        tab := { s.range.tab with raw := some extra.buf } }
    extra := some { extra with seqNum := s.range.nv.seqNum } }

/-- One operation. -/
def headerStep (A : Allocator) (icmp : Bytes → Bytes → Ordering) (opts : FixedRangeBasedOptions)
    (s : HeaderState) : HeaderOp → Except Fault HeaderState
  | .tab op => do
    let range ← step A icmp opts s.range op
    return { s with range }
  | .setExtraBuf extraBuf extra => return setExtraBuf s extraBuf extra

/-- The node whose buffer is in use. -/
def HeaderState.inUse (s : HeaderState) : NvRangeTab := s.extra.getD s.range.nv

/-- `ConsistencyCheck`: whether the sequence number in front of `raw_` differs from the node's. The
load has to stay inside the buffer in use. -/
def consistencyCheck (s : HeaderState) : Except Fault Bool :=
  match s.range.tab.raw with
  | none => .error .outOfBounds
  | some raw =>
    if s.inUse.buf + 8 ≤ raw ∧ raw ≤ s.inUse.buf + s.inUse.bufSize then
      .ok (decodeFixed64 s.range.pool.mem (raw - 8) != s.range.nv.seqNum)
    else
      .error .outOfBounds

/-- `raw_` addresses the end of the header of the buffer in use, and what `ConsistencyCheck` loads
is the word `seq_` of that header, at offset 8, which the constructor has initialised. `s₀` is the
tab as it was constructed. -/
structure HeaderOk (s₀ : RangeState) (s : HeaderState) : Prop where
  raw : s.range.tab.raw = some (s.inUse.buf + 16)
  check : consistencyCheck s =
    .ok (decodeFixed64 s.range.pool.mem (s.inUse.buf + 8) != s.range.nv.seqNum)
  initialised : decodeFixed64 s₀.pool.mem (s.inUse.buf + 8) = 0

/-- `ConsistencyCheck` stays inside a buffer with a header that `raw_` is behind. -/
theorem consistencyCheck_of_raw {s : HeaderState}
    (hraw : s.range.tab.raw = some (s.inUse.buf + 16)) (hsize : 16 ≤ s.inUse.bufSize) :
    consistencyCheck s =
      .ok (decodeFixed64 s.range.pool.mem (s.inUse.buf + 8) != s.range.nv.seqNum) := by
  have hin : s.inUse.buf + 8 ≤ s.inUse.buf + 16 ∧
      s.inUse.buf + 16 ≤ s.inUse.buf + s.inUse.bufSize := by omega
  simp only [consistencyCheck, hraw, if_pos hin]
  rfl

/-- The tab has switched to an extra buffer, and `raw_` is the start of it. -/
def Switched (s : HeaderState) : Prop :=
  ∃ extra, s.extra = some extra ∧ s.range.tab.raw = some extra.buf

/-- Then `ConsistencyCheck` would load in front of the buffer. -/
theorem Switched.consistencyCheck {s : HeaderState} (h : Switched s) :
    consistencyCheck s = .error .outOfBounds := by
  obtain ⟨extra, hextra, hraw⟩ := h
  have hout : ¬ (s.inUse.buf + 8 ≤ extra.buf ∧ extra.buf ≤ s.inUse.buf + s.inUse.bufSize) := by
    rw [HeaderState.inUse, hextra, Option.getD_some]
    omega
  simp only [FixedRangeTab.consistencyCheck, hraw, if_neg hout]

theorem Switched.not_headerOk {s : HeaderState} (h : Switched s) (s₀ : RangeState) :
    ¬ HeaderOk s₀ s := by
  intro hok
  have hcheck := hok.check
  rw [h.consistencyCheck] at hcheck
  cases hcheck

/-- Nothing that `raw_` depends on has changed. -/
structure SameHeader (s s' : HeaderState) : Prop where
  extra : s'.extra = s.extra
  raw : s'.range.tab.raw = s.range.tab.raw
  buf : s'.range.nv.buf = s.range.nv.buf
  bufSize : s'.range.nv.bufSize = s.range.nv.bufSize

theorem SameHeader.trans {s₁ s₂ s₃ : HeaderState} (h : SameHeader s₁ s₂) (h' : SameHeader s₂ s₃) :
    SameHeader s₁ s₃ :=
  ⟨h'.extra.trans h.extra, h'.raw.trans h.raw, h'.buf.trans h.buf, h'.bufSize.trans h.bufSize⟩

theorem SameHeader.switched {s s' : HeaderState} (h : SameHeader s s') (hs : Switched s) :
    Switched s' := by
  obtain ⟨extra, hextra, hraw⟩ := hs
  exact ⟨extra, h.extra.trans hextra, h.raw.trans hraw⟩

section HeaderRuns

variable {A : Allocator} {icmp : Bytes → Bytes → Ordering} {opts : FixedRangeBasedOptions}

/-- What one operation does to the header pointer. -/
theorem headerStep_cases {s s' : HeaderState} {op : HeaderOp}
    (h : headerStep A icmp opts s op = .ok s') :
    (∃ tabOp, op = .tab tabOp ∧ SameHeader s s') ∨
      (∃ extraBuf extra, op = .setExtraBuf extraBuf extra ∧ Switched s') := by
  cases op with
  | tab op =>
    obtain ⟨range, hrange, h⟩ := bind_eq_ok.mp h
    obtain rfl := Except.ok.inj h
    refine .inl ⟨op, rfl, ?_⟩
    obtain ⟨a, -, hstep⟩ | ⟨working, -, rfl⟩ | ⟨-, rfl⟩ := step_cases hrange
    · exact ⟨rfl, by rw [hstep.tab], by rw [hstep.nv], by rw [hstep.nv]⟩
    · exact ⟨rfl, rfl, rfl, rfl⟩
    · exact ⟨rfl, rfl, rfl, rfl⟩
  | setExtraBuf extraBuf extra =>
    obtain rfl := Except.ok.inj h
    exact .inr ⟨extraBuf, extra, rfl, _, rfl, rfl⟩

/-- The rebuild branch of the constructor leaves `raw_` uninitialised. -/
theorem raw_of_rebuild {pool : Pool} {id : ℕ} {nv : NvRangeTab} {s : RangeState}
    (hseq : ¬ nv.seqNum = 0) (h : new opts pool id nv = .ok s) : s.tab.raw = none := by
  obtain ⟨hzero, -⟩ | ⟨-, blks, -, rfl⟩ := new_eq_ok.mp h
  · exact absurd hzero hseq
  · rfl

/-- The header of a new node is zeroed. -/
theorem decodeFixed64_newState (pool : Pool) (id : ℕ) (nv : NvRangeTab) :
    decodeFixed64 (newState pool id nv).pool.mem (nv.buf + 8) = 0 := by
  have hheader : read (write pool.mem nv.buf zeroHeader) nv.buf 16 = zeroHeader :=
    read_write_self _ _ _
  rw [show 16 = 8 + 8 from rfl, read_add] at hheader
  have hword : read (write pool.mem nv.buf zeroHeader) (nv.buf + 8) 8 = encodeFixed64 0 :=
    (List.append_inj hheader (by simp)).2
  show decodeLE (read (write pool.mem nv.buf zeroHeader) (nv.buf + 8) 8) = 0
  rw [hword]
  decide

/-- Some operation is a `SetExtraBuf`. -/
def Switches (ops : List HeaderOp) : Prop := ∃ extraBuf extra, .setExtraBuf extraBuf extra ∈ ops

/-- **A run keeps the header pointer, or it ends in the start of an extra buffer.** -/
theorem run_headerStep {s s' : HeaderState} {ops : List HeaderOp}
    (h : run (headerStep A icmp opts) s ops = .ok s') :
    ¬ Switches ops ∧ SameHeader s s' ∨ (Switches ops ∨ Switched s) ∧ Switched s' := by
  induction ops generalizing s with
  | nil =>
    cases h
    refine .inl ⟨?_, rfl, rfl, rfl, rfl⟩
    rintro ⟨extraBuf, extra, hmem⟩
    exact absurd hmem List.not_mem_nil
  | cons op ops ih =>
    obtain ⟨s₁, hop, hrun⟩ := run_cons_ok.mp h
    obtain ⟨tabOp, rfl, hsame⟩ | ⟨extraBuf, extra, rfl, hswitched⟩ := headerStep_cases hop
    · have htail : Switches (.tab tabOp :: ops) ↔ Switches ops := by simp [Switches]
      rw [htail]
      obtain ⟨hnot, hrest⟩ | ⟨hor, hrest⟩ := ih hrun
      · exact .inl ⟨hnot, hsame.trans hrest⟩
      · refine .inr ⟨?_, hrest⟩
        rcases hor with hor | ⟨extra, hextra, hraw⟩
        · exact .inl hor
        · exact .inr ⟨extra, hsame.extra ▸ hextra, hsame.raw ▸ hraw⟩
    · refine .inr ⟨.inl ⟨extraBuf, extra, List.mem_cons_self ..⟩, ?_⟩
      obtain ⟨-, hrest⟩ | ⟨-, hrest⟩ := ih hrun
      · exact hrest.switched hswitched
      · exact hrest

/-- **When the header pointer is right.** -/
theorem headerOk_iff {pool : Pool} {id : ℕ} {nv : NvRangeTab} {s₀ : RangeState} {s' : HeaderState}
    {ops : List HeaderOp} (hnew : new opts pool id nv = .ok s₀)
    (h : run (headerStep A icmp opts) { range := s₀, extra := none } ops = .ok s') :
    HeaderOk s₀ s' ↔ nv.seqNum = 0 ∧ ¬ Switches ops := by
  obtain ⟨hnot, hsame⟩ | ⟨hor, hswitched⟩ := run_headerStep h
  · have hinUse : s'.inUse = s'.range.nv := by rw [HeaderState.inUse, hsame.extra]; rfl
    constructor
    · intro hok
      refine ⟨?_, hnot⟩
      by_contra hseq
      have hraw := hok.raw
      rw [hsame.raw, raw_of_rebuild hseq hnew] at hraw
      cases hraw
    · rintro ⟨hseq, -⟩
      obtain ⟨-, hsize, rfl⟩ | ⟨hne, -⟩ := new_eq_ok.mp hnew
      · have hraw : s'.range.tab.raw = some (s'.inUse.buf + 16) := by
          rw [hsame.raw, hinUse, hsame.buf]
          rfl
        refine ⟨hraw, consistencyCheck_of_raw hraw ?_, ?_⟩
        · rw [hinUse, hsame.bufSize]
          exact hsize
        · rw [hinUse, hsame.buf]
          exact decodeFixed64_newState pool id nv
      · exact absurd hseq hne
  · refine iff_of_false (hswitched.not_headerOk s₀) ?_
    rintro ⟨-, hnot⟩
    rcases hor with hor | ⟨extra, hextra, -⟩
    · exact hnot hor
    · cases hextra

end HeaderRuns

/-- A tab over a new node to which one chunk is appended. -/
theorem run_smallHeader :
    ∃ s', run (headerStep .bump compare (smallOptions 8 (by decide)))
      { range := smallFresh, extra := none } [.tab (.append smallAppend)] = .ok s' := by
  obtain ⟨s', hs'⟩ := run_smallFresh
  refine ⟨{ range := s', extra := none }, run_singleton.mpr ?_⟩
  simp only [headerStep, run_singleton.mp hs', ok_bind]
  rfl

theorem headerOk_iff_small :
    ∃ s', run (headerStep .bump compare (smallOptions 8 (by decide)))
        { range := smallFresh, extra := none } [.tab (.append smallAppend)] = .ok s' ∧
      (HeaderOk smallFresh s' ↔
        (smallNv 0).seqNum = 0 ∧ ¬ Switches [.tab (.append smallAppend)]) := by
  obtain ⟨s', hs'⟩ := run_smallHeader
  have hnew : new (smallOptions 8 (by decide)) smallPool 0 (smallNv 0) = .ok smallFresh :=
    new_of_seqNum_zero _ rfl
  exact ⟨s', hs', headerOk_iff hnew hs'⟩

/-- A new node and an extra buffer behind its own: after `SetExtraBuf`, `ConsistencyCheck` loads
in front of the extra buffer. -/
theorem header_misplaced_small :
    new (smallOptions 8 (by decide)) smallPool 0 (smallNv 0) = .ok smallFresh ∧
      ∃ s', run (headerStep .bump compare (smallOptions 8 (by decide)))
          { range := smallFresh, extra := none }
          [.setExtraBuf 1 { smallNv 0 with buf := 256 }] = .ok s' ∧
        s'.range.tab.raw = some 256 ∧ consistencyCheck s' = .error .outOfBounds ∧
        ¬ HeaderOk smallFresh s' := by
  refine ⟨new_of_seqNum_zero _ rfl, _, rfl, rfl, rfl, fun h => ?_⟩
  have hraw := h.raw
  cases hraw

end FixedRangeTab

end RangeCache
