import RangeCache.RangeLog

/-!
# Appending against a compaction

A compaction calls `SetCompactionWorking(true)`, drains the range, and ends with `CleanUp`.
`pendding_clean_` records how many blocks the index had when it was set, but nothing reads it:
`CleanUp` sets `dataLen` to zero and calls `RebuildBlkList`, which appends to the index it finds
and, with no data, appends nothing. So `CleanUp` discards every byte of the log and no entry of
the index.

## Main definitions

* `TabOp`, `step` — the operations on a tab, and runs of them through `FallibleRun.run`
* `Kept`, `KeepsAppended` — a chunk appended during a compaction is still there
* `IndexOk` — the index lists disjoint blocks of the log
* `IndexFollowsLog` — along a run, the index and the log stay together

## Main results

* `cleanUp_eq` — the whole effect of `CleanUp`
* `keepsAppended_iff` — chunks appended during a compaction survive it exactly when there are none
* `indexFollowsLog_iff` — the index follows the log exactly in runs that clean an empty index only
-/

namespace RangeCache

open ByteMemory RecordLog FallibleRun

namespace FixedRangeTab

/-! ## Operations -/

/-- The operations of a writer and a compaction on one tab. -/
inductive TabOp where
  | append (a : AppendArgs)
  | setCompactionWorking (working : Bool)
  | cleanUp

/-- One operation. -/
def step (A : Allocator) (icmp : Bytes → Bytes → Ordering) (opts : FixedRangeBasedOptions)
    (s : RangeState) : TabOp → Except Fault RangeState
  | .append a => append A icmp s a
  | .setCompactionWorking working => .ok (setCompactionWorking s working)
  | .cleanUp => cleanUp opts s

/-- The chunks a sequence of operations appends. -/
def appended (ops : List TabOp) : List AppendArgs :=
  ops.filterMap fun
    | .append a => some a
    | _ => none

@[simp] theorem appended_nil : appended [] = [] := rfl

@[simp] theorem appended_append_cons (a : AppendArgs) (ops : List TabOp) :
    appended (.append a :: ops) = a :: appended ops := rfl

@[simp] theorem appended_setCompactionWorking_cons (working : Bool) (ops : List TabOp) :
    appended (.setCompactionWorking working :: ops) = appended ops := rfl

@[simp] theorem appended_cleanUp_cons (ops : List TabOp) :
    appended (.cleanUp :: ops) = appended ops := rfl

/-- **`CleanUp` forgets the log and keeps the index.** -/
theorem cleanUp_eq (opts : FixedRangeBasedOptions) (s : RangeState) :
    cleanUp opts s = .ok { s with nv := { s.nv with dataLen := 0 } } := by
  have hrebuild : rebuildBlkList opts s.pool.mem { s.nv with dataLen := 0 } s.tab.blklist
      = .ok s.tab.blklist := rebuildBlkList_of_le (Nat.zero_le 16)
  simp only [cleanUp, hrebuild, bind, Except.bind, pure, Except.pure]

section Runs

variable {A : Allocator} {icmp : Bytes → Bytes → Ordering} {opts : FixedRangeBasedOptions}

/-- What one operation can do. -/
theorem step_cases {s s' : RangeState} {op : TabOp} (h : step A icmp opts s op = .ok s') :
    (∃ a, op = .append a ∧ AppendStep s a s') ∨
    (∃ working, op = .setCompactionWorking working ∧ s' = setCompactionWorking s working) ∨
    (op = .cleanUp ∧ s' = { s with nv := { s.nv with dataLen := 0 } }) := by
  cases op with
  | append a => exact .inl ⟨a, rfl, append_inv h⟩
  | setCompactionWorking working => exact .inr (.inl ⟨working, rfl, (Except.ok.inj h).symm⟩)
  | cleanUp =>
    rw [step, cleanUp_eq] at h
    exact .inr (.inr ⟨rfl, (Except.ok.inj h).symm⟩)

/-- No operation frees the buffer. -/
theorem step_live {s s' : RangeState} {op : TabOp} (hlive : s.nv.bufExtent ∈ s.pool.live)
    (h : step A icmp opts s op = .ok s') : s'.nv.bufExtent ∈ s'.pool.live := by
  obtain ⟨a, -, hstep⟩ | ⟨working, -, rfl⟩ | ⟨-, rfl⟩ := step_cases h
  · exact hstep.live hlive
  · exact hlive
  · exact hlive

/-- The index only grows, by one entry for each chunk appended. -/
theorem run_blklist {s s' : RangeState} {ops : List TabOp}
    (h : run (step A icmp opts) s ops = .ok s') :
    ∃ added, s'.tab.blklist = s.tab.blklist ++ added ∧ added.length = (appended ops).length := by
  induction ops generalizing s with
  | nil => cases h; exact ⟨[], by simp, rfl⟩
  | cons op ops ih =>
    obtain ⟨s₁, hop, h⟩ := run_cons_ok.mp h
    obtain ⟨added, hadded, hlen⟩ := ih h
    obtain ⟨a, rfl, hstep⟩ | ⟨working, rfl, rfl⟩ | ⟨rfl, rfl⟩ := step_cases hop
    · refine ⟨ChunkBlk.ofPlace 8 (s.nv.dataLen, a.record) :: added, ?_, by simp [hlen]⟩
      rw [hadded, hstep.tab, List.append_assoc, List.singleton_append]
    · exact ⟨added, hadded, hlen⟩
    · exact ⟨added, hadded, hlen⟩

/-! ## Chunks appended during a compaction -/

/-- The chunk `a`, indexed as `blk`, is still there: listed, below `dataLen`, with its bytes, and
found by `RebuildBlkList`. -/
structure Kept (opts : FixedRangeBasedOptions) (s : RangeState) (blk : ChunkBlk)
    (a : AppendArgs) : Prop where
  listed : blk ∈ s.tab.blklist
  below : blk.stop ≤ s.nv.dataLen
  bytes : RecordAt 8 s.pool.mem (s.nv.buf + blk.offset) a.record
  rebuilt : ∃ blks, rebuildBlkList opts s.pool.mem s.nv [] = .ok blks ∧
    (blk.offset, blk.chunkLen) ∈ blks.map fun b => (b.offset, b.chunkLen)

/-- A compaction has started in `s₀` and the operations `during` have led to `s₁`. Whatever
follows `CleanUp`, short of another one, each chunk appended by `during` is kept. -/
def KeepsAppended (A : Allocator) (icmp : Bytes → Bytes → Ordering)
    (opts : FixedRangeBasedOptions) (s₀ s₁ : RangeState) (during : List TabOp) : Prop :=
  ∀ after, TabOp.cleanUp ∉ after → ∀ s₂, run (step A icmp opts) s₁ (.cleanUp :: after) = .ok s₂ →
    ∀ p ∈ (s₁.tab.blklist.drop s₀.tab.blklist.length).zip (appended during), Kept opts s₂ p.1 p.2

/-- A block takes at least its length field. -/
theorem stop_pos (blk : ChunkBlk) : 0 < blk.stop := by
  rw [ChunkBlk.stop]
  omega

/-- A chunk appended before `CleanUp` is not kept by it. -/
theorem appended_nil_of_keepsAppended {s₀ s₁ : RangeState} {during : List TabOp}
    (hrun : run (step A icmp opts) s₀ (.setCompactionWorking true :: during) = .ok s₁)
    (h : KeepsAppended A icmp opts s₀ s₁ during) : appended during = [] := by
  by_contra hne
  obtain ⟨added, hadded, hlen⟩ := run_blklist hrun
  rw [appended_setCompactionWorking_cons] at hlen
  obtain ⟨a, as, has⟩ := List.exists_cons_of_ne_nil hne
  obtain ⟨blk, blks, rfl⟩ : ∃ blk blks, added = blk :: blks :=
    List.exists_cons_of_ne_nil (by rintro rfl; rw [has] at hlen; simp at hlen)
  have hkept := h [] (by simp) _
    (run_singleton.mpr (show step A icmp opts s₁ .cleanUp = _ from cleanUp_eq opts s₁)) (blk, a)
    (by rw [hadded, List.drop_left, has]; simp)
  have := stop_pos blk
  have hbelow : blk.stop ≤ 0 := hkept.below
  omega

/-- **Which chunks survive a compaction.** -/
theorem keepsAppended_iff {s₀ s₁ : RangeState} {during : List TabOp}
    (hrun : run (step A icmp opts) s₀ (.setCompactionWorking true :: during) = .ok s₁) :
    KeepsAppended A icmp opts s₀ s₁ during ↔ appended during = [] := by
  refine ⟨appended_nil_of_keepsAppended hrun, fun hnil after _ s₂ _ p hp => ?_⟩
  rw [hnil, List.zip_nil_right] at hp
  cases hp

/-- A compaction of the small range during which one chunk is appended. -/
theorem run_small : ∃ s₁, run (step .bump compare (smallOptions 8 (by decide))) (smallState 16)
    [.setCompactionWorking true, .append smallAppend] = .ok s₁ := by
  obtain ⟨s₁, hs₁, -⟩ := append_of_fits .bump compare
    (s := setCompactionWorking (smallState 16) true) (a := smallAppend) (by decide)
  exact ⟨s₁, run_cons_ok.mpr ⟨_, rfl, run_singleton.mpr hs₁⟩⟩

theorem keepsAppended_iff_small :
    ∃ s₁, run (step .bump compare (smallOptions 8 (by decide))) (smallState 16)
        [.setCompactionWorking true, .append smallAppend] = .ok s₁ ∧
      (KeepsAppended .bump compare (smallOptions 8 (by decide)) (smallState 16) s₁
          [.append smallAppend] ↔ appended [.append smallAppend] = []) := by
  obtain ⟨s₁, hs₁⟩ := run_small
  exact ⟨s₁, hs₁, keepsAppended_iff hs₁⟩

/-- One chunk appended during a compaction of an empty range is lost. -/
theorem compaction_loses_small :
    ∃ s₁, run (step .bump compare (smallOptions 8 (by decide))) (smallState 16)
        [.setCompactionWorking true, .append smallAppend] = .ok s₁ ∧
      ¬ KeepsAppended .bump compare (smallOptions 8 (by decide)) (smallState 16) s₁
          [.append smallAppend] := by
  obtain ⟨s₁, hs₁⟩ := run_small
  exact ⟨s₁, hs₁, fun h => absurd (appended_nil_of_keepsAppended hs₁ h) (by simp)⟩

/-! ## The index and the log -/

/-- The blocks of the index are disjoint and lie below `dataLen`. -/
structure IndexOk (s : RangeState) : Prop where
  disjoint : s.tab.blklist.Pairwise fun b c => b.stop ≤ c.offset ∨ c.stop ≤ b.offset
  below : ∀ blk ∈ s.tab.blklist, blk.stop ≤ s.nv.dataLen

theorem indexOk_of_nil {s : RangeState} (h : s.tab.blklist = []) : IndexOk s :=
  ⟨by rw [h]; exact List.Pairwise.nil, by simp [h]⟩

theorem IndexOk.append {s s' : RangeState} {a : AppendArgs} (hs : IndexOk s)
    (h : AppendStep s a s') : IndexOk s' := by
  have hdata : s'.nv.dataLen = s.nv.dataLen + a.record.size 8 := by rw [h.nv]
  constructor
  · rw [h.tab, List.pairwise_append]
    refine ⟨hs.disjoint, List.pairwise_singleton _ _, fun b hb c hc => ?_⟩
    rw [List.mem_singleton.mp hc]
    exact .inl (hs.below b hb)
  · intro blk hblk
    rw [h.tab] at hblk
    rcases List.mem_append.mp hblk with hblk | hblk
    · have := hs.below blk hblk
      omega
    · rw [List.mem_singleton.mp hblk, ChunkBlk.stop_ofPlace a.bloomData_length, hdata]

/-- No `Append` overwrites a block that the index lists. -/
theorem IndexOk.bytes_append {s s' : RangeState} {a : AppendArgs} (hs : IndexOk s)
    (hlive : s.nv.bufExtent ∈ s.pool.live) (h : AppendStep s a s') {blk : ChunkBlk}
    (hblk : blk ∈ s.tab.blklist) {i : ℕ} (hi : i < blk.stop) :
    s'.pool.mem (s.nv.buf + i) = s.pool.mem (s.nv.buf + i) :=
  h.mem_of_lt hlive (lt_of_lt_of_le hi (hs.below blk hblk))

/-- The operations clean the tab only while its index is empty: no chunk was listed at the start,
and none is appended in front of a `CleanUp`. -/
def CleansEmptyIndex (s₀ : RangeState) (ops : List TabOp) : Prop :=
  ∀ pre, pre ++ [TabOp.cleanUp] <+: ops → s₀.tab.blklist = [] ∧ appended pre = []

theorem CleansEmptyIndex.of_prefix {s₀ : RangeState} {pre ops : List TabOp}
    (h : CleansEmptyIndex s₀ ops) (hpre : pre <+: ops) : CleansEmptyIndex s₀ pre :=
  fun p hp => h p (hp.trans hpre)

/-- After the first operation, the rest still cleans an empty index only. -/
theorem CleansEmptyIndex.tail {s₀ s₁ : RangeState} {op : TabOp} {ops : List TabOp}
    (h : CleansEmptyIndex s₀ (op :: ops)) (hop : step A icmp opts s₀ op = .ok s₁) :
    CleansEmptyIndex s₁ ops := by
  intro pre hpre
  obtain ⟨hnil, happ⟩ := h (op :: pre) ((List.prefix_cons_inj op).mpr hpre)
  obtain ⟨a, rfl, -⟩ | ⟨working, rfl, rfl⟩ | ⟨rfl, rfl⟩ := step_cases hop
  · cases happ
  · exact ⟨hnil, happ⟩
  · exact ⟨hnil, happ⟩

/-- **The invariant along a run** that cleans an empty index only. -/
theorem indexOk_run {s₀ s : RangeState} {ops : List TabOp} (hok : IndexOk s₀)
    (hclean : CleansEmptyIndex s₀ ops) (h : run (step A icmp opts) s₀ ops = .ok s) :
    IndexOk s := by
  induction ops generalizing s₀ with
  | nil => cases h; exact hok
  | cons op ops ih =>
    obtain ⟨s₁, hop, h⟩ := run_cons_ok.mp h
    refine ih ?_ (hclean.tail hop) h
    obtain ⟨a, rfl, hstep⟩ | ⟨working, rfl, rfl⟩ | ⟨rfl, rfl⟩ := step_cases hop
    · exact hok.append hstep
    · exact ⟨hok.disjoint, hok.below⟩
    · exact indexOk_of_nil (hclean [] ⟨ops, rfl⟩).1

/-- A run from `s₀` keeps the index and the log together. A `CleanUp` with no `Append` since the
compaction began empties the index, so that `Get` finds no key and `NewInternalIterator` has no
child; the index is in order in every state; and no `Append` overwrites a listed block. -/
structure IndexFollowsLog (A : Allocator) (icmp : Bytes → Bytes → Ordering)
    (opts : FixedRangeBasedOptions)
    (newIter : Memory → ℕ → ℕ → Except Fault PersistentChunkIterator) (s₀ : RangeState)
    (ops : List TabOp) : Prop where
  cleaned : ∀ pre mid s, pre ++ .setCompactionWorking true :: (mid ++ [.cleanUp]) <+: ops →
    appended mid = [] →
    run (step A icmp opts) s₀ (pre ++ .setCompactionWorking true :: (mid ++ [.cleanUp])) = .ok s →
    s.tab.blklist = [] ∧ (∀ key value found, get opts newIter s icmp key value ≠ .ok (.ok, found)) ∧
      newInternalIterator opts newIter s = .ok []
  index : ∀ pre s, pre <+: ops → run (step A icmp opts) s₀ pre = .ok s → IndexOk s
  preserved : ∀ pre s a s', pre <+: ops → run (step A icmp opts) s₀ pre = .ok s →
    append A icmp s a = .ok s' → ∀ blk ∈ s.tab.blklist, ∀ i < blk.stop,
      s'.pool.mem (s.nv.buf + i) = s.pool.mem (s.nv.buf + i)

/-- A `CleanUp` behind a chunk leaves an entry of the index without its bytes. -/
theorem cleansEmptyIndex_of_indexOk {s₀ s : RangeState} {ops : List TabOp}
    (hrun : run (step A icmp opts) s₀ ops = .ok s)
    (h : ∀ pre s, pre <+: ops → run (step A icmp opts) s₀ pre = .ok s → IndexOk s) :
    CleansEmptyIndex s₀ ops := by
  intro pre hpre
  obtain ⟨s₂, hs₂⟩ := run_prefix_ok hpre hrun
  obtain ⟨s₁, hs₁, hclean⟩ := run_append_ok.mp hs₂
  rw [run_singleton, step, cleanUp_eq, Except.ok.injEq] at hclean
  obtain ⟨added, hadded, hlen⟩ := run_blklist hs₁
  have hnil : s₁.tab.blklist = [] := by
    refine List.eq_nil_iff_forall_not_mem.mpr fun blk hblk => ?_
    have hbelow := (h _ s₂ hpre hs₂).below blk (by rw [← hclean]; exact hblk)
    rw [← hclean] at hbelow
    exact absurd (stop_pos blk) (not_lt.mpr hbelow)
  rw [hnil] at hadded
  obtain ⟨hs₀, rfl⟩ := List.append_eq_nil_iff.mp hadded.symm
  exact ⟨hs₀, List.length_eq_zero_iff.mp hlen.symm⟩

/-- **When the index follows the log.** -/
theorem indexFollowsLog_iff
    {newIter : Memory → ℕ → ℕ → Except Fault PersistentChunkIterator} {s₀ s : RangeState}
    {ops : List TabOp} (hok : IndexOk s₀) (hlive : s₀.nv.bufExtent ∈ s₀.pool.live)
    (hrun : run (step A icmp opts) s₀ ops = .ok s) :
    IndexFollowsLog A icmp opts newIter s₀ ops ↔ CleansEmptyIndex s₀ ops := by
  refine ⟨fun h => cleansEmptyIndex_of_indexOk hrun h.index, fun hclean => ?_⟩
  have hindex : ∀ pre s, pre <+: ops → run (step A icmp opts) s₀ pre = .ok s → IndexOk s :=
    fun pre s hpre hs => indexOk_run hok (hclean.of_prefix hpre) hs
  refine ⟨fun pre mid s hpre _ hs => ?_, hindex, fun pre s a s' hpre hs ha blk hblk i hi => ?_⟩
  · have hpre' : (pre ++ .setCompactionWorking true :: mid) ++ [.cleanUp] <+: ops := by
      rwa [List.append_assoc, List.cons_append]
    obtain ⟨hnil, happ⟩ := hclean _ hpre'
    obtain ⟨added, hadded, hlen⟩ := run_blklist hs
    have hblk : s.tab.blklist = [] := by
      have : appended (pre ++ .setCompactionWorking true :: (mid ++ [.cleanUp])) = [] := by
        rw [← List.cons_append, ← List.append_assoc]
        simpa [appended] using happ
      rw [this, List.length_nil, List.length_eq_zero_iff] at hlen
      rw [hadded, hnil, hlen, List.append_nil]
    refine ⟨hblk, fun key value found => ?_, by rw [newInternalIterator, hblk]; rfl⟩
    rw [get_of_nil hblk]
    nofun
  · have hlive' : s.nv.bufExtent ∈ s.pool.live :=
      run_induction (I := fun s => s.nv.bufExtent ∈ s.pool.live)
        (fun _ _ _ hl hop => step_live hl hop) hlive hs
    exact (hindex pre s hpre hs).bytes_append hlive' (append_inv ha) hblk hi

/-- One chunk is appended to the small range, and the range is compacted. -/
def smallCycle : List TabOp := [.append smallAppend, .setCompactionWorking true, .cleanUp]

theorem run_smallCycle :
    ∃ s, run (step .bump compare (smallOptions 8 (by decide))) (smallState 16) smallCycle
      = .ok s := by
  obtain ⟨s₁, hs₁, -⟩ := append_of_fits .bump compare (s := smallState 16) (a := smallAppend)
    (by decide)
  exact ⟨_, run_cons_ok.mpr ⟨s₁, hs₁, run_cons_ok.mpr ⟨_, rfl,
    run_singleton.mpr (cleanUp_eq (smallOptions 8 (by decide)) (setCompactionWorking s₁ true))⟩⟩⟩

theorem indexFollowsLog_iff_small :
    IndexFollowsLog .bump compare (smallOptions 8 (by decide)) (constructIter 0) (smallState 16)
        smallCycle ↔
      CleansEmptyIndex (smallState 16) smallCycle :=
  indexFollowsLog_iff (indexOk_of_nil rfl) (small_live 16) run_smallCycle.choose_spec

/-- After one cycle the index of the small range still lists the chunk that was cleaned away. -/
theorem index_stale_smallCycle :
    ¬ IndexFollowsLog .bump compare (smallOptions 8 (by decide)) (constructIter 0) (smallState 16)
        smallCycle := by
  intro h
  have hclean := cleansEmptyIndex_of_indexOk run_smallCycle.choose_spec h.index
  have hnil := (hclean [.append smallAppend, .setCompactionWorking true]
    (List.prefix_refl smallCycle)).2
  cases hnil

end Runs

end FixedRangeTab

end RangeCache
