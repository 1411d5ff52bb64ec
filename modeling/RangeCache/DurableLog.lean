import RangeCache.FailedAppend
import RangeCache.Lib.DurableRun

/-!
# The log under exceptions and crashes

A run of `Append` over one range, stopped any number of times: by an exception, at any operation
of either transaction, and then the program goes on, or by a crash, and then it goes on with what
the medium kept. Between two appends it may do anything that leaves this range alone, as appends to
other ranges do.

An append counts from the commit of its first transaction on. `dataLen` is the length of exactly
the blocks that count, whatever happened; it is the bytes of these blocks that a crash may lose.
An exception loses nothing: the next block is stored over the one that was given up.

The index is volatile and no operation reads it, so it is left aside.

## Main definitions

* `Progress` — what has been executed when an `Append` is stopped
* `Outside` — what the range asks of everything else
* `LogRun` — the runs, with the appends that count
* `Counts` — what holds whatever happened

## Main results

* `outside_appendTrace` — appends to another range leave this one alone
* `stoppedAt_of_progress` — one append, stopped anywhere
* `appends_durable` — the log in every state of every run
-/

namespace RangeCache

open ByteMemory RecordLog TxMemory FallibleRun

namespace FixedRangeTab

/-! ## Where an append is stopped -/

/-- The append, if its first transaction has committed. -/
def counted (a : AppendArgs) : List (Op Val) → List AppendArgs
  | [] => []
  | .commit :: _ => [a]
  | _ :: ops => counted a ops

/-- Operations that are not about the range: on the bytes outside of its buffer, and commits. -/
def Outside (s : RangeState) (ops : List (Op Val)) : Prop :=
  ∀ op ∈ ops, op = .commit ∨ ∃ x, ¬ (s.nv.buf ≤ x ∧ x < s.nv.buf + s.nv.bufSize) ∧
    (op = .allocate (.byte x) ∨ op = .snapshot (.byte x) ∨ ∃ b, op = .store (.byte x) b)

/-- `Progress A icmp s new ops`: when the program is stopped, the operations `ops` have been
executed since the range was in state `s`, and `new` has been appended to it. -/
inductive Progress (A : Allocator) (icmp : Bytes → Bytes → Ordering) (s : RangeState) :
    List AppendArgs → List (Op Val) → Prop where
  | outside {ops : List (Op Val)} : Outside s ops → Progress A icmp s [] ops
  | inside {a : AppendArgs} {ops : List (Op Val)} : Fits s a → ops <+: appendTrace A icmp s a →
      Progress A icmp s (counted a ops) ops

/-- The range when an `Append` has thrown behind `emplace_back`, and the abort has left the memory
`σ`: the index keeps the entry. -/
def thrown (s : RangeState) (a : AppendArgs) (σ : State Val) : RangeState :=
  { pool := { s.pool with mem := memOf σ.view }, nv := { s.nv with dataLen := lenOf σ.view },
    tab := { s.tab with blklist := s.tab.blklist ++ [ChunkBlk.ofPlace 8 (s.nv.dataLen, a.record)] } }

/-- The range when something else has left the memory `σ`. -/
def elsewhere (s : RangeState) (σ : State Val) (live : List Extent) : RangeState :=
  { s with pool := { mem := memOf σ.view, live } }

/-- The stores of the constructor. -/
def newTrace (nv : NvRangeTab) : List (Op Val) :=
  if nv.seqNum = 0 then
    storeBytes nv.buf (encodeFixed64 0) ++ storeBytes (nv.buf + 8) (encodeFixed64 0)
  else
    []

/-- The runs of a program, as the range sees them that was in state `s₀`. Those appends count that
returned, and those that were stopped behind the commit of the first transaction: `lost` before the
last crash, `kept` after. An exception from `emplace_back` changes nothing. -/
inductive LogRun (A : Allocator) (icmp : Bytes → Bytes → Ordering) (s₀ : RangeState) :
    List AppendArgs → List AppendArgs → RangeState → State Val → Prop where
  | start : LogRun A icmp s₀ [] [] s₀ (durable (viewOf s₀))
  | returns {lost kept : List AppendArgs} {s s' : RangeState} {σ : State Val} {a : AppendArgs} :
      LogRun A icmp s₀ lost kept s σ → append A icmp s a = .ok s' →
      LogRun A icmp s₀ lost (kept ++ [a]) s' (exec σ (appendTrace A icmp s a))
  | throws {lost kept : List AppendArgs} {s : RangeState} {σ : State Val} {a : AppendArgs}
      {ops rest : List (Op Val)} {next : Op Val} : LogRun A icmp s₀ lost kept s σ → Fits s a →
      appendTrace A icmp s a = ops ++ next :: rest →
      LogRun A icmp s₀ lost (kept ++ counted a ops) (thrown s a (abort (exec σ ops)))
        (abort (exec σ ops))
  /-- The program does something else. Where that throws, what has not committed is rolled back. -/
  | others {lost kept : List AppendArgs} {s : RangeState} {σ : State Val} {ops : List (Op Val)}
      {live : List Extent} : LogRun A icmp s₀ lost kept s σ → Outside s ops →
      s.pool.live ⊆ live →
      LogRun A icmp s₀ lost kept (elsewhere s (abort (exec σ ops)) live) (abort (exec σ ops))
  /-- The tab is constructed again over what the medium kept. Nothing that was allocated is
  freed. -/
  | crash {lost kept new : List AppendArgs} {s s' : RangeState} {σ : State Val}
      {ops : List (Op Val)} {image : ∀ l, Val l} {live : List Extent}
      {opts : FixedRangeBasedOptions} {id : ℕ} : LogRun A icmp s₀ lost kept s σ →
      Progress A icmp s new ops → Crash (exec σ ops) image → s.pool.live ⊆ live →
      FixedRangeTab.new opts ⟨memOf image, live⟩ id { s.nv with dataLen := lenOf image } = .ok s' →
      LogRun A icmp s₀ (lost ++ kept ++ new) [] s'
        (exec (durable image) (newTrace { s.nv with dataLen := lenOf image }))

section Stop

variable {A : Allocator} {icmp : Bytes → Bytes → Ordering} {s : RangeState} {σ : State Val}
  {a : AppendArgs} {new : List AppendArgs} {ops : List (Op Val)}

theorem counted_append (h : .commit ∉ ops) (rest : List (Op Val)) :
    counted a (ops ++ rest) = counted a rest := by
  induction ops with
  | nil => rfl
  | cons op ops ih =>
    rw [List.mem_cons, not_or] at h
    cases op with
    | commit => exact absurd rfl h.1
    | store l v => exact ih h.2
    | snapshot l => exact ih h.2
    | allocate l => exact ih h.2

theorem counted_cases (a : AppendArgs) (ops : List (Op Val)) :
    counted a ops = [] ∨ counted a ops = [a] := by
  induction ops with
  | nil => exact .inl rfl
  | cons op ops ih =>
    cases op with
    | commit => exact .inr rfl
    | store l v => exact ih
    | snapshot l => exact ih
    | allocate l => exact ih

/-- The first transaction registers `dataLen`, and nothing in it allocates. -/
theorem registers_blockTrace (s : RangeState) (a : AppendArgs) :
    Registers (V := Val) .dataLen (blockTrace s a) ∧ ∀ l, .allocate l ∉ blockTrace s a := by
  have hbytes : ∀ op ∈ storeBytes (s.nv.buf + s.nv.dataLen) (a.record.encode 8),
      ∃ x b, op = .store (.byte x) b := by
    intro op hop
    obtain ⟨i, hi, rfl⟩ := mem_storeBytes hop
    exact ⟨_, _, rfl⟩
  constructor
  · refine (Registers.of_forall fun op hop => ?_).append (registers_assign _ _ _)
    obtain ⟨x, b, rfl⟩ := hbytes op hop
    exact ⟨nofun, nofun⟩
  · intro l hmem
    rcases List.mem_append.mp hmem with hmem | hmem
    · obtain ⟨x, b, hop⟩ := hbytes _ hmem
      cases hop
    · exact allocate_not_mem_assign (V := Val) _ _ hmem

/-- The bytes in front of the data are not touched. -/
theorem untouched_appendTrace (hfits : Fits s a) (hlive : s.nv.bufExtent ∈ s.pool.live) {i : ℕ}
    (hi : i < s.nv.dataLen) :
    Untouched (V := Val) (.byte (s.nv.buf + i)) (appendTrace A icmp s a) := by
  intro op hop
  have hbuf : i < s.nv.bufSize := by
    rw [Fits] at hfits
    omega
  refine ⟨fun v hv => ?_, neverTracks_appendTrace hfits hlive hbuf op hop⟩
  rcases mem_appendTrace hfits hop with ⟨j, hj, rfl⟩ | rfl | rfl | rfl | ⟨e, hdis, ht⟩
  · have hloc := Loc.byte.inj (Op.store.inj hv).1
    omega
  · cases hv
  · cases hv
  · cases hv
  · exact (ht.not_live hdis hlive hbuf).2 v hv

/-- The second transaction does not touch what was there before. -/
theorem untouched_keyRangeTrace {p : Pool} {nv nv' : NvRangeTab} {newStart newEnd : Bytes}
    (hlive : nv.bufExtent ∈ p.live) :
    Untouched (V := Val) .dataLen (keyRangeTrace A icmp p nv' newStart newEnd) ∧
      ∀ i < nv.bufSize,
        Untouched (V := Val) (.byte (nv.buf + i)) (keyRangeTrace A icmp p nv' newStart newEnd) := by
  refine ⟨fun op hop => ?_, fun i hi op hop => ?_⟩
  · rcases mem_keyRangeTrace hop with rfl | ⟨e, -, x, -, -, rfl | ⟨v, rfl⟩⟩
    · exact ⟨nofun, nofun, nofun⟩
    · exact ⟨nofun, nofun, nofun⟩
    · exact ⟨nofun, nofun, nofun⟩
  · rcases mem_keyRangeTrace hop with rfl | ⟨e, hdis, ht⟩
    · exact ⟨nofun, nofun, nofun⟩
    · obtain ⟨hallocate, hstore⟩ :=
        ht.not_live (s := { pool := p, nv, tab := newTab 0 nv }) hdis hlive hi
      refine ⟨hstore, ?_, hallocate⟩
      obtain ⟨x, -, -, rfl | ⟨v, rfl⟩⟩ := ht
      · exact nofun
      · exact nofun

theorem Outside.untouched (h : Outside s ops) : Untouched (V := Val) .dataLen ops ∧
    ∀ i < s.nv.bufSize, Untouched (V := Val) (.byte (s.nv.buf + i)) ops := by
  refine ⟨fun op hop => ?_, fun i hi op hop => ?_⟩
  · rcases h op hop with rfl | ⟨x, -, rfl | rfl | ⟨b, rfl⟩⟩ <;> exact ⟨nofun, nofun, nofun⟩
  · rcases h op hop with rfl | ⟨x, hx, hop⟩
    · exact ⟨nofun, nofun, nofun⟩
    · have hne : x ≠ s.nv.buf + i := by omega
      rcases hop with rfl | rfl | ⟨b, rfl⟩
      · exact ⟨nofun, nofun, by simpa using hne⟩
      · exact ⟨nofun, by simpa using hne, nofun⟩
      · exact ⟨fun v hv => hne (Loc.byte.inj (Op.store.inj hv).1), nofun, nofun⟩

/-- What one range sees of the operations on another: their data lengths are not its own. -/
def seenElsewhere : Op Val → Bool
  | .store .dataLen _ | .snapshot .dataLen | .allocate .dataLen => false
  | _ => true

/-- **Appends to another range are something else**: its buffer is another object, and what it
allocates is fresh. -/
theorem outside_appendTrace {r : RangeState} (hfits : Fits r a)
    (hlive : s.nv.bufExtent ∈ r.pool.live) (hdis : s.nv.bufExtent.Disjoint r.nv.bufExtent)
    (hpre : ops <+: appendTrace A icmp r a) : Outside s (ops.filter seenElsewhere) := by
  intro op hop
  obtain ⟨hop, hseen⟩ := List.mem_filter.mp hop
  rcases mem_appendTrace hfits (hpre.subset hop) with
    ⟨j, hj, rfl⟩ | rfl | rfl | rfl | ⟨e, hfresh, x, hl, hu, hop⟩
  · rw [Record.length_encode] at hj
    rw [Fits] at hfits
    refine .inr ⟨_, fun hx => ?_, .inr (.inr ⟨_, rfl⟩)⟩
    exact hdis _ ⟨hx, Nat.le_trans (Nat.le_add_right _ _) (Nat.le_add_right _ _),
      by simp only [NvRangeTab.bufExtent]; omega⟩
  · cases hseen
  · cases hseen
  · exact .inl rfl
  · refine .inr ⟨x, fun hx => hfresh _ hlive x ⟨hx, hl, hu⟩, ?_⟩
    rcases hop with rfl | hop
    · exact .inl rfl
    · exact .inr (.inr hop)

/-- The memory `σ'` in which the program is stopped, when it was in the range `s` with the memory
`σ`, and `new` has been appended. -/
structure StoppedAt (s : RangeState) (σ : State Val) (new : List AppendArgs) (σ' : State Val) :
    Prop where
  le : s.nv.dataLen ≤ s.nv.bufSize → s.nv.dataLen + totalSize 8 (records new) ≤ s.nv.bufSize
  dataLen : Keeps (V := Val) .dataLen (s.nv.dataLen + totalSize 8 (records new)) σ'
  mark : ∀ i < s.nv.bufSize, σ'.mark (.byte (s.nv.buf + i)) = .untracked
  below : ∀ i < s.nv.dataLen, σ'.view (.byte (s.nv.buf + i)) = σ.view (.byte (s.nv.buf + i)) ∧
    σ'.media (.byte (s.nv.buf + i)) = σ.media (.byte (s.nv.buf + i))
  bytes : HoldsAt 8 (memOf σ'.view) (s.nv.buf + s.nv.dataLen) (records new)

/-- Stopped in the first transaction. -/
theorem stoppedAt_first (hσ : Tracks s σ) (hfits : Fits s a)
    (hlive : s.nv.bufExtent ∈ s.pool.live) (htrace : ops <+: appendTrace A icmp s a)
    (hfirst : ops <+: blockTrace s a) : StoppedAt s σ [] (exec σ ops) where
  le := id
  dataLen := by
    have hkeeps : Keeps (V := Val) .dataLen s.nv.dataLen σ :=
      .inr ⟨hσ.mark _, by rw [hσ.view]; rfl, hσ.dataLen⟩
    obtain ⟨hreg, hnew⟩ := registers_blockTrace s a
    exact hkeeps.exec (hreg.of_isPrefix hfirst) fun hmem => hnew _ (hfirst.subset hmem)
  mark := fun i hi => mark_exec_of_neverTracks (hσ.mark _) fun op hop =>
    neverTracks_appendTrace hfits hlive hi op (htrace.subset hop)
  below := fun i hi => (Untouched.exec (fun op hop =>
    untouched_appendTrace hfits hlive hi op (htrace.subset hop)) (hσ.mark _)).2
  bytes := holdsAt_nil _ _

/-- Stopped in the second transaction. -/
theorem stoppedAt_second (hσ : Tracks s σ) (hfits : Fits s a)
    (hlive : s.nv.bufExtent ∈ s.pool.live) {before : List (Op Val)}
    (htrace : blockTrace s a ++ .commit :: before <+: appendTrace A icmp s a)
    (hbefore : before <+:
      keyRangeTrace A icmp (committed s a).pool (committed s a).nv a.newStart a.newEnd) :
    StoppedAt s σ [a] (exec σ (blockTrace s a ++ .commit :: before)) := by
  have hcommit := tracks_commit hσ a
  have hsplit : exec σ (blockTrace s a ++ .commit :: before) =
      exec (TxMemory.step (exec σ (blockTrace s a)) .commit) before := by
    rw [exec_append, exec_cons]
  have hnew : records [a] = [a.record] := rfl
  have hsecond : Untouched (V := Val) .dataLen (keyRangeTrace A icmp (committed s a).pool
      (committed s a).nv a.newStart a.newEnd) ∧ ∀ i < s.nv.bufSize,
      Untouched (V := Val) (.byte (s.nv.buf + i)) (keyRangeTrace A icmp (committed s a).pool
        (committed s a).nv a.newStart a.newEnd) := untouched_keyRangeTrace hlive
  have hdataLen : Untouched (V := Val) .dataLen before :=
    fun op hop => hsecond.1 op (hbefore.subset hop)
  have hbytes : ∀ i < s.nv.bufSize, Untouched (V := Val) (.byte (s.nv.buf + i)) before :=
    fun i hi op hop => hsecond.2 i hi op (hbefore.subset hop)
  rw [Fits] at hfits
  refine ⟨fun _ => by simpa [hnew] using hfits, ?_, ?_, ?_, ?_⟩
  · obtain ⟨hmark, hview, hmedia⟩ := hdataLen.exec (hcommit.mark _)
    rw [hsplit, hnew]
    refine .inr ⟨hmark, ?_, ?_⟩
    · rw [hview, hcommit.view]
      simp [viewOf, committed, values]
    · rw [hmedia, hcommit.dataLen]
      simp [committed]
  · intro i hi
    rw [hsplit]
    exact ((hbytes i hi).exec (hcommit.mark _)).1
  · intro i hi
    exact (Untouched.exec (fun op hop =>
      untouched_appendTrace hfits hlive hi op (htrace.subset hop)) (hσ.mark _)).2
  · have hblock : HoldsAt 8 (writeBlock s a).mem (s.nv.buf + s.nv.dataLen) [a.record] := by
      rw [holdsAt_singleton_iff, recordAt_iff, writeBlock, ← Record.length_encode, read_write_self]
    rw [hnew, hsplit]
    refine hblock.congr fun i hi => ?_
    rw [totalSize_cons, totalSize_nil, Nat.add_zero] at hi
    rw [Nat.add_assoc, memOf, ((hbytes _ (by omega)).exec (hcommit.mark _)).2.1, hcommit.view]
    rfl

/-- Stopped in something else, or idle. -/
theorem stoppedAt_outside (hσ : Tracks s σ) (hle : s.nv.dataLen ≤ s.nv.bufSize)
    (hout : Outside s ops) : StoppedAt s σ [] (exec σ ops) := by
  obtain ⟨hlen, hbytes⟩ := hout.untouched
  obtain ⟨hmark, hview, hmedia⟩ := hlen.exec (hσ.mark _)
  refine ⟨id, .inr ⟨hmark, ?_, hmedia.trans hσ.dataLen⟩,
    fun i hi => ((hbytes i hi).exec (hσ.mark _)).1,
    fun i hi => ((hbytes i (by omega)).exec (hσ.mark _)).2, holdsAt_nil _ _⟩
  rw [hview, hσ.view]
  rfl

/-- **One append, stopped anywhere.** -/
theorem stoppedAt_of_progress (hσ : Tracks s σ) (hlive : s.nv.bufExtent ∈ s.pool.live)
    (hle : s.nv.dataLen ≤ s.nv.bufSize) (h : Progress A icmp s new ops) :
    StoppedAt s σ new (exec σ ops) := by
  cases h with
  | outside hout => exact stoppedAt_outside hσ hle hout
  | @inside a ops hfits htrace =>
    obtain ⟨hreg, -⟩ := registers_blockTrace s a
    rcases prefix_appendTrace hfits htrace with hfirst | ⟨before, rfl, hbefore⟩
    · have hnone : counted a ops = [] := by
        rw [← List.append_nil ops, counted_append (hreg.of_isPrefix hfirst).commit_not_mem]
        rfl
      rw [hnone]
      exact stoppedAt_first hσ hfits hlive htrace hfirst
    · rw [counted_append hreg.commit_not_mem]
      exact stoppedAt_second hσ hfits hlive htrace hbefore

end Stop

/-! ## The constructor -/

section Construction

variable {opts : FixedRangeBasedOptions} {pool : Pool} {id : ℕ} {nv : NvRangeTab}
  {s : RangeState} {σ : State Val}

theorem newTrace_eq (nv : NvRangeTab) :
    newTrace nv = if nv.seqNum = 0 then storeBytes nv.buf zeroHeader else [] := by
  rw [newTrace, zeroHeader, storeBytes_append, length_encodeFixed64]

/-- The constructor touches the header only. -/
theorem untouched_newTrace (nv : NvRangeTab) :
    Untouched (V := Val) .dataLen (newTrace nv) ∧
      ∀ i, 16 ≤ i → Untouched (V := Val) (.byte (nv.buf + i)) (newTrace nv) := by
  have hstores : ∀ op ∈ newTrace nv, ∃ x b, x < nv.buf + 16 ∧ op = .store (.byte x) b := by
    intro op hop
    rw [newTrace_eq] at hop
    split at hop
    · obtain ⟨i, hi, rfl⟩ := mem_storeBytes hop
      exact ⟨_, _, Nat.add_lt_add_left hi _, rfl⟩
    · cases hop
  refine ⟨fun op hop => ?_, fun i hi op hop => ?_⟩
  · obtain ⟨x, b, -, rfl⟩ := hstores op hop
    exact ⟨nofun, nofun, nofun⟩
  · obtain ⟨x, b, hx, rfl⟩ := hstores op hop
    refine ⟨fun v hv => ?_, nofun, nofun⟩
    have hloc := Loc.byte.inj (Op.store.inj hv).1
    omega

/-- **The trace of the constructor is the constructor.** -/
theorem tracks_new (hview : σ.view = values pool.mem nv.dataLen)
    (hmark : ∀ l, σ.mark l = .untracked) (hmedia : σ.media .dataLen = {nv.dataLen})
    (h : FixedRangeTab.new opts pool id nv = .ok s) :
    Tracks s (exec σ (newTrace nv)) ∧ s.nv = nv ∧ s.pool.live = pool.live := by
  have hlen := ((untouched_newTrace nv).1.exec (hmark _)).2.2.trans hmedia
  have hnever : ∀ l, (exec σ (newTrace nv)).mark l = .untracked := by
    intro l
    refine mark_exec_of_neverTracks (hmark l) fun op hop => ?_
    rw [newTrace_eq] at hop
    split at hop
    · obtain ⟨i, hi, rfl⟩ := mem_storeBytes hop
      exact ⟨nofun, nofun⟩
    · cases hop
  obtain ⟨hseq, -, rfl⟩ | ⟨hseq, blks, -, rfl⟩ := new_eq_ok.mp h
  · refine ⟨⟨?_, hnever, hlen⟩, rfl, rfl⟩
    rw [newTrace_eq, if_pos hseq]
    exact view_storeBytes hview _ _
  · refine ⟨⟨?_, hnever, hlen⟩, rfl, rfl⟩
    rw [newTrace_eq, if_neg hseq]
    exact hview

end Construction

/-! ## Runs -/

/-- **Whatever happened.** `done` has been appended to the log of `s₀`: `dataLen` says so, on the
medium as well, and the log that was there before is there, on the medium as well. -/
structure Counts (s₀ : RangeState) (done : List AppendArgs) (s : RangeState) (σ : State Val) :
    Prop where
  tracks : Tracks s σ
  nv : s.nv = { s₀.nv with dataLen := s₀.nv.dataLen + totalSize 8 (records done) }
  live : s.nv.bufExtent ∈ s.pool.live
  le : s.nv.dataLen ≤ s.nv.bufSize
  old : ∀ i, 16 ≤ i → i < s₀.nv.dataLen →
    Keeps (V := Val) (.byte (s.nv.buf + i)) (s₀.pool.mem (s₀.nv.buf + i)) σ

section Run

variable {A : Allocator} {icmp : Bytes → Bytes → Ordering} {s₀ s s' : RangeState}
  {σ σ' : State Val} {a : AppendArgs} {done lost kept new : List AppendArgs}

theorem records_append (as bs : List AppendArgs) : records (as ++ bs) = records as ++ records bs :=
  List.map_append

theorem Tracks.keeps_dataLen (h : Tracks s σ) : Keeps (V := Val) .dataLen s.nv.dataLen σ :=
  .inr ⟨h.mark _, by rw [h.view]; rfl, h.dataLen⟩

theorem counts_start (hlive : s₀.nv.bufExtent ∈ s₀.pool.live)
    (hle : s₀.nv.dataLen ≤ s₀.nv.bufSize) : Counts s₀ [] s₀ (durable (viewOf s₀)) where
  tracks := tracks_durable s₀
  nv := by simp [records]
  live := hlive
  le := hle
  old := fun _ _ _ => .inr ⟨rfl, rfl, rfl⟩

theorem Counts.dataLen_le (h : Counts s₀ done s σ) : s₀.nv.dataLen ≤ s.nv.dataLen := by
  rw [h.nv]
  exact Nat.le_add_right _ _

/-- The old log is what is untracked, in sight and on the medium. -/
theorem Counts.old_inv (h : Counts s₀ done s σ) {i : ℕ} (hi : 16 ≤ i) (hlt : i < s₀.nv.dataLen) :
    s.pool.mem (s.nv.buf + i) = s₀.pool.mem (s₀.nv.buf + i) ∧
      σ.media (.byte (s.nv.buf + i)) = {s₀.pool.mem (s₀.nv.buf + i)} := by
  rcases h.old i hi hlt with hmark | ⟨-, hview, hmedia⟩
  · rw [h.tracks.mark] at hmark
    cases hmark
  · rw [h.tracks.view] at hview
    exact ⟨hview, hmedia⟩

/-- An `Append` that returns counts. -/
theorem Counts.append (h : Counts s₀ done s σ) (ha : append A icmp s a = .ok s') :
    Counts s₀ (done ++ [a]) s' (exec σ (appendTrace A icmp s a)) := by
  have hstep := append_inv ha
  have hbuf : s'.nv.buf = s.nv.buf := by rw [hstep.nv]
  have hle := h.dataLen_le
  have htracks := tracks_append h.tracks ha
  refine ⟨htracks, ?_, hstep.live h.live, ?_, fun i hi hlt => ?_⟩
  · rw [hstep.nv, h.nv, records_append, totalSize_append, ← Nat.add_assoc]
    simp [records]
  · rw [hstep.nv]
    exact hstep.fits
  · obtain ⟨hmem, hmedia⟩ := h.old_inv hi hlt
    have huntouched : Untouched (V := Val) (.byte (s.nv.buf + i)) (appendTrace A icmp s a) :=
      untouched_appendTrace hstep.fits h.live (by omega)
    rw [hbuf]
    obtain ⟨hmark, hview, hsame⟩ := huntouched.exec (h.tracks.mark _)
    refine .inr ⟨hmark, ?_, hsame.trans hmedia⟩
    rw [hview, h.tracks.view]
    exact hmem

/-- What an `Append` that is stopped leaves. It counts if its first transaction has committed. -/
theorem Counts.stopped (h : Counts s₀ done s σ) {σ₁ : State Val} (hstop : StoppedAt s σ new σ₁)
    (hstopped : Stopped σ₁ σ') (hnv : s'.nv = { s.nv with dataLen := lenOf σ'.view })
    (hmem : s'.pool.mem = memOf σ'.view) (hlive : s.pool.live ⊆ s'.pool.live) :
    Counts s₀ (done ++ new) s' σ' := by
  obtain ⟨hlen, hmedia⟩ := hstop.dataLen.stopped hstopped
  have hlenOf : lenOf σ'.view = s.nv.dataLen + totalSize 8 (records new) := hlen
  have hle := h.dataLen_le
  have hle' := h.le
  rw [hlenOf] at hnv
  refine ⟨⟨?_, hstopped.mark, ?_⟩, ?_, ?_, ?_, fun i hi hlt => ?_⟩
  · rw [viewOf, hmem, hnv, ← hlenOf]
    funext l
    cases l <;> rfl
  · rw [hmedia, hnv]
  · rw [hnv, h.nv, records_append, totalSize_append, ← Nat.add_assoc]
  · rw [hnv]
    exact hlive h.live
  · rw [hnv]
    exact hstop.le h.le
  · obtain ⟨hview, hsame⟩ := hstop.below i (by omega)
    obtain ⟨hold, holdMedia⟩ := h.old_inv hi hlt
    have hkeeps : Keeps (V := Val) (.byte (s.nv.buf + i)) (s₀.pool.mem (s₀.nv.buf + i)) σ₁ := by
      refine .inr ⟨hstop.mark i (by omega), ?_, hsame.trans holdMedia⟩
      rw [hview, h.tracks.view]
      exact hold
    obtain ⟨hfound, hfoundMedia⟩ := hkeeps.stopped hstopped
    rw [hnv]
    exact .inr ⟨hstopped.mark _, hfound, hfoundMedia⟩

/-- The constructor changes nothing that counts. -/
theorem Counts.constructed (h : Counts s₀ done s σ) {opts : FixedRangeBasedOptions} {id : ℕ}
    (hnew : FixedRangeTab.new opts s.pool id s.nv = .ok s') :
    Counts s₀ done s' (exec σ (newTrace s.nv)) := by
  obtain ⟨htracks, hnv, hlive⟩ := tracks_new h.tracks.view h.tracks.mark h.tracks.dataLen hnew
  refine ⟨htracks, by rw [hnv, h.nv], by rw [hnv, hlive]; exact h.live, by rw [hnv]; exact h.le,
    fun i hi hlt => ?_⟩
  obtain ⟨hmem, hmedia⟩ := h.old_inv hi hlt
  obtain ⟨hmark, hview, hsame⟩ := ((untouched_newTrace s.nv).2 i hi).exec (h.tracks.mark _)
  rw [hnv]
  refine .inr ⟨hmark, ?_, hsame.trans hmedia⟩
  rw [hview, h.tracks.view]
  exact hmem

/-- The blocks that no crash has come after are in the buffer, and the index lists them. -/
structure LogHolds (s₀ : RangeState) (lost kept : List AppendArgs) (s : RangeState)
    (σ : State Val) : Prop where
  counts : Counts s₀ (lost ++ kept) s σ
  bytes : HoldsAt 8 s.pool.mem (s.nv.buf + (s₀.nv.dataLen + totalSize 8 (records lost)))
    (records kept)
  index : List.Sublist ((place 8 (s₀.nv.dataLen + totalSize 8 (records lost)) (records kept)).map
    (ChunkBlk.ofPlace 8)) s.tab.blklist

/-- Where the next block goes. -/
theorem LogHolds.end_eq (h : LogHolds s₀ lost kept s σ) :
    s₀.nv.dataLen + totalSize 8 (records lost) + totalSize 8 (records kept) = s.nv.dataLen := by
  rw [h.counts.nv, records_append, totalSize_append, Nat.add_assoc]

theorem LogHolds.append (h : LogHolds s₀ lost kept s σ) (ha : append A icmp s a = .ok s') :
    LogHolds s₀ lost (kept ++ [a]) s' (exec σ (appendTrace A icmp s a)) := by
  have hstep := append_inv ha
  have hbuf : s'.nv.buf = s.nv.buf := by rw [hstep.nv]
  have hend := h.end_eq
  refine ⟨by rw [← List.append_assoc]; exact h.counts.append ha, ?_, ?_⟩
  · rw [hbuf, records_append, holdsAt_append_iff, Nat.add_assoc, hend]
    constructor
    · refine h.bytes.congr fun i hi => ?_
      rw [Nat.add_assoc]
      exact hstep.mem_of_lt h.counts.live (by omega)
    · exact holdsAt_singleton_iff.mpr (hstep.recordAt h.counts.live)
  · rw [records_append, place_append, List.map_append, hend, hstep.tab]
    exact h.index.append (List.Sublist.refl _)

/-- **An exception loses nothing.** -/
theorem LogHolds.aborted (h : LogHolds s₀ lost kept s σ) {σ₁ : State Val}
    (hstop : StoppedAt s σ new σ₁) (hnv : s'.nv = { s.nv with dataLen := lenOf (abort σ₁).view })
    (hmem : s'.pool.mem = memOf (abort σ₁).view) (hlive : s.pool.live ⊆ s'.pool.live)
    (hindex : ∃ blks, s'.tab.blklist = s.tab.blklist ++ blks ∧
      List.Sublist ((place 8 s.nv.dataLen (records new)).map (ChunkBlk.ofPlace 8)) blks) :
    LogHolds s₀ lost (kept ++ new) s' (abort σ₁) := by
  have hend := h.end_eq
  have hle := h.counts.le
  have hle' := hstop.le hle
  have hbuf : s'.nv.buf = s.nv.buf := by rw [hnv]
  have hsame : ∀ i < s.nv.bufSize,
      s'.pool.mem (s.nv.buf + i) = memOf σ₁.view (s.nv.buf + i) := by
    intro i hi
    rw [hmem]
    exact view_abort_of_untracked (hstop.mark i hi)
  refine ⟨?_, ?_, ?_⟩
  · rw [← List.append_assoc]
    exact h.counts.stopped hstop .throws hnv hmem hlive
  · rw [hbuf, records_append, holdsAt_append_iff, Nat.add_assoc, hend]
    constructor
    · refine h.bytes.congr fun i hi => ?_
      rw [Nat.add_assoc, hsame _ (by omega), memOf, (hstop.below _ (by omega)).1,
        h.counts.tracks.view]
      rfl
    · refine hstop.bytes.congr fun i hi => ?_
      rw [Nat.add_assoc, hsame _ (by omega)]
  · obtain ⟨blks, hblks, hsub⟩ := hindex
    rw [records_append, place_append, List.map_append, hend, hblks]
    exact h.index.append hsub

theorem LogHolds.throws (h : LogHolds s₀ lost kept s σ) {ops rest : List (Op Val)} {next : Op Val}
    (hfits : Fits s a) (htrace : appendTrace A icmp s a = ops ++ next :: rest) :
    LogHolds s₀ lost (kept ++ counted a ops) (thrown s a (abort (exec σ ops)))
      (abort (exec σ ops)) := by
  have hpre : ops <+: appendTrace A icmp s a := ⟨_, htrace.symm⟩
  have hstop := stoppedAt_of_progress h.counts.tracks h.counts.live h.counts.le
    (.inside hfits hpre)
  refine h.aborted hstop rfl rfl (List.Subset.refl _) ⟨_, rfl, ?_⟩
  -- the entry is listed in either case
  rcases counted_cases a ops with hnone | hone
  · rw [hnone]
    exact List.nil_sublist _
  · rw [hone]
    exact List.Sublist.refl _

theorem LogHolds.others (h : LogHolds s₀ lost kept s σ) {ops : List (Op Val)}
    (hout : Outside s ops) {live : List Extent} (hlive : s.pool.live ⊆ live) :
    LogHolds s₀ lost kept (elsewhere s (abort (exec σ ops)) live) (abort (exec σ ops)) := by
  have hstop := stoppedAt_outside h.counts.tracks h.counts.le hout
  have hlen : lenOf (abort (exec σ ops)).view = s.nv.dataLen :=
    (hstop.dataLen.stopped .throws).1
  have hnone : LogHolds s₀ lost (kept ++ []) (elsewhere s (abort (exec σ ops)) live)
      (abort (exec σ ops)) :=
    h.aborted hstop (by rw [hlen]; rfl) rfl hlive ⟨[], (List.append_nil _).symm, List.nil_sublist _⟩
  rwa [List.append_nil] at hnone

/-- **The log in every run.** -/
theorem LogRun.holds (hrun : LogRun A icmp s₀ lost kept s σ)
    (hlive : s₀.nv.bufExtent ∈ s₀.pool.live) (hle : s₀.nv.dataLen ≤ s₀.nv.bufSize) :
    LogHolds s₀ lost kept s σ := by
  induction hrun with
  | start => exact ⟨counts_start hlive hle, holdsAt_nil _ _, List.nil_sublist _⟩
  | returns _ ha ih => exact ih.append ha
  | throws _ hfits htrace ih => exact ih.throws hfits htrace
  | others _ hout hsub ih => exact ih.others hout hsub
  | @crash lost kept new s s' σ ops image live opts id _ hprogress hcrash hsub hnew ih =>
    have hstop := stoppedAt_of_progress ih.counts.tracks ih.counts.live ih.counts.le hprogress
    have hfound : Counts s₀ (lost ++ kept ++ new)
        { pool := ⟨memOf image, live⟩, nv := { s.nv with dataLen := lenOf image }, tab := s.tab }
        (durable image) := ih.counts.stopped hstop (.crash hcrash) rfl rfl hsub
    refine ⟨?_, holdsAt_nil _ _, List.nil_sublist _⟩
    rw [List.append_nil]
    exact hfound.constructed hnew

/-- **Appends are durable up to their bytes.** However often a run is stopped, wherever, and
whatever is done to other ranges in between: `dataLen` is where the log of the appends that count
ends, inside the buffer, and a crash finds it there and finds the log that was there before. The
blocks that no crash has come after are in the buffer, one behind the other, and the index lists
them. And if the range has held a log behind its header, and nothing that counts is in front of a
crash, then the log is rebuilt as the old blocks and those of the appends that count. -/
theorem appends_durable (hlive : s₀.nv.bufExtent ∈ s₀.pool.live)
    (hle : s₀.nv.dataLen ≤ s₀.nv.bufSize) (hrun : LogRun A icmp s₀ lost kept s σ) :
    s.nv = { s₀.nv with dataLen := s₀.nv.dataLen + totalSize 8 (records (lost ++ kept)) } ∧
      s.nv.dataLen ≤ s.nv.bufSize ∧
      (∀ image, Crash σ image → lenOf image = s.nv.dataLen ∧ ∀ i, 16 ≤ i → i < s₀.nv.dataLen →
        memOf image (s.nv.buf + i) = s₀.pool.mem (s₀.nv.buf + i)) ∧
      HoldsAt 8 s.pool.mem (s.nv.buf + (s₀.nv.dataLen + totalSize 8 (records lost)))
        (records kept) ∧
      List.Sublist ((place 8 (s₀.nv.dataLen + totalSize 8 (records lost)) (records kept)).map
        (ChunkBlk.ofPlace 8)) s.tab.blklist ∧
      ∀ (opts : FixedRangeBasedOptions) (olds : List Record), LogRegion opts s₀ olds → lost = [] →
        opts.chunkBloomBits = 8 → 16 ≤ s₀.nv.dataLen → Recovers opts s₀ olds kept σ.view := by
  obtain ⟨hcounts, hbytes, hindex⟩ := hrun.holds hlive hle
  have hlen : s.nv.dataLen = s₀.nv.dataLen + totalSize 8 (records (lost ++ kept)) := by
    rw [hcounts.nv]
  have hbuf : s.nv.buf = s₀.nv.buf := by rw [hcounts.nv]
  have hsize : s.nv.bufSize = s₀.nv.bufSize := by rw [hcounts.nv]
  refine ⟨hcounts.nv, hcounts.le, fun image hcrash => ⟨?_, fun i hi hlt => ?_⟩, hbytes, hindex, ?_⟩
  · exact hcounts.tracks.keeps_dataLen.recovered (.inr hcrash)
  · exact (hcounts.old i hi hlt).recovered (.inr hcrash)
  · rintro opts olds hlog rfl hb hd
    have hcurrent : memOf σ.view = s.pool.mem := by
      rw [hcounts.tracks.view]
      rfl
    have hsizes := hlog.totalSize_eq
    have hle' := hcounts.le
    rw [hlen, hsize, List.nil_append] at hle'
    rw [hbuf] at hbytes
    refine recovers_of_holdsAt hlog hb hd hle' ?_ ?_
    · rw [hcounts.tracks.view]
      exact hlen
    · rw [hcurrent, holdsAt_append_iff, hsizes]
      constructor
      · refine hlog.holdsAt.congr fun i hi => ?_
        rw [Nat.add_assoc, ← (hcounts.old_inv (i := 16 + i) (by omega) (by omega)).1, hbuf]
      · rw [show s₀.nv.buf + 16 + (s₀.nv.dataLen - 16) = s₀.nv.buf + s₀.nv.dataLen by omega]
        simpa [records] using hbytes

end Run

/-- The small range: an append is given up before `dataLen` is registered, and is repeated. -/
theorem appends_durable_repeated :
    ∃ s σ, LogRun .bump compare (smallState 16) [] [smallAppend] s σ ∧ s.nv.dataLen = 33 ∧
      Recovers (smallOptions 8 (by decide)) (smallState 16) [] [smallAppend] σ.view := by
  have hthrown : LogRun .bump compare (smallState 16) [] [] _ _ :=
    LogRun.start.throws (a := smallAppend) (by decide)
      (List.take_append_drop 18 _).symm
  have hnv := (hthrown.holds (small_live 16) (by decide)).counts.nv
  obtain ⟨s, hs, hstep⟩ := append_of_fits .bump compare (a := smallAppend) (s := _) (by
    rw [Fits, hnv]
    decide)
  have hrun := hthrown.returns hs
  have hlog := logRegion_small (smallOptions 8 (by decide))
  obtain ⟨hlen, -, -, -, -, hrecovers⟩ := appends_durable (small_live 16) (by decide) hrun
  exact ⟨_, _, hrun, by rw [hlen]; rfl, hrecovers _ _ hlog rfl rfl (by decide)⟩

end FixedRangeTab

end RangeCache
