import RangeCache.Crash
import RangeCache.Lib.UndoLog

/-!
# Failed appends

`Append` runs two transactions, and each can throw: `emplace_back` and the allocation of a key range
when memory is short, the snapshot of `dataLen`, a commit. The exception rolls the running
transaction back, and that is all: the index is a vector in volatile memory and keeps the entry that
`Append` adds to it first, and a transaction that has committed stays.

A transaction that cannot even begin throws in the state its first event would throw in.

## Main definitions

* `AppendEvent`, `appendEvents` — what an `Append` does, the volatile step included
* `afterThrow` — the range after an exception
* `AsBefore` — the tab is as it was, and the `Append` can be repeated

## Main results

* `asBefore_iff` — a failed `Append` leaves the tab as it was exactly when `emplace_back` threw
* `afterThrow_cases` — what is left wherever it threw, and what a retry does then
-/

namespace RangeCache

open ByteMemory RecordLog TxMemory FallibleRun

namespace FixedRangeTab

/-! ## Exceptions -/

/-- What an `Append` does. -/
inductive AppendEvent where
  /-- `blklist.emplace_back`. -/
  | emplaceBack (blk : ChunkBlk)
  /-- An operation on persistent memory. -/
  | persist (op : Op Val)

/-- The events of one `Append`, in order. -/
def appendEvents (A : Allocator) (icmp : Bytes → Bytes → Ordering) (s : RangeState)
    (a : AppendArgs) : List AppendEvent :=
  .emplaceBack ⟨CHUNK_BLOOM_FILTER_LEN, s.nv.dataLen, a.chunkData.length⟩ ::
    (appendTrace A icmp s a).map .persist

/-- The entries that were added to the index. -/
def emplaced (events : List AppendEvent) : List ChunkBlk :=
  events.filterMap fun
    | .emplaceBack blk => some blk
    | .persist _ => none

/-- The operations that reached persistent memory. -/
def persisted (events : List AppendEvent) : List (Op Val) :=
  events.filterMap fun
    | .emplaceBack _ => none
    | .persist op => some op

/-- The range after an exception, when `done` has happened. What the running transaction
snapshotted is restored and what it allocated is freed; the index stays. -/
def afterThrow (s : RangeState) (done : List AppendEvent) : RangeState :=
  let image := rollback (exec (durable (viewOf s)) (persisted done))
  { pool := { s.pool with mem := memOf image }, nv := { s.nv with dataLen := lenOf image },
    tab := { s.tab with blklist := s.tab.blklist ++ emplaced done } }

/-- **The tab is as it was.** Index, data length, data and key range are those of `s`, and calling
`Append` again does what it would have done in `s`. -/
structure AsBefore (A : Allocator) (icmp : Bytes → Bytes → Ordering) (s : RangeState)
    (a : AppendArgs) (s' : RangeState) : Prop where
  blklist : s'.tab.blklist = s.tab.blklist
  dataLen : s'.nv.dataLen = s.nv.dataLen
  bytes : ∀ i < s.nv.dataLen, s'.pool.mem (s.nv.buf + i) = s.pool.mem (s.nv.buf + i)
  keyRange : s'.nv.keyRange = s.nv.keyRange ∧
    getRealRange s'.pool.mem s'.nv = getRealRange s.pool.mem s.nv
  retry : append A icmp s' a = append A icmp s a

section Throw

variable {A : Allocator} {icmp : Bytes → Bytes → Ordering} {s : RangeState} {a : AppendArgs}

/-- Where an exception can come: from `emplace_back`, or from an operation behind it. -/
theorem throw_cases {done rest : List AppendEvent} {next : AppendEvent}
    (h : appendEvents A icmp s a = done ++ next :: rest) :
    (done = [] ∧ ∃ blk, next = .emplaceBack blk) ∨
      ∃ ops op, done = .emplaceBack (.ofPlace 8 (s.nv.dataLen, a.record)) :: ops.map .persist ∧
        next = .persist op ∧ ops <+: appendTrace A icmp s a := by
  rw [appendEvents] at h
  cases done with
  | nil => exact .inl ⟨rfl, _, (List.cons.inj h).1.symm⟩
  | cons first done =>
    obtain ⟨hfirst, hdone⟩ := List.cons.inj h
    obtain ⟨ops, ops', htrace, rfl, hnext⟩ := List.map_eq_append_iff.mp hdone
    obtain ⟨op, ops'', rfl, rfl, -⟩ := List.map_eq_cons_iff.mp hnext
    exact .inr ⟨ops, op, by rw [← hfirst]; rfl, rfl, _, htrace.symm⟩

/-- An exception before anything has happened changes nothing. -/
theorem afterThrow_nil (s : RangeState) : afterThrow s [] = s := by
  rw [afterThrow, emplaced, List.filterMap_nil, List.append_nil]
  rfl

/-- An exception behind `emplace_back`: the entry stays, and persistent memory is rolled back. -/
theorem afterThrow_cons (s : RangeState) (blk : ChunkBlk) (ops : List (Op Val)) :
    afterThrow s (.emplaceBack blk :: ops.map .persist) =
      { pool := { s.pool with mem := memOf (rollback (exec (durable (viewOf s)) ops)) },
        nv := { s.nv with dataLen := lenOf (rollback (exec (durable (viewOf s)) ops)) },
        tab := { s.tab with blklist := s.tab.blklist ++ [blk] } } := by
  have hpersisted : persisted (.emplaceBack blk :: ops.map .persist) = ops := by
    rw [persisted, List.filterMap_cons_none rfl, List.filterMap_map]
    exact List.filterMap_some
  have hemplaced : emplaced (.emplaceBack blk :: ops.map .persist) = [blk] := by
    have hops : emplaced (ops.map .persist) = [] := by
      rw [emplaced, List.filterMap_map]
      exact List.filterMap_eq_nil_iff.mpr fun _ _ => rfl
    show blk :: emplaced (ops.map .persist) = [blk]
    rw [hops]
  rw [afterThrow, hpersisted, hemplaced]

/-- **When a failed `Append` leaves the tab as it was.** -/
theorem asBefore_iff (A : Allocator) (icmp : Bytes → Bytes → Ordering) (s : RangeState)
    (a : AppendArgs) {done rest : List AppendEvent} {next : AppendEvent}
    (h : appendEvents A icmp s a = done ++ next :: rest) :
    AsBefore A icmp s a (afterThrow s done) ↔ ∃ blk, next = .emplaceBack blk := by
  rcases throw_cases h with ⟨rfl, hnext⟩ | ⟨ops, op, rfl, rfl, -⟩
  · rw [afterThrow_nil]
    exact ⟨fun _ => hnext, fun _ => ⟨rfl, rfl, fun _ _ => rfl, ⟨rfl, rfl⟩, rfl⟩⟩
  · constructor
    · intro hbefore
      have hlist := hbefore.blklist
      rw [afterThrow_cons] at hlist
      simp at hlist
    · rintro ⟨blk, hblk⟩
      cases hblk

/-! ## What is left -/

/-- A point of the trace is in the first transaction, or in the second. -/
theorem prefix_appendTrace (hfits : Fits s a) {ops : List (Op Val)}
    (h : ops <+: appendTrace A icmp s a) :
    ops <+: blockTrace s a ∨ ∃ before, ops = blockTrace s a ++ .commit :: before ∧
      before <+:
        keyRangeTrace A icmp (committed s a).pool (committed s a).nv a.newStart a.newEnd := by
  rw [appendTrace_split hfits] at h
  rcases List.prefix_or_prefix_of_prefix h (List.prefix_append _ _) with hfirst | ⟨t, rfl⟩
  · exact .inl hfirst
  · rw [List.prefix_append_right_inj, List.prefix_cons_iff] at h
    rcases h with rfl | ⟨before, rfl, hbefore⟩
    · exact .inl ⟨[], by simp⟩
    · exact .inr ⟨before, rfl, hbefore⟩

/-- Wherever the exception comes from, the bytes below the data length are as they were. -/
theorem rollback_byte (hfits : Fits s a) (hlive : s.nv.bufExtent ∈ s.pool.live)
    {ops : List (Op Val)} (h : ops <+: appendTrace A icmp s a) {i : ℕ} (hi : i < s.nv.dataLen) :
    memOf (rollback (exec (durable (viewOf s)) ops)) (s.nv.buf + i) =
      s.pool.mem (s.nv.buf + i) := by
  have hstores : StoresIn (V := Val) (.byte (s.nv.buf + i)) {s.pool.mem (s.nv.buf + i)} ops := by
    intro op hop v hv
    rcases mem_appendTrace hfits (h.subset hop) with ⟨j, hj, rfl⟩ | rfl | rfl | rfl | ⟨e, hdis, ht⟩
    · have hloc := Loc.byte.inj (Op.store.inj hv).1
      omega
    · cases hv
    · cases hv
    · cases hv
    · rw [Fits] at hfits
      exact absurd hv ((ht.not_live hdis hlive (by omega)).2 v)
  have hbounded : Bounded (V := Val) (.byte (s.nv.buf + i)) {s.pool.mem (s.nv.buf + i)}
      (durable (viewOf s)) := Bounded.durable (Set.mem_singleton _)
  exact (hbounded.exec hstores).rollback

/-- In the first transaction `dataLen` is registered, so it is restored. -/
theorem rollback_dataLen_first {ops : List (Op Val)} (h : ops <+: blockTrace s a) :
    lenOf (rollback (exec (durable (viewOf s)) ops)) = s.nv.dataLen := by
  have hbytes : ∀ op ∈ storeBytes (s.nv.buf + s.nv.dataLen) (a.record.encode 8),
      ∃ x b, op = .store (.byte x) b := by
    intro op hop
    obtain ⟨i, hi, rfl⟩ := mem_storeBytes hop
    exact ⟨_, _, rfl⟩
  have hreg : Registers (V := Val) .dataLen (blockTrace s a) := by
    refine (Registers.of_forall ?_).append (registers_assign _ _ _)
    intro op hop
    obtain ⟨x, b, rfl⟩ := hbytes op hop
    exact ⟨nofun, nofun⟩
  have hnew : .allocate .dataLen ∉ blockTrace s a := by
    intro hmem
    rcases List.mem_append.mp hmem with hmem | hmem
    · obtain ⟨x, b, hop⟩ := hbytes _ hmem
      cases hop
    · exact allocate_not_mem_assign (V := Val) _ _ hmem
  have hkeeps : Keeps (V := Val) .dataLen s.nv.dataLen (durable (viewOf s)) := .inr ⟨rfl, rfl, rfl⟩
  exact (hkeeps.exec (hreg.of_isPrefix h) fun hmem => hnew (h.subset hmem)).recovered (.inl rfl)

/-- The second transaction stores to nothing but its own object. -/
theorem rollback_dataLen_second {before : List (Op Val)}
    (h : before <+:
      keyRangeTrace A icmp (committed s a).pool (committed s a).nv a.newStart a.newEnd) :
    lenOf (rollback (exec (durable (viewOf s)) (blockTrace s a ++ .commit :: before))) =
      s.nv.dataLen + a.record.size 8 := by
  have hbounded := bounded_dataLen (tracks_commit (tracks_durable s) a)
    (Set.mem_singleton (s.nv.dataLen + a.record.size 8))
  have hstores : StoresIn (V := Val) .dataLen {s.nv.dataLen + a.record.size 8} before := by
    intro op hop v hv
    rcases mem_keyRangeTrace (h.subset hop) with rfl | ⟨e, -, x, -, -, rfl | ⟨v', rfl⟩⟩ <;> cases hv
  rw [exec_append, exec_cons]
  exact (hbounded.exec hstores).rollback

/-- Thrown in the first transaction: node and data are as they were, the index has the entry of a
chunk that is not there. A retry adds the entry again. -/
structure LeftEntry (A : Allocator) (icmp : Bytes → Bytes → Ordering) (s : RangeState)
    (a : AppendArgs) (s' : RangeState) : Prop where
  nv : s'.nv = s.nv
  blklist : s'.tab.blklist = s.tab.blklist ++ [.ofPlace 8 (s.nv.dataLen, a.record)]
  bytes : ∀ i < s.nv.dataLen, s'.pool.mem (s.nv.buf + i) = s.pool.mem (s.nv.buf + i)
  retry : ∃ t, append A icmp s' a = .ok t ∧ t.nv.dataLen = s.nv.dataLen + a.record.size 8 ∧
    t.tab.blklist = s.tab.blklist ++ [.ofPlace 8 (s.nv.dataLen, a.record),
      .ofPlace 8 (s.nv.dataLen, a.record)]

/-- Thrown in the second transaction: the chunk has been appended, without a key range. A retry
appends it again. -/
structure LeftChunk (A : Allocator) (icmp : Bytes → Bytes → Ordering) (s : RangeState)
    (a : AppendArgs) (s' : RangeState) : Prop where
  nv : s'.nv = { s.nv with dataLen := s.nv.dataLen + a.record.size 8 }
  blklist : s'.tab.blklist = s.tab.blklist ++ [.ofPlace 8 (s.nv.dataLen, a.record)]
  bytes : ∀ i < s.nv.dataLen, s'.pool.mem (s.nv.buf + i) = s.pool.mem (s.nv.buf + i)
  retry : ∀ t, append A icmp s' a = .ok t →
    t.nv.dataLen = s.nv.dataLen + a.record.size 8 + a.record.size 8 ∧
    t.tab.blklist = s.tab.blklist ++ [.ofPlace 8 (s.nv.dataLen, a.record),
      .ofPlace 8 (s.nv.dataLen + a.record.size 8, a.record)]

theorem leftEntry_of_first (hfits : Fits s a) (hlive : s.nv.bufExtent ∈ s.pool.live)
    {ops : List (Op Val)} (htrace : ops <+: appendTrace A icmp s a) (h : ops <+: blockTrace s a) :
    LeftEntry A icmp s a
      (afterThrow s (.emplaceBack (.ofPlace 8 (s.nv.dataLen, a.record)) :: ops.map .persist)) := by
  have hnv : { s.nv with dataLen := lenOf (rollback (exec (durable (viewOf s)) ops)) } = s.nv := by
    rw [rollback_dataLen_first h]
  rw [afterThrow_cons, hnv]
  refine ⟨rfl, rfl, fun i hi => rollback_byte hfits hlive htrace hi, ?_⟩
  obtain ⟨t, ht, hstep⟩ := append_of_fits A icmp (a := a)
    (s := { pool := { s.pool with mem := memOf (rollback (exec (durable (viewOf s)) ops)) },
            nv := s.nv, tab := { s.tab with
              blklist := s.tab.blklist ++ [.ofPlace 8 (s.nv.dataLen, a.record)] } }) hfits
  refine ⟨t, ht, by rw [hstep.nv], ?_⟩
  rw [hstep.tab]
  exact List.append_assoc s.tab.blklist [_] [_]

theorem leftChunk_of_second (hfits : Fits s a) (hlive : s.nv.bufExtent ∈ s.pool.live)
    {before : List (Op Val)}
    (htrace : blockTrace s a ++ .commit :: before <+: appendTrace A icmp s a)
    (h : before <+:
      keyRangeTrace A icmp (committed s a).pool (committed s a).nv a.newStart a.newEnd) :
    LeftChunk A icmp s a (afterThrow s (.emplaceBack (.ofPlace 8 (s.nv.dataLen, a.record)) ::
      List.map .persist (blockTrace s a ++ .commit :: before))) := by
  rw [afterThrow_cons, rollback_dataLen_second h]
  refine ⟨rfl, rfl, fun i hi => rollback_byte hfits hlive htrace hi, ?_⟩
  intro t ht
  have hstep := append_inv ht
  refine ⟨by rw [hstep.nv], ?_⟩
  rw [hstep.tab]
  exact List.append_assoc s.tab.blklist [_] [_]

/-- **What a failed `Append` leaves**, wherever it threw. -/
theorem afterThrow_cases (hfits : Fits s a) (hlive : s.nv.bufExtent ∈ s.pool.live)
    {done rest : List AppendEvent} {next : AppendEvent}
    (h : appendEvents A icmp s a = done ++ next :: rest) :
    afterThrow s done = s ∨ LeftEntry A icmp s a (afterThrow s done) ∨
      LeftChunk A icmp s a (afterThrow s done) := by
  rcases throw_cases h with ⟨rfl, -⟩ | ⟨ops, op, rfl, -, htrace⟩
  · exact .inl (afterThrow_nil s)
  · rcases prefix_appendTrace hfits htrace with hfirst | ⟨before, rfl, hbefore⟩
    · exact .inr (.inl (leftEntry_of_first hfits hlive htrace hfirst))
    · exact .inr (.inr (leftChunk_of_second hfits hlive htrace hbefore))

end Throw

/-- One small chunk: `emplace_back` throws. -/
theorem asBefore_iff_small :
    AsBefore .bump compare (smallState 16) smallAppend (afterThrow (smallState 16) []) ↔
      ∃ blk, AppendEvent.emplaceBack (.ofPlace 8 (16, smallAppend.record)) = .emplaceBack blk :=
  asBefore_iff .bump compare (smallState 16) smallAppend rfl

/-- The block has been copied, and `dataLen` cannot be registered: the index keeps the entry of a
chunk that is not there. -/
theorem afterThrow_keeps_small :
    (appendEvents .bump compare (smallState 16) smallAppend)[18]? =
        some (.persist (.snapshot .dataLen)) ∧
      ¬ AsBefore .bump compare (smallState 16) smallAppend (afterThrow (smallState 16)
        ((appendEvents .bump compare (smallState 16) smallAppend).take 18)) := by
  refine ⟨rfl, fun h => ?_⟩
  have hlist := congrArg List.length h.blklist
  exact absurd hlist (by decide)

end FixedRangeTab

end RangeCache
