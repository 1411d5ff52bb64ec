import RangeCache.PersistentChunkIterator

/-!
# A range and its tab

`NvRangeTab` is the persistent half of a range: a log buffer with its length, the key range, and
the bookkeeping words. `FixedRangeTab` is the volatile half: the index `blklist` into the log and
the flags of a running compaction. A `RangeState` is one tab together with what its pointers
reach, the persistent node and the pool; the operations are functions on it.

The source writes `pmap_node_` for the node in `Append`, `Get` and `CleanUp`, and
`nonVolatileTab_` elsewhere; both are the field `nv` here. `blklist.emplace_back(cur_len, size)`
in `Append` has one argument fewer than the constructor of `ChunkBlk`; the missing filter length
is the one `Append` writes, `CHUNK_BLOOM_FILTER_LEN`.

A `Slice` is a byte string that exists in memory, so sums of its length and a constant are taken
in `ℕ`. Lengths and offsets that come from persistent bytes or options wrap.

## Main definitions

* `NvRangeTab`, `ChunkBlk`, `FixedRangeTab`, `RangeState`
* `FixedRangeTab.new`, `append`, `rebuildBlkList`, `checkAndUpdateKeyRange`, `cleanUp`
* `FixedRangeTab.get`, `searchInChunk`, `newInternalIterator`
-/

namespace RangeCache

open ByteMemory

/-- The chunk filter is this many bytes when it is written. -/
def CHUNK_BLOOM_FILTER_LEN : ℕ := 8

/-! ## The persistent node -/

structure NvRangeTab where
  hash : ℕ
  /-- Length of the prefix, the terminating zero not included. -/
  prefixLen : ℕ
  /-- `prefix_`, the bytes of the prefix. -/
  prefixBuf : ℕ
  /-- `key_range_`, null until a range is stored. -/
  keyRange : Option ℕ
  chunkNum : ℕ
  seqNum : ℕ
  /-- Capacity of `buf`. -/
  bufSize : ℕ
  buf : ℕ
  /-- Exact data length. -/
  dataLen : ℕ
  extraBuf : Option ℕ
  /-- The capacity is a `size_t`. -/
  bufSize_lt : bufSize < 2 ^ 64

/-- The object `buf` points to. -/
def NvRangeTab.bufExtent (nv : NvRangeTab) : Extent := ⟨nv.buf, nv.bufSize⟩

/-- `NvRangeTab::NvRangeTab`: a node over a fresh buffer of `rangeSize` bytes. -/
def NvRangeTab.new (A : Allocator) (hashCode : Bytes → ℕ) (pool : Pool) (pre : Bytes)
    (rangeSize : UInt64) : Except Fault (Pool × NvRangeTab) := do
  let (pool, prefixBuf) := pool.makePersistent A pre.length
  let pool ← pool.memcpy ⟨prefixBuf, pre.length⟩ 0 pre
  let (pool, buf) := pool.makePersistent A rangeSize.toNat
  return (pool,
    { hash := hashCode pre, prefixLen := pre.length, prefixBuf, keyRange := none,
      chunkNum := 0, seqNum := 0, bufSize := rangeSize.toNat, buf, dataLen := 0,
      extraBuf := none, bufSize_lt := rangeSize.toNat_lt })

/-! ## The volatile tab -/

/-- An entry of the index: filter, length field and data of one chunk in the log. -/
structure ChunkBlk where
  bloomBits : ℕ
  /-- Offset of the filter in the range buffer. -/
  offset : ℕ
  chunkLen : ℕ
  deriving DecidableEq, Repr

def ChunkBlk.getDatOffset (blk : ChunkBlk) : ℕ := u64 (blk.offset + blk.bloomBits + 8)

/-- Where a block ends, as an unbounded number. -/
def ChunkBlk.stop (blk : ChunkBlk) : ℕ := blk.offset + blk.bloomBits + 8 + blk.chunkLen

/-- What the tab reads of `FixedRangeBasedOptions`: the filter length and the filter policy. -/
structure FixedRangeBasedOptions where
  chunkBloomBits : ℕ
  keyMayMatch : Bytes → Bytes → Bool
  chunkBloomBits_lt : chunkBloomBits < 2 ^ 64

/-- `raw_` and `in_compaction_` are `none` while the constructor has left them uninitialised. -/
structure FixedRangeTab where
  nonVolatileTab : ℕ
  blklist : List ChunkBlk
  raw : Option ℕ
  inCompaction : Option Bool
  penddingClean : ℕ
  deriving DecidableEq, Repr

/-- A tab, its node and the pool. -/
structure RangeState where
  pool : Pool
  nv : NvRangeTab
  tab : FixedRangeTab

namespace FixedRangeTab

/-! ## The index -/

/-- The loop of `RebuildBlkList` at `offset`. It visits offsets below `dataLen` and its next
offset depends on the current one alone, so a run of more than `dataLen` turns never ends;
`fuel` is the number of turns left. The length field is read at a wrapping position. -/
def rebuildLoop (opts : FixedRangeBasedOptions) (m : Memory) (nv : NvRangeTab) :
    (fuel offset : ℕ) → List ChunkBlk → Except Fault (List ChunkBlk)
  | 0, offset, blks => if offset < nv.dataLen then .error .diverges else .ok blks
  | fuel + 1, offset, blks =>
    if offset < nv.dataLen then
      let datChunkLen := u64 (offset + opts.chunkBloomBits)
      if datChunkLen + 8 ≤ nv.bufSize then
        let chunkLen := decodeFixed64 m (nv.buf + datChunkLen)
        rebuildLoop opts m nv fuel (u64 (offset + opts.chunkBloomBits + 8 + chunkLen))
          (blks ++ [⟨opts.chunkBloomBits, offset, chunkLen⟩])
      else
        .error .outOfBounds
    else
      .ok blks

/-- `RebuildBlkList` appends to the list it finds; the log starts past `cur_` and `seq_`. -/
def rebuildBlkList (opts : FixedRangeBasedOptions) (m : Memory) (nv : NvRangeTab)
    (blks : List ChunkBlk) : Except Fault (List ChunkBlk) :=
  rebuildLoop opts m nv nv.dataLen 16 blks

/-- `FixedRangeTab::FixedRangeTab`. -/
def new (opts : FixedRangeBasedOptions) (pool : Pool) (nonVolatileTab : ℕ) (nv : NvRangeTab) :
    Except Fault RangeState := do
  if nv.seqNum = 0 then
    -- new node: `cur_` and `seq_` are set to zero
    let pool ← pool.memcpy nv.bufExtent 0 (encodeFixed64 0)
    let pool ← pool.memcpy nv.bufExtent 8 (encodeFixed64 0)
    return { pool, nv,
             tab := { nonVolatileTab, blklist := [], raw := some (nv.buf + 16),
                      inCompaction := some false, penddingClean := 0 } }
  else
    -- rebuild: `raw_` and `in_compaction_` are not set
    let blklist ← rebuildBlkList opts pool.mem nv []
    return { pool, nv,
             tab := { nonVolatileTab, blklist, raw := none, inCompaction := none,
                      penddingClean := 0 } }

/-! ## The key range -/

/-- `GetKVData`: a length-prefixed string at an offset. -/
def getKVData (m : Memory) (raw itemOff : ℕ) : Bytes :=
  let target := raw + itemOff
  read m (target + 8) (decodeFixed64 m target)

/-- `GetRealRange`: two null slices when no range is stored. -/
def getRealRange (m : Memory) (nv : NvRangeTab) : Bytes × Bytes :=
  match nv.keyRange with
  | some raw =>
    let realStart := getKVData m raw 0
    (realStart, getKVData m raw (realStart.length + 8))
  | none => ([], [])

/-- Put start and end: each its length, then its bytes. -/
def putKeyRange (pool : Pool) (obj : Extent) (start stop : Bytes) : Except Fault Pool := do
  let pool ← pool.memcpy obj 0 (encodeFixed64 start.length)
  let pool ← pool.memcpy obj 8 start
  let pNewRange := 8 + start.length
  let pool ← pool.memcpy obj pNewRange (encodeFixed64 stop.length)
  pool.memcpy obj (pNewRange + 8) stop

/-- `CheckAndUpdateKeyRange`: the widened range is written to a new object, to which no field is
set. -/
def checkAndUpdateKeyRange (A : Allocator) (icmp : Bytes → Bytes → Ordering) (pool : Pool)
    (nv : NvRangeTab) (newStart newEnd : Bytes) : Except Fault Pool := do
  let (curStart, curEnd) := getRealRange pool.mem nv
  let updateStart := icmp curStart newStart == .gt
  let curStart := if updateStart then newStart else curStart
  let updateEnd := icmp curEnd newEnd == .lt
  let curEnd := if updateEnd then newEnd else curEnd
  if updateStart || updateEnd then
    let size := curStart.length + curEnd.length + 2 * 8
    let (pool, newRange) := pool.makePersistent A size
    putKeyRange pool ⟨newRange, size⟩ curStart curEnd
  else
    return pool

/-! ## Appending and cleaning -/

/-- The arguments of one `Append`. The caller's filter has the length `Append` copies. -/
structure AppendArgs where
  bloomData : Bytes
  chunkData : Bytes
  newStart : Bytes
  newEnd : Bytes
  bloomData_length : bloomData.length = CHUNK_BLOOM_FILTER_LEN

def maxChunkNumToFlush : ℕ := 1024

/-- The test `Append` makes first. Its branch is empty in the source: nothing follows from it. -/
def penddingCompaction (s : RangeState) (chunkData : Bytes) : Bool :=
  s.nv.bufSize ≤ s.nv.dataLen + chunkData.length || maxChunkNumToFlush < s.nv.chunkNum

/-- The three copies of `Append`: filter, length field, data, at a moving `dest`. -/
def copyBlock (pool : Pool) (obj : Extent) (curLen : ℕ) (bloomData chunkData : Bytes) :
    Except Fault Pool := do
  let dest := curLen
  let pool ← pool.memcpy obj dest bloomData
  let dest := dest + CHUNK_BLOOM_FILTER_LEN
  let pool ← pool.memcpy obj dest (encodeFixed64 chunkData.length)
  let dest := dest + 8
  pool.memcpy obj dest chunkData

/-- `Append`. -/
def append (A : Allocator) (icmp : Bytes → Bytes → Ordering) (s : RangeState) (a : AppendArgs) :
    Except Fault RangeState := do
  if penddingCompaction s a.chunkData then
    pure ()
  let curLen := s.nv.dataLen
  let blklist := s.tab.blklist ++ [⟨CHUNK_BLOOM_FILTER_LEN, curLen, a.chunkData.length⟩]
  let pool ← copyBlock s.pool s.nv.bufExtent curLen a.bloomData a.chunkData
  let nv := { s.nv with
    dataLen := u64 (curLen + CHUNK_BLOOM_FILTER_LEN + 8 + a.chunkData.length) }
  let pool ← checkAndUpdateKeyRange A icmp pool nv a.newStart a.newEnd
  return { pool, nv, tab := { s.tab with blklist } }

/-- `SetCompactionWorking` records the length of the index on every call. -/
def setCompactionWorking (s : RangeState) (working : Bool) : RangeState :=
  { s with tab := { s.tab with penddingClean := s.tab.blklist.length,
                               inCompaction := some working } }

/-- `CleanUp`. -/
def cleanUp (opts : FixedRangeBasedOptions) (s : RangeState) : Except Fault RangeState := do
  let nv := { s.nv with dataLen := 0 }
  let blklist ← rebuildBlkList opts s.pool.mem nv s.tab.blklist
  return { s with nv, tab := { s.tab with blklist } }

/-! ## Lookup -/

inductive Status where
  | ok
  | notFound (msg : String)
  deriving DecidableEq, Repr

/-- The loop of `searchInChunk`. The bounds are `size_t`; the test `left <= right` is the only
exit besides a hit. `fuel` bounds the turns. -/
def searchLoop (m : Memory) (icmp : Bytes → Bytes → Ordering) (key : Bytes) :
    (fuel : ℕ) → PersistentChunkIterator → (left right : ℕ) → Bytes →
      Except Fault (Status × Bytes)
  | 0, _, _, _, _ => .error .diverges
  | fuel + 1, iter, left, right, value =>
    if left ≤ right then do
      let middle := left + (right - left) / 2
      let iter := iter.seekTo middle
      let mlKey ← iter.key m
      match icmp mlKey key with
      | .eq => do
        let rawValue ← iter.value m
        return (.ok, rawValue)
      | .lt => searchLoop m icmp key fuel iter (u64 (middle + 1)) right value
      | .gt => searchLoop m icmp key fuel iter left (u64 (middle + (2 ^ 64 - 1))) value
    else
      .ok (.notFound "not found", value)

/-- `searchInChunk`; `right` starts at `count() - 1`, which wraps on an empty chunk. -/
def searchInChunk (m : Memory) (iter : PersistentChunkIterator)
    (icmp : Bytes → Bytes → Ordering) (key value : Bytes) : Except Fault (Status × Bytes) :=
  searchLoop m icmp key (iter.count + 2) iter 0 (u64 (iter.count + (2 ^ 64 - 1))) value

/-- The bytes `Get` hands to the filter policy for a block. -/
def bloomSlice (opts : FixedRangeBasedOptions) (s : RangeState) (blk : ChunkBlk) : Bytes :=
  read s.pool.mem (s.nv.buf + blk.offset) opts.chunkBloomBits

/-- `new (iter) PersistentChunkIterator(data, size, nullptr)`, into memory that holds `junk`. -/
def constructIter (junk : ℕ) (m : Memory) (data size : ℕ) :
    Except Fault PersistentChunkIterator :=
  (PersistentChunkIterator.new m data size junk).map Prod.fst

/-- The loop of `Get` at index `i`. Its condition `i >= 0` holds of every `size_t`, so it is not
tested; `fuel` bounds the turns. `newIter` constructs the iterator over a chunk. -/
def getLoop (opts : FixedRangeBasedOptions)
    (newIter : Memory → ℕ → ℕ → Except Fault PersistentChunkIterator) (s : RangeState)
    (icmp : Bytes → Bytes → Ordering) (key : Bytes) :
    (fuel i : ℕ) → Bytes → Except Fault (Status × Bytes)
  | 0, _, _ => .error .diverges
  | fuel + 1, i, value => do
    let blk ← vectorAt s.tab.blklist i
    if opts.keyMayMatch key (bloomSlice opts s blk) then
      let iter ← newIter s.pool.mem (s.nv.buf + blk.getDatOffset) blk.chunkLen
      let (st, value) ← searchInChunk s.pool.mem iter icmp key value
      if st = .ok then
        return (st, value)
      else
        getLoop opts newIter s icmp key fuel (u64 (i + (2 ^ 64 - 1))) value
    else
      getLoop opts newIter s icmp key fuel (u64 (i + (2 ^ 64 - 1))) value

/-- `Get`, from the newest block down. -/
def get (opts : FixedRangeBasedOptions)
    (newIter : Memory → ℕ → ℕ → Except Fault PersistentChunkIterator) (s : RangeState)
    (icmp : Bytes → Bytes → Ordering) (key value : Bytes) : Except Fault (Status × Bytes) :=
  getLoop opts newIter s icmp key (s.tab.blklist.length + 1)
    (u64 (s.tab.blklist.length + (2 ^ 64 - 1))) value

/-! ## Iterating -/

/-- What `NewInternalIterator` resets for each block. -/
structure PersistentChunk where
  bloomFilterSize : ℕ
  chunkSize : ℕ
  chunkData : ℕ

/-- `PersistentChunk::NewIterator` constructs an iterator over the chunk. -/
def PersistentChunk.newIterator
    (newIter : Memory → ℕ → ℕ → Except Fault PersistentChunkIterator) (m : Memory)
    (pchk : PersistentChunk) : Except Fault PersistentChunkIterator :=
  newIter m pchk.chunkData pchk.chunkSize

/-- `NewInternalIterator`: the children it merges, one for each block. -/
def newInternalIterator (opts : FixedRangeBasedOptions)
    (newIter : Memory → ℕ → ℕ → Except Fault PersistentChunkIterator) (s : RangeState) :
    Except Fault (List PersistentChunkIterator) :=
  s.tab.blklist.mapM fun blk => PersistentChunk.newIterator newIter s.pool.mem
    { bloomFilterSize := opts.chunkBloomBits, chunkSize := blk.chunkLen,
      chunkData := s.nv.buf + blk.getDatOffset }

end FixedRangeTab

end RangeCache
