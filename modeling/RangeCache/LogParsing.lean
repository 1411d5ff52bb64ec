import Mathlib.Data.List.Induction
import RangeCache.Recovery

/-!
# Parsing whatever the buffer holds

`RebuildBlkList` runs on every restart, over bytes that the last crash may have torn. The format
does not mark where a block begins: each block is found through the length field of the one before
it. On a buffer that holds a log the loop lists its blocks and stops at `dataLen`; on any other
buffer some length field sends it past `dataLen`, outside the buffer, or back.

## Main definitions

* `RebuildSafe` — rebuilding ends, and lists blocks that lie one behind the other below `dataLen`
* `endOffset` — where the loop stops

## Main results

* `rebuildSafe_iff` — rebuilding is safe exactly on buffers that hold a log up to `dataLen`
* `rebuildBlkList_parses` — on such a buffer it lists the blocks of the log
-/

namespace RangeCache

open ByteMemory RecordLog

namespace FixedRangeTab

/-- **Rebuilding is safe.** It returns after at most `dataLen` turns, one for each entry it adds to
`blks`; each block added lies between the header and `dataLen`, its length field in the buffer, and
behind the block before it. -/
def RebuildSafe (opts : FixedRangeBasedOptions) (m : Memory) (nv : NvRangeTab)
    (blks : List ChunkBlk) : Prop :=
  ∃ added, rebuildBlkList opts m nv blks = .ok (blks ++ added) ∧ added.length ≤ nv.dataLen ∧
    (∀ blk ∈ added, 16 ≤ blk.offset ∧ blk.offset + blk.bloomBits + 8 ≤ nv.bufSize ∧
      blk.stop ≤ nv.dataLen) ∧
    added.Pairwise fun blk blk' => blk.stop ≤ blk'.offset

/-- The buffer holds, behind its header and up to `dataLen` exactly, blocks with filters of the
configured length. -/
def HoldsLog (opts : FixedRangeBasedOptions) (m : Memory) (nv : NvRangeTab) : Prop :=
  ∃ recs : List Record, (∀ r ∈ recs, r.tag.length = opts.chunkBloomBits) ∧
    HoldsAt 8 m (nv.buf + 16) recs ∧ 16 + totalSize 8 recs = nv.dataLen

section Rebuild

variable {opts : FixedRangeBasedOptions} {m : Memory} {nv : NvRangeTab} {blks : List ChunkBlk}

/-- On a log the loop is safe. -/
theorem rebuildSafe_of_holdsLog (hle : nv.dataLen ≤ nv.bufSize) (h : HoldsLog opts m nv) :
    RebuildSafe opts m nv blks := by
  obtain ⟨recs, htag, hlog, hend⟩ := h
  have hcount := length_mul_le_totalSize (w := 8) recs
  refine ⟨_, rebuildBlkList_of_holdsAt blks htag hlog hend hle, ?_, ?_, ?_⟩
  · rw [List.length_map, length_place]
    omega
  · intro blk hblk
    obtain ⟨p, hp, rfl⟩ := List.mem_map.mp hblk
    have hbounds := place_bounds hp
    have hstop := ChunkBlk.stop_ofPlace (htag _ (mem_of_mem_place hp))
    have hoff : (ChunkBlk.ofPlace opts.chunkBloomBits p).offset = p.1 := rfl
    rw [ChunkBlk.stop] at hstop ⊢
    omega
  · rw [List.pairwise_map]
    refine (pairwise_place 16 recs).imp_of_mem fun hp _ hpq => ?_
    rw [ChunkBlk.stop_ofPlace (htag _ (mem_of_mem_place hp))]
    exact hpq

/-- One turn of the loop that returned, taken apart. -/
theorem rebuildLoop_succ_inv {fuel o : ℕ} {added : List ChunkBlk} (hlt : o < nv.dataLen)
    (h : rebuildLoop opts m nv (fuel + 1) o blks = .ok (blks ++ added)) :
    ∃ chunkLen rest,
      chunkLen = decodeFixed64 m (nv.buf + u64 (o + opts.chunkBloomBits)) ∧
      added = ⟨opts.chunkBloomBits, o, chunkLen⟩ :: rest ∧
      rebuildLoop opts m nv fuel (u64 (o + opts.chunkBloomBits + 8 + chunkLen))
          (blks ++ [⟨opts.chunkBloomBits, o, chunkLen⟩]) =
        .ok (blks ++ [⟨opts.chunkBloomBits, o, chunkLen⟩] ++ rest) := by
  rw [rebuildLoop, if_pos hlt] at h
  simp only at h
  split at h
  · obtain ⟨rest, hrest, -⟩ := rebuildLoop_bloomBits h
    refine ⟨_, rest, rfl, ?_, ?_⟩
    · rw [List.append_assoc, List.append_cancel_left_eq] at hrest
      exact hrest
    · rw [h, hrest]
  · cases h

/-- **Tiling.** If the loop returns and lists only blocks that end at or below `dataLen`, then its
blocks are those of a log: nothing is between them, and the last one ends at `dataLen`. -/
theorem exists_log_of_rebuildLoop (hle : nv.dataLen ≤ nv.bufSize) {fuel o : ℕ}
    {added : List ChunkBlk} (ho : o ≤ nv.dataLen)
    (h : rebuildLoop opts m nv fuel o blks = .ok (blks ++ added))
    (hstop : ∀ blk ∈ added, blk.stop ≤ nv.dataLen) :
    ∃ recs : List Record, (∀ r ∈ recs, r.tag.length = opts.chunkBloomBits) ∧
      HoldsAt 8 m (nv.buf + o) recs ∧ o + totalSize 8 recs = nv.dataLen := by
  have hbuf := nv.bufSize_lt
  induction fuel generalizing o blks added with
  | zero =>
    rcases Nat.lt_or_ge o nv.dataLen with hlt | hge
    · rw [rebuildLoop, if_pos hlt] at h
      cases h
    · exact ⟨[], by simp, holdsAt_nil _ _, by rw [totalSize_nil]; omega⟩
  | succ fuel ih =>
    rcases Nat.lt_or_ge o nv.dataLen with hlt | hge
    · obtain ⟨chunkLen, rest, hlen, rfl, hrest⟩ := rebuildLoop_succ_inv hlt h
      have hfirst := hstop _ (List.mem_cons_self ..)
      simp only [ChunkBlk.stop] at hfirst
      -- the block ends below `2 ^ 64`, so neither position has wrapped
      rw [u64_of_lt (by omega)] at hlen hrest
      obtain ⟨recs, htag, hlog, hend⟩ := ih (by omega) hrest
        fun blk hblk => hstop blk (List.mem_cons_of_mem _ hblk)
      have hrec := recordAt_decode (w := 8) m (nv.buf + o) opts.chunkBloomBits
      rw [show decodeLE (read m (nv.buf + o + opts.chunkBloomBits) 8) = chunkLen by
        rw [hlen, decodeFixed64, Nat.add_assoc]] at hrec
      generalize hr : (⟨read m (nv.buf + o) opts.chunkBloomBits,
        read m (nv.buf + o + opts.chunkBloomBits + 8) chunkLen⟩ : Record) = r at hrec
      have htagr : r.tag.length = opts.chunkBloomBits := by rw [← hr, length_read]
      have hsize : o + r.size 8 = o + opts.chunkBloomBits + 8 + chunkLen := by
        rw [Record.size, htagr, ← hr, length_read]
        omega
      refine ⟨r :: recs, List.forall_mem_cons.mpr ⟨htagr, htag⟩, ?_, ?_⟩
      · rw [holdsAt_cons_iff, Nat.add_assoc, hsize]
        exact ⟨hrec, hlog⟩
      · rw [totalSize_cons, ← Nat.add_assoc, hsize]
        exact hend
    · exact ⟨[], by simp, holdsAt_nil _ _, by rw [totalSize_nil]; omega⟩

/-- **When rebuilding is safe**: when there is no data behind the header, or the bytes from there
to `dataLen` are a log. -/
theorem rebuildSafe_iff (hle : nv.dataLen ≤ nv.bufSize) (blks : List ChunkBlk) :
    RebuildSafe opts m nv blks ↔ nv.dataLen ≤ 16 ∨ HoldsLog opts m nv := by
  constructor
  · rintro ⟨added, hadded, -, hall, -⟩
    rcases Nat.le_total nv.dataLen 16 with hd | hd
    · exact .inl hd
    · exact .inr (exists_log_of_rebuildLoop hle hd hadded fun blk hblk => (hall blk hblk).2.2)
  · rintro (hd | hlog)
    · exact ⟨[], by rw [rebuildBlkList_of_le hd, List.append_nil], by simp, by simp,
        List.Pairwise.nil⟩
    · exact rebuildSafe_of_holdsLog hle hlog

end Rebuild

/-- A buffer of 256 bytes whose first length field is torn: the block at `16` ends at `16`. -/
def tornMemory : Memory := write (fun _ => 0) 24 (encodeFixed64 (2 ^ 64 - 16))

theorem rebuildSafe_iff_small :
    RebuildSafe (smallOptions 8 (by decide)) (fun _ => 0) (smallNv 32) [] ↔
      (smallNv 32).dataLen ≤ 16 ∨ HoldsLog (smallOptions 8 (by decide)) (fun _ => 0) (smallNv 32) :=
  rebuildSafe_iff (by decide) []

/-- The loop never leaves the torn block. -/
theorem rebuild_diverges_torn :
    ¬ RebuildSafe (smallOptions 8 (by decide)) tornMemory (smallNv 40) [] := by
  rintro ⟨added, hadded, -⟩
  have hdiverges : rebuildBlkList (smallOptions 8 (by decide)) tornMemory (smallNv 40) []
      = .error .diverges := by rfl
  rw [hdiverges] at hadded
  cases hadded

/-! ## Buffers that hold a log -/

/-- The value of `offset` after the turn that added the last of `blks`. -/
def endOffset (blks : List ChunkBlk) : ℕ := (blks.getLast?.map fun blk => u64 blk.stop).getD 16

section Parse

variable {opts : FixedRangeBasedOptions} {m : Memory} {nv : NvRangeTab} {recs : List Record}

/-- The entry of the `i`-th record. -/
theorem getElem?_map_ofPlace (b o : ℕ) (i : ℕ) :
    ((place 8 o recs).map (ChunkBlk.ofPlace b))[i]? =
      recs[i]?.map fun r => ⟨b, o + totalSize 8 (recs.take i), r.payload.length⟩ := by
  rw [List.getElem?_map, getElem?_place, Option.map_map]
  rfl

/-- The entries of a log end where the log does. -/
theorem endOffset_map_ofPlace {b : ℕ} (htag : ∀ r ∈ recs, r.tag.length = b)
    (hlt : 16 + totalSize 8 recs < 2 ^ 64) :
    endOffset ((place 8 16 recs).map (ChunkBlk.ofPlace b)) = 16 + totalSize 8 recs := by
  induction recs using List.reverseRecOn with
  | nil => rfl
  | append_singleton recs r _ =>
    have hstop : (ChunkBlk.ofPlace b (16 + totalSize 8 recs, r)).stop
        = 16 + totalSize 8 recs + r.size 8 :=
      ChunkBlk.stop_ofPlace (htag r (by simp))
    simp only [totalSize_append, totalSize_cons, totalSize_nil, Nat.add_zero] at hlt ⊢
    rw [endOffset, place_append, List.map_append, place_cons, place_nil, List.map_cons,
      List.map_nil, List.getLast?_concat, Option.map_some, Option.getD_some, hstop,
      u64_of_lt (by omega), Nat.add_assoc]

/-- **`RebuildBlkList` parses the log format.** On a 16-byte header and the encodings of `recs`,
`dataLen` bytes in all, it lists one entry for each record, in order: the offset of its filter, its
length, and where its bytes are. It stops at `dataLen`, and nothing behind `dataLen` matters. -/
theorem rebuildBlkList_parses {header : Bytes} (hheader : header.length = 16)
    (htag : ∀ r ∈ recs, r.tag.length = opts.chunkBloomBits)
    (hbytes : read m nv.buf nv.dataLen = header ++ encodeAll 8 recs)
    (hle : nv.dataLen ≤ nv.bufSize) :
    ∃ blks, rebuildBlkList opts m nv [] = .ok blks ∧ blks.length = recs.length ∧
      (∀ i r, recs[i]? = some r → ∃ blk, blks[i]? = some blk ∧
        blk.bloomBits = opts.chunkBloomBits ∧ blk.offset = 16 + totalSize 8 (recs.take i) ∧
        blk.chunkLen = r.payload.length ∧
        read m (nv.buf + blk.offset) blk.bloomBits = r.tag ∧
        read m (nv.buf + blk.getDatOffset) blk.chunkLen = r.payload) ∧
      endOffset blks = nv.dataLen ∧
      ∀ m' : Memory, (∀ i < nv.dataLen, m' (nv.buf + i) = m (nv.buf + i)) →
        rebuildBlkList opts m' nv [] = .ok blks := by
  have hlt := nv.bufSize_lt
  have hend : 16 + totalSize 8 recs = nv.dataLen := by
    have hlen := congrArg List.length hbytes
    rw [length_read, List.length_append, hheader, length_encodeAll] at hlen
    exact hlen.symm
  have hlog : HoldsAt 8 m (nv.buf + 16) recs := by
    rw [← hend, read_add] at hbytes
    exact (List.append_inj hbytes (by rw [length_read, hheader])).2
  refine ⟨(place 8 16 recs).map (ChunkBlk.ofPlace opts.chunkBloomBits),
    rebuildBlkList_of_holdsAt [] htag hlog hend hle, by simp, fun i r hr => ?_, ?_,
    fun m' hm => ?_⟩
  · refine ⟨_, by rw [getElem?_map_ofPlace, hr]; rfl, rfl, rfl, rfl, ?_⟩
    have hplace : (16 + totalSize 8 (recs.take i), r) ∈ place 8 16 recs :=
      List.mem_of_getElem? (by rw [getElem?_place, hr]; rfl)
    have hbounds := place_bounds hplace
    have htagr := htag r (List.mem_of_getElem? hr)
    obtain ⟨htagbytes, -, hpayload⟩ := holdsAt_iff_forall_place.mp hlog _ hplace
    simp only [Record.size] at hbounds
    rw [htagr] at htagbytes hpayload
    refine ⟨htagbytes, ?_⟩
    rw [ChunkBlk.getDatOffset, u64_of_lt (by simp only; omega), ← Nat.add_assoc, ← Nat.add_assoc]
    exact hpayload
  · rw [endOffset_map_ofPlace htag (by omega), hend]
  · refine rebuildBlkList_of_holdsAt [] htag (hlog.congr fun i hi => ?_) hend hle
    rw [Nat.add_assoc]
    exact hm (16 + i) (by omega)

end Parse

/-- Two records, with filters of eight bytes. -/
def twoRecords : List Record := [⟨List.replicate 8 1, [5]⟩, ⟨List.replicate 8 2, [6, 7]⟩]

/-- A memory with a header and the two records at address `0`. -/
def twoRecordMemory : Memory :=
  write (fun _ => 0) 0 (List.replicate 16 0 ++ encodeAll 8 twoRecords)

theorem rebuildBlkList_parses_small :
    ∃ fst snd, rebuildBlkList (smallOptions 8 (by decide)) twoRecordMemory (smallNv 51) []
        = .ok [fst, snd] ∧
      (fst.offset = 16 ∧ snd.offset = 33) ∧ (fst.chunkLen = 1 ∧ snd.chunkLen = 2) ∧
      read twoRecordMemory fst.getDatOffset fst.chunkLen = [5] ∧
      read twoRecordMemory snd.getDatOffset snd.chunkLen = [6, 7] ∧
      endOffset [fst, snd] = 51 := by
  have htag : ∀ r ∈ twoRecords, r.tag.length = (smallOptions 8 (by decide)).chunkBloomBits := by
    decide
  have hbytes : read twoRecordMemory (smallNv 51).buf (smallNv 51).dataLen
      = List.replicate 16 0 ++ encodeAll 8 twoRecords := read_write_self _ _ _
  obtain ⟨blks, hblks, hlen, heach, hend, -⟩ := rebuildBlkList_parses rfl htag hbytes (by decide)
  obtain ⟨fst, snd, rfl⟩ := List.length_eq_two.mp hlen
  obtain ⟨blk, hblk, -, hoffset, hchunkLen, -, hpayload⟩ := heach 0 _ rfl
  obtain ⟨blk', hblk', -, hoffset', hchunkLen', -, hpayload'⟩ := heach 1 _ rfl
  obtain rfl := Option.some.inj hblk
  obtain rfl := Option.some.inj hblk'
  rw [smallNv, Nat.zero_add] at hpayload hpayload'
  exact ⟨fst, snd, hblks, ⟨hoffset, hoffset'⟩, ⟨hchunkLen, hchunkLen'⟩, hpayload, hpayload', hend⟩

end FixedRangeTab

end RangeCache
