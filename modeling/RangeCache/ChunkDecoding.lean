import RangeCache.PersistentChunkIterator

/-!
# Decoding a chunk

The offset table of a chunk has 8-byte entries, and the constructor steps through it 8 bytes at
a time. But it finds the table's start by going back `sizeof(metaOffset)` bytes for each pair,
and `metaOffset` is a `persistent_ptr`: 16 bytes. So it starts `8 * n` bytes early and takes the
last `8 * n` bytes of the pairs themselves for their offsets.

Decoding therefore succeeds exactly when those bytes happen to be offsets of the right pairs.

## Main definitions

* `misreadOffset` — the word the constructor takes for the offset of a pair
* `MisreadOffsetsHit` — every such word points at an encoding of its pair

## Main results

* `loadPair_correct_iff` — one pair is decoded right exactly when its offset is one of it
* `decodesTo_iff_loadPair` — a chunk is decoded right exactly when each of its pairs is
* `new_decodes_iff` — the two together
-/

namespace RangeCache

namespace PersistentChunkIterator

open ByteMemory

/-! ## Sizes of the format -/

theorem length_encodePair (kv : Bytes × Bytes) :
    (encodePair kv).length = 16 + kv.1.length + kv.2.length := by
  simp only [encodePair, List.length_append, length_encodeFixed64]
  omega

theorem length_le_encodeBody (kvs : List (Bytes × Bytes)) :
    16 * kvs.length ≤ (encodeBody kvs).length := by
  induction kvs with
  | nil => simp
  | cons kv kvs ih =>
    have hpair := length_encodePair kv
    simp only [encodeBody, List.flatMap_cons, List.length_append, List.length_cons] at ih ⊢
    omega

theorem length_pairOffsets (o : ℕ) (kvs : List (Bytes × Bytes)) :
    ((pairOffsets o kvs).flatMap encodeFixed64).length = 8 * kvs.length := by
  induction kvs generalizing o with
  | nil => rfl
  | cons kv kvs ih =>
    rw [pairOffsets, List.flatMap_cons, List.length_append, ih, length_encodeFixed64,
      List.length_cons]
    omega

theorem length_encodeChunk (kvs : List (Bytes × Bytes)) :
    (encodeChunk kvs).length = (encodeBody kvs).length + 8 * kvs.length + 8 := by
  simp only [encodeChunk, List.length_append, length_pairOffsets, length_encodeFixed64]
  omega

/-! ## The words taken for offsets -/

/-- Word `i` of the `8 * n` bytes that precede the offset table: what the constructor takes for
the offset of pair `i`. -/
def misreadOffset (kvs : List (Bytes × Bytes)) (i : ℕ) : ℕ :=
  decodeLE (((encodeBody kvs).drop ((encodeBody kvs).length - 8 * kvs.length + 8 * i)).take 8)

/-- Every word taken for an offset is the position of an encoding of its pair. -/
def MisreadOffsetsHit (kvs : List (Bytes × Bytes)) : Prop :=
  ∀ i (h : i < kvs.length), encodePair kvs[i] <+: (encodeChunk kvs).drop (misreadOffset kvs i)

instance (kvs : List (Bytes × Bytes)) : Decidable (MisreadOffsetsHit kvs) :=
  inferInstanceAs (Decidable (∀ i (_ : i < kvs.length), _))

section Decode

variable {m : Memory} {data : ℕ} {kvs : List (Bytes × Bytes)}

/-- A segment of the chunk, as a read of the memory that holds it. -/
theorem read_of_chunk (hchunk : read m data (encodeChunk kvs).length = encodeChunk kvs) {i k : ℕ}
    (h : i + k ≤ (encodeChunk kvs).length) :
    read m (data + i) k = ((encodeChunk kvs).drop i).take k := by
  rw [read_segment m data h, hchunk]

/-- A word that holds the encoding of `n` decodes to it. -/
theorem decodeFixed64_of_read {a n : ℕ} (hn : n < 2 ^ 64) (h : read m a 8 = encodeFixed64 n) :
    decodeFixed64 m a = n := by
  rw [decodeFixed64, h, encodeFixed64, decodeLE_encodeLE (by omega)]

/-- The number of pairs is read from where it was written. -/
theorem decode_nPairs (hchunk : read m data (encodeChunk kvs).length = encodeChunk kvs)
    (hlt : data + (encodeChunk kvs).length < 2 ^ 64) :
    decodeFixed64 m (data + ((encodeChunk kvs).length - 8)) = kvs.length := by
  have hlen := length_encodeChunk kvs
  have hbody := length_le_encodeBody kvs
  have htail : (encodeChunk kvs).drop ((encodeChunk kvs).length - 8)
      = encodeFixed64 kvs.length := by
    rw [hlen, encodeChunk, ← List.append_assoc]
    exact List.drop_left' (by rw [List.length_append, length_pairOffsets]; omega)
  refine decodeFixed64_of_read (by omega) ?_
  rw [read_of_chunk hchunk (by omega), htail, List.take_of_length_le (by simp)]

/-- The words the loop loads are the misread offsets. -/
theorem decode_metaOffset (hchunk : read m data (encodeChunk kvs).length = encodeChunk kvs)
    {i : ℕ} (hi : i < kvs.length) :
    decodeFixed64 m (data + ((encodeBody kvs).length - 8 * kvs.length) + 8 * i) =
      misreadOffset kvs i := by
  have hlen := length_encodeChunk kvs
  have hbody := length_le_encodeBody kvs
  rw [decodeFixed64, Nat.add_assoc, read_of_chunk hchunk (by omega), misreadOffset, encodeChunk,
    List.drop_append_of_le_length (by omega),
    List.take_append_of_le_length (by rw [List.length_drop]; omega)]

/-! ## The loop -/

theorem loadPairs_eq (m : Memory) (data : ℕ) {k i a : ℕ} (hi : i + k < 2 ^ 31)
    (ha : a + 8 * k < 2 ^ 64) :
    loadPairs m data k i a = .ok ((List.range k).map fun j => loadPair m data (a + 8 * j)) := by
  induction k generalizing i a with
  | zero => rfl
  | succ k ih =>
    have hnext : u64 (a + 8) = a + 8 := u64_of_lt (by omega)
    have hstep : (fun j => loadPair m data (a + 8 + 8 * j))
        = (fun j => loadPair m data (a + 8 * j)) ∘ Nat.succ := by
      funext j
      rw [Function.comp_apply, show a + 8 * j.succ = a + 8 + 8 * j by omega]
    rw [loadPairs, if_pos (by omega), hnext, ih (by omega) (by omega), hstep,
      List.range_succ_eq_map, List.map_cons, List.map_map]
    rfl

/-- The counter is an `int`: too many pairs are never all decoded. -/
theorem loadPairs_overflow (m : Memory) (data : ℕ) {k i a : ℕ} (hk : 0 < k)
    (hi : 2 ^ 31 ≤ i + k) : loadPairs m data k i a = .error .signedOverflow := by
  induction k generalizing i a with
  | zero => omega
  | succ k ih =>
    rw [loadPairs]
    split
    · rw [ih (by omega) (by omega)]
      rfl
    · rfl

/-! ## One pair -/

/-- What it takes for one turn of the loop to decode the pair `kv` and stay in `[lo, hi)`. -/
structure LoadsPair (m : Memory) (lo hi : ℕ) (kv : Bytes × Bytes)
    (p : (Dat × Dat) × List ℕ) : Prop where
  key : p.1.1.slice m = kv.1
  value : p.1.2.slice m = kv.2
  loads : ∀ a ∈ p.2, lo ≤ a ∧ a + 8 ≤ hi
  keyWithin : p.1.1.Within lo hi
  valueWithin : p.1.2.Within lo hi

/-- An encoding of a pair that starts at offset `w` of the chunk, in memory. -/
theorem prefix_drop_iff (hchunk : read m data (encodeChunk kvs).length = encodeChunk kvs)
    (kv : Bytes × Bytes) (w : ℕ) :
    encodePair kv <+: (encodeChunk kvs).drop w ↔
      w + (encodePair kv).length ≤ (encodeChunk kvs).length ∧
        read m (data + w) (encodePair kv).length = encodePair kv := by
  have hpos := length_encodePair kv
  constructor
  · intro h
    have hle := h.length_le
    rw [List.length_drop] at hle
    have hw : w + (encodePair kv).length ≤ (encodeChunk kvs).length := by omega
    exact ⟨hw, by rw [read_of_chunk hchunk hw]; exact (List.prefix_iff_eq_take.mp h).symm⟩
  · rintro ⟨hw, hread⟩
    rw [List.prefix_iff_eq_take, ← read_of_chunk hchunk hw, hread]

/-- The parts of an encoded pair in memory, each at its place. -/
theorem read_encodePair_iff {a : ℕ} {kv : Bytes × Bytes} :
    read m a (encodePair kv).length = encodePair kv ↔
      read m a 8 = encodeFixed64 kv.1.length ∧ read m (a + 8) kv.1.length = kv.1 ∧
        read m (a + 8 + kv.1.length) 8 = encodeFixed64 kv.2.length ∧
        read m (a + 8 + kv.1.length + 8) kv.2.length = kv.2 := by
  rw [encodePair, read_append_iff, read_append_iff, read_append_iff]
  simp only [length_encodeFixed64]

/-- A word that decodes to `n` is the encoding of `n`. -/
theorem read_eq_encodeFixed64 {a n : ℕ} (h : decodeFixed64 m a = n) :
    read m a 8 = encodeFixed64 n := by
  have henc := encodeLE_decodeLE (read m a 8)
  rw [length_read] at henc
  rw [← h, encodeFixed64, decodeFixed64, henc]

/-- Where the value of a pair stands, when no address wraps. -/
theorem valueAddr_eq {pairAddr keySize : ℕ} (h : pairAddr + 8 + keySize < 2 ^ 64) :
    u64 (pairAddr + u64 (8 + keySize)) = pairAddr + 8 + keySize := by
  rw [u64_of_lt (by omega : 8 + keySize < 2 ^ 64), ← Nat.add_assoc, u64_of_lt h]

/-- One turn of the loop, when no address wraps. -/
theorem loadPair_eq {a w k v : ℕ} (hw : decodeFixed64 m a = w)
    (hk : decodeFixed64 m (data + w) = k) (hv : decodeFixed64 m (data + w + 8 + k) = v)
    (hlt : data + w + 8 + k + 8 < 2 ^ 64) :
    loadPair m data a = ((⟨k, data + w + 8⟩, ⟨v, data + w + 8 + k + 8⟩),
      [a, data + w, data + w + 8 + k]) := by
  have hpairAddr : u64 (data + w) = data + w := u64_of_lt (by omega)
  have hkeyAddr : u64 (data + w + 8) = data + w + 8 := u64_of_lt (by omega)
  have hvalBuf : u64 (data + w + 8 + k + 8) = data + w + 8 + k + 8 := u64_of_lt hlt
  have hvalAddr : u64 (data + w + u64 (8 + k)) = data + w + 8 + k := valueAddr_eq (by omega)
  simp only [loadPair, hw, hpairAddr, hk, hvalAddr, hv, hkeyAddr, hvalBuf]

/-- **One pair.** Its slices are right, and nothing outside the chunk is touched, exactly when
the word taken for its offset is the position of an encoding of it. -/
theorem loadPair_correct_iff (hchunk : read m data (encodeChunk kvs).length = encodeChunk kvs)
    (hlt : data + (encodeChunk kvs).length < 2 ^ 64) {a w : ℕ} (kv : Bytes × Bytes)
    (hlo : data ≤ a) (hhi : a + 8 ≤ data + (encodeChunk kvs).length)
    (hw : decodeFixed64 m a = w) :
    LoadsPair m data (data + (encodeChunk kvs).length) kv (loadPair m data a) ↔
      encodePair kv <+: (encodeChunk kvs).drop w := by
  have hw64 : w < 2 ^ 64 := hw ▸ decodeFixed64_lt m a
  have hpair := length_encodePair kv
  rw [prefix_drop_iff hchunk, read_encodePair_iff]
  constructor
  · rintro ⟨hkey, hvalue, hloads, hkeyIn, hvalueIn⟩
    simp only [loadPair, hw, Dat.slice, Dat.Within, List.mem_cons, List.not_mem_nil, or_false,
      forall_eq_or_imp, forall_eq] at hkey hvalue hloads hkeyIn hvalueIn
    obtain ⟨-, hpairLoad, hvalLoad⟩ := hloads
    -- the address of the pair cannot have wrapped, or it would lie below the chunk
    have hpairAddr : u64 (data + w) = data + w := by
      unfold u64 at hpairLoad ⊢
      omega
    rw [hpairAddr] at hkey hvalue hpairLoad hvalLoad hkeyIn hvalueIn
    have hkeySize : decodeFixed64 m (data + w) = kv.1.length := by
      rw [← hkey, length_read]
    have hkeyAddr : u64 (data + w + 8) = data + w + 8 := u64_of_lt (by omega)
    rw [hkeySize, hkeyAddr] at hkey hkeyIn
    have hvalAddr : u64 (data + w + u64 (8 + kv.1.length)) = data + w + 8 + kv.1.length :=
      valueAddr_eq (by omega)
    rw [hkeySize, hvalAddr] at hvalue hvalLoad hvalueIn
    have hvalSize : decodeFixed64 m (data + w + 8 + kv.1.length) = kv.2.length := by
      rw [← hvalue, length_read]
    have hvalBuf : u64 (data + w + 8 + kv.1.length + 8) = data + w + 8 + kv.1.length + 8 :=
      u64_of_lt (by omega)
    rw [hvalSize, hvalBuf] at hvalue hvalueIn
    exact ⟨by omega, read_eq_encodeFixed64 hkeySize, hkey, read_eq_encodeFixed64 hvalSize, hvalue⟩
  · rintro ⟨hle, hkeySize, hkey, hvalSize, hvalue⟩
    have hk : decodeFixed64 m (data + w) = kv.1.length :=
      decodeFixed64_of_read (by omega) hkeySize
    have hv : decodeFixed64 m (data + w + 8 + kv.1.length) = kv.2.length :=
      decodeFixed64_of_read (by omega) hvalSize
    rw [loadPair_eq hw hk hv (by omega)]
    refine ⟨hkey, hvalue, ?_, ⟨?_, ?_⟩, ⟨?_, ?_⟩⟩
    · intro b hb
      simp only [List.mem_cons, List.not_mem_nil, or_false] at hb
      omega
    all_goals show _ ≤ _; simp only; omega

/-! ## The whole chunk -/

/-- A list computed index by index is the image of a list of that length exactly when it is so
entry by entry. -/
theorem map_range_eq_map_iff {α β : Type*} {l : List α} {f : ℕ → β} {g : α → β} :
    (List.range l.length).map f = l.map g ↔ ∀ i (h : i < l.length), f i = g l[i] := by
  constructor
  · intro h i hi
    have hopt : ((List.range l.length).map f)[i]? = (l.map g)[i]? := by rw [h]
    simpa [hi] using hopt
  · intro h
    refine List.ext_getElem (by simp) fun i hi _ => ?_
    simpa using h i (by simpa using hi)

/-- Where the loop starts: `8 * n` bytes before the offset table. -/
theorem metaOffset_eq (hlt : data + (encodeChunk kvs).length < 2 ^ 64) :
    u64 (data + ((encodeChunk kvs).length - 8) +
        (2 ^ 64 - u64 (sizeofMetaOffset * kvs.length))) =
      data + ((encodeBody kvs).length - 8 * kvs.length) := by
  have hlen := length_encodeChunk kvs
  have hbody := length_le_encodeBody kvs
  rw [sizeofMetaOffset, u64_of_lt (by omega : 16 * kvs.length < 2 ^ 64)]
  rw [u64]
  omega

/-- The constructor on a chunk with few enough pairs. -/
theorem new_eq (hchunk : read m data (encodeChunk kvs).length = encodeChunk kvs)
    (hlt : data + (encodeChunk kvs).length < 2 ^ 64) (hn : kvs.length < 2 ^ 31) (junk : ℕ) :
    ∃ p : ℕ → (Dat × Dat) × List ℕ,
      (∀ i, p i = loadPair m data (data + ((encodeBody kvs).length - 8 * kvs.length) + 8 * i)) ∧
      new m data (encodeChunk kvs).length junk =
        .ok ({ vKey := (List.range kvs.length).map fun i => (p i).1.1,
               vValue := (List.range kvs.length).map fun i => (p i).1.2,
               current := junk },
          (data + ((encodeChunk kvs).length - 8)) ::
            (List.range kvs.length).flatMap fun i => (p i).2) := by
  have hlen := length_encodeChunk kvs
  have hbody := length_le_encodeBody kvs
  refine ⟨fun i => loadPair m data (data + ((encodeBody kvs).length - 8 * kvs.length) + 8 * i),
    fun _ => rfl, ?_⟩
  have hoff : u64 (data + (encodeChunk kvs).length + (2 ^ 64 - 8))
      = data + ((encodeChunk kvs).length - 8) := by
    rw [u64]
    omega
  simp only [new, hoff, decode_nPairs hchunk hlt, metaOffset_eq hlt]
  rw [loadPairs_eq m data (by omega) (by omega)]
  simp only [bind, Except.bind, pure, Except.pure, List.map_map, List.flatMap_map]
  rfl

/-- The constructor on a chunk with too many pairs. -/
theorem new_overflow (hchunk : read m data (encodeChunk kvs).length = encodeChunk kvs)
    (hlt : data + (encodeChunk kvs).length < 2 ^ 64) (hn : 2 ^ 31 ≤ kvs.length) (junk : ℕ) :
    new m data (encodeChunk kvs).length junk = .error .signedOverflow := by
  have hlen := length_encodeChunk kvs
  have hoff : u64 (data + (encodeChunk kvs).length + (2 ^ 64 - 8))
      = data + ((encodeChunk kvs).length - 8) := by
    rw [u64]
    omega
  simp only [new, hoff, decode_nPairs hchunk hlt]
  rw [loadPairs_overflow m data (by omega) (by omega)]
  rfl

/-- **A chunk is decoded right exactly when each of its pairs is.** -/
theorem decodesTo_iff_loadPair (hchunk : read m data (encodeChunk kvs).length = encodeChunk kvs)
    (hlt : data + (encodeChunk kvs).length < 2 ^ 64) (hn : kvs.length < 2 ^ 31) (junk : ℕ) :
    DecodesTo m data (encodeChunk kvs).length junk kvs ↔
      ∀ i (h : i < kvs.length), LoadsPair m data (data + (encodeChunk kvs).length) kvs[i]
        (loadPair m data (data + ((encodeBody kvs).length - 8 * kvs.length) + 8 * i)) := by
  have hlen := length_encodeChunk kvs
  obtain ⟨p, hp, hnew⟩ := new_eq hchunk hlt hn junk
  constructor
  · rintro ⟨it, loads, hok, hkeys, hvalues, hloads, hwithin⟩ i hi
    rw [hnew, Except.ok.injEq, Prod.mk.injEq] at hok
    obtain ⟨rfl, rfl⟩ := hok
    simp only [keys, values, List.map_map, map_range_eq_map_iff] at hkeys hvalues
    have hmem : i ∈ List.range kvs.length := List.mem_range.mpr hi
    rw [← hp]
    refine ⟨hkeys i hi, hvalues i hi, fun a ha => hloads a ?_, hwithin _ ?_, hwithin _ ?_⟩
    · exact List.mem_cons_of_mem _ (List.mem_flatMap.mpr ⟨i, hmem, ha⟩)
    · exact List.mem_append_left _ (List.mem_map.mpr ⟨i, hmem, rfl⟩)
    · exact List.mem_append_right _ (List.mem_map.mpr ⟨i, hmem, rfl⟩)
  · intro h
    simp only [← hp] at h
    refine ⟨_, _, hnew, ?_, ?_, ?_, ?_⟩
    · simp only [keys, List.map_map, map_range_eq_map_iff]
      exact fun i hi => (h i hi).key
    · simp only [values, List.map_map, map_range_eq_map_iff]
      exact fun i hi => (h i hi).value
    · intro a ha
      rcases List.mem_cons.mp ha with rfl | ha
      · omega
      · obtain ⟨i, hi, ha⟩ := List.mem_flatMap.mp ha
        exact (h i (List.mem_range.mp hi)).loads a ha
    · intro d hd
      rcases List.mem_append.mp hd with hd | hd
      · obtain ⟨i, hi, rfl⟩ := List.mem_map.mp hd
        exact (h i (List.mem_range.mp hi)).keyWithin
      · obtain ⟨i, hi, rfl⟩ := List.mem_map.mp hd
        exact (h i (List.mem_range.mp hi)).valueWithin

/-- Below `2 ^ 31` pairs, what matters is where the misread offsets point. -/
theorem decodesTo_iff_misreadOffsetsHit
    (hchunk : read m data (encodeChunk kvs).length = encodeChunk kvs)
    (hlt : data + (encodeChunk kvs).length < 2 ^ 64) (hn : kvs.length < 2 ^ 31) (junk : ℕ) :
    DecodesTo m data (encodeChunk kvs).length junk kvs ↔ MisreadOffsetsHit kvs := by
  have hlen := length_encodeChunk kvs
  have hbody := length_le_encodeBody kvs
  rw [decodesTo_iff_loadPair hchunk hlt hn]
  refine forall_congr' fun i => forall_congr' fun hi => ?_
  exact loadPair_correct_iff hchunk hlt kvs[i] (by omega) (by omega) (decode_metaOffset hchunk hi)

/-- **When decoding undoes encoding.** Exactly when there are fewer than `2 ^ 31` pairs and the
words in front of the offset table happen to be positions of encodings of the pairs. -/
theorem new_decodes_iff {size junk : ℕ} (hchunk : read m data size = encodeChunk kvs)
    (hlt : data + size < 2 ^ 64) :
    DecodesTo m data size junk kvs ↔ kvs.length < 2 ^ 31 ∧ MisreadOffsetsHit kvs := by
  obtain rfl : size = (encodeChunk kvs).length := by rw [← hchunk, length_read]
  by_cases hn : kvs.length < 2 ^ 31
  · rw [decodesTo_iff_misreadOffsetsHit hchunk hlt hn, and_iff_right hn]
  · refine iff_of_false ?_ fun h => hn h.1
    rintro ⟨it, loads, hok, -⟩
    rw [new_overflow hchunk hlt (not_lt.mp hn)] at hok
    cases hok

end Decode

/-- One pair whose value ends in eight zero bytes: the misread offset is `0`, which is right. -/
theorem new_decodes_zeroTail :
    DecodesTo (write (fun _ => 0) 0 (encodeChunk [([7], List.replicate 8 0)])) 0 41 0
        [([7], List.replicate 8 0)] ↔
      [([7], List.replicate 8 0)].length < 2 ^ 31 ∧
        MisreadOffsetsHit [([7], List.replicate 8 0)] :=
  new_decodes_iff (by decide) (by decide)

/-- One pair with one-byte key and value: the misread offset is `2 ^ 57`, far outside. -/
theorem new_misdecodes_onePair :
    let kvs : List (Bytes × Bytes) := [([1], [2])]
    let m := write (fun _ => 0) 0 (encodeChunk kvs)
    read m 0 34 = encodeChunk kvs ∧ ¬ DecodesTo m 0 34 0 kvs := by
  refine ⟨by decide, ?_⟩
  rintro ⟨it, loads, hok, -, -, hloads, -⟩
  have hsnd : (new (write (fun _ => 0) 0 (encodeChunk [([1], [2])])) 0 34 0).map Prod.snd
      = .ok [26, 10, 2 ^ 57, 2 ^ 57 + 8] := by decide
  rw [hok] at hsnd
  obtain rfl : loads = _ := Except.ok.inj hsnd
  exact absurd (hloads (2 ^ 57) (by simp)).2 (by decide)

end PersistentChunkIterator

end RangeCache
