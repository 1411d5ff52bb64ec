import RangeCache.Pmem

/-!
# The chunk iterator

`PersistentChunkIterator` decodes a chunk into two vectors of slices, one for the keys and one
for the values, and is then a cursor over them. The slices are pointers into the pool
(`_Dat_`: a size and a `persistent_ptr`), so reading one needs the memory.

The constructor walks the trailer of the chunk

```
keysize | key | valsize | val | ... | 1st pair offset | 2nd pair offset | ... | num of pairs
```

and returns, next to the iterator, the addresses of the 8-byte words it loaded. `current_` is
not initialised by the constructor; the argument `junk` is the value it happens to hold.

## Main definitions

* `PersistentChunkIterator`, its cursor methods, `PersistentChunkIterator.new`
* `PersistentChunkIterator.DecodesTo` — what decoding a chunk is for
-/

namespace RangeCache

open ByteMemory

/-- `_Dat_`: the size and the address of a byte string in the pool. -/
structure Dat where
  size : ℕ
  buf : ℕ
  deriving DecidableEq, Repr

/-- The bytes a `_Dat_` stands for. -/
def Dat.slice (m : Memory) (d : Dat) : Bytes := read m d.buf d.size

/-- A slice lies in `[lo, hi)`. -/
def Dat.Within (lo hi : ℕ) (d : Dat) : Prop := lo ≤ d.buf ∧ d.buf + d.size ≤ hi

structure PersistentChunkIterator where
  vKey : List Dat
  vValue : List Dat
  current : ℕ
  deriving DecidableEq, Repr

/-- `vector::at`, which throws on an index past the end. -/
def vectorAt {α : Type*} (v : List α) (i : ℕ) : Except Fault α :=
  match v[i]? with
  | some x => .ok x
  | none => .error .outOfRange

theorem vectorAt_of_lt {α : Type*} {v : List α} {i : ℕ} (h : i < v.length) :
    vectorAt v i = .ok v[i] := by
  simp [vectorAt, h]

theorem vectorAt_eq_ok {α : Type*} {v : List α} {i : ℕ} {x : α} :
    vectorAt v i = .ok x ↔ v[i]? = some x := by
  rw [vectorAt]
  cases v[i]? with
  | none => simp
  | some y => simp

theorem vectorAt_of_le {α : Type*} {v : List α} {i : ℕ} (h : v.length ≤ i) :
    vectorAt v i = .error .outOfRange := by
  simp [vectorAt, h]

namespace PersistentChunkIterator

/-! ## The cursor -/

def key (it : PersistentChunkIterator) (m : Memory) : Except Fault Bytes := do
  let dat ← vectorAt it.vKey it.current
  return dat.slice m

def value (it : PersistentChunkIterator) (m : Memory) : Except Fault Bytes := do
  let dat ← vectorAt it.vValue it.current
  return dat.slice m

def seekToFirst (it : PersistentChunkIterator) : PersistentChunkIterator :=
  { it with current := 0 }

/-- `current_ = vKey_.size() - 1`, which wraps on an empty chunk. -/
def seekToLast (it : PersistentChunkIterator) : PersistentChunkIterator :=
  { it with current := u64 (it.vKey.length + (2 ^ 64 - 1)) }

def seekTo (it : PersistentChunkIterator) (idx : ℕ) : PersistentChunkIterator :=
  { it with current := idx }

def count (it : PersistentChunkIterator) : ℕ := it.vKey.length

def valid (it : PersistentChunkIterator) : Bool := it.current < it.vKey.length

def next (it : PersistentChunkIterator) : PersistentChunkIterator :=
  { it with current := u64 (it.current + 1) }

def prev (it : PersistentChunkIterator) : PersistentChunkIterator :=
  { it with current := u64 (it.current + (2 ^ 64 - 1)) }

/-! ## The constructor -/

/-- `sizeof(metaOffset)`: a `persistent_ptr` is a 16-byte `PMEMoid`. -/
def sizeofMetaOffset : ℕ := 16

/-- One turn of the loop: the key and value slices of the pair whose offset is stored at
`metaOffset`, and the addresses of the words loaded to find them. -/
def loadPair (m : Memory) (data metaOffset : ℕ) : (Dat × Dat) × List ℕ :=
  let pairOffset := decodeFixed64 m metaOffset
  let pairAddr := u64 (data + pairOffset)
  let keySize := decodeFixed64 m pairAddr
  let valAddr := u64 (pairAddr + u64 (8 + keySize))
  let valSize := decodeFixed64 m valAddr
  ((⟨keySize, u64 (pairAddr + 8)⟩, ⟨valSize, u64 (valAddr + 8)⟩), [metaOffset, pairAddr, valAddr])

/-- `for (int i = 0; i < nPairs; ++i)`, with `remaining = nPairs - i`. The counter is an `int`,
so the increment past `2 ^ 31 - 1` is undefined. -/
def loadPairs (m : Memory) (data : ℕ) :
    (remaining i metaOffset : ℕ) → Except Fault (List ((Dat × Dat) × List ℕ))
  | 0, _, _ => .ok []
  | remaining + 1, i, metaOffset =>
    if i + 1 < 2 ^ 31 then do
      let rest ← loadPairs m data remaining (i + 1) (u64 (metaOffset + 8))
      return loadPair m data metaOffset :: rest
    else
      .error .signedOverflow

/-- The constructor: the iterator, and the addresses of the words it loaded. -/
def new (m : Memory) (data size junk : ℕ) : Except Fault (PersistentChunkIterator × List ℕ) := do
  let nPairsOffset := u64 (data + size + (2 ^ 64 - 8))
  let nPairs := decodeFixed64 m nPairsOffset
  let metaOffset := u64 (nPairsOffset + (2 ^ 64 - u64 (sizeofMetaOffset * nPairs)))
  let pairs ← loadPairs m data nPairs 0 metaOffset
  return ({ vKey := pairs.map (·.1.1), vValue := pairs.map (·.1.2), current := junk },
    nPairsOffset :: pairs.flatMap (·.2))

/-! ## The documented format -/

/-- `keysize | key | valsize | val`. -/
def encodePair (kv : Bytes × Bytes) : Bytes :=
  encodeFixed64 kv.1.length ++ (kv.1 ++ (encodeFixed64 kv.2.length ++ kv.2))

/-- The pairs, one after the other. -/
def encodeBody (kvs : List (Bytes × Bytes)) : Bytes := kvs.flatMap encodePair

/-- Where each pair starts, the first one at `o`. -/
def pairOffsets (o : ℕ) : List (Bytes × Bytes) → List ℕ
  | [] => []
  | kv :: kvs => o :: pairOffsets (o + (encodePair kv).length) kvs

/-- A whole chunk: the pairs, their offsets, and their number. -/
def encodeChunk (kvs : List (Bytes × Bytes)) : Bytes :=
  encodeBody kvs ++ ((pairOffsets 0 kvs).flatMap encodeFixed64 ++ encodeFixed64 kvs.length)

/-- The keys and the values an iterator hands out, in order. -/
def keys (it : PersistentChunkIterator) (m : Memory) : List Bytes := it.vKey.map (Dat.slice m)

def values (it : PersistentChunkIterator) (m : Memory) : List Bytes := it.vValue.map (Dat.slice m)

/-- Constructing the iterator over `[data, data + size)` yields the pairs `kvs`, and no byte
outside of it is loaded or handed out. -/
def DecodesTo (m : Memory) (data size junk : ℕ) (kvs : List (Bytes × Bytes)) : Prop :=
  ∃ it loads, new m data size junk = .ok (it, loads) ∧
    it.keys m = kvs.map Prod.fst ∧ it.values m = kvs.map Prod.snd ∧
    (∀ a ∈ loads, data ≤ a ∧ a + 8 ≤ data + size) ∧
    (∀ d ∈ it.vKey ++ it.vValue, Dat.Within data (data + size) d)

end PersistentChunkIterator

end RangeCache
