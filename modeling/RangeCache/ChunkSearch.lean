import RangeCache.Lookup

/-!
# Binary search in one chunk

`searchInChunk` for one iterator and every key: which indices it seeks to, and what it returns.
The loop has bounds of type `size_t`, both inclusive, so its empty interval below index `0` cannot
be written: `middle - 1` at `middle = 0` is the largest word, and so is `count() - 1` of a chunk
without pairs. The next index is then `2 ^ 63 - 1`.

## Main definitions

* `seeksInChunk` — the indices the search seeks to
* `SearchExact` — the search ends inside the chunk with the value of the key, or with `NotFound`

## Main results

* `seekLoop_lt_iff` — the search leaves the chunk exactly when it throws
* `searchExact_iff` — the search is exact for the keys that are not below the first one
-/

namespace RangeCache

open ByteMemory ClosedSearch

namespace FixedRangeTab

/-- The indices the loop of `searchInChunk` seeks to, in order. -/
def seekLoop (m : Memory) (icmp : Bytes → Bytes → Ordering) (key : Bytes) :
    (fuel : ℕ) → PersistentChunkIterator → (left right : ℕ) → List ℕ
  | 0, _, _, _ => []
  | fuel + 1, iter, left, right =>
    if left ≤ right then
      let middle := left + (right - left) / 2
      let iter := iter.seekTo middle
      middle :: match iter.key m with
        | .error _ => []
        | .ok mlKey =>
          match icmp mlKey key with
          | .eq => []
          | .lt => seekLoop m icmp key fuel iter (u64 (middle + 1)) right
          | .gt => seekLoop m icmp key fuel iter left (u64 (middle + (2 ^ 64 - 1)))
    else
      []

/-- The indices `searchInChunk` seeks to. -/
def seeksInChunk (m : Memory) (iter : PersistentChunkIterator)
    (icmp : Bytes → Bytes → Ordering) (key : Bytes) : List ℕ :=
  seekLoop m icmp key (iter.count + 2) iter 0 (u64 (iter.count + (2 ^ 64 - 1)))

/-- **The search is exact.** It seeks to pairs of the chunk only; it returns the value of the pair
with the key, of which there is at most one, and `NotFound` when there is none. -/
structure SearchExact (m : Memory) (iter : PersistentChunkIterator)
    (icmp : Bytes → Bytes → Ordering) (kvs : List (Bytes × Bytes)) (key value : Bytes) : Prop where
  seeks : ∀ i ∈ seeksInChunk m iter icmp key, i < kvs.length
  unique : ∀ kv ∈ kvs, ∀ kv' ∈ kvs, icmp kv.1 key = .eq → icmp kv'.1 key = .eq → kv = kv'
  hit : ∀ kv ∈ kvs, icmp kv.1 key = .eq →
    searchInChunk m iter icmp key value = .ok (.ok, kv.2)
  miss : (∀ kv ∈ kvs, icmp kv.1 key ≠ .eq) →
    searchInChunk m iter icmp key value = .ok (.notFound "not found", value)

section Spec

variable {icmp : Bytes → Bytes → Ordering} {m : Memory} {key : Bytes} {kvs : List (Bytes × Bytes)}
  {it : PersistentChunkIterator}

/-- A result that threw. -/
theorem result_eq_outOfRange_iff {value : Bytes} {o : Outcome} :
    result kvs value o = .error .outOfRange ↔ o = .offEnd := by
  cases o <;> simp [result]

/-- **The loop leaves the chunk exactly when it throws.** -/
theorem seekLoop_lt_iff (h : HandsOut m it kvs) (fuel left right : ℕ) (value : Bytes) :
    (∀ i ∈ seekLoop m icmp key fuel it left right, i < kvs.length) ↔
      searchLoop m icmp key fuel it left right value ≠ .error .outOfRange := by
  rw [searchLoop_eq h, Ne, result_eq_outOfRange_iff]
  induction fuel generalizing it left right with
  | zero => simp [seekLoop, search]
  | succ fuel ih =>
    rw [seekLoop, search]
    by_cases hle : left ≤ right
    · rw [if_pos hle, if_pos hle]
      obtain ⟨middle, hmiddle⟩ : ∃ middle, middle = left + (right - left) / 2 := ⟨_, rfl⟩
      simp only [← hmiddle, List.forall_mem_cons]
      by_cases hlt : middle < kvs.length
      · rw [if_pos hlt, h.key_seekTo hlt, probe_of_lt hlt]
        simp only [hlt, true_and]
        cases icmp kvs[middle].1 key with
        | eq => simp
        | lt => exact ih (h.seekTo middle) _ _
        | gt => exact ih (h.seekTo middle) _ _
      · simp [hlt]
    · rw [if_neg hle, if_neg hle]
      simp

/-- The search of a chunk stays inside it exactly when it does not throw. -/
theorem seeksInChunk_lt_iff (h : HandsOut m it kvs) (value : Bytes) :
    (∀ i ∈ seeksInChunk m it icmp key, i < kvs.length) ↔
      searchInChunk m it icmp key value ≠ .error .outOfRange :=
  seekLoop_lt_iff h _ _ _ value

/-- In a chunk without pairs the first index is out of range. -/
theorem searchInChunk_nil (h : HandsOut m it []) (value : Bytes) :
    searchInChunk m it icmp key value = .error .outOfRange := by
  rw [searchInChunk, h.count, searchLoop_eq h]
  rfl

/-- At most one pair of a chunk has the key. -/
theorem Increasing.eq_of_eq [Std.TransCmp icmp] (hinc : Increasing icmp kvs)
    {kv kv' : Bytes × Bytes} (hkv : kv ∈ kvs) (hkv' : kv' ∈ kvs) (heq : icmp kv.1 key = .eq)
    (heq' : icmp kv'.1 key = .eq) : kv = kv' := by
  obtain ⟨i, hi, rfl⟩ := List.mem_iff_getElem.mp hkv
  obtain ⟨j, hj, rfl⟩ := List.mem_iff_getElem.mp hkv'
  have hij : i = j := (sorted_probe key hinc).eq_unique hi hj
    (by rw [probe_of_lt hi, heq]) (by rw [probe_of_lt hj, heq'])
  subst hij
  rfl

/-- The value stored for a key is that of the pair with the key. -/
theorem findInChunk_of_mem [Std.TransCmp icmp] (hinc : Increasing icmp kvs) {kv : Bytes × Bytes}
    (hkv : kv ∈ kvs) (heq : icmp kv.1 key = .eq) : findInChunk icmp key kvs = some kv.2 := by
  obtain ⟨i, hi, rfl⟩ := List.mem_iff_getElem.mp hkv
  exact findInChunk_of_probe hinc hi (by rw [probe_of_lt hi, heq])

/-- A chunk that has a key does not start above it. -/
theorem startsBelow_of_mem [Std.TransCmp icmp] (hinc : Increasing icmp kvs) {kv : Bytes × Bytes}
    (hkv : kv ∈ kvs) (heq : icmp kv.1 key = .eq) : StartsBelow icmp key kvs := by
  obtain ⟨i, hi, rfl⟩ := List.mem_iff_getElem.mp hkv
  refine (startsBelow_iff_probe (List.ne_nil_of_mem hkv)).mpr fun hgt => ?_
  rcases Nat.eq_zero_or_pos i with rfl | hpos
  · rw [probe_of_lt hi, heq] at hgt
    cases hgt
  · have habove := sorted_probe key hinc 0 i hpos hi (by rw [hgt]; decide)
    rw [probe_of_lt hi, heq] at habove
    cases habove

/-- A chunk that has a first pair, not above the key, is searched exactly. -/
theorem searchExact_of_startsBelow [Std.TransCmp icmp] (h : HandsOut m it kvs)
    (hinc : Increasing icmp kvs) (hne : kvs ≠ []) (hstarts : StartsBelow icmp key kvs)
    (value : Bytes) : SearchExact m it icmp kvs key value := by
  have hspec : searchInChunk m it icmp key value = _ := searchInChunk_spec h hne hinc value
  refine ⟨?_, fun kv hkv kv' hkv' => hinc.eq_of_eq hkv hkv', fun kv hkv heq => ?_, fun hmiss => ?_⟩
  · rw [seeksInChunk_lt_iff h value, hspec]
    cases findInChunk icmp key kvs with
    | some v => simp
    | none => simp [hstarts]
  · rw [hspec, findInChunk_of_mem hinc hkv heq]
  · have hnone : findInChunk icmp key kvs = none :=
      findInChunk_eq_none_iff.mpr fun ⟨kv, hkv, heq⟩ => hmiss kv hkv heq
    rw [hspec, hnone]
    exact if_pos hstarts

/-- **When the search is exact**: for the keys that are not below the first key of the chunk. -/
theorem searchExact_iff [Std.TransCmp icmp] (h : HandsOut m it kvs) (hinc : Increasing icmp kvs)
    (key value : Bytes) :
    SearchExact m it icmp kvs key value ↔ ∃ kv ∈ kvs.head?, icmp kv.1 key ≠ .gt := by
  constructor
  · intro hexact
    have hinside := (seeksInChunk_lt_iff h value).mp hexact.seeks
    cases kvs with
    | nil => exact absurd (searchInChunk_nil h value) hinside
    | cons kv rest =>
      refine ⟨kv, rfl, fun hgt => hinside ?_⟩
      have hstarts : ¬ StartsBelow icmp key (kv :: rest) := fun hs => hs kv rfl hgt
      have hnone : findInChunk icmp key (kv :: rest) = none :=
        findInChunk_eq_none_iff.mpr fun ⟨kv', hkv', heq⟩ =>
          hstarts (startsBelow_of_mem hinc hkv' heq)
      rw [searchInChunk_spec h (List.cons_ne_nil _ _) hinc value, hnone]
      exact if_neg hstarts
  · rintro ⟨kv, hkv, hle⟩
    have hne : kvs ≠ [] := by
      rintro rfl
      cases hkv
    refine searchExact_of_startsBelow h hinc hne (fun kv' hkv' => ?_) value
    rw [Option.mem_unique hkv' hkv]
    exact hle

end Spec

/-! ## Small chunks -/

/-- A memory whose bytes are their own addresses. -/
def ownAddress : Memory := fun a => UInt8.ofNat a

/-- An iterator over the keys `[2]`, `[4]` and `[6]`. -/
def threeIter : PersistentChunkIterator :=
  { vKey := [⟨1, 2⟩, ⟨1, 4⟩, ⟨1, 6⟩], vValue := [⟨1, 20⟩, ⟨2, 40⟩, ⟨0, 60⟩], current := 0 }

def threePairs : List (Bytes × Bytes) := [([2], [20]), ([4], [40, 41]), ([6], [])]

theorem handsOut_threeIter : HandsOut ownAddress threeIter threePairs :=
  ⟨rfl, rfl, by decide⟩

theorem increasing_threePairs : Increasing compare threePairs := by
  unfold Increasing
  decide

/-- A key between two of the chunk, and one below all of them. -/
theorem searchExact_iff_small :
    (SearchExact ownAddress threeIter compare threePairs [5] [] ↔
      ∃ kv ∈ threePairs.head?, compare kv.1 [5] ≠ .gt) ∧
    (SearchExact ownAddress threeIter compare threePairs [1] [] ↔
      ∃ kv ∈ threePairs.head?, compare kv.1 [1] ≠ .gt) :=
  ⟨searchExact_iff handsOut_threeIter increasing_threePairs [5] [],
    searchExact_iff handsOut_threeIter increasing_threePairs [1] []⟩

/-- An iterator over one pair in a zeroed memory: the key is one zero byte, the value is empty. -/
def zeroIter : PersistentChunkIterator := { vKey := [⟨1, 0⟩], vValue := [⟨0, 0⟩], current := 0 }

/-- A chunk without pairs, and a key below the only one of a chunk: both searches throw. -/
theorem searchInChunk_leaves_small :
    ¬ SearchExact (fun _ => 0) ⟨[], [], 0⟩ compare [] [7] [] ∧
      ¬ SearchExact (fun _ => 0) zeroIter compare [([0], [])] [] [] := by
  constructor
  · intro h
    have hmiss := h.miss (by simp)
    rw [searchInChunk_nil ⟨rfl, rfl, by decide⟩] at hmiss
    cases hmiss
  · intro h
    have hmiss := h.miss (by decide)
    revert hmiss
    decide

end FixedRangeTab

end RangeCache
