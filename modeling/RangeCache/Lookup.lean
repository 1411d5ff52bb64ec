import Mathlib.Data.List.Induction
import RangeCache.ChunkDecoding
import RangeCache.RangeLog
import RangeCache.Lib.ClosedSearch

/-!
# Point lookup

What a tab is for, to a reader: a stack of sorted chunks in which the newest chunk with a key
decides. `lookup` is that, over lists; `scan` is what the code does, over the same lists. The
two differ on every miss. `searchInChunk` closes its interval at `middle - 1`, which wraps below
index `0`, so a key below a chunk's first key leaves the chunk; and the loop of `Get` counts an
unsigned index down with the test `i >= 0`, so it leaves the index when every chunk has missed.

## Main definitions

* `SortedChunk` — an `Append` of a nonempty chunk with strictly increasing keys
* `lookup` — the newest chunk with the key decides
* `scan` — the chunks newest first, with the two ways to fall off an end
* `Reaches` — the scan reaches a chunk with the key
* `Decodes` — the constructor of the iterator over a chunk decodes every appended one
* `GetCorrect` — `Get` returns what `lookup` says

## Main results

* `searchLoop_eq` — the loop of `searchInChunk` is `ClosedSearch.search`
* `get_eq_scan` — `Get` on an appended tab is `scan`
* `getCorrect_iff` — `Get` is right exactly if the scan reaches a chunk with the key, and either the
  filters are as long as those appended or the value is that of the newest chunk with the key
-/

namespace RangeCache

open ByteMemory RecordLog ClosedSearch FallibleRun

namespace FixedRangeTab

/-! ## One chunk -/

section Chunk

variable {icmp : Bytes → Bytes → Ordering} {m : Memory} {key : Bytes} {kvs : List (Bytes × Bytes)}

/-- The chunk has the key. -/
def Contains (icmp : Bytes → Bytes → Ordering) (key : Bytes) (kvs : List (Bytes × Bytes)) : Prop :=
  ∃ kv ∈ kvs, icmp kv.1 key = .eq

/-- The chunk does not start above the key. -/
def StartsBelow (icmp : Bytes → Bytes → Ordering) (key : Bytes) (kvs : List (Bytes × Bytes)) :
    Prop :=
  ∀ kv ∈ kvs.head?, icmp kv.1 key ≠ .gt

instance (icmp : Bytes → Bytes → Ordering) (key : Bytes) (kvs : List (Bytes × Bytes)) :
    Decidable (StartsBelow icmp key kvs) :=
  inferInstanceAs (Decidable (∀ kv ∈ kvs.head?, _))

/-- The value a chunk stores for a key. -/
def findInChunk (icmp : Bytes → Bytes → Ordering) (key : Bytes) (kvs : List (Bytes × Bytes)) :
    Option Bytes :=
  (kvs.find? fun kv => icmp kv.1 key == .eq).map Prod.snd

/-- The keys of a chunk are strictly increasing. -/
def Increasing (icmp : Bytes → Bytes → Ordering) (kvs : List (Bytes × Bytes)) : Prop :=
  kvs.Pairwise fun a b => icmp a.1 b.1 = .lt

theorem findInChunk_eq_none_iff : findInChunk icmp key kvs = none ↔ ¬ Contains icmp key kvs := by
  simp [findInChunk, Contains]

/-- The comparisons a search of the chunk makes. -/
def probe (icmp : Bytes → Bytes → Ordering) (key : Bytes) (kvs : List (Bytes × Bytes)) (i : ℕ) :
    Ordering :=
  (kvs[i]?.map fun kv => icmp kv.1 key).getD .gt

theorem probe_of_lt {i : ℕ} (h : i < kvs.length) : probe icmp key kvs i = icmp kvs[i].1 key := by
  simp [probe, h]

/-- Increasing keys compare with any key as a sorted array does. -/
theorem sorted_probe [Std.TransCmp icmp] (key : Bytes) (h : Increasing icmp kvs) :
    Sorted kvs.length (probe icmp key kvs) := by
  intro i j hij hj hi
  rw [probe_of_lt (by omega)] at hi
  rw [probe_of_lt hj]
  have hlt : icmp kvs[i].1 kvs[j].1 = .lt := List.pairwise_iff_getElem.mp h i j (by omega) hj hij
  refine Std.TransCmp.gt_of_gt_of_isGE (Std.OrientedCmp.gt_of_lt hlt) ?_
  cases hp : icmp kvs[i].1 key
  · exact absurd hp hi
  · rfl
  · rfl

/-- The iterator hands out the pairs `kvs`. -/
structure HandsOut (m : Memory) (it : PersistentChunkIterator) (kvs : List (Bytes × Bytes)) :
    Prop where
  keys : it.keys m = kvs.map Prod.fst
  values : it.values m = kvs.map Prod.snd
  /-- A `vector` has fewer than `2 ^ 63` elements. -/
  length_lt : kvs.length < 2 ^ 63

theorem HandsOut.count {it : PersistentChunkIterator} (h : HandsOut m it kvs) :
    it.count = kvs.length := by
  have := congrArg List.length h.keys
  simpa [PersistentChunkIterator.keys, PersistentChunkIterator.count] using this

/-- `SeekTo` moves the cursor only. -/
theorem HandsOut.seekTo {it : PersistentChunkIterator} (h : HandsOut m it kvs) (i : ℕ) :
    HandsOut m (it.seekTo i) kvs :=
  ⟨h.keys, h.values, h.length_lt⟩

/-- An element of a decoded vector is the slice in its place. -/
theorem vectorAt_slice {v : List Dat} {xs : List Bytes} (h : v.map (Dat.slice m) = xs) {i : ℕ}
    (hi : i < xs.length) : (vectorAt v i >>= fun dat => pure (dat.slice m)) = .ok xs[i] := by
  subst h
  rw [vectorAt_of_lt (by simpa using hi), List.getElem_map]
  rfl

theorem HandsOut.key_seekTo {it : PersistentChunkIterator} (h : HandsOut m it kvs) {i : ℕ}
    (hi : i < kvs.length) : (it.seekTo i).key m = .ok kvs[i].1 := by
  have hkey := vectorAt_slice h.keys (i := i) (by simpa using hi)
  rw [List.getElem_map] at hkey
  exact hkey

theorem HandsOut.value_seekTo {it : PersistentChunkIterator} (h : HandsOut m it kvs) {i : ℕ}
    (hi : i < kvs.length) : (it.seekTo i).value m = .ok kvs[i].2 := by
  have hvalue := vectorAt_slice h.values (i := i) (by simpa using hi)
  rw [List.getElem_map] at hvalue
  exact hvalue

theorem HandsOut.key_seekTo_of_le {it : PersistentChunkIterator} (h : HandsOut m it kvs) {i : ℕ}
    (hi : kvs.length ≤ i) : (it.seekTo i).key m = .error .outOfRange := by
  have hcount : it.vKey.length = kvs.length := h.count
  have hat : vectorAt it.vKey i = .error .outOfRange := vectorAt_of_le (by omega)
  simp only [PersistentChunkIterator.key, PersistentChunkIterator.seekTo, hat, bind, Except.bind]

/-- What `searchInChunk` returns for each end of the search. -/
def result (kvs : List (Bytes × Bytes)) (value : Bytes) : Outcome → Except Fault (Status × Bytes)
  | .found i => .ok (.ok, (kvs[i]?.map Prod.snd).getD [])
  | .absent => .ok (.notFound "not found", value)
  | .offEnd => .error .outOfRange
  | .running => .error .diverges

/-- **The loop of `searchInChunk` is the closed search.** -/
theorem searchLoop_eq {it : PersistentChunkIterator} (h : HandsOut m it kvs)
    (fuel left right : ℕ) (value : Bytes) :
    searchLoop m icmp key fuel it left right value =
      result kvs value (search (2 ^ 64) kvs.length (probe icmp key kvs) fuel left right) := by
  induction fuel generalizing it left right with
  | zero => rfl
  | succ fuel ih =>
    rw [searchLoop, search]
    by_cases hle : left ≤ right
    · rw [if_pos hle, if_pos hle]
      obtain ⟨middle, hmiddle⟩ : ∃ middle, middle = left + (right - left) / 2 := ⟨_, rfl⟩
      simp only [← hmiddle]
      by_cases hlt : middle < kvs.length
      · rw [if_pos hlt, h.key_seekTo hlt, probe_of_lt hlt]
        simp only [bind, Except.bind]
        cases icmp kvs[middle].1 key with
        | eq => simp [h.value_seekTo hlt, result, hlt, pure, Except.pure]
        | lt => exact ih (h.seekTo middle) _ _
        | gt => exact ih (h.seekTo middle) _ _
      · rw [if_neg hlt, h.key_seekTo_of_le (not_lt.mp hlt)]
        rfl
    · rw [if_neg hle, if_neg hle]
      rfl

theorem searchInChunk_eq {it : PersistentChunkIterator} (h : HandsOut m it kvs) (hne : kvs ≠ [])
    (value : Bytes) :
    searchInChunk m it icmp key value =
      result kvs value (search (2 ^ 64) kvs.length (probe icmp key kvs) (kvs.length + 2) 0
        (kvs.length - 1)) := by
  have hpos : 0 < kvs.length := List.length_pos_of_ne_nil hne
  have hlt := h.length_lt
  rw [searchInChunk, h.count, u64_pred hpos (by omega)]
  exact searchLoop_eq h _ _ _ _

theorem exists_probe_eq_iff :
    (∃ i < kvs.length, probe icmp key kvs i = .eq) ↔ Contains icmp key kvs := by
  constructor
  · rintro ⟨i, hi, hp⟩
    exact ⟨kvs[i], List.getElem_mem hi, (probe_of_lt hi).symm.trans hp⟩
  · rintro ⟨kv, hkv, heq⟩
    obtain ⟨i, hi, rfl⟩ := List.mem_iff_getElem.mp hkv
    exact ⟨i, hi, by rw [probe_of_lt hi, heq]⟩

theorem startsBelow_iff_probe (hne : kvs ≠ []) :
    StartsBelow icmp key kvs ↔ probe icmp key kvs 0 ≠ .gt := by
  obtain ⟨kv, rest, rfl⟩ := List.exists_cons_of_ne_nil hne
  simp [StartsBelow, probe]

/-- The value found is the one at the index where the comparison is equal. -/
theorem findInChunk_of_probe [Std.TransCmp icmp] (hinc : Increasing icmp kvs) {i : ℕ}
    (hi : i < kvs.length) (hp : probe icmp key kvs i = .eq) :
    findInChunk icmp key kvs = some kvs[i].2 := by
  have hsorted := sorted_probe key hinc
  have hfind : kvs.find? (fun kv => icmp kv.1 key == .eq) = some kvs[i] := by
    refine List.find?_eq_some_iff_getElem.mpr ⟨?_, i, hi, rfl, fun j hj => ?_⟩
    · rw [(probe_of_lt hi).symm.trans hp]
      rfl
    · have hlow := hsorted.lt_of_lt hj hi (by rw [hp]; decide)
      rw [(probe_of_lt (by omega)).symm.trans hlow]
      rfl
  rw [findInChunk, hfind]
  rfl

/-- **One chunk searched.** A key of the chunk is found; another one is not found, unless the
chunk starts above it, and then the search leaves the chunk. -/
theorem searchInChunk_spec [Std.TransCmp icmp] {it : PersistentChunkIterator}
    (h : HandsOut m it kvs) (hne : kvs ≠ []) (hinc : Increasing icmp kvs) (value : Bytes) :
    searchInChunk m it icmp key value =
      match findInChunk icmp key kvs with
      | some v => .ok (.ok, v)
      | none =>
        if StartsBelow icmp key kvs then .ok (.notFound "not found", value)
        else .error .outOfRange := by
  have hlt := h.length_lt
  have hends := fun o => search_all_eq_iff (W := 2 ^ 64) (o := o) (sorted_probe key hinc)
    (by omega) (List.length_pos_of_ne_nil hne)
  rw [searchInChunk_eq h hne]
  by_cases hcontains : Contains icmp key kvs
  · obtain ⟨i, hi, hp⟩ := exists_probe_eq_iff.mpr hcontains
    rw [(hends (.found i)).mpr ⟨hi, hp⟩, findInChunk_of_probe hinc hi hp]
    simp [result, hi]
  · rw [findInChunk_eq_none_iff.mpr hcontains]
    have hmiss : ∀ i < kvs.length, probe icmp key kvs i ≠ .eq :=
      fun i hi hp => hcontains (exists_probe_eq_iff.mp ⟨i, hi, hp⟩)
    by_cases hstarts : StartsBelow icmp key kvs
    · have hlow : probe icmp key kvs 0 = .lt := by
        have hgt := (startsBelow_iff_probe hne).mp hstarts
        have heq := hmiss 0 (List.length_pos_of_ne_nil hne)
        cases hp : probe icmp key kvs 0
        · rfl
        · exact absurd hp heq
        · exact absurd hp hgt
      simp only
      rw [(hends .absent).mpr ⟨hlow, hmiss⟩, if_pos hstarts]
      rfl
    · have hhigh : probe icmp key kvs 0 = .gt := by
        by_contra hgt
        exact hstarts ((startsBelow_iff_probe hne).mpr hgt)
      simp only
      rw [(hends .offEnd).mpr hhigh, if_neg hstarts]
      rfl

end Chunk

/-! ## All chunks -/

/-- **What a tab is for.** The newest chunk that has the key decides; `chunks` is oldest first. -/
def lookup (icmp : Bytes → Bytes → Ordering) (key : Bytes)
    (chunks : List (List (Bytes × Bytes))) : Option Bytes :=
  chunks.reverse.findSome? (findInChunk icmp key)

/-- The chunks newest first, each with whether the filter lets the key through. A chunk that
starts above the key throws, and so does the index below the oldest chunk. -/
def scan (icmp : Bytes → Bytes → Ordering) (key value : Bytes) :
    List (Bool × List (Bytes × Bytes)) → Except Fault (Status × Bytes)
  | [] => .error .outOfRange
  | (false, _) :: older => scan icmp key value older
  | (true, kvs) :: older =>
    match findInChunk icmp key kvs with
    | some v => .ok (.ok, v)
    | none =>
      if StartsBelow icmp key kvs then scan icmp key value older else .error .outOfRange

/-- A result of a lookup is the right one. -/
def Answers (r : Except Fault (Status × Bytes)) : Option Bytes → Prop
  | some v => r = .ok (.ok, v)
  | none => ∃ msg out, r = .ok (.notFound msg, out)

/-- Some chunk has the key, and of the newer ones none that the filter lets through starts above
it. Chunks are newest first. -/
def HitBeforeMiss (icmp : Bytes → Bytes → Ordering) (key : Bytes)
    (chunks : List (Bool × List (Bytes × Bytes))) : Prop :=
  ∃ newer c older, chunks = newer ++ c :: older ∧ Contains icmp key c.2 ∧
    ∀ c' ∈ newer, c'.1 = true → StartsBelow icmp key c'.2

/-- The scan reaches a chunk that it finds the key in, with the value `v`: the filter lets the key
through, and of the newer chunks that it lets the key through none has the key or starts above
it. -/
def Reaches (icmp : Bytes → Bytes → Ordering) (key : Bytes)
    (chunks : List (Bool × List (Bytes × Bytes))) (v : Bytes) : Prop :=
  ∃ newer c older, chunks = newer ++ c :: older ∧
    (c.1 = true ∧ findInChunk icmp key c.2 = some v) ∧
    ∀ c' ∈ newer, c'.1 = true → ¬ Contains icmp key c'.2 ∧ StartsBelow icmp key c'.2

section Scan

variable {icmp : Bytes → Bytes → Ordering} {key : Bytes}

theorem not_exists_first_nil {α : Type} {R S : α → Prop} :
    ¬ ∃ newer c older, ([] : List α) = newer ++ c :: older ∧ R c ∧ ∀ c' ∈ newer, S c' := by
  rintro ⟨newer, c, older, h, -⟩
  simp at h

/-- Some element has `R`, and those in front of it have `S`. -/
theorem exists_first_cons_iff {α : Type} {R S : α → Prop} {a : α} {as : List α} :
    (∃ newer c older, a :: as = newer ++ c :: older ∧ R c ∧ ∀ c' ∈ newer, S c') ↔
      R a ∨ S a ∧ ∃ newer c older, as = newer ++ c :: older ∧ R c ∧ ∀ c' ∈ newer, S c' := by
  constructor
  · rintro ⟨newer, c, older, heq, hc, hnewer⟩
    cases newer with
    | nil =>
      cases heq
      exact .inl hc
    | cons a' newer =>
      cases heq
      obtain ⟨ha, hnewer⟩ := List.forall_mem_cons.mp hnewer
      exact .inr ⟨ha, newer, c, older, rfl, hc, hnewer⟩
  · rintro (ha | ⟨ha, newer, c, older, rfl, hc, hnewer⟩)
    · exact ⟨[], a, as, rfl, ha, nofun⟩
    · exact ⟨a :: newer, c, older, rfl, hc, List.forall_mem_cons.mpr ⟨ha, hnewer⟩⟩

theorem reaches_cons_iff {c : Bool × List (Bytes × Bytes)}
    {older : List (Bool × List (Bytes × Bytes))} {v : Bytes} :
    Reaches icmp key (c :: older) v ↔
      (c.1 = true ∧ findInChunk icmp key c.2 = some v) ∨
        (c.1 = true → ¬ Contains icmp key c.2 ∧ StartsBelow icmp key c.2) ∧
          Reaches icmp key older v :=
  exists_first_cons_iff

/-- **What the scan finds**, whatever the filters are. -/
theorem scan_eq_ok_iff {value v : Bytes} {chunks : List (Bool × List (Bytes × Bytes))} :
    scan icmp key value chunks = .ok (.ok, v) ↔ Reaches icmp key chunks v := by
  induction chunks with
  | nil => exact iff_of_false nofun not_exists_first_nil
  | cons c older ih =>
    obtain ⟨matched, kvs⟩ := c
    rw [reaches_cons_iff]
    cases matched with
    | false =>
      rw [scan, ih]
      simp
    | true =>
      by_cases hcontains : Contains icmp key kvs
      · obtain ⟨w, hw⟩ := Option.ne_none_iff_exists'.mp
          fun hnone => findInChunk_eq_none_iff.mp hnone hcontains
        simp [scan, hw, hcontains]
      · have hnone := findInChunk_eq_none_iff.mpr hcontains
        by_cases hstarts : StartsBelow icmp key kvs
        · simpa [scan, hnone, hcontains, hstarts] using ih
        · simp [scan, hnone, hstarts]

/-- The scan never says that it has not found the key. -/
theorem scan_ne_notFound {value out : Bytes} {msg : String}
    {chunks : List (Bool × List (Bytes × Bytes))} :
    scan icmp key value chunks ≠ .ok (.notFound msg, out) := by
  induction chunks with
  | nil => nofun
  | cons c older ih =>
    obtain ⟨matched, kvs⟩ := c
    cases matched with
    | false => exact ih
    | true =>
      rw [scan]
      split
      · nofun
      · split
        · exact ih
        · nofun

/-- The scan is right if what it reaches is what the newest chunk with the key has. -/
theorem answers_scan_iff_reaches {value : Bytes} {chunks : List (Bool × List (Bytes × Bytes))}
    {wanted : Option Bytes} :
    Answers (scan icmp key value chunks) wanted ↔
      ∃ v, Reaches icmp key chunks v ∧ wanted = some v := by
  cases wanted with
  | none => exact iff_of_false (fun ⟨_, _, h⟩ => scan_ne_notFound h) fun ⟨_, _, h⟩ => nomatch h
  | some v =>
    rw [Answers, scan_eq_ok_iff]
    exact ⟨fun h => ⟨v, h, rfl⟩, fun ⟨w, h, hw⟩ => Option.some.inj hw ▸ h⟩

/-- What is reached is a hit before a miss. -/
theorem Reaches.hitBeforeMiss {v : Bytes} {chunks : List (Bool × List (Bytes × Bytes))}
    (h : Reaches icmp key chunks v) : HitBeforeMiss icmp key chunks := by
  obtain ⟨newer, c, older, rfl, ⟨-, hv⟩, hnewer⟩ := h
  refine ⟨newer, c, older, rfl, ?_, fun c' hc' hm => (hnewer c' hc' hm).2⟩
  by_contra hnot
  rw [findInChunk_eq_none_iff.mpr hnot] at hv
  cases hv

theorem not_hitBeforeMiss_nil : ¬ HitBeforeMiss icmp key [] := not_exists_first_nil

theorem hitBeforeMiss_of_contains {c : Bool × List (Bytes × Bytes)}
    {older : List (Bool × List (Bytes × Bytes))} (h : Contains icmp key c.2) :
    HitBeforeMiss icmp key (c :: older) :=
  exists_first_cons_iff.mpr (.inl h)

theorem hitBeforeMiss_cons_iff {c : Bool × List (Bytes × Bytes)}
    {older : List (Bool × List (Bytes × Bytes))} (h : ¬ Contains icmp key c.2) :
    HitBeforeMiss icmp key (c :: older) ↔
      (c.1 = true → StartsBelow icmp key c.2) ∧ HitBeforeMiss icmp key older :=
  exists_first_cons_iff.trans (or_iff_right h)

/-- **When the scan is right.** The filter lets through every key a chunk has. -/
theorem answers_scan_iff {value : Bytes} {chunks : List (Bool × List (Bytes × Bytes))}
    (hfilter : ∀ c ∈ chunks, Contains icmp key c.2 → c.1 = true) :
    Answers (scan icmp key value chunks)
        ((chunks.map Prod.snd).findSome? (findInChunk icmp key)) ↔
      HitBeforeMiss icmp key chunks := by
  induction chunks with
  | nil => simp [Answers, scan, not_hitBeforeMiss_nil]
  | cons c older ih =>
    have ih := ih fun c' hc' => hfilter c' (List.mem_cons_of_mem _ hc')
    obtain ⟨matched, kvs⟩ := c
    rw [List.map_cons, List.findSome?_cons]
    by_cases hcontains : Contains icmp key kvs
    · have hsome : findInChunk icmp key kvs ≠ none :=
        fun hnone => findInChunk_eq_none_iff.mp hnone hcontains
      obtain ⟨v, hv⟩ := Option.ne_none_iff_exists'.mp hsome
      obtain rfl : matched = true := hfilter _ (List.mem_cons_self ..) hcontains
      simp only [scan, hv, Answers, true_iff]
      exact hitBeforeMiss_of_contains hcontains
    · rw [hitBeforeMiss_cons_iff hcontains]
      cases matched with
      | false => simpa [scan, findInChunk_eq_none_iff.mpr hcontains] using ih
      | true =>
        simp only [scan, findInChunk_eq_none_iff.mpr hcontains]
        by_cases hstarts : StartsBelow icmp key kvs
        · simpa [hstarts] using ih
        · simp only [true_implies, hstarts, false_and, iff_false]
          cases (older.map Prod.snd).findSome? (findInChunk icmp key) <;> simp [Answers]

end Scan

/-! ## Lookup in a tab -/

/-- The iterator over the bytes of a chunk, wherever they lie, hands out the pairs. -/
def Decodes (newIter : Memory → ℕ → ℕ → Except Fault PersistentChunkIterator) (chunkData : Bytes)
    (kvs : List (Bytes × Bytes)) : Prop :=
  ∀ m data, data + chunkData.length < 2 ^ 64 → read m data chunkData.length = chunkData →
    ∃ it, newIter m data chunkData.length = .ok it ∧ HandsOut m it kvs

/-- The constructor of the source, over a chunk that it does not misread. -/
theorem decodes_encodeChunk {kvs : List (Bytes × Bytes)} (hn : kvs.length < 2 ^ 31)
    (hhit : PersistentChunkIterator.MisreadOffsetsHit kvs) :
    Decodes (constructIter 0) (PersistentChunkIterator.encodeChunk kvs) kvs := by
  intro m data hlt hread
  obtain ⟨it, loads, hnew, hkeys, hvalues, -⟩ :=
    (PersistentChunkIterator.decodesTo_iff_misreadOffsetsHit hread hlt hn 0).mpr hhit
  refine ⟨it, ?_, hkeys, hvalues, by omega⟩
  rw [constructIter, hnew]
  rfl

/-- An `Append` of a chunk that is not empty and whose keys are strictly increasing. -/
structure SortedChunk (icmp : Bytes → Bytes → Ordering) where
  args : AppendArgs
  /-- The pairs the chunk encodes. -/
  pairs : List (Bytes × Bytes)
  pairs_ne_nil : pairs ≠ []
  increasing : Increasing icmp pairs

section Tab

variable {A : Allocator} {icmp : Bytes → Bytes → Ordering} {opts : FixedRangeBasedOptions}
  {newIter : Memory → ℕ → ℕ → Except Fault PersistentChunkIterator} {s₀ s : RangeState}
  {cs : List (SortedChunk icmp)}

/-- Wherever in the buffer the bytes of an appended chunk lie, the iterator over them hands out
the pairs that were appended. -/
def DecodesAppended (newIter : Memory → ℕ → ℕ → Except Fault PersistentChunkIterator)
    (s : RangeState) (cs : List (SortedChunk icmp)) : Prop :=
  ∀ c ∈ cs, ∀ data, s.nv.buf ≤ data →
    data + c.args.chunkData.length ≤ s.nv.buf + s.nv.bufSize →
    read s.pool.mem data c.args.chunkData.length = c.args.chunkData →
    ∃ it, newIter s.pool.mem data c.args.chunkData.length = .ok it ∧
      HandsOut s.pool.mem it c.pairs

/-- It does if it does wherever in the memory they lie. -/
theorem decodesAppended_of_decodes (hend : s.nv.buf + s.nv.bufSize < 2 ^ 64)
    (h : ∀ c ∈ cs, Decodes newIter c.args.chunkData c.pairs) : DecodesAppended newIter s cs :=
  fun c hc data _ hle hread => h c hc s.pool.mem data (lt_of_le_of_lt hle hend) hread

/-- A block and the pairs of its chunk, as the scan sees them: does the filter let the key
through? -/
def asked (opts : FixedRangeBasedOptions) (s : RangeState) (key : Bytes)
    (e : ChunkBlk × SortedChunk icmp) : Bool × List (Bytes × Bytes) :=
  (opts.keyMayMatch key (bloomSlice opts s e.1), e.2.pairs)

/-- The filters that were appended have no false negatives: a key of a chunk passes its filter. -/
def NoFalseNegatives (opts : FixedRangeBasedOptions) (cs : List (SortedChunk icmp)) : Prop :=
  ∀ c ∈ cs, ∀ key, Contains icmp key c.pairs → opts.keyMayMatch key c.args.bloomData = true

/-- The iterator over a listed block hands out the pairs of its chunk. -/
def IteratesOver (newIter : Memory → ℕ → ℕ → Except Fault PersistentChunkIterator)
    (s : RangeState) (e : ChunkBlk × SortedChunk icmp) : Prop :=
  ∃ it, newIter s.pool.mem (s.nv.buf + e.1.getDatOffset) e.1.chunkLen = .ok it ∧
    HandsOut s.pool.mem it e.2.pairs

/-- One turn of the loop of `Get`. -/
theorem getLoop_succ [Std.TransCmp icmp] {e : ChunkBlk × SortedChunk icmp} {i : ℕ}
    (hat : vectorAt s.tab.blklist i = .ok e.1) (hiter : IteratesOver newIter s e) (key : Bytes)
    (fuel : ℕ) (value : Bytes) {older : List (Bool × List (Bytes × Bytes))}
    (ih : getLoop opts newIter s icmp key fuel (u64 (i + (2 ^ 64 - 1))) value =
      scan icmp key value older) :
    getLoop opts newIter s icmp key (fuel + 1) i value =
      scan icmp key value (asked opts s key e :: older) := by
  obtain ⟨it, hit, hands⟩ := hiter
  rw [getLoop, hat]
  generalize u64 (i + (2 ^ 64 - 1)) = next at ih ⊢
  rw [ok_bind, hit, ok_bind, searchInChunk_spec hands e.2.pairs_ne_nil e.2.increasing, asked]
  cases opts.keyMayMatch key (bloomSlice opts s e.1) with
  | false => exact ih
  | true =>
    rw [scan, if_pos rfl]
    cases findInChunk icmp key e.2.pairs with
    | some v => rfl
    | none =>
      by_cases hstarts : StartsBelow icmp key e.2.pairs
      · simp only [if_pos hstarts, ok_bind]
        rw [if_neg (by decide)]
        exact ih
      · simp only [if_neg hstarts]
        rfl

/-- The loop of `Get` over the blocks below an index is the scan of their chunks. -/
theorem getLoop_eq_scan [Std.TransCmp icmp] {es : List (ChunkBlk × SortedChunk icmp)}
    {fuel : ℕ} {key : Bytes} (hes : es.map Prod.fst <+: s.tab.blklist)
    (hlt : s.tab.blklist.length < 2 ^ 64) (hiter : ∀ e ∈ es, IteratesOver newIter s e)
    (hfuel : es.length < fuel) (value : Bytes) :
    getLoop opts newIter s icmp key fuel (u64 (es.length + (2 ^ 64 - 1))) value =
      scan icmp key value (es.map (asked opts s key)).reverse := by
  obtain ⟨fuel, rfl⟩ : ∃ k, fuel = k + 1 := ⟨fuel - 1, by omega⟩
  induction es using List.reverseRecOn generalizing fuel with
  | nil =>
    -- the index below the oldest block has wrapped to the largest word
    rw [List.length_nil]
    exact getLoop_of_le (le_u64_pred_zero hlt) key fuel value
  | append_singleton es e ih =>
    obtain ⟨rest, hrest⟩ := hes
    rw [List.map_append, List.append_assoc] at hrest
    have hat : vectorAt s.tab.blklist es.length = .ok e.1 := by
      rw [← hrest]
      simp [vectorAt]
    have hlen := congrArg List.length hrest
    simp only [List.length_append, List.length_map, List.length_cons, List.length_nil]
      at hlen hfuel ⊢
    obtain ⟨fuel, rfl⟩ : ∃ k, fuel = k + 1 := ⟨fuel - 1, by omega⟩
    have ih := ih ⟨_, hrest⟩ (fun e' he' => hiter e' (List.mem_append_left _ he')) fuel (by omega)
    rw [u64_pred (by omega) (by omega), Nat.add_sub_cancel, List.map_append, List.reverse_append]
    exact getLoop_succ hat (hiter e (by simp)) key _ value ih

/-- A block of an appended tab is the place of its chunk's record. -/
theorem mem_zip_place {d : ℕ} {e : ChunkBlk × SortedChunk icmp}
    (he : e ∈ ((place 8 d (records (cs.map SortedChunk.args))).map (ChunkBlk.ofPlace 8)).zip cs) :
    e.2 ∈ cs ∧ ∃ pos, e.1 = ChunkBlk.ofPlace 8 (pos, e.2.args.record) ∧
      (pos, e.2.args.record) ∈ place 8 d (records (cs.map SortedChunk.args)) := by
  induction cs generalizing d with
  | nil => cases he
  | cons c cs ih =>
    rw [records, List.map_cons, List.map_cons, place_cons] at he ⊢
    rcases List.mem_cons.mp he with rfl | he
    · exact ⟨List.mem_cons_self .., d, rfl, List.mem_cons_self ..⟩
    · obtain ⟨hmem, pos, hpos, hplace⟩ := ih he
      exact ⟨List.mem_cons_of_mem _ hmem, pos, hpos, List.mem_cons_of_mem _ hplace⟩

/-- The iterator over a block finds the appended pairs: the block is where the record is. -/
theorem iteratesOver_of_holds {d₀ : ℕ}
    (hs : RangeHolds d₀ [] (records (cs.map SortedChunk.args)) s)
    (hdecode : DecodesAppended newIter s cs) {e : ChunkBlk × SortedChunk icmp}
    (he : e ∈ s.tab.blklist.zip cs) : IteratesOver newIter s e := by
  rw [hs.blklist, List.nil_append] at he
  obtain ⟨hmem, pos, hblk, hplace⟩ := mem_zip_place he
  have hrec := holdsAt_iff_forall_place.mp hs.bytes _ hplace
  have hbounds := place_bounds hplace
  have hsize := e.2.args.size_record
  have hbits := e.2.args.bloomData_length
  have hle := hs.le (by rintro hnil; rw [hnil] at hplace; cases hplace)
  have hlt := s.nv.bufSize_lt
  have hdata := hs.dataLen
  rw [CHUNK_BLOOM_FILTER_LEN] at hbits
  simp only at hbounds
  have hoff : e.1.getDatOffset = pos + 8 + 8 := by
    rw [hblk, ChunkBlk.getDatOffset, ChunkBlk.ofPlace, u64_of_lt (by simp only; omega)]
  have hlen : e.1.chunkLen = e.2.args.chunkData.length := by rw [hblk]; rfl
  have hread := hrec.payload
  simp only [AppendArgs.record, hbits] at hread
  rw [IteratesOver, hlen]
  refine hdecode e.2 hmem _ (Nat.le_add_right _ _) (by omega) ?_
  rw [hoff, ← hread]
  simp only [Nat.add_assoc, length_read]

/-- **`Get` on an appended tab is the scan of its chunks.** -/
theorem get_eq_scan [Std.TransCmp icmp] {d₀ : ℕ}
    (hs : RangeHolds d₀ [] (records (cs.map SortedChunk.args)) s)
    (hdecode : DecodesAppended newIter s cs) (key value : Bytes) :
    get opts newIter s icmp key value =
      scan icmp key value ((s.tab.blklist.zip cs).map (asked opts s key)).reverse := by
  have hlen : s.tab.blklist.length = cs.length := by
    rw [hs.blklist]
    simp [records]
  have hlt : s.tab.blklist.length < 2 ^ 64 := by
    rcases eq_or_ne cs [] with rfl | hne
    · rw [hlen, List.length_nil]
      exact Nat.two_pow_pos 64
    · have hle := hs.le (by simpa [records] using hne)
      have hcount := length_mul_le_totalSize (w := 8) (records (cs.map SortedChunk.args))
      have hdata := hs.dataLen
      have hbuf := s.nv.bufSize_lt
      simp only [records, List.length_map] at hcount hdata
      omega
  have hzip : (s.tab.blklist.zip cs).length = s.tab.blklist.length := by
    rw [List.length_zip]
    omega
  rw [get, ← hzip]
  refine getLoop_eq_scan ?_ hlt (fun e he => iteratesOver_of_holds hs hdecode he)
    (Nat.lt_succ_self _) value
  exact ⟨[], by rw [List.append_nil, List.map_fst_zip (by omega)]⟩

/-- `Get` is right: the newest chunk with the key decides. -/
def GetCorrect (opts : FixedRangeBasedOptions)
    (newIter : Memory → ℕ → ℕ → Except Fault PersistentChunkIterator) (s : RangeState)
    (icmp : Bytes → Bytes → Ordering) (cs : List (SortedChunk icmp)) (key value : Bytes) : Prop :=
  Answers (get opts newIter s icmp key value) (lookup icmp key (cs.map SortedChunk.pairs))

/-- The pairs of the scan are the appended chunks. -/
theorem map_snd_asked (opts : FixedRangeBasedOptions) {d₀ : ℕ}
    (hs : RangeHolds d₀ [] (records (cs.map SortedChunk.args)) s)
    (key : Bytes) :
    (((s.tab.blklist.zip cs).map (asked opts s key)).reverse).map Prod.snd =
      (cs.map SortedChunk.pairs).reverse := by
  have hlen : cs.length ≤ s.tab.blklist.length := by
    rw [hs.blklist]
    simp [records]
  rw [List.map_reverse, List.map_map]
  refine congrArg List.reverse ?_
  calc (s.tab.blklist.zip cs).map (Prod.snd ∘ asked opts s key)
      = ((s.tab.blklist.zip cs).map Prod.snd).map SortedChunk.pairs := by
        rw [List.map_map]
        rfl
    _ = cs.map SortedChunk.pairs := by rw [List.map_snd_zip hlen]

/-- With the length that `Append` writes, the filter of a listed block is the one that came with its
chunk. -/
theorem bloomSlice_eq (hbits : opts.chunkBloomBits = CHUNK_BLOOM_FILTER_LEN) {d₀ : ℕ}
    (hs : RangeHolds d₀ [] (records (cs.map SortedChunk.args)) s)
    {e : ChunkBlk × SortedChunk icmp} (he : e ∈ s.tab.blklist.zip cs) :
    bloomSlice opts s e.1 = e.2.args.bloomData := by
  rw [hs.blklist, List.nil_append] at he
  obtain ⟨-, pos, hblk, hplace⟩ := mem_zip_place he
  have hrec := holdsAt_iff_forall_place.mp hs.bytes _ hplace
  have htag := hrec.tag
  simp only [AppendArgs.record, e.2.args.bloomData_length] at htag
  rw [bloomSlice, hbits, hblk]
  exact htag

/-- **When `Get` is right**, after any run of appended chunks. The filters that were appended have
no false negatives; the policy is asked about the `chunk_bloom_bits_` bytes that `Get` reads, which
are these filters if that is the length that `Append` writes. -/
theorem getCorrect_iff [Std.TransCmp icmp] (hnew : s₀.tab.blklist = [])
    (hlive : s₀.nv.bufExtent ∈ s₀.pool.live)
    (hrun : appendAll A icmp s₀ (cs.map SortedChunk.args) = .ok s)
    (hdecode : DecodesAppended newIter s cs) (hfilter : NoFalseNegatives opts cs)
    (key value : Bytes) :
    GetCorrect opts newIter s icmp cs key value ↔
      ∃ v, Reaches icmp key ((s.tab.blklist.zip cs).map (asked opts s key)).reverse v ∧
        (opts.chunkBloomBits = CHUNK_BLOOM_FILTER_LEN ∨
          lookup icmp key (cs.map SortedChunk.pairs) = some v) := by
  have hs := (RangeHolds.start hlive).appendAll hrun
  rw [hnew, List.nil_append] at hs
  rw [GetCorrect, get_eq_scan hs hdecode]
  constructor
  · intro h
    obtain ⟨v, hreaches, hv⟩ := answers_scan_iff_reaches.mp h
    exact ⟨v, hreaches, .inr hv⟩
  · rintro ⟨v, hreaches, hbits | hv⟩
    · rw [lookup, ← map_snd_asked opts hs key]
      refine (answers_scan_iff fun c hc hcontains => ?_).mpr hreaches.hitBeforeMiss
      obtain ⟨e, he, rfl⟩ := List.mem_map.mp (List.mem_reverse.mp hc)
      have hmem : e.2 ∈ cs := (List.of_mem_zip he).2
      simp only [asked, bloomSlice_eq hbits hs he]
      exact hfilter e.2 hmem key hcontains
    · exact answers_scan_iff_reaches.mpr ⟨v, hreaches, hv⟩

end Tab

/-! ## A lookup on the small range -/

/-- A chunk of one pair that the iterator decodes right. -/
def zeroTailChunk : SortedChunk compare where
  args :=
    { smallAppend with
      chunkData := PersistentChunkIterator.encodeChunk [([7], List.replicate 8 0)]
      newStart := [7], newEnd := [7] }
  pairs := [([7], List.replicate 8 0)]
  pairs_ne_nil := List.cons_ne_nil _ _
  increasing := List.pairwise_singleton _ _

/-- Another one, with another value for its key. -/
def newerChunk : SortedChunk compare where
  args :=
    { smallAppend with
      chunkData := PersistentChunkIterator.encodeChunk [([7], 1 :: List.replicate 8 0)]
      newStart := [7], newEnd := [7] }
  pairs := [([7], 1 :: List.replicate 8 0)]
  pairs_ne_nil := List.cons_ne_nil _ _
  increasing := List.pairwise_singleton _ _

/-- The constructor of the source hands out the pairs of both. -/
theorem decodes_small : ∀ c ∈ [zeroTailChunk, newerChunk],
    Decodes (constructIter 0) c.args.chunkData c.pairs := by
  intro c hc
  rcases List.mem_pair.mp hc with rfl | rfl
  · exact decodes_encodeChunk (by decide) (by decide)
  · exact decodes_encodeChunk (by decide) (by decide)

/-- Both chunks have the key; the newer one is found. -/
theorem getCorrect_iff_small :
    ∃ s, appendAll .bump compare (smallState 16)
        ([zeroTailChunk, newerChunk].map SortedChunk.args) = .ok s ∧
      GetCorrect (smallOptions 8 (by decide)) (constructIter 0) s compare
        [zeroTailChunk, newerChunk] [7] [] ∧
      lookup compare [7] ([zeroTailChunk, newerChunk].map SortedChunk.pairs)
        = some (1 :: List.replicate 8 0) := by
  obtain ⟨s, hs, hasked⟩ : ∃ s, appendAll .bump compare (smallState 16)
      ([zeroTailChunk, newerChunk].map SortedChunk.args) = .ok s ∧
      ((s.tab.blklist.zip [zeroTailChunk, newerChunk]).map
        (asked (smallOptions 8 (by decide)) s [7])).reverse
        = [(true, newerChunk.pairs), (true, zeroTailChunk.pairs)] := ⟨_, rfl, rfl⟩
  have hend : s.nv.buf + s.nv.bufSize < 2 ^ 64 := by
    rw [appendAll_nv hs]
    decide
  refine ⟨s, hs, (getCorrect_iff rfl (small_live 16) hs
    (decodesAppended_of_decodes hend decodes_small) (fun _ _ _ _ => rfl) [7] []).mpr ?_, by decide⟩
  rw [hasked]
  exact ⟨1 :: List.replicate 8 0, ⟨[], _, _, rfl, ⟨rfl, by decide⟩, by simp⟩, .inl rfl⟩

/-- A lookup in a tab without chunks throws. -/
theorem get_throws_empty :
    appendAll .bump compare (smallState 16) [] = .ok (smallState 16) ∧
      ¬ GetCorrect (smallOptions 8 (by decide)) (constructIter 0) (smallState 16) compare [] [7]
        [] := by
  refine ⟨rfl, ?_⟩
  rintro ⟨msg, out, h⟩
  rw [get_of_nil rfl] at h
  cases h

end FixedRangeTab

end RangeCache
