import Mathlib.Data.List.Induction
import RangeCache.PmemHashMap

/-!
# The prefix as a key

What the map is for: one node for each prefix. `putAndGet` compares hashes and C strings, so what
it really keys on is the identity of a prefix, its hash and its bytes up to the first zero. A run of
calls refines inserting into a list that keeps the first prefix of each identity, and the map is
keyed by the whole prefix exactly as long as no two prefixes of the run share an identity.

## Main definitions

* `insertPrefix`, `storedPrefixes` — the first prefix of each identity
* `KeyedByPrefix` — what the map promises of a run of calls
* `NoAlias` — prefixes with one identity are equal

## Main results

* `putAndGet_spec`, `run_holds` — one call, and any run, refine insertion
* `keyedByPrefix_iff` — the map is keyed by the prefix exactly in runs without aliases
-/

namespace RangeCache

open ByteMemory ChainHeap FallibleRun

namespace PmemHashMap

/-! ## The abstract map -/

/-- Keep the first prefix of each identity. -/
def insertPrefix (hash : Bytes → ℕ) (ps : List Bytes) (pre : Bytes) : List Bytes :=
  if ∃ p ∈ ps, ident hash p = ident hash pre then ps else ps ++ [pre]

/-- The prefixes that get a node. -/
def storedPrefixes (hash : Bytes → ℕ) (ps : List Bytes) : List Bytes :=
  ps.foldl (insertPrefix hash) []

section Stored

variable {hash : Bytes → ℕ} {ps : List Bytes}

theorem prefix_insertPrefix (pre : Bytes) : ps <+: insertPrefix hash ps pre := by
  rw [insertPrefix]
  split
  · exact List.prefix_rfl
  · exact List.prefix_append ps [pre]

theorem mem_insertPrefix {p pre : Bytes} (h : p ∈ insertPrefix hash ps pre) : p ∈ ps ∨ p = pre := by
  rw [insertPrefix] at h
  split at h
  · exact .inl h
  · simpa using h

/-- The identity of an inserted prefix is present. -/
theorem exists_mem_insertPrefix (hash : Bytes → ℕ) (ps : List Bytes) (pre : Bytes) :
    ∃ p ∈ insertPrefix hash ps pre, ident hash p = ident hash pre := by
  rw [insertPrefix]
  split
  · next h => exact h
  · exact ⟨pre, by simp, rfl⟩

theorem storedPrefixes_append (qs : List Bytes) (pre : Bytes) :
    storedPrefixes hash (qs ++ [pre]) = insertPrefix hash (storedPrefixes hash qs) pre := by
  rw [storedPrefixes, List.foldl_append]
  rfl

theorem prefix_storedPrefixes_append (hash : Bytes → ℕ) (qs rs : List Bytes) :
    storedPrefixes hash qs <+: storedPrefixes hash (qs ++ rs) := by
  induction rs generalizing qs with
  | nil => simp
  | cons r rs ih =>
    have := ih (qs ++ [r])
    rw [List.append_assoc, List.singleton_append, storedPrefixes_append] at this
    exact (prefix_insertPrefix r).trans this

/-- The prefixes stored along a run stay stored. -/
theorem prefix_storedPrefixes_take (hash : Bytes → ℕ) (calls : List (Bytes × UInt64)) (i : ℕ) :
    storedPrefixes hash ((calls.take i).map Prod.fst) <+:
      storedPrefixes hash (calls.map Prod.fst) := by
  have hpre := prefix_storedPrefixes_append hash ((calls.take i).map Prod.fst)
    ((calls.drop i).map Prod.fst)
  rwa [← List.map_append, List.take_append_drop] at hpre

theorem storedPrefixes_take_succ {calls : List (Bytes × UInt64)} {i : ℕ} {c : Bytes × UInt64}
    (hc : calls[i]? = some c) :
    storedPrefixes hash ((calls.take (i + 1)).map Prod.fst) =
      insertPrefix hash (storedPrefixes hash ((calls.take i).map Prod.fst)) c.1 := by
  have htake : calls.take (i + 1) = calls.take i ++ [c] := by
    rw [List.take_add_one, hc]
    rfl
  rw [htake, List.map_append, List.map_singleton, storedPrefixes_append]

end Stored

/-! ## Runs -/

/-- A map without nodes. -/
def emptyMap (pool : Pool) (tabLen : ℕ) : MapState :=
  { pool, nodes := [], map := { tabLen, tab := List.replicate tabLen none } }

theorem mapHolds_empty {hash : Bytes → ℕ} (pool : Pool) {tabLen : ℕ} (htab : 0 < tabLen) :
    MapHolds hash (emptyMap pool tabLen) [] where
  tab_length := List.length_replicate
  tabLen_pos := htab
  table := Table.empty tabLen
  length := rfl
  stores := by simp
  live := by simp [emptyMap]
  disjoint := by simp [emptyMap]
  distinct := by simp

/-- One call, for a prefix and a buffer size. -/
def call (A : Allocator) (hash : Bytes → ℕ) (seqNum : ℕ) (s : MapState) (c : Bytes × UInt64) :
    Except Fault MapState :=
  (putAndGet A hash seqNum s c.1 c.2).map Prod.fst

/-- The node is in the chain that the slot `b` heads. -/
def Member (s : MapState) (b id : ℕ) : Prop :=
  ∃ head ids, s.map.tab[b]? = some head ∧ Chain Node.next s.nodes head ids ∧ id ∈ ids

/-- The nodes of `s` are the same in `s'`: their fields, their prefixes, their buffers, and the
chains they are in. -/
def Untouched (s s' : MapState) : Prop :=
  ∀ id node, s.nodes[id]? = some node → s'.nodes[id]? = some node ∧
    (prefixExtent node).SameOn s.pool.mem s'.pool.mem ∧
    node.bufExtent.SameOn s.pool.mem s'.pool.mem ∧ ∀ b, Member s' b id ↔ Member s b id

section Calls

variable {A : Allocator} {hash : Bytes → ℕ} {seqNum : ℕ} {s : MapState} {ps : List Bytes}

/-- A node is in the chain of its bucket, and in no other. -/
theorem MapHolds.member_iff (h : MapHolds hash s ps) {b id : ℕ} :
    Member s b id ↔ b < s.map.tabLen ∧ ∃ node, s.nodes[id]? = some node ∧
      slotOf s.map.tabLen node = b := by
  constructor
  · rintro ⟨head, ids, hhead, hchain, hmem⟩
    rw [hchain.unique (h.table.chain b head hhead)] at hmem
    exact ⟨h.tab_length ▸ (List.getElem?_eq_some_iff.mp hhead).1, mem_bucket.mp hmem⟩
  · rintro ⟨hb, hmem⟩
    rw [← h.tab_length] at hb
    exact ⟨_, _, List.getElem?_eq_getElem hb, h.table.chain b _ (List.getElem?_eq_getElem hb),
      mem_bucket.mpr hmem⟩

theorem Inserted.untouched {s' : MapState} {node : Node} {bufSize : UInt64} {ps' : List Bytes}
    (h : MapHolds hash s ps) (h' : MapHolds hash s' ps')
    (hins : Inserted s seqNum bufSize s' node) : Untouched s s' := by
  intro id n hn
  have hn' : s'.nodes[id]? = some n := by
    rw [hins.nodes]
    exact getElem?_snoc.mpr (.inl hn)
  have hsame := fun e he => hins.pool.same e (h.live n (List.mem_of_getElem? hn) e he)
  refine ⟨hn', hsame _ (prefixExtent_mem_extents n), hsame _ (bufExtent_mem_extents n), fun b => ?_⟩
  rw [h.member_iff, h'.member_iff, hins.tabLen, hn, hn']

theorem Untouched.refl (s : MapState) : Untouched s s :=
  fun _ _ h => ⟨h, Extent.SameOn.refl _ _, Extent.SameOn.refl _ _, fun _ => Iff.rfl⟩

/-- **One call refines insertion**, and touches no older node. -/
theorem putAndGet_spec (A : Allocator) (seqNum : ℕ) (h : MapHolds hash s ps) (c : Bytes × UInt64) :
    ∃ s' id p, putAndGet A hash seqNum s c.1 c.2 = .ok (s', id) ∧
      MapHolds hash s' (insertPrefix hash ps c.1) ∧
      (insertPrefix hash ps c.1)[id]? = some p ∧ ident hash p = ident hash c.1 ∧
      Untouched s s' ∧ ((∃ q ∈ ps, ident hash q = ident hash c.1) → s' = s) := by
  by_cases hex : ∃ q ∈ ps, ident hash q = ident hash c.1
  · obtain ⟨q, hq, hident⟩ := hex
    obtain ⟨id, hid⟩ := List.getElem?_of_mem hq
    rw [insertPrefix, if_pos ⟨q, hq, hident⟩]
    exact ⟨s, id, q, putAndGet_hit h hid hident seqNum c.2, h, hid, hident, Untouched.refl s,
      fun _ => rfl⟩
  · obtain ⟨s', node, hput, hins, h'⟩ := putAndGet_miss (A := A) h
      (fun q hq hident => hex ⟨q, hq, hident⟩) seqNum c.2
    rw [insertPrefix, if_neg hex]
    exact ⟨s', s.nodes.length, c.1, hput, h', by rw [h.length]; simp, rfl,
      Inserted.untouched h h' hins, fun hc => absurd hc hex⟩

/-- **Any run refines insertion**, and succeeds. -/
theorem run_holds (A : Allocator) (hash : Bytes → ℕ) (seqNum : ℕ) (pool : Pool) {tabLen : ℕ}
    (htab : 0 < tabLen) (calls : List (Bytes × UInt64)) :
    ∃ s, run (call A hash seqNum) (emptyMap pool tabLen) calls = .ok s ∧
      MapHolds hash s (storedPrefixes hash (calls.map Prod.fst)) := by
  induction calls using List.reverseRecOn with
  | nil => exact ⟨_, rfl, mapHolds_empty pool htab⟩
  | append_singleton calls c ih =>
    obtain ⟨s, hs, hholds⟩ := ih
    obtain ⟨s', id, p, hput, hholds', -⟩ := putAndGet_spec A seqNum hholds c
    refine ⟨s', run_append_ok.mpr ⟨s, hs, run_singleton.mpr ?_⟩, ?_⟩
    · rw [call, hput]
      rfl
    · rw [List.map_append, List.map_singleton, storedPrefixes_append]
      exact hholds'

/-- The state a run ends in holds what the run stored. -/
theorem MapHolds.of_run {pool : Pool} {tabLen : ℕ} {calls : List (Bytes × UInt64)} {s : MapState}
    (htab : 0 < tabLen) (hrun : run (call A hash seqNum) (emptyMap pool tabLen) calls = .ok s) :
    MapHolds hash s (storedPrefixes hash (calls.map Prod.fst)) := by
  obtain ⟨t, ht, hholds⟩ := run_holds A hash seqNum pool htab calls
  rw [hrun, Except.ok.injEq] at ht
  rwa [ht]

/-! ## What the map promises -/

/-- The call number `i` of a run leads from `s` to `s'` and returns the node `id`. -/
def Called (A : Allocator) (hash : Bytes → ℕ) (seqNum : ℕ) (s₀ : MapState)
    (calls : List (Bytes × UInt64)) (i : ℕ) (c : Bytes × UInt64) (s s' : MapState) (id : ℕ) :
    Prop :=
  calls[i]? = some c ∧ run (call A hash seqNum) s₀ (calls.take i) = .ok s ∧
    putAndGet A hash seqNum s c.1 c.2 = .ok (s', id)

/-- **The map is keyed by the whole prefix**, along a run of calls from `s₀`. -/
structure KeyedByPrefix (A : Allocator) (hash : Bytes → ℕ) (seqNum : ℕ) (s₀ : MapState)
    (calls : List (Bytes × UInt64)) : Prop where
  /-- No call fails. -/
  total : ∃ s, run (call A hash seqNum) s₀ calls = .ok s
  /-- The node returned stores the prefix. -/
  stores : ∀ i c s s' id, Called A hash seqNum s₀ calls i c s s' id →
    ∃ node, s'.nodes[id]? = some node ∧ node.prefixLen = c.1.length ∧
      read s'.pool.mem node.prefixBuf c.1.length = c.1
  /-- Two calls return one node exactly for one prefix. -/
  same : ∀ i j c d s s' t t' id id', Called A hash seqNum s₀ calls i c s s' id →
    Called A hash seqNum s₀ calls j d t t' id' → (id = id' ↔ c.1 = d.1)
  /-- A call for a prefix that was inserted before changes nothing. -/
  hit : ∀ i c s s' id, Called A hash seqNum s₀ calls i c s s' id →
    c.1 ∈ (calls.take i).map Prod.fst → s' = s
  /-- No call alters another node. -/
  frame : ∀ i c s s' id, Called A hash seqNum s₀ calls i c s s' id → Untouched s s'

/-- Prefixes with one identity are equal. -/
def NoAlias (hash : Bytes → ℕ) (calls : List (Bytes × UInt64)) : Prop :=
  ∀ c ∈ calls, ∀ d ∈ calls, ident hash c.1 = ident hash d.1 → c.1 = d.1

section Promises

variable {pool : Pool} {tabLen i : ℕ} {calls : List (Bytes × UInt64)} {c : Bytes × UInt64}
  {s' : MapState} {id : ℕ}

/-- What a call of a run does, in terms of the stored prefixes. -/
theorem Called.spec (htab : 0 < tabLen)
    (h : Called A hash seqNum (emptyMap pool tabLen) calls i c s s' id) :
    MapHolds hash s (storedPrefixes hash ((calls.take i).map Prod.fst)) ∧
      MapHolds hash s' (storedPrefixes hash ((calls.take (i + 1)).map Prod.fst)) ∧
      (∃ p, (storedPrefixes hash ((calls.take (i + 1)).map Prod.fst))[id]? = some p ∧
        ident hash p = ident hash c.1) ∧
      Untouched s s' ∧
      ((∃ q ∈ storedPrefixes hash ((calls.take i).map Prod.fst), ident hash q = ident hash c.1) →
        s' = s) := by
  obtain ⟨hc, hrun, hput⟩ := h
  have hholds := MapHolds.of_run htab hrun
  obtain ⟨t', id', p, hput', hholds', hp, hident, hun, hhit⟩ :=
    putAndGet_spec A seqNum hholds c
  rw [hput, Except.ok.injEq, Prod.mk.injEq] at hput'
  obtain ⟨rfl, rfl⟩ := hput'
  rw [storedPrefixes_take_succ hc]
  exact ⟨hholds, hholds', ⟨p, hp, hident⟩, hun, hhit⟩

/-- The node of a call is where its identity ends up in the whole run. -/
theorem Called.stored (htab : 0 < tabLen)
    (h : Called A hash seqNum (emptyMap pool tabLen) calls i c s s' id) :
    ∃ p, (storedPrefixes hash (calls.map Prod.fst))[id]? = some p ∧
      ident hash p = ident hash c.1 := by
  obtain ⟨-, -, ⟨p, hp, hident⟩, -⟩ := h.spec htab
  obtain ⟨rest, hrest⟩ := prefix_storedPrefixes_take hash calls (i + 1)
  refine ⟨p, ?_, hident⟩
  rw [← hrest, List.getElem?_append_left (List.getElem?_eq_some_iff.mp hp).1, hp]

/-- **Two calls return one node exactly for one identity.** -/
theorem Called.id_eq_iff (htab : 0 < tabLen) {j : ℕ} {d : Bytes × UInt64} {t t' : MapState}
    {id' : ℕ} (h : Called A hash seqNum (emptyMap pool tabLen) calls i c s s' id)
    (h' : Called A hash seqNum (emptyMap pool tabLen) calls j d t t' id') :
    id = id' ↔ ident hash c.1 = ident hash d.1 := by
  obtain ⟨p, hp, hpc⟩ := h.stored htab
  obtain ⟨q, hq, hqd⟩ := h'.stored htab
  obtain ⟨u, -, hholds⟩ := run_holds A hash seqNum pool htab calls
  constructor
  · rintro rfl
    rw [hp, Option.some.injEq] at hq
    rw [← hpc, ← hqd, hq]
  · intro hident
    exact hholds.distinct id id' p q hp hq (hpc.trans (hident.trans hqd.symm))

/-- Every call of the list is a call of the run. -/
theorem exists_called (A : Allocator) (hash : Bytes → ℕ) (seqNum : ℕ) (pool : Pool)
    (htab : 0 < tabLen) (hc : calls[i]? = some c) :
    ∃ s s' id, Called A hash seqNum (emptyMap pool tabLen) calls i c s s' id := by
  obtain ⟨s, hs, hholds⟩ := run_holds A hash seqNum pool htab (calls.take i)
  obtain ⟨s', id, p, hput, -⟩ := putAndGet_spec A seqNum hholds c
  exact ⟨s, s', id, hc, hs, hput⟩

/-- A map keyed by the prefix tells the prefixes of the run apart. -/
theorem noAlias_of_keyedByPrefix (htab : 0 < tabLen)
    (h : KeyedByPrefix A hash seqNum (emptyMap pool tabLen) calls) : NoAlias hash calls := by
  intro c hc d hd hident
  obtain ⟨i, hi⟩ := List.getElem?_of_mem hc
  obtain ⟨j, hj⟩ := List.getElem?_of_mem hd
  obtain ⟨s, s', id, hci⟩ := exists_called A hash seqNum pool htab hi
  obtain ⟨t, t', id', hdj⟩ := exists_called A hash seqNum pool htab hj
  exact (h.same i j c d s s' t t' id id' hci hdj).mp ((hci.id_eq_iff htab hdj).mpr hident)

/-- A stored prefix is one of the run. -/
theorem mem_of_mem_storedPrefixes {qs : List Bytes} {p : Bytes}
    (h : p ∈ storedPrefixes hash qs) : p ∈ qs := by
  induction qs using List.reverseRecOn with
  | nil => cases h
  | append_singleton qs q ih =>
    rw [storedPrefixes_append] at h
    rcases mem_insertPrefix h with h | rfl
    · exact List.mem_append_left _ (ih h)
    · simp

/-- The identity of every prefix of the run is stored. -/
theorem exists_mem_storedPrefixes {qs : List Bytes} {q : Bytes} (h : q ∈ qs) :
    ∃ p ∈ storedPrefixes hash qs, ident hash p = ident hash q := by
  obtain ⟨before, after, rfl⟩ := List.append_of_mem h
  obtain ⟨p, hp, hident⟩ := exists_mem_insertPrefix hash (storedPrefixes hash before) q
  refine ⟨p, ?_, hident⟩
  have hpre := prefix_storedPrefixes_append hash (before ++ [q]) after
  rw [storedPrefixes_append, List.append_assoc, List.singleton_append] at hpre
  exact hpre.subset hp

/-- Without aliases the map is keyed by the prefix. -/
theorem keyedByPrefix_of_noAlias (htab : 0 < tabLen) (h : NoAlias hash calls) :
    KeyedByPrefix A hash seqNum (emptyMap pool tabLen) calls where
  total := by
    obtain ⟨s, hs, -⟩ := run_holds A hash seqNum pool htab calls
    exact ⟨s, hs⟩
  stores := by
    intro i c s s' id hcall
    obtain ⟨-, hholds, ⟨p, hp, hident⟩, -⟩ := hcall.spec htab
    obtain ⟨d, hd, rfl⟩ := List.mem_map.mp (mem_of_mem_storedPrefixes (List.mem_of_getElem? hp))
    have heq := h d (List.mem_of_mem_take hd) c (List.mem_of_getElem? hcall.1) hident
    obtain ⟨node, hnode, hstores⟩ := hholds.exists_node hp
    rw [heq] at hstores
    refine ⟨node, hnode, hstores.prefixLen, ?_⟩
    rw [← hstores.prefixLen]
    exact hstores.read_prefix
  same := by
    intro i j c d s s' t t' id id' hci hdj
    rw [hci.id_eq_iff htab hdj]
    exact ⟨h c (List.mem_of_getElem? hci.1) d (List.mem_of_getElem? hdj.1), fun heq => by rw [heq]⟩
  hit := by
    intro i c s s' id hcall hmem
    obtain ⟨-, -, -, -, hhit⟩ := hcall.spec htab
    exact hhit (exists_mem_storedPrefixes hmem)
  frame := by
    intro i c s s' id hcall
    obtain ⟨-, -, -, hun, -⟩ := hcall.spec htab
    exact hun

/-- **When the map is keyed by the prefix.** -/
theorem keyedByPrefix_iff (htab : 0 < tabLen) :
    KeyedByPrefix A hash seqNum (emptyMap pool tabLen) calls ↔ NoAlias hash calls :=
  ⟨noAlias_of_keyedByPrefix htab, keyedByPrefix_of_noAlias htab⟩

end Promises

end Calls

/-- Two prefixes that differ behind a zero byte. -/
def zeroByteCalls : List (Bytes × UInt64) := [([1, 0, 2], 16), ([1, 0, 3], 16)]

theorem keyedByPrefix_iff_zeroByte :
    KeyedByPrefix .bump (fun _ => 0) 0 (emptyMap { mem := fun _ => 0, live := [] } 1)
        zeroByteCalls ↔
      NoAlias (fun _ => 0) zeroByteCalls :=
  keyedByPrefix_iff (by decide)

/-- If their hashes collide, the second one gets the node of the first. -/
theorem aliased_zeroByte :
    ¬ KeyedByPrefix .bump (fun _ => 0) 0 (emptyMap { mem := fun _ => 0, live := [] } 1)
        zeroByteCalls := by
  intro h
  have heq := noAlias_of_keyedByPrefix (by decide) h ([1, 0, 2], 16) (by simp [zeroByteCalls])
    ([1, 0, 3], 16) (by simp [zeroByteCalls]) rfl
  exact absurd heq (by decide)

end PmemHashMap

end RangeCache
