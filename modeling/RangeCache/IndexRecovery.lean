import RangeCache.DurableMaps
import RangeCache.TableRebuild

/-!
# The index after a crash

What `RebuildFromPersistentNode` makes of the pool that a run of insertions leaves, when exceptions
and crashes have stopped it any number of times: one empty range for each completed insertion of a
new prefix, over the node that the map finds for the prefix, and nothing else.

## Main definitions

* `foundCache` — the cache that has just opened a pool with the map that was found

## Main results

* `run_newNodes` — what the nodes of a run of insertions are like
* `index_recovered` — the index is rebuilt from whatever was found
-/

namespace RangeCache

open ByteMemory ChainHeap TxMemory FallibleRun

namespace PmemHashMap

variable {A : Allocator} {hash : Bytes → ℕ} {seqNum tabLen : ℕ} {s : MapState} {ps : List Bytes}

/-- **The nodes of a run of insertions** have no data, and a buffer of the size that was asked for
with one of the prefixes. -/
theorem run_newNodes {pool : Pool} (htab : 0 < tabLen) {calls : List (Bytes × UInt64)}
    (hrun : run (call A hash seqNum) (emptyMap pool tabLen) calls = .ok s) :
    ∀ node ∈ s.nodes, node.dataLen = 0 ∧ ∃ c ∈ calls, node.bufSize = c.2.toNat := by
  have hstep : ∀ c ∈ calls, ∀ s s' : MapState,
      ((∃ ps, MapHolds hash s ps) ∧
        ∀ node ∈ s.nodes, node.dataLen = 0 ∧ ∃ c ∈ calls, node.bufSize = c.2.toNat) →
      call A hash seqNum s c = .ok s' →
      (∃ ps, MapHolds hash s' ps) ∧
        ∀ node ∈ s'.nodes, node.dataLen = 0 ∧ ∃ c ∈ calls, node.bufSize = c.2.toNat := by
    rintro c hc s s' ⟨⟨ps, hs⟩, hnodes⟩ hcall
    by_cases hex : ∃ q ∈ ps, ident hash q = ident hash c.1
    · obtain ⟨q, hq, hident⟩ := hex
      obtain ⟨id, hid⟩ := List.getElem?_of_mem hq
      rw [call, putAndGet_hit hs hid hident seqNum c.2] at hcall
      obtain rfl := Except.ok.inj hcall
      exact ⟨⟨ps, hs⟩, hnodes⟩
    · obtain ⟨t, node, hput, hins, hholds⟩ := putAndGet_miss (A := A) hs
        (fun q hq hident => hex ⟨q, hq, hident⟩) seqNum c.2
      rw [call, hput] at hcall
      obtain rfl := Except.ok.inj hcall
      refine ⟨⟨_, hholds⟩, fun n hn => ?_⟩
      rw [hins.nodes] at hn
      rcases List.mem_append.mp hn with hn | hn
      · exact hnodes n hn
      · rw [List.mem_singleton.mp hn]
        exact ⟨hins.dataLen, c, hc, hins.bufSize⟩
  exact (run_induction_mem hstep ⟨⟨[], mapHolds_empty pool htab⟩, by simp [emptyMap]⟩ hrun).2

/-- The map finds the node of a prefix that it holds. -/
theorem MapHolds.getNode_of_stored (h : MapHolds hash s ps) {pre : Bytes} {id : ℕ}
    (hp : ps[id]? = some pre) : PmemHashMap.getNode s (hash pre) pre = .ok (some id) := by
  obtain ⟨node, hnode, hstores⟩ := h.exists_node hp
  have hmem : id ∈ bucket (slotOf s.map.tabLen) s.nodes (hash pre % s.map.tabLen) := by
    refine mem_bucket.mpr ⟨node, hnode, ?_⟩
    rw [slotOf, hstores.hash]
  rw [h.getNode, h.find?_ident hp rfl hmem]

end PmemHashMap

namespace FixedRangeTab

/-- A tab over a node without data has no chunks. -/
theorem new_blklist {opts : FixedRangeBasedOptions} {pool : Pool} {id : ℕ} {nv : NvRangeTab}
    {s : RangeState} (h : new opts pool id nv = .ok s) (hlen : nv.dataLen = 0) :
    s.tab.blklist = [] := by
  obtain ⟨-, -, rfl⟩ | ⟨-, blks, hblks, rfl⟩ := new_eq_ok.mp h
  · rfl
  · rw [rebuildBlkList_of_le (by rw [hlen]; exact Nat.zero_le 16)] at hblks
    exact (Except.ok.inj hblks).symm

end FixedRangeTab

namespace FixedRangeChunkBasedNVMWriteCache

open PmemHashMap

/-- The cache on a pool that has just been opened, with the map that was found in it. -/
def foundCache (P : CacheParams) (allocator : Option PersistentAllocator) (found : MapState) :
    FixedRangeChunkBasedNVMWriteCache :=
  bindRoot (opened P (some
    { root := { inited := true, rangeMap := some found.map, allocator }
      pool := found.pool
      nodes := found.nodes }))

section Found

variable {P : CacheParams} {allocator : Option PersistentAllocator} {found : MapState}
  {ps : List Bytes}

/-- A map that was found is a table that can be rebuilt from. -/
theorem persistentTable_found (h : MapHolds P.hash found ps)
    (allocator : Option PersistentAllocator) :
    PersistentTable (foundCache P allocator found) found.map
      (bucket (slotOf found.map.tabLen) found.nodes) where
  pinfo := rfl
  rangeMap := rfl
  empty := rfl
  tab_length := h.tab_length
  chain := h.table.chain
  own := fun _ _ _ ha => h.disjoint_prefixExtent (List.mem_of_getElem? ha)
  apart := fun _ _ _ _ hij _ _ ha hb _ he _ hf => h.disjoint_extents ha hb hij he hf
  distinct := by
    intro i _ j _ a b ha hb heq
    obtain ⟨p, hp, hstoresp⟩ := h.exists_prefix ha
    obtain ⟨q, hq, hstoresq⟩ := h.exists_prefix hb
    have hpq : p = q := hstoresp.read_prefix.symm.trans (heq.trans hstoresq.read_prefix)
    exact h.distinct i j p q hp hq (congrArg (ident P.hash) hpq)

/-- Every node is in its bucket. -/
theorem mem_tableNodes_found (h : MapHolds P.hash found ps) {id : ℕ} {node : Node}
    (hnode : found.nodes[id]? = some node) :
    id ∈ tableNodes found.map (bucket (slotOf found.map.tabLen) found.nodes) := by
  refine List.mem_flatMap.mpr ⟨slotOf found.map.tabLen node, ?_, mem_bucket.mpr ⟨node, hnode, rfl⟩⟩
  exact List.mem_range.mpr (Nat.mod_lt _ h.tabLen_pos)

/-- The rebuilt index binds each prefix of the map to the node the map finds for it. -/
theorem boundNode_of_oneEach (h : MapHolds P.hash found ps)
    {c' : FixedRangeChunkBasedNVMWriteCache}
    (heach : OneEach P (foundCache P allocator found)
      (tableNodes found.map (bucket (slotOf found.map.tabLen) found.nodes)) c'.prefix2range)
    {pre : Bytes} {id : ℕ} : boundNode c' pre = some id ↔ ps[id]? = some pre := by
  have hread : ∀ {j : ℕ} {node : Node} {p : Bytes}, found.nodes[j]? = some node →
      ps[j]? = some p → prefixOf (foundCache P allocator found) node = p := by
    intro j node p hnode hp
    exact Stores.read_prefix (h.stores j node p hnode hp)
  have hover : ∀ {j : ℕ} {node : Node} {tab : FixedRangeTab},
      OverNode P (foundCache P allocator found) j node tab → tab.nonVolatileTab = j := by
    rintro j node tab ⟨s, hs, rfl⟩
    exact (FixedRangeTab.new_rangeStep hs).2.nonVolatileTab
  rw [boundNode, Option.map_eq_some_iff]
  constructor
  · rintro ⟨tab, htab, rfl⟩
    obtain ⟨j, -, node, hnode, hpre, htabOver⟩ := heach.only pre tab htab
    obtain ⟨p, hp, -⟩ := h.exists_prefix hnode
    rw [hover htabOver, hp, ← hpre, hread hnode hp]
  · intro hp
    obtain ⟨node, hnode, -⟩ := h.exists_node hp
    obtain ⟨tab, htab, htabOver⟩ := heach.entry id (mem_tableNodes_found h hnode) node hnode
    rw [hread hnode hp] at htab
    exact ⟨tab, htab, hover htabOver⟩

/-- Without zero bytes, what is stored is what was inserted. -/
theorem mem_storedPrefixes_iff {hash : Bytes → ℕ} {qs : List Bytes} (hzero : ∀ q ∈ qs, 0 ∉ q)
    {pre : Bytes} : pre ∈ storedPrefixes hash qs ↔ pre ∈ qs := by
  constructor
  · exact mem_of_mem_storedPrefixes
  · intro hpre
    obtain ⟨p, hp, hident⟩ : ∃ p ∈ storedPrefixes hash qs, ident hash p = ident hash pre :=
      exists_mem_storedPrefixes hpre
    have hcstr : cstr p = cstr pre := congrArg Prod.snd hident
    rw [cstr_eq_self (hzero p (mem_of_mem_storedPrefixes hp)), cstr_eq_self (hzero pre hpre)]
      at hcstr
    rwa [← hcstr]

end Found

/-- **The index is rebuilt from whatever was found.** Wherever a run of insertions was stopped, and
however often, rebuilding returns, and binds the prefixes that the completed insertions have stored
to the nodes that the map finds for them, each to a range without chunks. These are the prefixes
that were inserted, if they have no zero bytes. -/
theorem index_recovered (P : CacheParams) (allocator : Option PersistentAllocator) (pool : Pool)
    {done : List (Bytes × UInt64)} {σ : State (MapVal Node)}
    (hrun : DurableRun (putAndGetTx P.A P.hash P.seqNum (emptyMap pool P.tabLen))
      (durable (imageOf (emptyMap pool P.tabLen)).values) done σ)
    (hsize : ∀ c ∈ done, 16 ≤ c.2.toNat) {image : ∀ l, MapVal Node l}
    (himage : image = σ.view ∨ Crash σ image) :
    let found := recovered (emptyMap pool P.tabLen) (.ofValues image)
    ∃ c', rebuildFromPersistentNode P (foundCache P allocator found) = .ok c' ∧
      c'.pop.nodes = found.nodes ∧
      (∀ pre, pre ∈ c'.prefix2range ↔ pre ∈ storedPrefixes P.hash (done.map Prod.fst)) ∧
      (∀ pre id, boundNode c' pre = some id → getNode found (P.hash pre) pre = .ok (some id)) ∧
      (∀ pre tab, c'.prefix2range.lookup pre = some tab → tab.blklist = []) ∧
      ((∀ c ∈ done, 0 ∉ c.1) → ∀ pre, pre ∈ c'.prefix2range ↔ ∃ c ∈ done, c.1 = pre) := by
  obtain ⟨s, hs, hstored, hfound⟩ := exists_found P.A P.hash P.seqNum pool P.tabLen_pos hrun
  have halike := hfound image himage
  have hholds := halike.holds hstored
  have hnew : ∀ node ∈ (recovered (emptyMap pool P.tabLen) (.ofValues image)).nodes,
      node.dataLen = 0 ∧ 16 ≤ node.bufSize := by
    rw [halike.nodes]
    intro node hnode
    obtain ⟨hlen, c, hc, hbuf⟩ := run_newNodes P.tabLen_pos hs node hnode
    exact ⟨hlen, hbuf ▸ hsize c hc⟩
  have htable := persistentTable_found hholds allocator
  obtain ⟨c', hc'⟩ := htable.rebuild_returns_iff.mpr fun id _ node hnode => by
    obtain ⟨hlen, hbuf⟩ := hnew node (List.mem_of_getElem? hnode)
    exact FixedRangeTab.new_returns_iff.mp (FixedRangeTab.new_of_dataLen_zero _ _ id hlen hbuf)
  have hwalked := htable.walked_of_rebuild hc'
  have hbound : ∀ pre id, boundNode c' pre = some id ↔
      (storedPrefixes P.hash (done.map Prod.fst))[id]? = some pre :=
    fun _ _ => boundNode_of_oneEach hholds hwalked.entries
  have hmem : ∀ pre, pre ∈ c'.prefix2range ↔
      pre ∈ storedPrefixes P.hash (done.map Prod.fst) := by
    intro pre
    rw [← AList.lookup_isSome, List.mem_iff_getElem?, ← Option.isSome_map, Option.isSome_iff_exists]
    exact exists_congr (hbound pre)
  refine ⟨c', hc', hwalked.nodes, hmem, ?_, ?_, ?_⟩
  · intro pre id hid
    exact hholds.getNode_of_stored ((hbound pre id).mp hid)
  · intro pre tab htab
    obtain ⟨id, -, node, hnode, -, r, hr, rfl⟩ := hwalked.entries.only pre tab htab
    exact FixedRangeTab.new_blklist hr (hnew node (List.mem_of_getElem? hnode)).1
  · intro hzero pre
    rw [hmem, mem_storedPrefixes_iff (by simpa using hzero)]
    simp

theorem index_recovered_stopped :
    ∃ σ, DurableRun (putAndGetTx smallParams.A smallParams.hash smallParams.seqNum
          (emptyMap ⟨fun _ => 0, []⟩ smallParams.tabLen))
        (durable (imageOf (emptyMap ⟨fun _ => 0, []⟩ smallParams.tabLen)).values)
        [([1, 2], 64), ([3], 64)] σ ∧
      ∃ c', rebuildFromPersistentNode smallParams (foundCache smallParams none
          (recovered (emptyMap ⟨fun _ => 0, []⟩ smallParams.tabLen) (.ofValues σ.view))) = .ok c' ∧
        ∀ pre, pre ∈ c'.prefix2range ↔
          ∃ c ∈ [(([1, 2] : Bytes), (64 : UInt64)), ([3], 64)], c.1 = pre := by
  have hstart : DurableRun (putAndGetTx smallParams.A smallParams.hash smallParams.seqNum
      (emptyMap ⟨fun _ => 0, []⟩ smallParams.tabLen))
      (durable (imageOf (emptyMap ⟨fun _ => 0, []⟩ smallParams.tabLen)).values) [] _ := .start
  have hfirst := hstart.commits (a := ([1, 2], 64)) rfl
  have hstopped := hfirst.stopped (a := ([3], 64)) rfl (List.take_prefix 9 _) .throws
  have hagain := hstopped.commits (a := ([3], 64)) rfl
  obtain ⟨c', hc', -, -, -, -, hmem⟩ :=
    index_recovered smallParams none _ hagain (by decide) (.inl rfl)
  exact ⟨_, hagain, c', hc', hmem (by decide)⟩

end FixedRangeChunkBasedNVMWriteCache

end RangeCache
