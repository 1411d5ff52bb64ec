import RangeCache.Isolation
import RangeCache.LogParsing

/-!
# Rebuilding from any persistent table

`RebuildFromPersistentNode` walks the chains of all slots and builds a tab over each node. The walk
itself misses nothing, whatever the shape of the table. But a tab over a node that is not new reads
its index from the log, and that loop follows the length fields of the log unchecked: over a torn
one it leaves the buffer or never ends, and then no range is recovered.

## Main definitions

* `FixedRangeTab.LogEnds`, `FixedRangeTab.Ready` — the length fields lead past `dataLen`, and the
  constructor of a tab returns
* `PersistentTable` — a table of any shape, over nodes with objects and prefixes of their own
* `RecoversEach` — rebuilding returns, and leaves exactly one tab for each node

## Main results

* `rebuildBlkList_returns_iff`, `new_returns_iff` — when the loop and the constructor return
* `PersistentTable.walked_of_rebuild` — the walk visits every node of the table
* `recoversEach_iff` — rebuilding recovers every range exactly if the constructor returns over each
* `CacheOk.persistentTable` — the tables of the cache are such tables
-/

namespace RangeCache

open ByteMemory ChainHeap FallibleRun

/-! ## When a tab can be built -/

namespace FixedRangeTab

/-- Where the next block begins, if one begins at `o`. -/
def nextOffset (opts : FixedRangeBasedOptions) (m : Memory) (nv : NvRangeTab) (o : ℕ) : ℕ :=
  u64 (o + opts.chunkBloomBits + 8 + decodeFixed64 m (nv.buf + u64 (o + opts.chunkBloomBits)))

/-- The length fields lead from the block at `o` to or past `dataLen`, and are all in the buffer. -/
inductive LogEnds (opts : FixedRangeBasedOptions) (m : Memory) (nv : NvRangeTab) : ℕ → Prop where
  | stop {o : ℕ} : nv.dataLen ≤ o → LogEnds opts m nv o
  | block {o : ℕ} : o < nv.dataLen → u64 (o + opts.chunkBloomBits) + 8 ≤ nv.bufSize →
      LogEnds opts m nv (nextOffset opts m nv o) → LogEnds opts m nv o

/-- The constructor can build a tab over the node: the header fits into a new one, and the log of
another one ends. -/
def Ready (opts : FixedRangeBasedOptions) (m : Memory) (nv : NvRangeTab) : Prop :=
  (nv.seqNum = 0 ∧ 16 ≤ nv.bufSize) ∨ (nv.seqNum ≠ 0 ∧ LogEnds opts m nv 16)

section Returns

variable {opts : FixedRangeBasedOptions} {m m' : Memory} {nv : NvRangeTab} {pool pool' : Pool}
  {id : ℕ}

/-- The offset, while it is one of a block. -/
def blockAt (nv : NvRangeTab) (o : ℕ) : Option ℕ := if o < nv.dataLen then some o else none

/-- A loop that returned has followed the log to its end. -/
theorem logEnds_of_rebuildLoop {fuel o : ℕ} {blks blks' : List ChunkBlk}
    (h : rebuildLoop opts m nv fuel o blks = .ok blks') : LogEnds opts m nv o := by
  induction fuel generalizing o blks with
  | zero =>
    rw [rebuildLoop] at h
    split at h
    · cases h
    · next hge => exact .stop (Nat.not_lt.mp hge)
  | succ fuel ih =>
    rw [rebuildLoop] at h
    split at h
    · next hlt =>
      simp only at h
      split at h
      · next hin => exact .block hlt hin (ih h)
      · cases h
    · next hge => exact .stop (Nat.not_lt.mp hge)

/-- On a log that ends, the offsets of the blocks form a chain, and the loop returns if it has a
turn for each of them. -/
theorem LogEnds.rebuildLoop {o : ℕ} (h : LogEnds opts m nv o) :
    ∃ offsets, Chain (fun o => blockAt nv (nextOffset opts m nv o)) (List.range nv.dataLen)
        (blockAt nv o) offsets ∧
      ∀ fuel blks, offsets.length ≤ fuel →
        ∃ blks', FixedRangeTab.rebuildLoop opts m nv fuel o blks = .ok blks' := by
  induction h with
  | @stop o hge =>
    refine ⟨[], ?_, fun fuel blks _ => ⟨blks, ?_⟩⟩
    · rw [blockAt, if_neg (Nat.not_lt.mpr hge)]
      exact .nil
    · cases fuel with
      | zero => exact if_neg (Nat.not_lt.mpr hge)
      | succ fuel => exact if_neg (Nat.not_lt.mpr hge)
  | @block o hlt hin _ ih =>
    obtain ⟨offsets, hchain, hreturns⟩ := ih
    refine ⟨o :: offsets, ?_, fun fuel blks hfuel => ?_⟩
    · rw [blockAt, if_pos hlt]
      exact .cons (by rw [List.getElem?_range hlt]) hchain
    · obtain ⟨fuel, rfl⟩ : ∃ k, fuel = k + 1 := ⟨fuel - 1, by simp at hfuel; omega⟩
      rw [FixedRangeTab.rebuildLoop, if_pos hlt]
      simp only
      rw [if_pos hin]
      exact hreturns fuel _ (by simpa using hfuel)

/-- **When `RebuildBlkList` returns**: when the length fields lead past `dataLen`. No offset comes
twice on the way, so `dataLen` turns are enough. -/
theorem rebuildBlkList_returns_iff {blks : List ChunkBlk} :
    (∃ blks', rebuildBlkList opts m nv blks = .ok blks') ↔ LogEnds opts m nv 16 := by
  constructor
  · rintro ⟨blks', h⟩
    exact logEnds_of_rebuildLoop h
  · intro h
    obtain ⟨offsets, hchain, hreturns⟩ := h.rebuildLoop
    exact hreturns nv.dataLen blks (by simpa using hchain.length_le)

/-- Over a log in the format of the range it does. -/
theorem HoldsLog.logEnds (h : HoldsLog opts m nv) (hle : nv.dataLen ≤ nv.bufSize) :
    LogEnds opts m nv 16 := by
  have hsafe : RebuildSafe opts m nv [] := rebuildSafe_of_holdsLog hle h
  obtain ⟨added, hadded, -⟩ := hsafe
  exact rebuildBlkList_returns_iff.mp ⟨_, hadded⟩

/-- **When the constructor returns.** -/
theorem new_returns_iff :
    (∃ s, new opts pool id nv = .ok s) ↔ Ready opts pool.mem nv := by
  constructor
  · rintro ⟨s, hs⟩
    obtain ⟨hseq, hsize, -⟩ | ⟨hseq, blks, hblks, -⟩ := new_eq_ok.mp hs
    · exact .inl ⟨hseq, hsize⟩
    · exact .inr ⟨hseq, rebuildBlkList_returns_iff.mp ⟨blks, hblks⟩⟩
  · rintro (⟨hseq, hsize⟩ | ⟨hseq, hends⟩)
    · exact ⟨_, new_eq_ok.mpr (.inl ⟨hseq, hsize, rfl⟩)⟩
    · obtain ⟨blks, hblks⟩ := rebuildBlkList_returns_iff.mpr hends
      exact ⟨_, new_eq_ok.mpr (.inr ⟨hseq, blks, hblks, rfl⟩)⟩

/-- The loop reads the buffer of its node only. -/
theorem rebuildLoop_congr (h : nv.bufExtent.SameOn m m') (fuel o : ℕ) (blks : List ChunkBlk) :
    rebuildLoop opts m' nv fuel o blks = rebuildLoop opts m nv fuel o blks := by
  induction fuel generalizing o blks with
  | zero => rfl
  | succ fuel ih =>
    rw [rebuildLoop, rebuildLoop]
    refine if_congr Iff.rfl ?_ rfl
    simp only
    by_cases hin : u64 (o + opts.chunkBloomBits) + 8 ≤ nv.bufSize
    · have hread : read m' (nv.buf + u64 (o + opts.chunkBloomBits)) 8
          = read m (nv.buf + u64 (o + opts.chunkBloomBits)) 8 :=
        h.read (Nat.le_add_right _ _)
          (show nv.buf + u64 (o + opts.chunkBloomBits) + 8 ≤ nv.buf + nv.bufSize by omega)
      rw [if_pos hin, if_pos hin, decodeFixed64, decodeFixed64, hread, ih]
    · rw [if_neg hin, if_neg hin]

/-- So the tab over a node depends on no other bytes, and on none at all if the node is new. -/
theorem new_congr {s : RangeState} (h : nv.seqNum ≠ 0 → nv.bufExtent.SameOn pool.mem pool'.mem)
    (hs : new opts pool id nv = .ok s) : ∃ s', new opts pool' id nv = .ok s' ∧ s'.tab = s.tab := by
  obtain ⟨hseq, hsize, rfl⟩ | ⟨hseq, blks, hblks, rfl⟩ := new_eq_ok.mp hs
  · exact ⟨_, new_eq_ok.mpr (.inl ⟨hseq, hsize, rfl⟩), rfl⟩
  · refine ⟨_, new_eq_ok.mpr (.inr ⟨hseq, blks, ?_, rfl⟩), rfl⟩
    rw [← hblks]
    exact rebuildLoop_congr (h hseq) _ _ _

end Returns

end FixedRangeTab

/-! ## Tables of any shape -/

namespace FixedRangeChunkBasedNVMWriteCache

open PmemHashMap

/-- The nodes of a table whose slot `b` heads the chain `chains b`, in the order of the walk. -/
def tableNodes (m : PmemHashMap) (chains : ℕ → List ℕ) : List ℕ :=
  (List.range m.tabLen).flatMap chains

/-- The prefix that a node stores: its `prefixLen` bytes. -/
def prefixOf (c : FixedRangeChunkBasedNVMWriteCache) (node : Node) : Bytes :=
  read c.pop.pool.mem node.prefixBuf node.prefixLen

/-- **A persistent table**, before anything is recovered from it. Every slot heads a chain that
ends; the nodes have their objects to themselves and store different prefixes. -/
structure PersistentTable (c : FixedRangeChunkBasedNVMWriteCache) (m : PmemHashMap)
    (chains : ℕ → List ℕ) : Prop where
  pinfo : c.pinfo = .root
  rangeMap : c.pop.root.rangeMap = some m
  empty : c.prefix2range = ∅
  tab_length : m.tab.length = m.tabLen
  chain : ∀ b head, m.tab[b]? = some head → Chain Node.next c.pop.nodes head (chains b)
  own : ∀ i ∈ tableNodes m chains, ∀ a, c.pop.nodes[i]? = some a →
    (prefixExtent a).Disjoint a.bufExtent
  apart : ∀ i ∈ tableNodes m chains, ∀ j ∈ tableNodes m chains, i ≠ j → ∀ a b,
    c.pop.nodes[i]? = some a → c.pop.nodes[j]? = some b →
      ∀ e ∈ extents a, ∀ f ∈ extents b, e.Disjoint f
  distinct : ∀ i ∈ tableNodes m chains, ∀ j ∈ tableNodes m chains, ∀ a b,
    c.pop.nodes[i]? = some a → c.pop.nodes[j]? = some b → prefixOf c a = prefixOf c b → i = j

/-- The tab is the one that the constructor builds over the node, as it is in the pool of `c`. -/
def OverNode (P : CacheParams) (c : FixedRangeChunkBasedNVMWriteCache) (id : ℕ) (node : Node)
    (tab : FixedRangeTab) : Prop :=
  ∃ s, FixedRangeTab.new P.opts c.pop.pool id node.toNvRangeTab = .ok s ∧ s.tab = tab

/-- The entries of a volatile map are one for each of the nodes `ids`: its prefix, and a tab over
it. -/
structure OneEach (P : CacheParams) (c : FixedRangeChunkBasedNVMWriteCache) (ids : List ℕ)
    (tabs : AList fun _ : Bytes => FixedRangeTab) : Prop where
  entry : ∀ id ∈ ids, ∀ node, c.pop.nodes[id]? = some node →
    ∃ tab, tabs.lookup (prefixOf c node) = some tab ∧ OverNode P c id node tab
  only : ∀ pre tab, tabs.lookup pre = some tab → ∃ id ∈ ids, ∃ node,
    c.pop.nodes[id]? = some node ∧ prefixOf c node = pre ∧ OverNode P c id node tab

/-- **Every range is recovered exactly once**: rebuilding returns, and the entries it leaves are one
for each node. -/
def RecoversEach (P : CacheParams) (c : FixedRangeChunkBasedNVMWriteCache) (ids : List ℕ) : Prop :=
  ∃ c', rebuildFromPersistentNode P c = .ok c' ∧ OneEach P c ids c'.prefix2range

/-! ## The walk -/

/-- The walk over the table has visited the nodes `seen`. The prefixes are untouched, and so are the
buffers of the nodes that are not new. -/
structure Walked (P : CacheParams) (c : FixedRangeChunkBasedNVMWriteCache) (ids seen : List ℕ)
    (d : FixedRangeChunkBasedNVMWriteCache) : Prop where
  nodes : d.pop.nodes = c.pop.nodes
  visited : seen ⊆ ids
  prefixes : ∀ id ∈ ids, ∀ node, c.pop.nodes[id]? = some node →
    (prefixExtent node).SameOn c.pop.pool.mem d.pop.pool.mem
  buffers : ∀ id ∈ ids, ∀ node, c.pop.nodes[id]? = some node → node.seqNum ≠ 0 →
    node.bufExtent.SameOn c.pop.pool.mem d.pop.pool.mem
  entries : OneEach P c seen d.prefix2range

section Walk

variable {P : CacheParams} {c d d' : FixedRangeChunkBasedNVMWriteCache} {m : PmemHashMap}
  {chains : ℕ → List ℕ} {seen : List ℕ} {id : ℕ} {node : Node} {r : RangeState}

/-- Along the walk, the constructor does what it does over the node at the start. -/
theorem Walked.new_congr {ids : List ℕ} (h : Walked P c ids seen d) (hid : id ∈ ids)
    (hnode : c.pop.nodes[id]? = some node)
    (hr : FixedRangeTab.new P.opts d.pop.pool id node.toNvRangeTab = .ok r) :
    OverNode P c id node r.tab :=
  FixedRangeTab.new_congr (fun hseq => (h.buffers id hid node hnode hseq).symm) hr

/-- A node of the table can be visited at any time exactly if a tab can be built over it. -/
theorem Walked.exists_visit_iff {ids : List ℕ} (h : Walked P c ids seen d) (hid : id ∈ ids)
    (hnode : c.pop.nodes[id]? = some node) :
    (∃ d', Visit P d id d') ↔ FixedRangeTab.Ready P.opts c.pop.pool.mem node.toNvRangeTab := by
  rw [← FixedRangeTab.new_returns_iff]
  constructor
  · rintro ⟨d', node', r, hnode', hr, -⟩
    rw [h.nodes, hnode, Option.some.injEq] at hnode'
    subst hnode'
    obtain ⟨s, hs, -⟩ := h.new_congr hid hnode hr
    exact ⟨s, hs⟩
  · rintro ⟨s, hs⟩
    obtain ⟨r, hr, -⟩ := FixedRangeTab.new_congr (h.buffers id hid node hnode) hs
    exact ⟨_, node, r, by rw [h.nodes, hnode], hr, rfl⟩

/-- Building a tab over a node of the table touches no stored prefix. -/
theorem PersistentTable.prefix_sameOn (ht : PersistentTable c m chains)
    (hid : id ∈ tableNodes m chains) (hnode : c.pop.nodes[id]? = some node) {pool : Pool}
    (hr : FixedRangeTab.new P.opts pool id node.toNvRangeTab = .ok r) {j : ℕ} {a : Node}
    (hj : j ∈ tableNodes m chains) (ha : c.pop.nodes[j]? = some a) :
    (prefixExtent a).SameOn pool.mem r.pool.mem := by
  refine FixedRangeTab.new_frame hr ?_
  by_cases hji : j = id
  · subst hji
    obtain rfl := Option.some.inj (hnode.symm.trans ha)
    exact ht.own j hj node hnode
  · exact ht.apart j hj id hid hji a node ha hnode _ (prefixExtent_mem_extents a) _
      (bufExtent_mem_extents node)

/-- It touches no buffer but its own, and its own only if the node is new. -/
theorem PersistentTable.buffer_sameOn (ht : PersistentTable c m chains)
    (hid : id ∈ tableNodes m chains) (hnode : c.pop.nodes[id]? = some node) {pool : Pool}
    (hr : FixedRangeTab.new P.opts pool id node.toNvRangeTab = .ok r) {j : ℕ} {a : Node}
    (hj : j ∈ tableNodes m chains) (ha : c.pop.nodes[j]? = some a) (hseq : a.seqNum ≠ 0) :
    a.bufExtent.SameOn pool.mem r.pool.mem := by
  by_cases hji : j = id
  · subst hji
    obtain rfl := Option.some.inj (hnode.symm.trans ha)
    obtain ⟨hzero, -⟩ | ⟨-, blks, -, rfl⟩ := FixedRangeTab.new_eq_ok.mp hr
    · exact absurd hzero hseq
    · exact Extent.SameOn.refl _ _
  · exact FixedRangeTab.new_frame hr (ht.apart j hj id hid hji a node ha hnode _
      (bufExtent_mem_extents a) _ (bufExtent_mem_extents node))

/-- A node whose prefix no other one stores gets an entry of its own. -/
theorem OneEach.insert {tabs : AList fun _ : Bytes => FixedRangeTab} {tab : FixedRangeTab}
    (h : OneEach P c seen tabs) (hnode : c.pop.nodes[id]? = some node)
    (hover : OverNode P c id node tab)
    (hdistinct : ∀ j ∈ seen, ∀ a, c.pop.nodes[j]? = some a →
      prefixOf c a = prefixOf c node → j = id) :
    OneEach P c (seen ++ [id]) (tabs.insert (prefixOf c node) tab) := by
  constructor
  · intro j hj a ha
    by_cases hji : j = id
    · subst hji
      obtain rfl := Option.some.inj (hnode.symm.trans ha)
      exact ⟨tab, AList.lookup_insert _, hover⟩
    · have hold : j ∈ seen := (List.mem_append.mp hj).resolve_right (by simpa using hji)
      obtain ⟨tab', htab', hover'⟩ := h.entry j hold a ha
      have hne : prefixOf c a ≠ prefixOf c node := fun heq => hji (hdistinct j hold a ha heq)
      exact ⟨tab', (AList.lookup_insert_ne hne).trans htab', hover'⟩
  · intro pre tab' htab'
    by_cases hpre : pre = prefixOf c node
    · subst hpre
      rw [AList.lookup_insert] at htab'
      obtain rfl := Option.some.inj htab'
      exact ⟨id, by simp, node, hnode, rfl, hover⟩
    · rw [AList.lookup_insert_ne hpre] at htab'
      obtain ⟨j, hj, a, ha⟩ := h.only pre tab' htab'
      exact ⟨j, List.mem_append_left _ hj, a, ha⟩

/-- **Each visit adds one entry.** -/
theorem Walked.visit (ht : PersistentTable c m chains)
    (h : Walked P c (tableNodes m chains) seen d) (hid : id ∈ tableNodes m chains)
    (hvisit : Visit P d id d') : Walked P c (tableNodes m chains) (seen ++ [id]) d' := by
  obtain ⟨node, r, hnode, hr, rfl⟩ := hvisit
  rw [h.nodes] at hnode
  have hprefixes : ∀ j ∈ tableNodes m chains, ∀ a, c.pop.nodes[j]? = some a →
      (prefixExtent a).SameOn c.pop.pool.mem r.pool.mem := fun j hj a ha =>
    (h.prefixes j hj a ha).trans (ht.prefix_sameOn hid hnode hr hj ha)
  have hread : read r.pool.mem node.prefixBuf node.prefixLen = prefixOf c node :=
    (hprefixes id hid node hnode).read le_rfl
      (Nat.add_le_add_left (Nat.le_succ node.prefixLen) node.prefixBuf)
  rw [hread]
  refine ⟨h.nodes, ?_, hprefixes, fun j hj a ha hseq => ?_, ?_⟩
  · exact List.append_subset.mpr ⟨h.visited, List.cons_subset.mpr ⟨hid, List.nil_subset _⟩⟩
  · exact (h.buffers j hj a ha hseq).trans (ht.buffer_sameOn hid hnode hr hj ha hseq)
  · exact h.entries.insert hnode (h.new_congr hid hnode hr) fun j hj a ha =>
      ht.distinct j (h.visited hj) id hid a node ha hnode

/-- Before the walk nothing is recovered. -/
theorem PersistentTable.start (ht : PersistentTable c m chains) :
    Walked P c (tableNodes m chains) [] c where
  nodes := rfl
  visited := List.nil_subset _
  prefixes := fun _ _ _ _ => Extent.SameOn.refl _ _
  buffers := fun _ _ _ _ _ => Extent.SameOn.refl _ _
  entries := by
    refine ⟨by simp, fun pre tab htab => ?_⟩
    rw [ht.empty, AList.lookup_empty] at htab
    cases htab

/-- Rebuilding is the loop over all slots. -/
theorem PersistentTable.rebuild_eq (ht : PersistentTable c m chains) :
    rebuildFromPersistentNode P c = run (rebuildSlot P m) c (List.range m.tabLen) := by
  rw [rebuildFromPersistentNode, root, ht.pinfo, ok_bind, ht.rangeMap, derefPtr, ok_bind]

theorem PersistentTable.exists_node (ht : PersistentTable c m chains)
    (hid : id ∈ tableNodes m chains) : ∃ node, c.pop.nodes[id]? = some node := by
  obtain ⟨b, hb, hmem⟩ := List.mem_flatMap.mp hid
  have hlt : b < m.tab.length := by
    rw [ht.tab_length]
    exact List.mem_range.mp hb
  exact ⟨_, List.getElem?_eq_getElem
    ((ht.chain b _ (List.getElem?_eq_getElem hlt)).lt_length hmem)⟩

/-- **A rebuild that returns has visited every node of the table.** -/
theorem PersistentTable.walked_of_rebuild (ht : PersistentTable c m chains)
    (hd' : rebuildFromPersistentNode P c = .ok d') :
    Walked P c (tableNodes m chains) (tableNodes m chains) d' := by
  rw [ht.rebuild_eq] at hd'
  exact run_rebuildSlot_visits (fun _ _ h => h.nodes) ht.chain
    (fun _ hid _ _ _ h hvisit => h.visit ht hid hvisit) ht.start hd'

/-- **When rebuilding returns**: when a tab can be built over every node. -/
theorem PersistentTable.rebuild_returns_iff (ht : PersistentTable c m chains) :
    (∃ c', rebuildFromPersistentNode P c = .ok c') ↔ ∀ id ∈ tableNodes m chains, ∀ node,
      c.pop.nodes[id]? = some node →
        FixedRangeTab.Ready P.opts c.pop.pool.mem node.toNvRangeTab := by
  constructor
  · rintro ⟨c', hc'⟩ id hid node hnode
    obtain ⟨tab, -, s, hs, -⟩ := (ht.walked_of_rebuild hc').entries.entry id hid node hnode
    exact FixedRangeTab.new_returns_iff.mp ⟨s, hs⟩
  · intro hready
    rw [ht.rebuild_eq]
    refine run_rebuildSlot_returns (fun _ _ h => h.nodes) ht.chain
      (fun _ hid _ _ _ h hvisit => h.visit ht hid hvisit) (fun id hid _ _ h => ?_)
      (fun b hb => ?_) ht.start
    · obtain ⟨node, hnode⟩ := ht.exists_node hid
      exact (h.exists_visit_iff hid hnode).mpr (hready id hid node hnode)
    · rw [ht.tab_length]
      exact List.mem_range.mp hb

/-- **When rebuilding recovers every range.** -/
theorem recoversEach_iff (ht : PersistentTable c m chains) :
    RecoversEach P c (tableNodes m chains) ↔ ∀ id ∈ tableNodes m chains, ∀ node,
      c.pop.nodes[id]? = some node →
        FixedRangeTab.Ready P.opts c.pop.pool.mem node.toNvRangeTab := by
  rw [← ht.rebuild_returns_iff]
  constructor
  · rintro ⟨c', hc', -⟩
    exact ⟨c', hc'⟩
  · rintro ⟨c', hc'⟩
    exact ⟨c', hc', (ht.walked_of_rebuild hc').entries⟩

/-- **The tables of the cache** are such tables, after any run and with nothing recovered. -/
theorem CacheOk.persistentTable {ps : List Bytes} (h : CacheOk P m ps c) :
    PersistentTable (bindRoot (opened P (some c.pop))) m
      (bucket (slotOf m.tabLen) c.pop.nodes) where
  pinfo := rfl
  rangeMap := h.rangeMap
  empty := rfl
  tab_length := h.holds.tab_length
  chain := h.holds.table.chain
  own := fun _ _ _ ha => h.holds.disjoint_prefixExtent (List.mem_of_getElem? ha)
  apart := fun _ _ _ _ hij _ _ ha hb _ he _ hf => h.holds.disjoint_extents ha hb hij he hf
  distinct := by
    intro i _ j _ a b ha hb heq
    obtain ⟨p, hp, hstoresp⟩ := h.holds.exists_prefix ha
    obtain ⟨q, hq, hstoresq⟩ := h.holds.exists_prefix hb
    have hpq : p = q := hstoresp.read_prefix.symm.trans (heq.trans hstoresq.read_prefix)
    exact h.index_unique hp (hpq ▸ hq)

end Walk

/-! ### A table with a collision and an empty slot -/

/-- The node `i` of the table: its buffer, and its prefix of one byte, lie in the `i`-th 512 bytes.
-/
def threeNode (i seqNum : ℕ) (next : Option ℕ) : Node :=
  { FixedRangeTab.smallNv 16 with
    buf := 512 * i, prefixLen := 1, prefixBuf := 513 * i + 257, seqNum, next }

/-- The slot `0` heads two nodes, the slot `1` none, and the slot `2` one, which is not new. -/
def threeMap : PmemHashMap := { tabLen := 3, tab := [some 1, none, some 2] }

def threeChains (b : ℕ) : List ℕ := if b = 0 then [1, 0] else if b = 2 then [2] else []

def threeTable : FixedRangeChunkBasedNVMWriteCache where
  pop :=
    { root := { inited := true, rangeMap := some threeMap, allocator := none }
      pool := { mem := fun a => UInt8.ofNat a, live := [] }
      nodes := [threeNode 0 0 none, threeNode 1 0 (some 0), threeNode 2 1 none] }
  pinfo := .root
  prefix2range := ∅
  rangeQueue := []

theorem threeTable_node {i : ℕ} {a : Node} (ha : threeTable.pop.nodes[i]? = some a) :
    i < 3 ∧ ∃ seqNum next, a = threeNode i seqNum next := by
  match i, ha with
  | 0, ha => exact ⟨by decide, 0, none, (Option.some.inj ha).symm⟩
  | 1, ha => exact ⟨by decide, 0, some 0, (Option.some.inj ha).symm⟩
  | 2, ha => exact ⟨by decide, 1, none, (Option.some.inj ha).symm⟩

/-- The objects of a node lie in its 512 bytes. -/
theorem threeNode_within {i seqNum : ℕ} {next : Option ℕ} (hi : i < 3) {e : Extent}
    (he : e ∈ extents (threeNode i seqNum next)) :
    512 * i ≤ e.base ∧ e.base + e.size ≤ 512 * (i + 1) := by
  rcases List.mem_pair.mp he with rfl | rfl
  · simp only [prefixExtent, threeNode]
    omega
  · simp only [NvRangeTab.bufExtent, threeNode, FixedRangeTab.smallNv]
    omega

theorem persistentTable_threeTable : PersistentTable threeTable threeMap threeChains where
  pinfo := rfl
  rangeMap := rfl
  empty := rfl
  tab_length := rfl
  chain := by
    intro b head hhead
    match b, hhead with
    | 0, hhead =>
      obtain rfl := Option.some.inj hhead
      exact .cons rfl (.cons rfl .nil)
    | 1, hhead =>
      obtain rfl := Option.some.inj hhead
      exact .nil
    | 2, hhead =>
      obtain rfl := Option.some.inj hhead
      exact .cons rfl .nil
  own := by
    intro i _ a ha x hx
    obtain ⟨hi, seqNum, next, rfl⟩ := threeTable_node ha
    simp only [prefixExtent, NvRangeTab.bufExtent, threeNode, FixedRangeTab.smallNv] at hx
    omega
  apart := by
    intro i _ j _ hij a b ha hb e he f hf x hx
    obtain ⟨hi, _, _, rfl⟩ := threeTable_node ha
    obtain ⟨hj, _, _, rfl⟩ := threeTable_node hb
    have hwithin := threeNode_within hi he
    have hwithin' := threeNode_within hj hf
    omega
  distinct := by
    intro i _ j _ a b ha hb heq
    obtain ⟨hi, _, _, rfl⟩ := threeTable_node ha
    obtain ⟨hj, _, _, rfl⟩ := threeTable_node hb
    have hbyte : UInt8.ofNat (513 * i + 257) = UInt8.ofNat (513 * j + 257) :=
      List.head_eq_of_cons_eq heq
    have hmod := congrArg UInt8.toNat hbyte
    simp only [UInt8.toNat_ofNat'] at hmod
    omega

/-- Every range of the table is recovered: two nodes are new, and the log of the third one ends at
its header. -/
theorem recoversEach_iff_threeTable :
    tableNodes threeMap threeChains = [1, 0, 2] ∧
      RecoversEach smallParams threeTable (tableNodes threeMap threeChains) := by
  refine ⟨rfl, (recoversEach_iff persistentTable_threeTable).mpr fun id _ node hnode => ?_⟩
  match id, hnode with
  | 0, hnode =>
    obtain rfl := Option.some.inj hnode
    exact .inl ⟨rfl, by decide⟩
  | 1, hnode =>
    obtain rfl := Option.some.inj hnode
    exact .inl ⟨rfl, by decide⟩
  | 2, hnode =>
    obtain rfl := Option.some.inj hnode
    exact .inr ⟨by decide, .stop le_rfl⟩

/-! ### A table with one node -/

/-- A node for a prefix of one byte, over the small buffer, whose log ends at `d`. -/
def oneNode (seqNum d : ℕ) : Node :=
  { FixedRangeTab.smallNv d with prefixLen := 1, prefixBuf := 256, seqNum, next := none }

def oneMap : PmemHashMap := { tabLen := 1, tab := [some 0] }

def oneTable (mem : Memory) (node : Node) : FixedRangeChunkBasedNVMWriteCache where
  pop :=
    { root := { inited := true, rangeMap := some oneMap, allocator := none }
      pool := { mem, live := [] }
      nodes := [node] }
  pinfo := .root
  prefix2range := ∅
  rangeQueue := []

theorem persistentTable_oneTable (mem : Memory) (seqNum d : ℕ) :
    PersistentTable (oneTable mem (oneNode seqNum d)) oneMap fun _ => [0] := by
  have hzero : ∀ i ∈ tableNodes oneMap fun _ => [0], i = 0 := by decide
  refine ⟨rfl, rfl, rfl, rfl, fun b head hhead => ?_, fun i hi a ha => ?_,
    fun i hi j hj hij => ?_, fun i hi j hj _ _ _ _ _ => ?_⟩
  · rw [show head = some 0 from List.mem_singleton.mp (List.mem_of_getElem? hhead)]
    exact .cons rfl .nil
  · rw [hzero i hi] at ha
    obtain rfl := Option.some.inj ha
    intro x hx
    have hlow : 256 ≤ x := hx.1.1
    have hhigh : x < 0 + 256 := hx.2.2
    omega
  · exact absurd ((hzero i hi).trans (hzero j hj).symm) hij
  · exact (hzero i hi).trans (hzero j hj).symm

/-- Over a torn log, rebuilding does not end. -/
theorem rebuild_diverges_oneTable :
    PersistentTable (oneTable FixedRangeTab.tornMemory (oneNode 1 40)) oneMap (fun _ => [0]) ∧
      ¬ RecoversEach smallParams (oneTable FixedRangeTab.tornMemory (oneNode 1 40))
        (tableNodes oneMap fun _ => [0]) := by
  refine ⟨persistentTable_oneTable _ 1 40, ?_⟩
  rintro ⟨c', hc', -⟩
  have hdiverges : rebuildFromPersistentNode smallParams
      (oneTable FixedRangeTab.tornMemory (oneNode 1 40)) = .error .diverges := by rfl
  rw [hdiverges] at hc'
  cases hc'

end FixedRangeChunkBasedNVMWriteCache

end RangeCache
