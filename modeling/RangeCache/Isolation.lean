import RangeCache.Compaction
import RangeCache.PrefixKeys
import RangeCache.WriteCache

/-!
# Isolation of the ranges

Ranges share a pool, a persistent map and a volatile map, and nothing but the allocator keeps them
apart. The invariant `CacheOk` says that the volatile map binds exactly the prefixes of the
persistent one, each to its own node; every operation on a range is a `RangeStep`, which writes to
the buffer of its node and to fresh objects only. So an append to one range leaves all others alone.

The operations on a tab are those of a writer and a compaction; nothing calls `SetExtraBuf` or
`Release`. The states are those behind the null pointer that construction runs into: `Reachable`
starts from the initialising transaction and reopens through the rebuild branch, as the two branches
of the constructor do.

## Main definitions

* `RangeStep` — what an operation on a tab, or its construction, can change
* `CacheOk` — the invariant of the cache
* `CacheOp`, `step`, `Reachable` — the cache under any interleaving of operations and restarts
* `Isolated` — the other ranges are as they were, and all ranges are apart

## Main results

* `Reachable.cacheOk` — the invariant holds in every reachable state
* `rebuild_spec`, `boundNode_reopen` — rebuilding binds every prefix to the node it had
* `appendToRange_isolated` — an append that fits succeeds and is isolated
-/

namespace RangeCache

open ByteMemory RecordLog ChainHeap FallibleRun

/-! ## Steps of a range -/

/-- A step on a range over the node `nv`: of the node it changes the data length at most, and of
the objects allocated before it the buffer at most. -/
structure RangeStep (pool : Pool) (id : ℕ) (nv : NvRangeTab) (s : RangeState) : Prop where
  nonVolatileTab : s.tab.nonVolatileTab = id
  nv_eq : ∃ d, s.nv = { nv with dataLen := d }
  live : ∀ e ∈ pool.live, e ∈ s.pool.live
  same : ∀ e ∈ pool.live, e.Disjoint nv.bufExtent → e.SameOn pool.mem s.pool.mem

namespace FixedRangeTab

theorem AppendStep.rangeStep {s s' : RangeState} {a : AppendArgs} (h : AppendStep s a s') :
    RangeStep s.pool s.tab.nonVolatileTab s.nv s' := by
  refine ⟨by rw [h.tab], ⟨_, h.nv⟩, h.pool.live, ?_⟩
  intro e he hdis
  have hfits := h.fits
  rw [Fits, ← Record.length_encode] at hfits
  have hblock : e.SameOn s.pool.mem (writeBlock s a).mem :=
    Extent.SameOn.of_write hdis (Nat.le_add_right _ _)
      (show s.nv.buf + s.nv.dataLen + _ ≤ s.nv.buf + s.nv.bufSize by omega)
  exact hblock.trans (h.pool.same e he)

/-- Every operation on a tab is a step of its range. -/
theorem step_rangeStep {A : Allocator} {icmp : Bytes → Bytes → Ordering}
    {opts : FixedRangeBasedOptions} {s s' : RangeState} {op : TabOp}
    (h : step A icmp opts s op = .ok s') : RangeStep s.pool s.tab.nonVolatileTab s.nv s' := by
  obtain ⟨a, -, hstep⟩ | ⟨working, -, rfl⟩ | ⟨-, rfl⟩ := step_cases h
  · exact hstep.rangeStep
  · exact ⟨rfl, ⟨_, rfl⟩, fun e he => he, fun e _ _ => Extent.SameOn.refl e _⟩
  · exact ⟨rfl, ⟨_, rfl⟩, fun e he => he, fun e _ _ => Extent.SameOn.refl e _⟩

/-- The construction of a tab writes to the buffer of its node at most. -/
theorem new_frame {opts : FixedRangeBasedOptions} {pool : Pool} {id : ℕ} {nv : NvRangeTab}
    {s : RangeState} (h : new opts pool id nv = .ok s) {e : Extent}
    (hdis : e.Disjoint nv.bufExtent) : e.SameOn pool.mem s.pool.mem := by
  obtain ⟨-, hsize, rfl⟩ | ⟨-, blks, -, rfl⟩ := new_eq_ok.mp h
  · exact Extent.SameOn.of_write hdis le_rfl (Nat.add_le_add_left hsize nv.buf)
  · exact Extent.SameOn.refl e _

/-- So it is a step of its range, and it does not change the node. -/
theorem new_rangeStep {opts : FixedRangeBasedOptions} {pool : Pool} {id : ℕ} {nv : NvRangeTab}
    {s : RangeState} (h : new opts pool id nv = .ok s) : s.nv = nv ∧ RangeStep pool id nv s := by
  have hframe : ∀ e ∈ pool.live, e.Disjoint nv.bufExtent → e.SameOn pool.mem s.pool.mem :=
    fun e _ hdis => new_frame h hdis
  obtain ⟨-, -, rfl⟩ | ⟨-, blks, -, rfl⟩ := new_eq_ok.mp h
  · exact ⟨rfl, rfl, ⟨_, rfl⟩, fun e he => he, hframe⟩
  · exact ⟨rfl, rfl, ⟨_, rfl⟩, fun e he => he, hframe⟩

/-- A tab over a node without data can be constructed when the header fits. -/
theorem new_of_dataLen_zero (opts : FixedRangeBasedOptions) (pool : Pool) (id : ℕ)
    {nv : NvRangeTab} (hlen : nv.dataLen = 0) (hsize : 16 ≤ nv.bufSize) :
    ∃ s, new opts pool id nv = .ok s := by
  by_cases hseq : nv.seqNum = 0
  · exact ⟨_, (new_of_seqNum_zero opts hseq).trans (if_pos hsize)⟩
  · rw [new, if_neg hseq, rebuildBlkList_of_le (by rw [hlen]; exact Nat.zero_le _), ok_bind]
    exact ⟨_, rfl⟩

end FixedRangeTab

/-! ## Steps under the map -/

namespace PmemHashMap

/-- Replacing an entry by one that looks alike changes no image. -/
theorem map_set_of_eq {α β : Type*} {f : α → β} {l : List α} {i : ℕ} {a b : α}
    (ha : l[i]? = some a) (hf : f b = f a) : (l.set i b).map f = l.map f := by
  obtain ⟨hi, rfl⟩ := List.getElem?_eq_some_iff.mp ha
  rw [List.map_set, hf, ← List.getElem_map f (h := by simpa using hi), List.set_getElem_self]

/-- Where an object found after an overwrite comes from. -/
theorem getElem?_set_cases {α : Type*} {l : List α} {i j : ℕ} {a b : α}
    (h : (l.set i a)[j]? = some b) : j = i ∧ b = a ∨ j ≠ i ∧ l[j]? = some b := by
  by_cases hj : i = j
  · subst hj
    have hi : i < l.length := by simpa using (List.getElem?_eq_some_iff.mp h).1
    rw [List.getElem?_set_self hi] at h
    exact .inl ⟨rfl, (Option.some.inj h).symm⟩
  · rw [List.getElem?_set_ne hj] at h
    exact .inr ⟨Ne.symm hj, h⟩

section Update

variable {hash : Bytes → ℕ} {s : MapState} {ps : List Bytes}

/-- The objects of different nodes are apart. -/
theorem MapHolds.disjoint_extents (h : MapHolds hash s ps) {i j : ℕ} {m n : Node}
    (hi : s.nodes[i]? = some m) (hj : s.nodes[j]? = some n) (hij : i ≠ j) {e f : Extent}
    (he : e ∈ extents m) (hf : f ∈ extents n) : e.Disjoint f := by
  obtain ⟨hlti, rfl⟩ := List.getElem?_eq_some_iff.mp hi
  obtain ⟨hltj, rfl⟩ := List.getElem?_eq_some_iff.mp hj
  have hpair := List.pairwise_iff_getElem.mp (List.pairwise_flatMap.mp h.disjoint).2
  rcases Nat.lt_or_gt_of_ne hij with hlt | hlt
  · exact hpair i j hlti hltj hlt e he f hf
  · exact (hpair j i hltj hlti hlt f hf e he).symm

/-- So are the prefix and the buffer of one node. -/
theorem MapHolds.disjoint_prefixExtent (h : MapHolds hash s ps) {n : Node} (hn : n ∈ s.nodes) :
    (prefixExtent n).Disjoint n.bufExtent := by
  have hpair := (List.pairwise_flatMap.mp h.disjoint).1 n hn
  simpa [extents] using hpair

/-- **A step of one range keeps the map.** -/
theorem MapHolds.update (h : MapHolds hash s ps) {id : ℕ} {node : Node}
    (hnode : s.nodes[id]? = some node) {r : RangeState}
    (hr : RangeStep s.pool id node.toNvRangeTab r) :
    MapHolds hash { pool := r.pool, nodes := s.nodes.set id { node with toNvRangeTab := r.nv },
                    map := s.map } ps := by
  obtain ⟨d, hnv⟩ := hr.nv_eq
  obtain ⟨node', hnode'⟩ : ∃ node' : Node, node' = { node with toNvRangeTab := r.nv } := ⟨_, rfl⟩
  have hextents : extents node' = extents node := by rw [hnode', hnv]; rfl
  have hlinks : (node'.next, slotOf s.map.tabLen node')
      = (node.next, slotOf s.map.tabLen node) := by rw [hnode', hnv]; rfl
  have hmem : node ∈ s.nodes := List.mem_of_getElem? hnode
  rw [← hnode']
  refine ⟨h.tab_length, h.tabLen_pos, h.table.congr (map_set_of_eq hnode hlinks), ?_, ?_, ?_, ?_,
    h.distinct⟩
  · rw [List.length_set]
    exact h.length
  · intro j n p hn hp
    rcases getElem?_set_cases hn with ⟨rfl, rfl⟩ | ⟨hj, hn⟩
    · have hold := (h.stores j node p hnode hp).sameOn
        (hr.same _ (h.live node hmem _ (prefixExtent_mem_extents node))
          (h.disjoint_prefixExtent hmem))
      rw [hnode', hnv]
      exact ⟨hold.hash, hold.prefixLen, hold.bytes⟩
    · refine (h.stores j n p hn hp).sameOn (hr.same _
        (h.live n (List.mem_of_getElem? hn) _ (prefixExtent_mem_extents n)) ?_)
      exact h.disjoint_extents hn hnode hj (prefixExtent_mem_extents n)
        (bufExtent_mem_extents node)
  · intro n hn e he
    obtain ⟨j, hj⟩ := List.getElem?_of_mem hn
    rcases getElem?_set_cases hj with ⟨-, rfl⟩ | ⟨-, hj⟩
    · rw [hextents] at he
      exact hr.live e (h.live node hmem e he)
    · exact hr.live e (h.live n (List.mem_of_getElem? hj) e he)
  · simp only [List.flatMap_def]
    rw [map_set_of_eq hnode hextents]
    exact h.disjoint

/-- Constructing a tab keeps the map, and its nodes. -/
theorem MapHolds.construct (h : MapHolds hash s ps) {id : ℕ} {node : Node}
    (hnode : s.nodes[id]? = some node) {r : RangeState} (hnv : r.nv = node.toNvRangeTab)
    (hr : RangeStep s.pool id node.toNvRangeTab r) :
    MapHolds hash { pool := r.pool, nodes := s.nodes, map := s.map } ps := by
  have hupdate := h.update hnode hr
  have hsame : s.nodes.set id { node with toNvRangeTab := r.nv } = s.nodes := by
    obtain ⟨hid, rfl⟩ := List.getElem?_eq_some_iff.mp hnode
    rw [hnv]
    exact List.set_getElem_self hid
  rw [hsame] at hupdate
  exact hupdate

end Update

end PmemHashMap

/-! ## The invariant of the cache -/

namespace FixedRangeChunkBasedNVMWriteCache

open PmemHashMap

/-- The prefixes are bound to the nodes at their positions in a list. -/
def BoundTo (ps : List Bytes) (tabs : AList fun _ : Bytes => FixedRangeTab) : Prop :=
  ∀ p tab, tabs.lookup p = some tab → ps[tab.nonVolatileTab]? = some p

theorem BoundTo.insert {ps : List Bytes} {tabs : AList fun _ : Bytes => FixedRangeTab}
    (h : BoundTo ps tabs) {pre : Bytes} {tab : FixedRangeTab}
    (htab : ps[tab.nonVolatileTab]? = some pre) : BoundTo ps (tabs.insert pre tab) := by
  intro p t ht
  by_cases hp : p = pre
  · subst hp
    rw [AList.lookup_insert] at ht
    obtain rfl := Option.some.inj ht
    exact htab
  · rw [AList.lookup_insert_ne hp] at ht
    exact h p t ht

/-- Binding a prefix unbinds none. -/
theorem exists_lookup_insert {tabs : AList fun _ : Bytes => FixedRangeTab} {p pre : Bytes}
    (tab : FixedRangeTab) (h : p = pre ∨ ∃ t, tabs.lookup p = some t) :
    ∃ t, (tabs.insert pre tab).lookup p = some t := by
  by_cases hp : p = pre
  · subst hp
    exact ⟨tab, AList.lookup_insert tabs⟩
  · obtain ⟨t, ht⟩ := h.resolve_left hp
    exact ⟨t, (AList.lookup_insert_ne hp).trans ht⟩

/-- **The invariant.** The root is bound, its map `m` holds the prefixes `ps`, and the volatile map
binds exactly these, each to its own node. No node has a key range stored. -/
structure CacheOk (P : CacheParams) (m : PmemHashMap) (ps : List Bytes)
    (c : FixedRangeChunkBasedNVMWriteCache) : Prop where
  pinfo : c.pinfo = .root
  rangeMap : c.pop.root.rangeMap = some m
  holds : MapHolds P.hash { pool := c.pop.pool, nodes := c.pop.nodes, map := m } ps
  zeroFree : ∀ p ∈ ps, 0 ∉ p
  keyRange : ∀ node ∈ c.pop.nodes, node.keyRange = none
  bound : BoundTo ps c.prefix2range
  complete : ∀ p ∈ ps, ∃ tab, c.prefix2range.lookup p = some tab

/-- The node is the same in both pools: its fields, the bytes of its buffer, its key range. -/
def NodeKept (pop pop' : PersistentPool) (id : ℕ) : Prop :=
  ∃ node, pop.nodes[id]? = some node ∧ pop'.nodes[id]? = some node ∧
    node.bufExtent.SameOn pop.pool.mem pop'.pool.mem ∧
    FixedRangeTab.getRealRange pop'.pool.mem node.toNvRangeTab =
      FixedRangeTab.getRealRange pop.pool.mem node.toNvRangeTab

theorem NodeKept.refl {pop : PersistentPool} {id : ℕ} (hid : id < pop.nodes.length) :
    NodeKept pop pop id :=
  ⟨_, List.getElem?_eq_getElem hid, List.getElem?_eq_getElem hid, Extent.SameOn.refl _ _, rfl⟩

theorem NodeKept.trans {pop₁ pop₂ pop₃ : PersistentPool} {id : ℕ} (h : NodeKept pop₁ pop₂ id)
    (h' : NodeKept pop₂ pop₃ id) : NodeKept pop₁ pop₃ id := by
  obtain ⟨node, hnode₁, hnode₂, hsame, hrange⟩ := h
  obtain ⟨node', hnode₂', hnode₃, hsame', hrange'⟩ := h'
  rw [hnode₂, Option.some.injEq] at hnode₂'
  subst hnode₂'
  exact ⟨node, hnode₁, hnode₃, hsame.trans hsame', hrange'.trans hrange⟩

section Invariant

variable {P : CacheParams} {m : PmemHashMap} {ps : List Bytes}
  {c : FixedRangeChunkBasedNVMWriteCache}

/-- Different positions hold different prefixes. -/
theorem CacheOk.index_unique (h : CacheOk P m ps c) {i j : ℕ} {p : Bytes} (hi : ps[i]? = some p)
    (hj : ps[j]? = some p) : i = j :=
  h.holds.distinct i j p p hi hj rfl

/-- A prefix is bound to the node at its position. -/
theorem CacheOk.boundNode_iff (h : CacheOk P m ps c) {p : Bytes} {id : ℕ} :
    boundNode c p = some id ↔ ps[id]? = some p := by
  rw [boundNode, Option.map_eq_some_iff]
  constructor
  · rintro ⟨tab, htab, rfl⟩
    exact h.bound p tab htab
  · intro hp
    obtain ⟨tab, htab⟩ := h.complete p (List.mem_of_getElem? hp)
    exact ⟨tab, htab, h.index_unique (h.bound p tab htab) hp⟩

theorem CacheOk.exists_node (h : CacheOk P m ps c) {p : Bytes} {tab : FixedRangeTab}
    (htab : c.prefix2range.lookup p = some tab) :
    ∃ node, c.pop.nodes[tab.nonVolatileTab]? = some node ∧ node ∈ c.pop.nodes := by
  obtain ⟨node, hnode, -⟩ := h.holds.exists_node (h.bound p tab htab)
  exact ⟨node, hnode, List.mem_of_getElem? hnode⟩

/-- A node without a stored range has the empty range in every memory. -/
theorem getRealRange_of_none {m m' : Memory} {nv : NvRangeTab} (h : nv.keyRange = none) :
    FixedRangeTab.getRealRange m' nv = FixedRangeTab.getRealRange m nv := by
  simp only [FixedRangeTab.getRealRange, h]

/-- A step of the range over one node keeps all other nodes. -/
theorem CacheOk.nodeKept_of_step (h : CacheOk P m ps c) {id j : ℕ} {node n : Node}
    (hnode : c.pop.nodes[id]? = some node) (hn : c.pop.nodes[j]? = some n) (hj : j ≠ id)
    {r : RangeState} (hr : RangeStep c.pop.pool id node.toNvRangeTab r) {pop' : PersistentPool}
    (hpool : pop'.pool = r.pool) (hn' : pop'.nodes[j]? = some n) : NodeKept c.pop pop' j := by
  have hmem : n ∈ c.pop.nodes := List.mem_of_getElem? hn
  have hbuf := bufExtent_mem_extents n
  refine ⟨n, hn, hn', ?_, getRealRange_of_none (h.keyRange n hmem)⟩
  rw [hpool]
  exact hr.same _ (h.holds.live n hmem _ hbuf)
    (h.holds.disjoint_extents hn hnode hj hbuf (bufExtent_mem_extents node))

/-! ### Operations on one range -/

theorem onRange_eq_ok {pre : Bytes} {tab : FixedRangeTab}
    {op : RangeState → Except Fault RangeState} {c' : FixedRangeChunkBasedNVMWriteCache} :
    onRange c pre tab op = .ok c' ↔ ∃ node s, c.pop.nodes[tab.nonVolatileTab]? = some node ∧
      op { pool := c.pop.pool, nv := node.toNvRangeTab, tab } = .ok s ∧
      c' = c.storeRange pre tab.nonVolatileTab node s := by
  simp only [onRange, deref]
  cases hnode : c.pop.nodes[tab.nonVolatileTab]? with
  | none => simp [bind, Except.bind]
  | some node =>
    rw [ok_bind, bind_eq_ok]
    constructor
    · rintro ⟨s, hs, hc'⟩
      exact ⟨node, s, rfl, hs, (Except.ok.inj hc').symm⟩
    · rintro ⟨node', s, hnode', hs, rfl⟩
      obtain rfl := Option.some.inj hnode'
      exact ⟨s, hs, rfl⟩

/-- **A step of the range of a prefix keeps the invariant.** -/
theorem CacheOk.storeRange (h : CacheOk P m ps c) {pre : Bytes} {tab : FixedRangeTab}
    (htab : c.prefix2range.lookup pre = some tab) {node : Node}
    (hnode : c.pop.nodes[tab.nonVolatileTab]? = some node) {s : RangeState}
    (hs : RangeStep c.pop.pool tab.nonVolatileTab node.toNvRangeTab s) :
    CacheOk P m ps (c.storeRange pre tab.nonVolatileTab node s) := by
  obtain ⟨d, hnv⟩ := hs.nv_eq
  refine ⟨h.pinfo, h.rangeMap, h.holds.update hnode hs, h.zeroFree, ?_, ?_, ?_⟩
  · intro n hn
    rcases List.mem_or_eq_of_mem_set hn with hn | rfl
    · exact h.keyRange n hn
    · show s.nv.keyRange = none
      rw [hnv]
      exact h.keyRange node (List.mem_of_getElem? hnode)
  · exact h.bound.insert (by rw [hs.nonVolatileTab]; exact h.bound pre tab htab)
  · exact fun p hp => exists_lookup_insert s.tab (.inr (h.complete p hp))

/-- It keeps the nodes of all other ranges. -/
theorem CacheOk.nodeKept_storeRange (h : CacheOk P m ps c) {pre : Bytes} {id j : ℕ} {node n : Node}
    (hnode : c.pop.nodes[id]? = some node) (hn : c.pop.nodes[j]? = some n) (hj : j ≠ id)
    {s : RangeState} (hs : RangeStep c.pop.pool id node.toNvRangeTab s) :
    NodeKept c.pop (c.storeRange pre id node s).pop j :=
  h.nodeKept_of_step hnode hn hj hs rfl ((List.getElem?_set_ne (Ne.symm hj)).trans hn)

/-! ### New ranges -/

/-- What `NewRange` leaves behind for a prefix that has no tab: a node of its own, over a buffer
without data. -/
structure Created (c : FixedRangeChunkBasedNVMWriteCache) (pre : Bytes)
    (c' : FixedRangeChunkBasedNVMWriteCache) (tab : FixedRangeTab) (node : Node) : Prop where
  prefix2range : c'.prefix2range = c.prefix2range.insert pre tab
  nodes : c'.pop.nodes[tab.nonVolatileTab]? = some node
  dataLen : node.dataLen = 0
  bufSize : node.bufSize = rangeBufSize.toNat
  kept : ∀ id < c.pop.nodes.length, NodeKept c.pop c'.pop id

/-- Without zero bytes, no other prefix has the identity of a prefix. -/
theorem CacheOk.ident_ne (h : CacheOk P m ps c) {pre : Bytes} (hpre : 0 ∉ pre)
    (hnone : c.prefix2range.lookup pre = none) :
    ∀ p ∈ ps, ident P.hash p ≠ ident P.hash pre := by
  intro p hp hident
  have heq : cstr p = cstr pre := congrArg Prod.snd hident
  rw [cstr_eq_self (h.zeroFree p hp), cstr_eq_self hpre] at heq
  subst heq
  obtain ⟨tab, htab⟩ := h.complete p hp
  rw [hnone] at htab
  cases htab

/-- **One more range keeps the invariant**: the last node of the map holds the new prefix, and the
tab bound to the prefix lies over it. -/
theorem CacheOk.addRange (h : CacheOk P m ps c) {pre : Bytes} (hpre : 0 ∉ pre) {m' : PmemHashMap}
    {pool : Pool} {node : Node} (hkey : node.keyRange = none)
    (hholds : MapHolds P.hash { pool, nodes := c.pop.nodes ++ [node], map := m' } (ps ++ [pre]))
    {tab : FixedRangeTab} (hid : tab.nonVolatileTab = c.pop.nodes.length) :
    CacheOk P m' (ps ++ [pre])
      { c with
        pop := { root := { c.pop.root with rangeMap := some m' }, pool,
                 nodes := c.pop.nodes ++ [node] }
        prefix2range := c.prefix2range.insert pre tab } := by
  refine ⟨h.pinfo, rfl, hholds, ?_, ?_, ?_, ?_⟩
  · intro p hp
    rcases List.mem_append.mp hp with hp | hp
    · exact h.zeroFree p hp
    · rw [List.mem_singleton.mp hp]
      exact hpre
  · intro n hn
    rcases List.mem_append.mp hn with hn | hn
    · exact h.keyRange n hn
    · rw [List.mem_singleton.mp hn]
      exact hkey
  · have hold : BoundTo (ps ++ [pre]) c.prefix2range :=
      fun p t ht => getElem?_snoc.mpr (.inl (h.bound p t ht))
    exact hold.insert (by rw [hid, h.holds.length]; exact List.getElem?_concat_length ..)
  · intro p hp
    refine exists_lookup_insert tab ?_
    rcases List.mem_append.mp hp with hp | hp
    · exact .inr (h.complete p hp)
    · exact .inl (List.mem_singleton.mp hp)

/-- Building a tab over a node that was just inserted keeps all older nodes. -/
theorem CacheOk.nodeKept_of_insert (h : CacheOk P m ps c) {s : MapState} {ps' : List Bytes}
    {node : Node} {seqNum : ℕ} {bufSize : UInt64}
    (hins : Inserted { pool := c.pop.pool, nodes := c.pop.nodes, map := m } seqNum bufSize s node)
    (hholds : MapHolds P.hash s ps') {r : RangeState}
    (hr : RangeStep s.pool c.pop.nodes.length node.toNvRangeTab r) {pop' : PersistentPool}
    (hpool : pop'.pool = r.pool) (hnodes : pop'.nodes = s.nodes) {id : ℕ}
    (hlt : id < c.pop.nodes.length) : NodeKept c.pop pop' id := by
  obtain ⟨n, hn⟩ : ∃ n, c.pop.nodes[id]? = some n := ⟨_, List.getElem?_eq_getElem hlt⟩
  have hmem : n ∈ c.pop.nodes := List.mem_of_getElem? hn
  have hbuf := bufExtent_mem_extents n
  have hlive := h.holds.live n hmem _ hbuf
  have hn' : s.nodes[id]? = some n := by
    rw [hins.nodes]
    exact getElem?_snoc.mpr (.inl hn)
  have hnode : s.nodes[c.pop.nodes.length]? = some node := by
    rw [hins.nodes]
    exact List.getElem?_concat_length ..
  have hapart := hholds.disjoint_extents hn' hnode (Nat.ne_of_lt hlt) hbuf
    (bufExtent_mem_extents node)
  refine ⟨n, hn, by rw [hnodes, hn'], ?_, getRealRange_of_none (h.keyRange n hmem)⟩
  rw [hpool]
  exact (hins.pool.same _ hlive).trans (hr.same _ (hins.pool.live _ hlive) hapart)

/-- **`NewRange` succeeds on a prefix without a tab**, and adds it to both maps. -/
theorem CacheOk.newRange (h : CacheOk P m ps c) {pre : Bytes} (hpre : 0 ∉ pre)
    (hnone : c.prefix2range.lookup pre = none) :
    ∃ c' tab node m', newRange P c pre = .ok (c', tab) ∧ Created c pre c' tab node ∧
      CacheOk P m' (ps ++ [pre]) c' := by
  obtain ⟨s, node, hput, hins, hholds⟩ := putAndGet_miss (A := P.A) h.holds
    (h.ident_ne hpre hnone) P.seqNum rangeBufSize
  have hnode : s.nodes[c.pop.nodes.length]? = some node := by
    rw [hins.nodes]
    exact List.getElem?_concat_length ..
  obtain ⟨r, hr⟩ := FixedRangeTab.new_of_dataLen_zero P.opts s.pool c.pop.nodes.length hins.dataLen
    (show 16 ≤ node.bufSize by rw [hins.bufSize]; decide)
  obtain ⟨hnv, hstep⟩ := FixedRangeTab.new_rangeStep hr
  have hid : r.tab.nonVolatileTab = c.pop.nodes.length := hstep.nonVolatileTab
  refine ⟨{ c with
      pop := { root := { c.pop.root with rangeMap := some s.map }, pool := r.pool,
               nodes := s.nodes }
      prefix2range := c.prefix2range.insert pre r.tab }, r.tab, node, s.map, ?_, ?_, ?_⟩
  · have hmem : pre ∉ c.prefix2range := AList.lookup_eq_none.mp hnone
    have hroot : c.root = .ok c.pop.root := by rw [root, h.pinfo]
    rw [FixedRangeChunkBasedNVMWriteCache.newRange, hroot, ok_bind, h.rangeMap, derefPtr, ok_bind,
      hput, ok_bind]
    simp only [deref, hnode, ok_bind, hr, if_neg hmem]
    rfl
  · exact ⟨rfl, by rw [hid]; exact hnode, hins.dataLen, hins.bufSize,
      fun id hlt => h.nodeKept_of_insert hins hholds hstep rfl rfl hlt⟩
  · have hholds' := hholds.construct hnode hnv hstep
    rw [hins.nodes] at hholds' ⊢
    exact h.addRange hpre hins.keyRange hholds' hid

/-! ### Appending -/

/-- The tab that `AppendToRange` works on, found or made, before it appends. -/
structure Ready (P : CacheParams) (c : FixedRangeChunkBasedNVMWriteCache) (pre : Bytes)
    (c' : FixedRangeChunkBasedNVMWriteCache) (tab : FixedRangeTab) (node : Node) : Prop where
  append : ∀ a, appendToRange P c (pre, a) =
    onRange c' pre tab (FixedRangeTab.append P.A P.icmp · a)
  lookup : c'.prefix2range.lookup pre = some tab
  others : ∀ q, q ≠ pre → c'.prefix2range.lookup q = c.prefix2range.lookup q
  nodes : c'.pop.nodes[tab.nonVolatileTab]? = some node
  kept : ∀ id < c.pop.nodes.length, NodeKept c.pop c'.pop id
  /-- A tab that is made is made over a new buffer, one that is found is left alone. -/
  fresh : c.prefix2range.lookup pre = none → node.dataLen = 0 ∧ node.bufSize = rangeBufSize.toNat
  found : ∀ t, c.prefix2range.lookup pre = some t → t = tab ∧ c' = c

/-- **Every prefix without zero bytes gets a tab.** -/
theorem CacheOk.ready (h : CacheOk P m ps c) {pre : Bytes} (hpre : 0 ∉ pre) :
    ∃ c' tab node m' ps', Ready P c pre c' tab node ∧ CacheOk P m' ps' c' := by
  cases hlook : c.prefix2range.lookup pre with
  | none =>
    obtain ⟨c', tab, node, m', hnew, hcreated, hok⟩ := h.newRange hpre hlook
    refine ⟨c', tab, node, m', ps ++ [pre], ⟨?_, ?_, ?_, hcreated.nodes, hcreated.kept, ?_, ?_⟩,
      hok⟩
    · intro a
      simp only [appendToRange, hlook, hnew, ok_bind]
    · rw [hcreated.prefix2range, AList.lookup_insert]
    · intro q hq
      rw [hcreated.prefix2range, AList.lookup_insert_ne hq]
    · intro _
      exact ⟨hcreated.dataLen, hcreated.bufSize⟩
    · intro t ht
      rw [hlook] at ht
      cases ht
  | some tab =>
    obtain ⟨node, hnode, -⟩ := h.exists_node hlook
    refine ⟨c, tab, node, m, ps, ⟨?_, hlook, fun _ _ => rfl, hnode, ?_, ?_, ?_⟩, h⟩
    · intro a
      simp only [appendToRange, hlook]
    · intro id hid
      exact NodeKept.refl hid
    · intro hnone
      rw [hlook] at hnone
      cases hnone
    · intro t ht
      rw [hlook, Option.some.injEq] at ht
      exact ⟨ht.symm, rfl⟩

/-- An operation on the tab of a prefix keeps the invariant. -/
theorem CacheOk.onRange (h : CacheOk P m ps c) {pre : Bytes} {tab : FixedRangeTab}
    (htab : c.prefix2range.lookup pre = some tab) {op : FixedRangeTab.TabOp}
    {c' : FixedRangeChunkBasedNVMWriteCache}
    (hc' : onRange c pre tab (FixedRangeTab.step P.A P.icmp P.opts · op) = .ok c') :
    CacheOk P m ps c' := by
  obtain ⟨node, s, hnode, hs, rfl⟩ := onRange_eq_ok.mp hc'
  exact h.storeRange htab hnode (FixedRangeTab.step_rangeStep hs)

theorem CacheOk.appendToRange (h : CacheOk P m ps c) {pre : Bytes} (hpre : 0 ∉ pre)
    {a : FixedRangeTab.AppendArgs} {c' : FixedRangeChunkBasedNVMWriteCache}
    (hc' : appendToRange P c (pre, a) = .ok c') : ∃ m' ps', CacheOk P m' ps' c' := by
  obtain ⟨c₁, tab, node, m', ps', hready, hok⟩ := h.ready hpre
  rw [hready.append a] at hc'
  have hop : FixedRangeChunkBasedNVMWriteCache.onRange c₁ pre tab
      (FixedRangeTab.step P.A P.icmp P.opts · (.append a)) = .ok c' := hc'
  exact ⟨m', ps', hok.onRange hready.lookup hop⟩

/-! ### Rebuilding -/

/-- The rebuild has walked over the nodes `ids` of the pool of `c`. -/
structure Rebuilding (P : CacheParams) (c : FixedRangeChunkBasedNVMWriteCache) (m : PmemHashMap)
    (ps : List Bytes) (ids : List ℕ) (d : FixedRangeChunkBasedNVMWriteCache) : Prop where
  pinfo : d.pinfo = .root
  root : d.pop.root = c.pop.root
  nodes : d.pop.nodes = c.pop.nodes
  holds : MapHolds P.hash { pool := d.pop.pool, nodes := d.pop.nodes, map := m } ps
  bound : BoundTo ps d.prefix2range
  covers : ∀ id ∈ ids, ∀ p, ps[id]? = some p → ∃ tab, d.prefix2range.lookup p = some tab

/-- A visit binds the prefix of its node. -/
theorem Rebuilding.visit {seen : List ℕ} {id : ℕ} {d d' : FixedRangeChunkBasedNVMWriteCache}
    (h : Rebuilding P c m ps seen d) (hvisit : Visit P d id d') :
    Rebuilding P c m ps (seen ++ [id]) d' := by
  obtain ⟨node, r, hnode, hr, rfl⟩ := hvisit
  obtain ⟨hnv, hstep⟩ := FixedRangeTab.new_rangeStep hr
  have hholds := h.holds.construct hnode hnv hstep
  obtain ⟨p, hp, hstores⟩ := hholds.exists_prefix hnode
  rw [hstores.read_prefix]
  refine ⟨h.pinfo, h.root, h.nodes, hholds,
    h.bound.insert (by rw [hstep.nonVolatileTab]; exact hp), ?_⟩
  intro j hj q hq
  refine exists_lookup_insert r.tab ?_
  rcases List.mem_append.mp hj with hj | hj
  · exact .inr (h.covers j hj q hq)
  · rw [List.mem_singleton.mp hj, hp] at hq
    exact .inl (Option.some.inj hq).symm

/-- **Rebuilding recovers the volatile map**, and changes neither the root nor the nodes. -/
theorem rebuild_spec (h : CacheOk P m ps c) {c' : FixedRangeChunkBasedNVMWriteCache}
    (hc' : rebuildFromPersistentNode P (bindRoot (opened P (some c.pop))) = .ok c') :
    CacheOk P m ps c' ∧ c'.pop.root = c.pop.root ∧ c'.pop.nodes = c.pop.nodes := by
  have hstart : Rebuilding P c m ps [] (bindRoot (opened P (some c.pop))) := by
    refine ⟨rfl, rfl, rfl, h.holds, ?_, ?_⟩
    · intro p tab htab
      rw [bindRoot, opened, AList.lookup_empty] at htab
      cases htab
    · intro id hid
      cases hid
  have hrun : run (rebuildSlot P m) (bindRoot (opened P (some c.pop))) (List.range m.tabLen)
      = .ok c' := by
    rw [rebuildFromPersistentNode, FixedRangeChunkBasedNVMWriteCache.root] at hc'
    obtain ⟨info, hinfo, hc'⟩ := bind_eq_ok.mp hc'
    obtain rfl := Except.ok.inj hinfo
    obtain ⟨m', hm', hc'⟩ := bind_eq_ok.mp hc'
    have hmap : (bindRoot (opened P (some c.pop))).pop.root.rangeMap = some m := h.rangeMap
    rw [hmap] at hm'
    obtain rfl := Except.ok.inj hm'
    exact hc'
  have hend := run_rebuildSlot_visits (fun _ _ hd => hd.nodes) h.holds.table.chain
    (fun _ _ _ _ _ hd hvisit => hd.visit hvisit) hstart hrun
  refine ⟨⟨hend.pinfo, by rw [hend.root]; exact h.rangeMap, hend.holds, h.zeroFree,
    by rw [hend.nodes]; exact h.keyRange, hend.bound, ?_⟩, hend.root, hend.nodes⟩
  -- every node is in the bucket of some slot, so the loop has walked over it
  intro p hp
  obtain ⟨id, hid⟩ := List.getElem?_of_mem hp
  obtain ⟨node, hnode, -⟩ := h.holds.exists_node hid
  refine hend.covers id ?_ p hid
  refine List.mem_flatMap.mpr ⟨slotOf m.tabLen node, ?_, mem_bucket.mpr ⟨node, hnode, rfl⟩⟩
  exact List.mem_range.mpr (Nat.mod_lt _ h.holds.tabLen_pos)

/-- Different prefixes are bound to different nodes with disjoint buffers. -/
theorem CacheOk.apart (h : CacheOk P m ps c) {p q : Bytes} {s t : FixedRangeTab} (hpq : p ≠ q)
    (hs : c.prefix2range.lookup p = some s) (ht : c.prefix2range.lookup q = some t) :
    s.nonVolatileTab ≠ t.nonVolatileTab ∧
      ∃ a b, c.pop.nodes[s.nonVolatileTab]? = some a ∧ c.pop.nodes[t.nonVolatileTab]? = some b ∧
        a.bufExtent.Disjoint b.bufExtent := by
  have hne : s.nonVolatileTab ≠ t.nonVolatileTab := by
    intro heq
    have hq := h.bound q t ht
    rw [← heq, h.bound p s hs] at hq
    exact hpq (Option.some.inj hq)
  obtain ⟨a, ha, -⟩ := h.exists_node hs
  obtain ⟨b, hb, -⟩ := h.exists_node ht
  exact ⟨hne, a, b, ha, hb,
    h.holds.disjoint_extents ha hb hne (bufExtent_mem_extents a) (bufExtent_mem_extents b)⟩

end Invariant

/-! ## Reachable states -/

/-- What can happen to a cache: its own operations, an operation on one of its tabs by a compaction,
and a restart. -/
inductive CacheOp where
  | appendToRange (pre : Bytes) (a : FixedRangeTab.AppendArgs)
  | maybeNeedCompaction (order : List Bytes) (junk : ℕ × ℕ)
  | onTab (pre : Bytes) (op : FixedRangeTab.TabOp)
  | reopen

/-- One operation. A restart drops the volatile part and rebuilds it over the same pool. -/
def step (P : CacheParams) (c : FixedRangeChunkBasedNVMWriteCache) :
    CacheOp → Except Fault FixedRangeChunkBasedNVMWriteCache
  | .appendToRange pre a => appendToRange P c (pre, a)
  | .maybeNeedCompaction order junk => maybeNeedCompaction order junk c
  | .onTab pre op =>
    match c.prefix2range.lookup pre with
    | none => .error .outOfRange
    | some tab => onRange c pre tab (FixedRangeTab.step P.A P.icmp P.opts · op)
  | .reopen => rebuildFromPersistentNode P (bindRoot (opened P (some c.pop)))

/-- Prefixes have no zero bytes. -/
def CacheOp.ZeroFree : CacheOp → Prop
  | .appendToRange pre _ => 0 ∉ pre
  | _ => True

/-- The cache after the initialising transaction. -/
def fresh (P : CacheParams) : FixedRangeChunkBasedNVMWriteCache :=
  initialise P (bindRoot (opened P none))

/-- The states that operations lead to, in any order, from a new cache. -/
inductive Reachable (P : CacheParams) : FixedRangeChunkBasedNVMWriteCache → Prop where
  | fresh : Reachable P (fresh P)
  | step {c c' : FixedRangeChunkBasedNVMWriteCache} (op : CacheOp) : Reachable P c → op.ZeroFree →
      step P c op = .ok c' → Reachable P c'

section Reach

variable {P : CacheParams} {c c' : FixedRangeChunkBasedNVMWriteCache}

theorem cacheOk_fresh (P : CacheParams) :
    CacheOk P { tabLen := P.tabLen, tab := List.replicate P.tabLen none } [] (fresh P) where
  pinfo := rfl
  rangeMap := rfl
  holds := mapHolds_empty _ P.tabLen_pos
  zeroFree := by simp
  keyRange := by simp [fresh, initialise, bindRoot, opened, create]
  bound := by
    intro p tab htab
    rw [fresh, initialise, bindRoot, opened, AList.lookup_empty] at htab
    cases htab
  complete := by simp

/-- Choosing a range for compaction changes the queue at most. -/
theorem maybeNeedCompaction_inv {order : List Bytes} {junk : ℕ × ℕ}
    (h : maybeNeedCompaction order junk c = .ok c') :
    ∃ queue, c' = { c with rangeQueue := queue } := by
  rw [maybeNeedCompaction] at h
  obtain ⟨info, -, h⟩ := bind_eq_ok.mp h
  obtain ⟨allocator, -, h⟩ := bind_eq_ok.mp h
  split at h
  · obtain ⟨pending, -, h⟩ := bind_eq_ok.mp h
    exact ⟨_, (Except.ok.inj h).symm⟩
  · exact ⟨_, (Except.ok.inj h).symm⟩

/-- **Every operation keeps the invariant.** -/
theorem step_cacheOk {m : PmemHashMap} {ps : List Bytes} {op : CacheOp} (h : CacheOk P m ps c)
    (hop : op.ZeroFree) (hc' : step P c op = .ok c') : ∃ m' ps', CacheOk P m' ps' c' := by
  cases op with
  | appendToRange pre a => exact h.appendToRange hop hc'
  | maybeNeedCompaction order junk =>
    obtain ⟨queue, rfl⟩ := maybeNeedCompaction_inv hc'
    exact ⟨m, ps, h.pinfo, h.rangeMap, h.holds, h.zeroFree, h.keyRange, h.bound, h.complete⟩
  | onTab pre op =>
    simp only [step] at hc'
    split at hc'
    · cases hc'
    · next tab htab => exact ⟨m, ps, h.onRange htab hc'⟩
  | reopen => exact ⟨m, ps, (rebuild_spec h hc').1⟩

/-- **The invariant holds in every reachable state.** -/
theorem Reachable.cacheOk (h : Reachable P c) : ∃ m ps, CacheOk P m ps c := by
  induction h with
  | fresh => exact ⟨_, [], cacheOk_fresh P⟩
  | step op _ hop hc' ih =>
    obtain ⟨m, ps, hok⟩ := ih
    exact step_cacheOk hok hop hc'

/-- **A restart binds every prefix to the node it had.** -/
theorem boundNode_reopen (h : Reachable P c) (hc' : step P c .reopen = .ok c') :
    boundNode c' = boundNode c := by
  obtain ⟨m, ps, hok⟩ := h.cacheOk
  obtain ⟨hok', -⟩ := rebuild_spec hok hc'
  funext pre
  ext id
  rw [hok.boundNode_iff, hok'.boundNode_iff]

/-! ## Isolation -/

/-- The chunk fits behind the data of the range, or into a new buffer. -/
def FitsRange (c : FixedRangeChunkBasedNVMWriteCache) (pre : Bytes)
    (a : FixedRangeTab.AppendArgs) : Prop :=
  match c.prefix2range.lookup pre with
  | none => a.record.size 8 ≤ rangeBufSize.toNat
  | some tab => ∀ node, c.pop.nodes[tab.nonVolatileTab]? = some node →
      node.dataLen + a.record.size 8 ≤ node.bufSize

/-- **Ranges are isolated** by a call for the prefix `pre` that leads from `c` to `c'`. -/
structure Isolated (c c' : FixedRangeChunkBasedNVMWriteCache) (pre : Bytes) : Prop where
  /-- Other prefixes are bound to the same tabs, with the same lists of blocks. -/
  others : ∀ q, q ≠ pre → c'.prefix2range.lookup q = c.prefix2range.lookup q
  /-- Their nodes are the same, with the same buffers and key ranges. -/
  kept : ∀ q tab, q ≠ pre → c.prefix2range.lookup q = some tab →
    NodeKept c.pop c'.pop tab.nonVolatileTab
  /-- The prefix is bound to one tab. -/
  one : ∃! tab, ⟨pre, tab⟩ ∈ c'.prefix2range.entries
  /-- Any two prefixes are bound to different nodes with disjoint buffers. -/
  apart : ∀ p q s t, p ≠ q → c'.prefix2range.lookup p = some s →
    c'.prefix2range.lookup q = some t → s.nonVolatileTab ≠ t.nonVolatileTab ∧
      ∃ a b, c'.pop.nodes[s.nonVolatileTab]? = some a ∧
        c'.pop.nodes[t.nonVolatileTab]? = some b ∧ a.bufExtent.Disjoint b.bufExtent

/-- What the append finds fits, once the tab is ready. -/
theorem Ready.fits {pre : Bytes} {tab : FixedRangeTab} {node : Node}
    (h : Ready P c pre c' tab node) {a : FixedRangeTab.AppendArgs} (hfits : FitsRange c pre a) :
    node.dataLen + a.record.size 8 ≤ node.bufSize := by
  rw [FitsRange] at hfits
  split at hfits
  · next hnone =>
    obtain ⟨hlen, hsize⟩ := h.fresh hnone
    rw [hlen, hsize, Nat.zero_add]
    exact hfits
  · next t ht =>
    obtain ⟨rfl, rfl⟩ := h.found t ht
    exact hfits node h.nodes

/-- **An append that fits succeeds, and is isolated.** -/
theorem appendToRange_isolated (hc : Reachable P c) {pre : Bytes} (hpre : 0 ∉ pre)
    {a : FixedRangeTab.AppendArgs} (hfits : FitsRange c pre a) :
    ∃ c', appendToRange P c (pre, a) = .ok c' ∧ Isolated c c' pre := by
  obtain ⟨m, ps, hok⟩ := hc.cacheOk
  obtain ⟨c₁, tab, node, m₁, ps₁, hready, hok₁⟩ := hok.ready hpre
  obtain ⟨s, hs, happend⟩ := FixedRangeTab.append_of_fits P.A P.icmp
    (s := { pool := c₁.pop.pool, nv := node.toNvRangeTab, tab }) (hready.fits hfits)
  have hstep := happend.rangeStep
  have hok' := hok₁.storeRange hready.lookup hready.nodes hstep
  refine ⟨c₁.storeRange pre tab.nonVolatileTab node s, ?_, ?_, ?_, ?_, ?_⟩
  · rw [hready.append a]
    exact onRange_eq_ok.mpr ⟨node, s, hready.nodes, hs, rfl⟩
  · intro q hq
    rw [← hready.others q hq]
    exact AList.lookup_insert_ne hq
  · intro q t hq ht
    have ht₁ : c₁.prefix2range.lookup q = some t := (hready.others q hq).trans ht
    obtain ⟨hne, n, -, hn, -⟩ := hok₁.apart hq ht₁ hready.lookup
    obtain ⟨n₀, hn₀, -⟩ := hok.exists_node ht
    have hlt := (List.getElem?_eq_some_iff.mp hn₀).1
    exact (hready.kept _ hlt).trans (hok₁.nodeKept_storeRange hready.nodes hn hne hstep)
  · refine ⟨s.tab, AList.mem_lookup_iff.mp (AList.lookup_insert _), ?_⟩
    intro t ht
    have hlook := AList.mem_lookup_iff.mpr ht
    rw [storeRange, AList.lookup_insert] at hlook
    exact (Option.some.inj hlook).symm
  · intro p q t u hpq ht hu
    exact hok'.apart hpq ht hu

end Reach

/-- The second range of a new cache. -/
theorem appendToRange_isolated_small :
    ∃ c c', appendToRange smallParams (fresh smallParams) ([2], FixedRangeTab.smallAppend) = .ok c ∧
      appendToRange smallParams c ([1], FixedRangeTab.smallAppend) = .ok c' ∧
      Isolated c c' [1] := by
  have hsize : FixedRangeTab.smallAppend.record.size 8 ≤ rangeBufSize.toNat := by decide
  obtain ⟨c, hc, hisolated⟩ := appendToRange_isolated (P := smallParams) .fresh
    (show 0 ∉ [2] by decide) (show FitsRange _ [2] FixedRangeTab.smallAppend from hsize)
  have hnone : c.prefix2range.lookup [1] = none := hisolated.others [1] (by decide)
  have hreach : Reachable smallParams c :=
    .step (.appendToRange [2] FixedRangeTab.smallAppend) .fresh (show 0 ∉ [2] by decide) hc
  have hfits : FitsRange c [1] FixedRangeTab.smallAppend := by
    rw [FitsRange, hnone]
    exact hsize
  obtain ⟨c', hc', hisolated'⟩ := appendToRange_isolated hreach (show 0 ∉ [1] by decide) hfits
  exact ⟨c, c', hc, hc', hisolated'⟩

end FixedRangeChunkBasedNVMWriteCache

end RangeCache
