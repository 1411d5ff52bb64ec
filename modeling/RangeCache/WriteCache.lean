import Mathlib.Data.List.AList
import RangeCache.Lib.RoundEven
import RangeCache.PmemHashMap
import RangeCache.RangeLog

/-!
# The write cache

`FixedRangeChunkBasedNVMWriteCache` keeps one range for each prefix. Its pool holds a root object
with the persistent map; its volatile part maps prefixes to tabs and queues ranges for compaction.
Construction creates or opens the pool and then either initialises the root or rebuilds the tabs
from the persistent map.

An object behind a persistent pointer is the value of an `Option` field, `none` when the pointer is
null. `prefix2range` is declared to hold tabs and is filled with pointers to them; here the tab is
stored under its prefix, which stands for the pointer. The parameters of the model are what the
source leaves open (`_range_map->tabLen = ;`, `data_space`, `newhead->seq_num_ = ?`) and what it
takes from outside: allocator, hash, comparator, options. `allocated_bits_` and `POOLSIZE` are never
read, and `LAYOUT` only names the pool; they are left out.

## Main definitions

* `PersistentInfo`, `PersistentPool`, `FixedRangeChunkBasedNVMWriteCache`
* `construct`, `initialise`, `rebuildFromPersistentNode`
* `appendToRange`, `newRange`, `maybeNeedCompaction`
* `SurvivesRestart` — what a restart promises of a run

## Main results

* `run_rebuildSlot_visits`, `run_rebuildSlot_returns` — the walk of a rebuild, by its visits
* `construct_nullDeref` — construction reads `inited_` through a null pointer, on every file
* `not_survivesRestart` — so no run survives a restart
-/

namespace RangeCache

open ByteMemory ChainHeap FallibleRun

/-! ## The persistent part -/

structure PersistentAllocator where
  raw : ℕ
  totalSize : ℕ
  cur : ℕ

namespace PersistentAllocator

def new (rawSpace totalSize : ℕ) : PersistentAllocator := { raw := rawSpace, totalSize, cur := 0 }

def remain (a : PersistentAllocator) : ℕ := u64 (a.totalSize + (2 ^ 64 - a.cur))

def capacity (a : PersistentAllocator) : ℕ := a.totalSize

/-- A `uint64_t` as a `double`, whose significand has 53 bits. -/
def toDouble (n : ℕ) : ℕ := RoundEven.roundEven 53 n

/-- The test of `MaybeNeedCompaction`, `Remain() < Capacity() * 0.75`, in quarters: the product is
rounded once more, and a factor of 4 changes no significand. -/
def NeedsCompaction (a : PersistentAllocator) : Prop :=
  4 * toDouble a.remain < toDouble (3 * toDouble a.capacity)

instance : DecidablePred NeedsCompaction := fun a =>
  inferInstanceAs (Decidable (4 * toDouble a.remain < toDouble (3 * toDouble a.capacity)))

/-- With less left, it still is needed. -/
theorem NeedsCompaction.of_le {a a' : PersistentAllocator} (h : a.NeedsCompaction)
    (hremain : a'.remain ≤ a.remain) (hcapacity : a'.capacity = a.capacity) :
    a'.NeedsCompaction := by
  rw [NeedsCompaction, hcapacity]
  exact lt_of_le_of_lt
    (Nat.mul_le_mul_left 4 (RoundEven.roundEven_mono (Nat.succ_pos 52) hremain)) h

/-- It is not needed when nothing has been taken. -/
theorem not_needsCompaction_of_full {a : PersistentAllocator} (h : a.remain = a.capacity) :
    ¬ a.NeedsCompaction := by
  have hround := RoundEven.roundEven_error (Nat.succ_pos 52) (3 * toDouble a.capacity)
  rw [← toDouble] at hround
  rw [NeedsCompaction, h]
  omega

end PersistentAllocator

/-- The root object. -/
structure PersistentInfo where
  inited : Bool
  rangeMap : Option PmemHashMap
  allocator : Option PersistentAllocator

/-- A pool file: its root object, its bytes, and the nodes allocated in it. -/
structure PersistentPool where
  root : PersistentInfo
  pool : Pool
  nodes : List Node

/-- `pinfo_` is null until it is bound to the root of the pool. -/
inductive RootPtr where
  | null
  | root
  deriving DecidableEq, Repr

/-- Dereference a pointer whose object is at hand. -/
def derefPtr {α : Type} : Option α → Except Fault α
  | some a => .ok a
  | none => .error .nullDeref

/-! ## The volatile part -/

structure Usage where
  chunkNum : ℕ
  rangeSize : ℕ
  start : Bytes
  stop : Bytes

structure CompactionItem where
  pendingCompatedRange : Option Bytes
  startKey : Bytes
  endKey : Bytes
  rangeSize : ℕ
  chunkNum : ℕ

structure FixedRangeChunkBasedNVMWriteCache where
  pop : PersistentPool
  pinfo : RootPtr
  prefix2range : AList fun _ : Bytes => FixedRangeTab
  rangeQueue : List CompactionItem

/-- What the cache is built with. -/
structure CacheParams where
  A : Allocator
  hash : Bytes → ℕ
  icmp : Bytes → Bytes → Ordering
  opts : FixedRangeBasedOptions
  /-- `seq_num_` of a new node. -/
  seqNum : ℕ
  /-- `tabLen` of a new map. -/
  tabLen : ℕ
  /-- `data_space`, the space the persistent allocator manages. -/
  dataSpace : ℕ
  pmemSize : UInt64
  /-- The bytes of a pool that has just been created. -/
  created : Memory
  tabLen_pos : 0 < tabLen

/-- `RangeUsage`. -/
def FixedRangeTab.rangeUsage (m : Memory) (nv : NvRangeTab) : Usage :=
  let (start, stop) := getRealRange m nv
  { chunkNum := nv.chunkNum, rangeSize := nv.dataLen, start, stop }

namespace FixedRangeChunkBasedNVMWriteCache

open PmemHashMap

/-- The object `pinfo_` points to. -/
def root (c : FixedRangeChunkBasedNVMWriteCache) : Except Fault PersistentInfo :=
  match c.pinfo with
  | .null => .error .nullDeref
  | .root => .ok c.pop.root

/-! ## Appending -/

/-- The cache after an operation on the tab of a prefix, which lies over the node `id`. -/
def storeRange (c : FixedRangeChunkBasedNVMWriteCache) (pre : Bytes) (id : ℕ) (node : Node)
    (s : RangeState) : FixedRangeChunkBasedNVMWriteCache :=
  { c with
    pop := { c.pop with
      pool := s.pool, nodes := c.pop.nodes.set id { node with toNvRangeTab := s.nv } }
    prefix2range := c.prefix2range.insert pre s.tab }

/-- An operation on the tab of a prefix: it works on the tab, its node and the pool. -/
def onRange (c : FixedRangeChunkBasedNVMWriteCache) (pre : Bytes) (tab : FixedRangeTab)
    (op : RangeState → Except Fault RangeState) :
    Except Fault FixedRangeChunkBasedNVMWriteCache := do
  let node ← deref c.pop.nodes tab.nonVolatileTab
  let s ← op { pool := c.pop.pool, nv := node.toNvRangeTab, tab }
  return c.storeRange pre tab.nonVolatileTab node s

/-- The buffer of a new range, `1 << 26` bytes. -/
def rangeBufSize : UInt64 := 67108864

/-- `NewRange`: the cache afterwards, and the new tab. `insert` keeps a tab that is there. -/
def newRange (P : CacheParams) (c : FixedRangeChunkBasedNVMWriteCache) (pre : Bytes) :
    Except Fault (FixedRangeChunkBasedNVMWriteCache × FixedRangeTab) := do
  let info ← c.root
  let rangeMap ← derefPtr info.rangeMap
  let (s, nodeInPmemMap) ← putAndGet P.A P.hash P.seqNum
    { pool := c.pop.pool, nodes := c.pop.nodes, map := rangeMap } pre rangeBufSize
  let node ← deref s.nodes nodeInPmemMap
  let range ← FixedRangeTab.new P.opts s.pool nodeInPmemMap node.toNvRangeTab
  return ({ c with
    pop := { root := { info with rangeMap := some s.map }, pool := range.pool, nodes := s.nodes }
    prefix2range :=
      if pre ∈ c.prefix2range then c.prefix2range else c.prefix2range.insert pre range.tab },
    range.tab)

/-- `AppendToRange`, for the prefix of `meta` and the other arguments. -/
def appendToRange (P : CacheParams) (c : FixedRangeChunkBasedNVMWriteCache)
    (call : Bytes × FixedRangeTab.AppendArgs) :
    Except Fault FixedRangeChunkBasedNVMWriteCache := do
  match c.prefix2range.lookup call.1 with
  | none =>
    let (c, nowRange) ← newRange P c call.1
    onRange c call.1 nowRange (FixedRangeTab.append P.A P.icmp · call.2)
  | some nowRange => onRange c call.1 nowRange (FixedRangeTab.append P.A P.icmp · call.2)

/-! ## Choosing a range for compaction -/

/-- One turn of the loop over the tabs, at the tab of `pre`. `max_range_size` stays zero. -/
def considerRange (c : FixedRangeChunkBasedNVMWriteCache) (pending : Option Bytes × Usage)
    (pre : Bytes) : Except Fault (Option Bytes × Usage) := do
  let maxRangeSize := 0
  match c.prefix2range.lookup pre with
  | none => .error .outOfRange
  | some range =>
    let node ← deref c.pop.nodes range.nonVolatileTab
    let rangeUsage := FixedRangeTab.rangeUsage c.pop.pool.mem node.toNvRangeTab
    return if maxRangeSize < rangeUsage.rangeSize then (some pre, rangeUsage) else pending

/-- `MaybeNeedCompaction`. `order` lists the prefixes in the order of the iteration, and `junk` is
the usage the loop starts with, whose counters are uninitialised. -/
def maybeNeedCompaction (order : List Bytes) (junk : ℕ × ℕ)
    (c : FixedRangeChunkBasedNVMWriteCache) : Except Fault FixedRangeChunkBasedNVMWriteCache := do
  let info ← c.root
  let allocator ← derefPtr info.allocator
  if allocator.NeedsCompaction then
    let (penddingRange, usage) ← run (considerRange c)
      (none, { chunkNum := junk.1, rangeSize := junk.2, start := [], stop := [] }) order
    return { c with rangeQueue := c.rangeQueue ++
      [{ pendingCompatedRange := penddingRange, startKey := usage.start, endKey := usage.stop,
         rangeSize := usage.rangeSize, chunkNum := usage.chunkNum }] }
  else
    return c

/-! ## Construction -/

/-- The walk of `RebuildFromPersistentNode` along one chain. `fuel` bounds the turns. -/
def rebuildChain (P : CacheParams) : (fuel : ℕ) → FixedRangeChunkBasedNVMWriteCache → Option ℕ →
    Except Fault FixedRangeChunkBasedNVMWriteCache
  | _, c, none => .ok c
  | 0, _, some _ => .error .diverges
  | fuel + 1, c, some tmp => do
    let tmpNode ← deref c.pop.nodes tmp
    let recoveredTab ← FixedRangeTab.new P.opts c.pop.pool tmp tmpNode.toNvRangeTab
    let pre := read recoveredTab.pool.mem tmpNode.prefixBuf tmpNode.prefixLen
    rebuildChain P fuel
      { c with
        pop := { c.pop with pool := recoveredTab.pool }
        prefix2range := c.prefix2range.insert pre recoveredTab.tab } tmpNode.next

/-- One turn of the loop of `RebuildFromPersistentNode`, at slot `i`. -/
def rebuildSlot (P : CacheParams) (vhashMap : PmemHashMap) (c : FixedRangeChunkBasedNVMWriteCache)
    (i : ℕ) : Except Fault FixedRangeChunkBasedNVMWriteCache := do
  let pnode ← vectorAt vhashMap.tab i
  rebuildChain P c.pop.nodes.length c pnode

/-- `RebuildFromPersistentNode`. -/
def rebuildFromPersistentNode (P : CacheParams) (c : FixedRangeChunkBasedNVMWriteCache) :
    Except Fault FixedRangeChunkBasedNVMWriteCache := do
  let info ← c.root
  let vhashMap ← derefPtr info.rangeMap
  run (rebuildSlot P vhashMap) c (List.range vhashMap.tabLen)

/-- `pool::create`: no objects, and a root that is all zero. -/
def create (P : CacheParams) : PersistentPool :=
  { root := { inited := false, rangeMap := none, allocator := none },
    pool := { mem := P.created, live := [] }, nodes := [] }

/-- The cache once its pool is created or open; `file` is `none` for an absent file. -/
def opened (P : CacheParams) (file : Option PersistentPool) : FixedRangeChunkBasedNVMWriteCache :=
  { pop := file.getD (create P), pinfo := .null, prefix2range := ∅, rangeQueue := [] }

/-- `pinfo_ = pop_.root()`. -/
def bindRoot (c : FixedRangeChunkBasedNVMWriteCache) : FixedRangeChunkBasedNVMWriteCache :=
  { c with pinfo := .root }

/-- The initialising transaction: an empty map, the allocator, and the mark that it has run. -/
def initialise (P : CacheParams) (c : FixedRangeChunkBasedNVMWriteCache) :
    FixedRangeChunkBasedNVMWriteCache :=
  { c with pop := { c.pop with root :=
    { inited := true,
      rangeMap := some { tabLen := P.tabLen, tab := List.replicate P.tabLen none },
      allocator := some (PersistentAllocator.new P.dataSpace P.pmemSize.toNat) } } }

/-- The constructor. `pinfo_` is bound in one branch of the test that reads `pinfo_->inited_`. -/
def construct (P : CacheParams) (file : Option PersistentPool) :
    Except Fault FixedRangeChunkBasedNVMWriteCache := do
  let c := opened P file
  let info ← c.root
  if !info.inited then
    return initialise P (bindRoot c)
  else
    rebuildFromPersistentNode P c

/-! ### The walk of a rebuild -/

/-- One turn of the walk: a tab is built over the node `id` and stored under its prefix. -/
def Visit (P : CacheParams) (c : FixedRangeChunkBasedNVMWriteCache) (id : ℕ)
    (c' : FixedRangeChunkBasedNVMWriteCache) : Prop :=
  ∃ node r, c.pop.nodes[id]? = some node ∧
    FixedRangeTab.new P.opts c.pop.pool id node.toNvRangeTab = .ok r ∧
    c' = { c with
      pop := { c.pop with pool := r.pool }
      prefix2range :=
        c.prefix2range.insert (read r.pool.mem node.prefixBuf node.prefixLen) r.tab }

section Walk

variable {P : CacheParams} {c c' : FixedRangeChunkBasedNVMWriteCache} {nodes : List Node}
  {I : List ℕ → FixedRangeChunkBasedNVMWriteCache → Prop} {seen : List ℕ}

/-- The walk along a chain visits the node at its head first. -/
theorem rebuildChain_succ {id : ℕ} {node : Node} (hnode : c.pop.nodes[id]? = some node)
    (fuel : ℕ) :
    rebuildChain P (fuel + 1) c (some id) = .ok c' ↔
      ∃ c₁, Visit P c id c₁ ∧ rebuildChain P fuel c₁ node.next = .ok c' := by
  rw [rebuildChain, deref_eq_ok.mpr hnode, ok_bind, bind_eq_ok]
  constructor
  · rintro ⟨r, hr, hc'⟩
    exact ⟨_, ⟨node, r, hnode, hr, rfl⟩, hc'⟩
  · rintro ⟨c₁, ⟨node', r, hnode', hr, rfl⟩, hc'⟩
    obtain rfl : node = node' := Option.some.inj (hnode.symm.trans hnode')
    exact ⟨r, hr, hc'⟩

/-- **What every visit preserves, the walk along a chain preserves.** -/
theorem rebuildChain_visits (hnodes : ∀ seen d, I seen d → d.pop.nodes = nodes)
    {head : Option ℕ} {ids : List ℕ} (hchain : Chain Node.next nodes head ids)
    (hvisit : ∀ id ∈ ids, ∀ seen d d', I seen d → Visit P d id d' → I (seen ++ [id]) d')
    {fuel : ℕ} (h : I seen c) (hc' : rebuildChain P fuel c head = .ok c') :
    I (seen ++ ids) c' := by
  induction hchain generalizing seen fuel c with
  | nil =>
    rw [List.append_nil]
    cases fuel <;> (obtain rfl := Except.ok.inj hc'; exact h)
  | @cons id node ids hnode _ ih =>
    cases fuel with
    | zero => cases hc'
    | succ fuel =>
      rw [← hnodes seen c h] at hnode
      obtain ⟨c₁, hc₁, hc'⟩ := (rebuildChain_succ hnode fuel).mp hc'
      have hend := ih (fun j hj => hvisit j (List.mem_cons_of_mem _ hj))
        (hvisit id (List.mem_cons_self ..) seen c c₁ h hc₁) hc'
      rwa [List.append_assoc, List.singleton_append] at hend

/-- The walk along a chain returns if each of its nodes can be visited. -/
theorem rebuildChain_returns (hnodes : ∀ seen d, I seen d → d.pop.nodes = nodes)
    {head : Option ℕ} {ids : List ℕ} (hchain : Chain Node.next nodes head ids)
    (hvisit : ∀ id ∈ ids, ∀ seen d d', I seen d → Visit P d id d' → I (seen ++ [id]) d')
    (hcan : ∀ id ∈ ids, ∀ seen d, I seen d → ∃ d', Visit P d id d') {fuel : ℕ}
    (hfuel : ids.length ≤ fuel) (h : I seen c) : ∃ c', rebuildChain P fuel c head = .ok c' := by
  induction hchain generalizing seen fuel c with
  | nil => exact ⟨c, by cases fuel <;> rfl⟩
  | @cons id node ids hnode _ ih =>
    obtain ⟨fuel, rfl⟩ : ∃ k, fuel = k + 1 := ⟨fuel - 1, by simp at hfuel; omega⟩
    rw [← hnodes seen c h] at hnode
    obtain ⟨c₁, hc₁⟩ := hcan id (List.mem_cons_self ..) seen c h
    obtain ⟨c', hc'⟩ := ih (fun j hj => hvisit j (List.mem_cons_of_mem _ hj))
      (fun j hj => hcan j (List.mem_cons_of_mem _ hj)) (by simpa using hfuel)
      (hvisit id (List.mem_cons_self ..) seen c c₁ h hc₁)
    exact ⟨c', (rebuildChain_succ hnode fuel).mpr ⟨c₁, hc₁, hc'⟩⟩

variable {m : PmemHashMap} {chains : ℕ → List ℕ} {slots : List ℕ}

/-- **What every visit preserves, the loop over slots preserves.** -/
theorem run_rebuildSlot_visits (hnodes : ∀ seen d, I seen d → d.pop.nodes = nodes)
    (hchain : ∀ b head, m.tab[b]? = some head → Chain Node.next nodes head (chains b))
    (hvisit : ∀ id ∈ slots.flatMap chains, ∀ seen d d', I seen d → Visit P d id d' →
      I (seen ++ [id]) d')
    (h : I seen c) (hc' : run (rebuildSlot P m) c slots = .ok c') :
    I (seen ++ slots.flatMap chains) c' := by
  induction slots generalizing seen c with
  | nil =>
    cases hc'
    simpa using h
  | cons b slots ih =>
    obtain ⟨c₁, hc₁, hc'⟩ := run_cons_ok.mp hc'
    obtain ⟨head, hhead, hwalk⟩ := bind_eq_ok.mp hc₁
    rw [List.flatMap_cons] at hvisit
    have hfirst := rebuildChain_visits hnodes (hchain b head (vectorAt_eq_ok.mp hhead))
      (fun id hid => hvisit id (List.mem_append_left _ hid)) h hwalk
    have hend := ih (fun id hid => hvisit id (List.mem_append_right _ hid)) hfirst hc'
    rwa [List.append_assoc, ← List.flatMap_cons] at hend

/-- The loop over slots returns if each node of their chains can be visited. -/
theorem run_rebuildSlot_returns (hnodes : ∀ seen d, I seen d → d.pop.nodes = nodes)
    (hchain : ∀ b head, m.tab[b]? = some head → Chain Node.next nodes head (chains b))
    (hvisit : ∀ id ∈ slots.flatMap chains, ∀ seen d d', I seen d → Visit P d id d' →
      I (seen ++ [id]) d')
    (hcan : ∀ id ∈ slots.flatMap chains, ∀ seen d, I seen d → ∃ d', Visit P d id d')
    (hslots : ∀ b ∈ slots, b < m.tab.length) (h : I seen c) :
    ∃ c', run (rebuildSlot P m) c slots = .ok c' := by
  induction slots generalizing seen c with
  | nil => exact ⟨c, rfl⟩
  | cons b slots ih =>
    rw [List.flatMap_cons] at hvisit hcan
    obtain ⟨hb, hslots⟩ := List.forall_mem_cons.mp hslots
    have hbucket := hchain b _ (List.getElem?_eq_getElem hb)
    have hvisitb := fun id hid => hvisit id (List.mem_append_left _ hid)
    obtain ⟨c₁, hc₁⟩ := rebuildChain_returns hnodes hbucket hvisitb
      (fun id hid => hcan id (List.mem_append_left _ hid)) hbucket.length_le h
    rw [← hnodes seen c h] at hc₁
    obtain ⟨c', hc'⟩ := ih (fun id hid => hvisit id (List.mem_append_right _ hid))
      (fun id hid => hcan id (List.mem_append_right _ hid)) hslots
      (rebuildChain_visits hnodes hbucket hvisitb h hc₁)
    refine ⟨c', run_cons_ok.mpr ⟨c₁, ?_, hc'⟩⟩
    rw [rebuildSlot, vectorAt_of_lt hb, ok_bind]
    exact hc₁

end Walk

/-! ## Restarting -/

/-- The node that a prefix is bound to. -/
def boundNode (c : FixedRangeChunkBasedNVMWriteCache) (pre : Bytes) : Option ℕ :=
  (c.prefix2range.lookup pre).map FixedRangeTab.nonVolatileTab

/-- The second construction, on the pool of `c`, took the rebuild branch and recovered it. -/
structure Recovered (P : CacheParams) (calls : List (Bytes × FixedRangeTab.AppendArgs))
    (c c' : FixedRangeChunkBasedNVMWriteCache) : Prop where
  constructed : construct P (some c.pop) = .ok c'
  bound : c'.pinfo = .root
  /-- The root says that the transaction has run, so it does not run again. -/
  inited : c.pop.root.inited = true
  rebuilt : rebuildFromPersistentNode P (bindRoot (opened P (some c.pop))) = .ok c'
  rangeMap : c'.pop.root.rangeMap = c.pop.root.rangeMap
  nodes : c'.pop.nodes = c.pop.nodes
  /-- Exactly the prefixes appended to have a tab, over the node they had before. -/
  prefixes : ∀ pre, pre ∈ c'.prefix2range ↔ pre ∈ calls.map Prod.fst
  boundNode : ∀ pre, boundNode c' pre = boundNode c pre

/-- **The cache survives a restart** after a run of `AppendToRange`: it is constructed on an absent
file by the initialising transaction, and whatever state the run ends in, the second construction
recovers it. -/
def SurvivesRestart (P : CacheParams) (calls : List (Bytes × FixedRangeTab.AppendArgs)) : Prop :=
  ∃ c, construct P none = .ok c ∧ c = initialise P (bindRoot (opened P none)) ∧
    ∀ c', run (appendToRange P) c calls = .ok c' → ∃ c'', Recovered P calls c' c''

/-- **Construction dereferences null**, on an absent file and on every pool. -/
theorem construct_nullDeref (P : CacheParams) (file : Option PersistentPool) :
    construct P file = .error .nullDeref := rfl

/-- **No run survives a restart.** -/
theorem not_survivesRestart (P : CacheParams)
    (calls : List (Bytes × FixedRangeTab.AppendArgs)) : ¬ SurvivesRestart P calls := by
  rintro ⟨c, hconstruct, -⟩
  rw [construct_nullDeref] at hconstruct
  cases hconstruct

/-- One bucket, a constant hash, and buffers that start out with zeros. -/
def smallParams : CacheParams where
  A := .bump
  hash _ := 0
  icmp _ _ := .lt
  opts := FixedRangeTab.smallOptions 8 (by decide)
  seqNum := 0
  tabLen := 1
  dataSpace := 0
  pmemSize := 67108864
  created _ := 0
  tabLen_pos := by decide

/-- Constructing the cache on an absent file already fails, before any append. -/
theorem restart_lost_absentFile : ¬ SurvivesRestart smallParams [] := by
  rintro ⟨c, hconstruct, -⟩
  rw [construct_nullDeref smallParams none] at hconstruct
  cases hconstruct

end FixedRangeChunkBasedNVMWriteCache

end RangeCache
