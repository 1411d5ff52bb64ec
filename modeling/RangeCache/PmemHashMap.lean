import Mathlib.Data.List.TakeWhile
import RangeCache.FixedRangeTab
import RangeCache.Lib.ChainHeap
import RangeCache.Lib.FallibleRun

/-!
# The persistent map

`pmem_hash_map` maps prefixes to nodes through a table of singly linked chains. `putAndGet` walks
the chain of the prefix's bucket and compares hashes and, with `strcmp`, C strings; on a miss it
allocates a node and pushes it onto the chain.

A node is a range with a link, so `Node` extends `NvRangeTab`; a `persistent_ptr` to one is its
index in the order of allocation. The hash function is a parameter, as is the number that the
source leaves open in `newhead->seq_num_ = ?`. The fields `loadFactor`, `threshold` and `size`
are never read and left out.

## Main definitions

* `Node`, `PmemHashMap`, `MapState`, `strcmpEq`, `findNode`, `putAndGet`
* `ident` — what `putAndGet` compares of a prefix: the hash, and the bytes up to the first zero
* `MapHolds` — the map stores a list of prefixes, one node for each

## Main results

* `putAndGet_hit`, `putAndGet_miss` — everything a call can do
-/

namespace RangeCache

open ByteMemory ChainHeap FallibleRun

/-! ## The map -/

/-- A node of the map: a range, and the next node of its bucket. -/
structure Node extends NvRangeTab where
  next : Option ℕ

structure PmemHashMap where
  tabLen : ℕ
  tab : List (Option ℕ)

/-- The pool, the nodes in the order of their allocation, and the map. -/
structure MapState where
  pool : Pool
  nodes : List Node
  map : PmemHashMap

namespace PmemHashMap

/-- `strcmp(stored, key.c_str()) == 0`, for the string stored at an address. -/
def strcmpEq (m : Memory) (a : ℕ) : Bytes → Bool
  | [] => m a == 0
  | b :: bs => if b = 0 then m a == 0 else m a == b && strcmpEq m (a + 1) bs

/-- Dereference a pointer to a node. -/
def deref (nodes : List Node) (id : ℕ) : Except Fault Node :=
  match nodes[id]? with
  | some node => .ok node
  | none => .error .outOfBounds

theorem deref_eq_ok {nodes : List Node} {id : ℕ} {node : Node} :
    deref nodes id = .ok node ↔ nodes[id]? = some node := by
  rw [deref]
  cases nodes[id]? with
  | none => simp
  | some n => simp

/-- The walk along a chain. `fuel` bounds the turns: a chain with more turns than nodes is
cyclic. -/
def findNode (m : Memory) (nodes : List Node) (hash : ℕ) (key : Bytes) :
    (fuel : ℕ) → Option ℕ → Except Fault (Option ℕ)
  | _, none => .ok none
  | 0, some _ => .error .diverges
  | fuel + 1, some id => do
    let node ← deref nodes id
    if node.hash = hash ∧ strcmpEq m node.prefixBuf key = true then
      return some id
    else
      findNode m nodes hash key fuel node.next

/-- `putAndGet`: the map afterwards, and the node for the prefix. -/
def putAndGet (A : Allocator) (hash : Bytes → ℕ) (seqNum : ℕ) (s : MapState) (pre : Bytes)
    (bufSize : UInt64) : Except Fault (MapState × ℕ) := do
  let bucketHeadNode ← vectorAt s.map.tab (hash pre % s.map.tabLen)
  let try2find ← findNode s.pool.mem s.nodes (hash pre) pre s.nodes.length bucketHeadNode
  match try2find with
  | some id => return (s, id)
  | none =>
    let newhead := s.nodes.length
    let (pool, prefixBuf) := s.pool.makePersistent A (pre.length + 1)
    let pool ← pool.memcpy ⟨prefixBuf, pre.length + 1⟩ 0 (pre ++ [0])
    let (pool, buf) := pool.makePersistent A bufSize.toNat
    let node : Node :=
      { hash := hash pre, prefixLen := pre.length, prefixBuf, keyRange := none, chunkNum := 0,
        seqNum, bufSize := bufSize.toNat, buf, dataLen := 0, extraBuf := none,
        bufSize_lt := bufSize.toNat_lt, next := bucketHeadNode }
    return ({ pool, nodes := s.nodes ++ [node],
              map := { s.map with
                tab := s.map.tab.set (hash pre % s.map.tabLen) (some newhead) } }, newhead)

/-! ## C strings -/

/-- The bytes up to the first zero. -/
def cstr (bs : Bytes) : Bytes := bs.takeWhile (· ≠ 0)

/-- What `putAndGet` compares of a prefix. -/
def ident (hash : Bytes → ℕ) (pre : Bytes) : ℕ × Bytes := (hash pre, cstr pre)

/-- `strcmp` compares the bytes up to the first zero. -/
theorem strcmpEq_iff {m : Memory} {a : ℕ} {stored : Bytes}
    (h : read m a (stored.length + 1) = stored ++ [0]) (key : Bytes) :
    strcmpEq m a key = true ↔ cstr stored = cstr key := by
  induction key generalizing a stored with
  | nil =>
    cases stored with
    | nil =>
      have hzero : m a = 0 := (List.cons.inj h).1
      simp [strcmpEq, cstr, hzero]
    | cons c cs =>
      have hc : m a = c := (List.cons.inj h).1
      simp [strcmpEq, cstr, hc, List.takeWhile_cons]
  | cons b bs ih =>
    by_cases hb : b = 0
    · subst hb
      cases stored with
      | nil =>
        have hzero : m a = 0 := (List.cons.inj h).1
        simp [strcmpEq, cstr, hzero]
      | cons c cs =>
        have hc : m a = c := (List.cons.inj h).1
        simp [strcmpEq, cstr, hc, List.takeWhile_cons]
    · cases stored with
      | nil =>
        have hzero : m a = 0 := (List.cons.inj h).1
        simp [strcmpEq, cstr, hzero, hb, Ne.symm hb]
      | cons c cs =>
        obtain ⟨hc, hcs⟩ := List.cons.inj h
        rw [strcmpEq, if_neg hb, Bool.and_eq_true, ih hcs, hc, beq_iff_eq]
        by_cases hz : c = 0
        · simp [cstr, hz, hb, Ne.symm hb]
        · simp [cstr, hz, hb]

/-- Without zero bytes a prefix is its C string. -/
theorem cstr_eq_self {bs : Bytes} (h : 0 ∉ bs) : cstr bs = bs :=
  List.takeWhile_eq_self_iff.mpr fun b hb => by
    simpa using fun hz : b = 0 => h (hz ▸ hb)

/-! ## What a map holds -/

/-- The object that stores the prefix of a node. -/
def prefixExtent (node : Node) : Extent := ⟨node.prefixBuf, node.prefixLen + 1⟩

/-- The objects of a node. -/
def extents (node : Node) : List Extent := [prefixExtent node, node.bufExtent]

theorem prefixExtent_mem_extents (node : Node) : prefixExtent node ∈ extents node :=
  List.mem_cons_self ..

theorem bufExtent_mem_extents (node : Node) : node.bufExtent ∈ extents node :=
  List.mem_cons_of_mem _ (List.mem_singleton.mpr rfl)

/-- The node stores the prefix: its hash, its length, and its bytes with a terminating zero. -/
structure Stores (hash : Bytes → ℕ) (m : Memory) (node : Node) (pre : Bytes) : Prop where
  hash : node.hash = hash pre
  prefixLen : node.prefixLen = pre.length
  bytes : read m node.prefixBuf (pre.length + 1) = pre ++ [0]

/-- The bucket of a node. -/
def slotOf (tabLen : ℕ) (node : Node) : ℕ := node.hash % tabLen

/-- **The invariant of the map.** It holds the prefixes `ps`, in the order of its nodes: its slots
head the chains of their buckets, each node stores its prefix in objects of its own, and no two
prefixes look alike to `putAndGet`. -/
structure MapHolds (hash : Bytes → ℕ) (s : MapState) (ps : List Bytes) : Prop where
  tab_length : s.map.tab.length = s.map.tabLen
  tabLen_pos : 0 < s.map.tabLen
  table : Table Node.next (slotOf s.map.tabLen) s.nodes s.map.tab
  length : s.nodes.length = ps.length
  stores : ∀ (id : ℕ) (node : Node) (p : Bytes), s.nodes[id]? = some node → ps[id]? = some p →
    Stores hash s.pool.mem node p
  live : ∀ node ∈ s.nodes, ∀ e ∈ extents node, e ∈ s.pool.live
  disjoint : (s.nodes.flatMap extents).Pairwise Extent.Disjoint
  distinct : ∀ (i j : ℕ) (p q : Bytes), ps[i]? = some p → ps[j]? = some q →
    ident hash p = ident hash q → i = j

section Spec

variable {A : Allocator} {hash : Bytes → ℕ} {s : MapState} {ps : List Bytes}

/-- A prefix stays stored while its object is left alone. -/
theorem Stores.sameOn {m m' : Memory} {node : Node} {p : Bytes} (h : Stores hash m node p)
    (hm : (prefixExtent node).SameOn m m') : Stores hash m' node p := by
  have hread := hm.read (a := node.prefixBuf) (n := p.length + 1) le_rfl
    (by simp only [prefixExtent, h.prefixLen]; exact le_rfl)
  exact ⟨h.hash, h.prefixLen, hread.trans h.bytes⟩

/-- The prefix is what the node's length and pointer say. -/
theorem Stores.read_prefix {m : Memory} {node : Node} {p : Bytes} (h : Stores hash m node p) :
    read m node.prefixBuf node.prefixLen = p := by
  have hbytes := h.bytes
  rw [read_add] at hbytes
  rw [h.prefixLen]
  exact (List.append_inj hbytes (by simp)).1

/-- The node compares equal to a hash and a key exactly when they are its prefix's identity. -/
theorem Stores.matches_iff {m : Memory} {node : Node} {p : Bytes} (h : Stores hash m node p)
    (hashValue : ℕ) (key : Bytes) :
    (node.hash = hashValue ∧ strcmpEq m node.prefixBuf key = true) ↔
      ident hash p = (hashValue, cstr key) := by
  rw [h.hash, strcmpEq_iff h.bytes, ident, Prod.mk.injEq]

theorem MapHolds.exists_node (h : MapHolds hash s ps) {id : ℕ} {p : Bytes}
    (hp : ps[id]? = some p) : ∃ node, s.nodes[id]? = some node ∧ Stores hash s.pool.mem node p := by
  have hid : id < s.nodes.length := by
    rw [h.length]
    exact (List.getElem?_eq_some_iff.mp hp).1
  exact ⟨_, List.getElem?_eq_getElem hid, h.stores id _ p (List.getElem?_eq_getElem hid) hp⟩

theorem MapHolds.exists_prefix (h : MapHolds hash s ps) {id : ℕ} {node : Node}
    (hnode : s.nodes[id]? = some node) : ∃ p, ps[id]? = some p ∧ Stores hash s.pool.mem node p := by
  have hid : id < ps.length := by
    rw [← h.length]
    exact (List.getElem?_eq_some_iff.mp hnode).1
  exact ⟨_, List.getElem?_eq_getElem hid, h.stores id node _ hnode (List.getElem?_eq_getElem hid)⟩

/-- The slot of a prefix heads the chain of its bucket. -/
theorem MapHolds.exists_head (h : MapHolds hash s ps) (pre : Bytes) :
    ∃ head, s.map.tab[hash pre % s.map.tabLen]? = some head ∧
      Chain Node.next s.nodes head
        (bucket (slotOf s.map.tabLen) s.nodes (hash pre % s.map.tabLen)) := by
  have hlt : hash pre % s.map.tabLen < s.map.tab.length := by
    rw [h.tab_length]
    exact Nat.mod_lt _ h.tabLen_pos
  exact ⟨_, List.getElem?_eq_getElem hlt, h.table.chain _ _ (List.getElem?_eq_getElem hlt)⟩

/-- The walk along a chain finds the first node with the identity it looks for. -/
theorem findNode_eq (h : MapHolds hash s ps) (hashValue : ℕ) (key : Bytes) {head : Option ℕ}
    {ids : List ℕ} (hchain : Chain Node.next s.nodes head ids) {fuel : ℕ}
    (hfuel : ids.length ≤ fuel) :
    findNode s.pool.mem s.nodes hashValue key fuel head =
      .ok (ids.find? fun id => (ps[id]?).map (ident hash) = some (hashValue, cstr key)) := by
  induction hchain generalizing fuel with
  | nil => cases fuel <;> rfl
  | @cons id node ids hnode _ ih =>
    obtain ⟨fuel, rfl⟩ : ∃ k, fuel = k + 1 := ⟨fuel - 1, by simp at hfuel; omega⟩
    obtain ⟨p, hp, hstores⟩ := h.exists_prefix hnode
    rw [findNode, deref, hnode, ok_bind, if_congr (hstores.matches_iff hashValue key) rfl rfl]
    by_cases hm : ident hash p = (hashValue, cstr key)
    · rw [if_pos hm, List.find?_cons_of_pos (by simpa [hp] using hm)]
      rfl
    · rw [if_neg hm, List.find?_cons_of_neg (by simpa [hp] using hm)]
      exact ih (by simpa using hfuel)

/-- A walk past nodes with other identities finds nothing. -/
theorem findNode_miss (h : MapHolds hash s ps) {pre : Bytes}
    (hmiss : ∀ p ∈ ps, ident hash p ≠ ident hash pre) {head : Option ℕ} {ids : List ℕ}
    (hchain : Chain Node.next s.nodes head ids) {fuel : ℕ} (hfuel : ids.length ≤ fuel) :
    findNode s.pool.mem s.nodes (hash pre) pre fuel head = .ok none := by
  rw [findNode_eq h _ _ hchain hfuel]
  refine congrArg Except.ok (List.find?_eq_none.mpr fun id _ hid => ?_)
  obtain ⟨p, hp, hident⟩ := Option.map_eq_some_iff.mp (of_decide_eq_true hid)
  exact hmiss p (List.mem_of_getElem? hp) hident

/-- Of the nodes with an identity there is only one to find. -/
theorem MapHolds.find?_ident (h : MapHolds hash s ps) {hashValue : ℕ} {key p : Bytes} {id : ℕ}
    (hp : ps[id]? = some p) (hident : ident hash p = (hashValue, cstr key)) {ids : List ℕ}
    (hmem : id ∈ ids) :
    (ids.find? fun id => (ps[id]?).map (ident hash) = some (hashValue, cstr key)) = some id := by
  obtain ⟨id', hfind⟩ : ∃ id', ids.find? (fun id => (ps[id]?).map (ident hash) =
      some (hashValue, cstr key)) = some id' :=
    Option.isSome_iff_exists.mp (List.find?_isSome.mpr
      ⟨id, hmem, decide_eq_true (by rw [hp, Option.map_some, hident])⟩)
  have hfound := List.find?_some hfind
  obtain ⟨p', hp', hident'⟩ := Option.map_eq_some_iff.mp (of_decide_eq_true hfound)
  rw [hfind, h.distinct id' id p' p hp' hp (hident'.trans hident.symm)]

/-- A walk over the node with the identity finds it. -/
theorem findNode_hit (h : MapHolds hash s ps) {pre p : Bytes} {id : ℕ} (hp : ps[id]? = some p)
    (hident : ident hash p = ident hash pre) {head : Option ℕ} {ids : List ℕ}
    (hchain : Chain Node.next s.nodes head ids) (hmem : id ∈ ids) {fuel : ℕ}
    (hfuel : ids.length ≤ fuel) :
    findNode s.pool.mem s.nodes (hash pre) pre fuel head = .ok (some id) := by
  rw [findNode_eq h _ _ hchain hfuel, h.find?_ident hp hident hmem]

/-- **A prefix whose identity is present.** The call returns the node of that identity and changes
nothing. -/
theorem putAndGet_hit (h : MapHolds hash s ps) {pre p : Bytes} {id : ℕ} (hp : ps[id]? = some p)
    (hident : ident hash p = ident hash pre) (seqNum : ℕ) (bufSize : UInt64) :
    putAndGet A hash seqNum s pre bufSize = .ok (s, id) := by
  obtain ⟨head, hhead, hchain⟩ := h.exists_head pre
  obtain ⟨node, hnode, hstores⟩ := h.exists_node hp
  have hmem : id ∈ bucket (slotOf s.map.tabLen) s.nodes (hash pre % s.map.tabLen) := by
    refine mem_bucket.mpr ⟨node, hnode, ?_⟩
    rw [slotOf, hstores.hash, show hash p = hash pre from congrArg Prod.fst hident]
  have hfind := findNode_hit h hp hident hchain hmem (length_bucket_le _)
  rw [putAndGet, vectorAt, hhead]
  simp only [ok_bind, hfind]
  rfl

/-- What a call that allocates leaves behind: one more node, over fresh objects. -/
structure Inserted (s : MapState) (seqNum : ℕ) (bufSize : UInt64) (s' : MapState) (node : Node) :
    Prop where
  nodes : s'.nodes = s.nodes ++ [node]
  tabLen : s'.map.tabLen = s.map.tabLen
  pool : s.pool.Extends s'.pool
  dataLen : node.dataLen = 0
  seqNum : node.seqNum = seqNum
  bufSize : node.bufSize = bufSize.toNat
  keyRange : node.keyRange = none

/-- The objects of the new node overlap no older one, nor each other. -/
theorem pairwise_extents_append {nodes : List Node} {node : Node} {live : List Extent}
    (h : (nodes.flatMap extents).Pairwise Extent.Disjoint)
    (hlive : ∀ n ∈ nodes, ∀ e ∈ extents n, e ∈ live)
    (hpfx : ∀ e ∈ live, e.Disjoint (prefixExtent node))
    (hbuf : ∀ e ∈ prefixExtent node :: live, e.Disjoint node.bufExtent) :
    ((nodes ++ [node]).flatMap extents).Pairwise Extent.Disjoint := by
  rw [List.flatMap_append, List.pairwise_append]
  refine ⟨h, ?_, fun e he f hf => ?_⟩
  · simpa [extents] using hbuf _ (List.mem_cons_self ..)
  · obtain ⟨n, hn, he⟩ := List.mem_flatMap.mp he
    have he' := hlive n hn e he
    simp only [List.flatMap_cons, List.flatMap_nil, List.append_nil, extents, List.mem_cons,
      List.not_mem_nil, or_false] at hf
    rcases hf with rfl | rfl
    · exact hpfx e he'
    · exact hbuf e (List.mem_cons_of_mem _ he')

/-- A new node in front of its bucket extends the map by its prefix. -/
theorem MapHolds.insert (h : MapHolds hash s ps) {pre : Bytes}
    (hmiss : ∀ p ∈ ps, ident hash p ≠ ident hash pre) {head : Option ℕ}
    (hhead : s.map.tab[hash pre % s.map.tabLen]? = some head) {node : Node} {pool' : Pool}
    (hnext : node.next = head) (hext : s.pool.Extends pool')
    (hstores : Stores hash pool'.mem node pre) (hlive : ∀ e ∈ extents node, e ∈ pool'.live)
    (hpfx : ∀ e ∈ s.pool.live, e.Disjoint (prefixExtent node))
    (hbuf : ∀ e ∈ prefixExtent node :: s.pool.live, e.Disjoint node.bufExtent) :
    MapHolds hash
      { pool := pool', nodes := s.nodes ++ [node],
        map := { s.map with
          tab := s.map.tab.set (hash pre % s.map.tabLen) (some s.nodes.length) } }
      (ps ++ [pre]) := by
  have hslot : slotOf s.map.tabLen node = hash pre % s.map.tabLen := by rw [slotOf, hstores.hash]
  have htable := h.table.push (a := node) (by rw [hslot]; exact hhead) hnext
  rw [hslot] at htable
  refine ⟨?_, h.tabLen_pos, htable, ?_, ?_, ?_, ?_, ?_⟩
  · rw [List.length_set]
    exact h.tab_length
  · rw [List.length_append, List.length_append, h.length]
    rfl
  · intro id n p hn hp
    rcases getElem?_snoc.mp hn with hn | ⟨rfl, rfl⟩
    · rcases getElem?_snoc.mp hp with hp | ⟨rfl, -⟩
      · have hobj := h.live n (List.mem_of_getElem? hn) _ (prefixExtent_mem_extents n)
        exact (h.stores id n p hn hp).sameOn (hext.same _ hobj)
      · exact absurd (List.getElem?_eq_some_iff.mp hn).1 (by rw [h.length]; exact lt_irrefl _)
    · rw [h.length] at hp
      rcases getElem?_snoc.mp hp with hp | ⟨-, rfl⟩
      · exact absurd (List.getElem?_eq_some_iff.mp hp).1 (lt_irrefl _)
      · exact hstores
  · intro n hn e he
    rcases List.mem_append.mp hn with hn | hn
    · exact hext.live e (h.live n hn e he)
    · rw [List.mem_singleton.mp hn] at he
      exact hlive e he
  · exact pairwise_extents_append h.disjoint h.live hpfx hbuf
  · intro i j p q hi hj hident
    rcases getElem?_snoc.mp hi with hi | ⟨rfl, rfl⟩
    · rcases getElem?_snoc.mp hj with hj | ⟨rfl, rfl⟩
      · exact h.distinct i j p q hi hj hident
      · exact absurd hident (hmiss p (List.mem_of_getElem? hi))
    · rcases getElem?_snoc.mp hj with hj | ⟨rfl, rfl⟩
      · exact absurd hident.symm (hmiss q (List.mem_of_getElem? hj))
      · rfl

/-- **A prefix whose identity is new.** The call adds a node for it, in front of its bucket, and
leaves everything older alone. -/
theorem putAndGet_miss (h : MapHolds hash s ps) {pre : Bytes}
    (hmiss : ∀ p ∈ ps, ident hash p ≠ ident hash pre) (seqNum : ℕ) (bufSize : UInt64) :
    ∃ s' node, putAndGet A hash seqNum s pre bufSize = .ok (s', s.nodes.length) ∧
      Inserted s seqNum bufSize s' node ∧ MapHolds hash s' (ps ++ [pre]) := by
  obtain ⟨head, hhead, hchain⟩ := h.exists_head pre
  have hfind := findNode_miss h hmiss hchain (length_bucket_le _)
  -- the two allocations, with the copy of the prefix between them
  obtain ⟨p₂, hp₂, hext₂, hlive₂, hread₂⟩ := Pool.makePersistent_memcpy A s.pool
    (pre ++ [0]) (n := pre.length + 1) (by simp)
  have hext₃ := Pool.extends_makePersistent A p₂ bufSize.toNat
  have hlive₃ := Pool.mem_live_makePersistent A p₂ bufSize.toNat
  have hdis₃ := fun e he => Pool.disjoint_makePersistent A p₂ bufSize.toNat (e := e) he
  have hdis₁ := fun e he => Pool.disjoint_makePersistent A s.pool (pre.length + 1) (e := e) he
  obtain ⟨node, hnode⟩ : ∃ node : Node, node =
      { hash := hash pre, prefixLen := pre.length,
        prefixBuf := (s.pool.makePersistent A (pre.length + 1)).2, keyRange := none, chunkNum := 0,
        seqNum, bufSize := bufSize.toNat, buf := (p₂.makePersistent A bufSize.toNat).2,
        dataLen := 0, extraBuf := none, bufSize_lt := bufSize.toNat_lt, next := head } := ⟨_, rfl⟩
  have hpfx : prefixExtent node
      = ⟨(s.pool.makePersistent A (pre.length + 1)).2, pre.length + 1⟩ := by rw [hnode]; rfl
  have hbuf : node.bufExtent = ⟨(p₂.makePersistent A bufSize.toNat).2, bufSize.toNat⟩ := by
    rw [hnode]; rfl
  refine ⟨{ pool := (p₂.makePersistent A bufSize.toNat).1, nodes := s.nodes ++ [node],
            map := { s.map with
              tab := s.map.tab.set (hash pre % s.map.tabLen) (some s.nodes.length) } },
    node, ?_, ⟨rfl, rfl, hext₂.trans hext₃, ?_, ?_, ?_, ?_⟩, ?_⟩
  · rw [putAndGet, vectorAt, hhead]
    simp only [ok_bind, hfind]
    rw [hp₂, ok_bind, hnode]
    rfl
  · rw [hnode]
  · rw [hnode]
  · rw [hnode]
  · rw [hnode]
  · have hstores : Stores hash p₂.mem node pre := by
      rw [hnode]
      exact ⟨rfl, rfl, hread₂⟩
    refine h.insert hmiss hhead (by rw [hnode]) (hext₂.trans hext₃)
      (hstores.sameOn (hext₃.same _ (by rw [hpfx, hlive₂]; exact List.mem_cons_self ..)))
      (fun e he => ?_) (by rw [hpfx]; exact hdis₁) (by rw [hbuf, hpfx, ← hlive₂]; exact hdis₃)
    simp only [extents, List.mem_cons, List.not_mem_nil, or_false] at he
    rcases he with rfl | rfl
    · exact hext₃.live _ (by rw [hpfx, hlive₂]; exact List.mem_cons_self ..)
    · rw [hbuf]
      exact hlive₃

end Spec

end PmemHashMap

end RangeCache
