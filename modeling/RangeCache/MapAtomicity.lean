import Mathlib.Data.List.Find
import RangeCache.Lib.UndoLog
import RangeCache.PmemHashMapTemplate
import RangeCache.PrefixKeys

/-!
# Insertion is all-or-nothing

Both maps insert inside a transaction: a node is allocated and filled, and then the slot of its
bucket is pointed at it. Every store to memory that was there before is an assignment to a
`persistent_ptr` or a `p<>`, which registers what it overwrites; the rest goes to memory that the
transaction has allocated. So an insertion that is stopped anywhere leaves the map as it was.

The persistent locations are the bytes of the pool, the nodes, the slots, and the two records the
allocator keeps. A node is one location: the stores to its fields are stores of the whole node.

## Main definitions

* `MapLoc`, `MapVal`, `MapImage` — the locations, and what they hold
* `PmemHashMapTemplate.putTrace`, `PmemHashMap.putAndGetTrace` — the operations of an insertion
* `PmemHashMap.getNode`, `PmemHashMap.getAll` — what a reader sees

## Main results

* `registers_putTrace`, `registers_putAndGetTrace` — each store is registered
* `view_putTrace`, `view_putAndGetTrace` — the operations are those of `put` and `putAndGet`
* `insertion_allOrNothing` — before the commit nothing has changed, after it the entry is there
-/

namespace RangeCache

open ByteMemory ChainHeap TxMemory FallibleRun

/-! ## Persistent locations -/

/-- The persistent locations of a map. -/
inductive MapLoc where
  | byte (a : ℕ)
  | node (id : ℕ)
  | slot (i : ℕ)
  /-- How many nodes are allocated. -/
  | nodeCount
  /-- The other objects that are allocated. -/
  | live
  deriving DecidableEq

/-- What a location holds, for nodes of type `α`. -/
abbrev MapVal (α : Type) : MapLoc → Type
  | .byte _ => UInt8
  | .node _ => α
  | .slot _ => Option ℕ
  | .nodeCount => ℕ
  | .live => List Extent

/-- What all locations hold. -/
structure MapImage (α : Type) where
  mem : Memory
  node : ℕ → α
  slot : ℕ → Option ℕ
  nodeCount : ℕ
  live : List Extent

namespace MapImage

variable {α : Type} {c : MapImage α}

def values (c : MapImage α) : ∀ l, MapVal α l
  | .byte a => c.mem a
  | .node id => c.node id
  | .slot i => c.slot i
  | .nodeCount => c.nodeCount
  | .live => c.live

def ofValues (v : ∀ l, MapVal α l) : MapImage α :=
  { mem := fun a => v (.byte a), node := fun id => v (.node id), slot := fun i => v (.slot i),
    nodeCount := v .nodeCount, live := v .live }

/-- The image of a pool, of the nodes in the order of allocation, and of a table. Indices that are
not in use hold `unused` and null. -/
def of (unused : α) (pool : Pool) (nodes : List α) (tab : List (Option ℕ)) : MapImage α :=
  { mem := pool.mem, node := fun id => (nodes[id]?).getD unused,
    slot := fun i => (tab[i]?).getD none, nodeCount := nodes.length, live := pool.live }

/-- The pool, the nodes and the first `n` slots of an image. -/
def pool (c : MapImage α) : Pool := ⟨c.mem, c.live⟩

def nodes (c : MapImage α) : List α := (List.range c.nodeCount).map c.node

def tab (c : MapImage α) (n : ℕ) : List (Option ℕ) := (List.range n).map c.slot

@[simp] theorem ofValues_values (c : MapImage α) : ofValues c.values = c := rfl

/-- A list read off by its indices. -/
theorem map_range_getD {β : Type} (xs : List β) (x : β) :
    (List.range xs.length).map (fun i => (xs[i]?).getD x) = xs := by
  refine List.ext_getElem (by simp) fun i hi hi' => ?_
  rw [List.getElem_map, List.getElem_range, List.getElem?_eq_getElem hi', Option.getD_some]

@[simp] theorem nodes_of (unused : α) (pool : Pool) (nodes : List α) (tab : List (Option ℕ)) :
    (of unused pool nodes tab).nodes = nodes := map_range_getD nodes unused

@[simp] theorem tab_of (unused : α) (pool : Pool) (nodes : List α) (tab : List (Option ℕ)) :
    (of unused pool nodes tab).tab tab.length = tab := map_range_getD tab none

@[simp] theorem pool_of (unused : α) (pool : Pool) (nodes : List α) (tab : List (Option ℕ)) :
    (of unused pool nodes tab).pool = pool := rfl

/-- Images with the same allocated nodes. -/
theorem nodes_congr {c' : MapImage α} (hcount : c'.nodeCount = c.nodeCount)
    (hnode : ∀ id < c.nodeCount, c'.node id = c.node id) : c'.nodes = c.nodes := by
  rw [nodes, nodes, hcount]
  exact List.map_congr_left fun id hid => hnode id (List.mem_range.mp hid)

/-- Images with the same slots. -/
theorem tab_congr {c' : MapImage α} (hslot : ∀ i, c'.slot i = c.slot i) (n : ℕ) :
    c'.tab n = c.tab n :=
  List.map_congr_left fun i _ => hslot i

/-- One more node. -/
theorem of_append (unused : α) (pool : Pool) (nodes : List α) (tab : List (Option ℕ)) (a : α) :
    of unused pool (nodes ++ [a]) tab =
      { of unused pool nodes tab with
        node := Function.update (of unused pool nodes tab).node nodes.length a,
        nodeCount := nodes.length + 1 } := by
  simp only [of, MapImage.mk.injEq, List.length_append, List.length_singleton, and_true, true_and]
  funext id
  rcases Nat.lt_trichotomy id nodes.length with hlt | rfl | hgt
  · rw [Function.update_of_ne (Nat.ne_of_lt hlt), List.getElem?_append_left hlt]
  · simp
  · rw [Function.update_of_ne (Nat.ne_of_gt hgt), List.getElem?_eq_none (by simp; omega),
      List.getElem?_eq_none (Nat.le_of_lt hgt)]

/-- One slot changed. -/
theorem of_set (unused : α) (pool : Pool) (nodes : List α) {tab : List (Option ℕ)} {i : ℕ}
    (hi : i < tab.length) (head : Option ℕ) :
    of unused pool nodes (tab.set i head) =
      { of unused pool nodes tab with
        slot := Function.update (of unused pool nodes tab).slot i head } := by
  simp only [of, MapImage.mk.injEq, and_true, true_and]
  funext j
  by_cases hj : i = j
  · subst hj
    rw [Function.update_self, List.getElem?_set_self hi, Option.getD_some]
  · rw [Function.update_of_ne (Ne.symm hj), List.getElem?_set_ne hj]

/-! ### Updates -/

@[simp] theorem update_values_byte (c : MapImage α) (a : ℕ) (b : UInt8) :
    Function.update c.values (.byte a) b = values { c with mem := write c.mem a [b] } := by
  funext l
  rw [write_singleton]
  cases l with
  | byte x =>
    by_cases hx : x = a
    · subst hx
      simp [values]
    · simp [values, hx]
  | node id => rfl
  | slot i => rfl
  | nodeCount => rfl
  | live => rfl

@[simp] theorem update_values_node (c : MapImage α) (id : ℕ) (a : α) :
    Function.update c.values (.node id) a =
      values { c with node := Function.update c.node id a } := by
  funext l
  cases l with
  | node j =>
    by_cases hj : j = id
    · subst hj
      simp [values]
    · simp [values, hj]
  | byte x => rfl
  | slot i => rfl
  | nodeCount => rfl
  | live => rfl

@[simp] theorem update_values_slot (c : MapImage α) (i : ℕ) (head : Option ℕ) :
    Function.update c.values (.slot i) head =
      values { c with slot := Function.update c.slot i head } := by
  funext l
  cases l with
  | slot j =>
    by_cases hj : j = i
    · subst hj
      simp [values]
    · simp [values, hj]
  | byte x => rfl
  | node id => rfl
  | nodeCount => rfl
  | live => rfl

@[simp] theorem update_values_nodeCount (c : MapImage α) (n : ℕ) :
    Function.update c.values .nodeCount n = values { c with nodeCount := n } := by
  funext l
  cases l <;> simp [values]

@[simp] theorem update_values_live (c : MapImage α) (live : List Extent) :
    Function.update c.values .live live = values { c with live } := by
  funext l
  cases l <;> simp [values]

end MapImage

/-! ## Operations of a transaction -/

section Ops

variable {α : Type} {σ : State (MapVal α)} {c : MapImage α}

/-- `make_persistent` of a node. -/
def allocateNode (unused : α) (newhead : ℕ) : List (Op (MapVal α)) :=
  assign (V := MapVal α) .nodeCount (newhead + 1) ++
    [.allocate (.node newhead), .store (.node newhead) unused]

/-- `make_persistent<char[]>(n)`: the allocator records the object, and its bytes are zeroed. -/
def allocateObject (α : Type) (live : List Extent) (obj : Extent) : List (Op (MapVal α)) :=
  assign (V := MapVal α) .live (obj :: live) ++
    opsFrom (fun a b => [.allocate (.byte a), .store (.byte a) b]) obj.base
      (List.replicate obj.size 0)

/-- `memcpy`. -/
def copyBytes (α : Type) (a : ℕ) (bs : Bytes) : List (Op (MapVal α)) :=
  opsFrom (fun a b => [.store (.byte a) b]) a bs

theorem view_allocateNode (h : σ.view = c.values) (unused : α) (newhead : ℕ) :
    (exec σ (allocateNode unused newhead)).view = MapImage.values { c with
      nodeCount := newhead + 1, node := Function.update c.node newhead unused } := by
  rw [allocateNode, exec_append, exec_cons, exec_cons, exec_nil, view_step_store,
    view_step_allocate, view_exec_assign, h, MapImage.update_values_nodeCount,
    MapImage.update_values_node]

/-- A loop that stores one byte at each address is one write. -/
theorem view_opsFrom {f : ℕ → UInt8 → List (Op (MapVal α))}
    (hf : ∀ (σ : State (MapVal α)) (a : ℕ) (b : UInt8),
      (exec σ (f a b)).view = Function.update σ.view (.byte a) b)
    (h : σ.view = c.values) (a : ℕ) (bs : Bytes) :
    (exec σ (opsFrom f a bs)).view = MapImage.values { c with mem := write c.mem a bs } := by
  induction bs generalizing σ c a with
  | nil =>
    rw [opsFrom, exec_nil, h, write_nil]
  | cons b bs ih =>
    have hfirst : (exec σ (f a b)).view = MapImage.values { c with mem := write c.mem a [b] } := by
      rw [hf, h, MapImage.update_values_byte]
    rw [opsFrom, exec_append, ih hfirst, ← List.singleton_append (l := bs), write_append]
    rfl

theorem view_copyBytes (h : σ.view = c.values) (a : ℕ) (bs : Bytes) :
    (exec σ (copyBytes α a bs)).view = MapImage.values { c with mem := write c.mem a bs } :=
  view_opsFrom (fun _ _ _ => rfl) h a bs

theorem view_allocateObject (h : σ.view = c.values) (live : List Extent) (obj : Extent) :
    (exec σ (allocateObject α live obj)).view = MapImage.values { c with
      live := obj :: live, mem := fill c.mem obj.base obj.size 0 } := by
  have hfirst : (exec σ (assign (V := MapVal α) .live (obj :: live))).view
      = MapImage.values { c with live := obj :: live } := by
    rw [view_exec_assign, h, MapImage.update_values_live]
  rw [allocateObject, exec_append, view_opsFrom (fun _ _ _ => rfl) hfirst, write_replicate]

/-- The assignment of a field of a node. -/
theorem view_assignNode (h : σ.view = c.values) (id : ℕ) (a : α) :
    (exec σ (assign (V := MapVal α) (.node id) a)).view =
      MapImage.values { c with node := Function.update c.node id a } := by
  rw [view_exec_assign, h, MapImage.update_values_node]

/-- Assignments to the fields of a node. -/
theorem view_assignAllNode (h : σ.view = c.values) (id : ℕ) (as : List α) (a : α) :
    (exec σ (assignAll (V := MapVal α) (.node id) (as ++ [a]))).view =
      MapImage.values { c with node := Function.update c.node id a } := by
  rw [view_exec_assignAll, h, MapImage.update_values_node]

/-- The assignment of a slot. -/
theorem view_assignSlot (h : σ.view = c.values) (i : ℕ) (head : Option ℕ) :
    (exec σ (assign (V := MapVal α) (.slot i) head)).view =
      MapImage.values { c with slot := Function.update c.slot i head } := by
  rw [view_exec_assign, h, MapImage.update_values_slot]

/-! ### Registration -/

theorem registers_allocateNode (l : MapLoc) (unused : α) (newhead : ℕ) :
    Registers l (allocateNode unused newhead) := by
  refine (registers_assign l _ _).append ?_
  by_cases hl : l = .node newhead
  · subst hl
    exact .track (.inr rfl) (by simp)
  · refine .skip (by simp) (by simp) (.skip (fun v hv => hl ?_) (by simp) .nil)
    cases hv
    rfl

theorem registers_allocateObject (l : MapLoc) (live : List Extent) (obj : Extent) :
    Registers l (allocateObject α live obj) := by
  refine (registers_assign l _ _).append (registers_opsFrom (fun a b => ?_) _ _)
  by_cases hl : l = .byte a
  · subst hl
    exact .track (.inr rfl) (by simp)
  · refine .skip (by simp) (by simp) (.skip (fun v hv => hl ?_) (by simp) .nil)
    cases hv
    rfl

/-- Copying into an object behind its allocation stores to nothing else. -/
theorem registers_copyBytes {l : MapLoc} {ops : List (Op (MapVal α))} (h : Registers l ops)
    {a : ℕ} {bs : Bytes} (hnew : ∀ i < bs.length, l = .byte (a + i) → .allocate l ∈ ops) :
    Registers l (ops ++ copyBytes α a bs) := by
  have hstores : ∀ op ∈ copyBytes α a bs, ∃ i < bs.length, ∃ b, op = .store (.byte (a + i)) b := by
    intro op hop
    obtain ⟨i, hi, hop⟩ := mem_opsFrom.mp hop
    exact ⟨i, hi, _, List.mem_singleton.mp hop⟩
  have hcommit : (.commit : Op (MapVal α)) ∉ copyBytes α a bs := by
    intro hmem
    obtain ⟨i, -, b, hop⟩ := hstores _ hmem
    cases hop
  by_cases hl : ∃ i < bs.length, l = .byte (a + i)
  · obtain ⟨i, hi, hli⟩ := hl
    exact h.append_of_mem (hnew i hi hli) hcommit
  · refine h.append (Registers.of_forall fun op hop => ⟨fun v hv => hl ?_, fun hc => ?_⟩)
    · obtain ⟨i, hi, b, rfl⟩ := hstores op hop
      cases hv
      exact ⟨i, hi, rfl⟩
    · exact hcommit (hc ▸ hop)

theorem allocate_mem_allocateNode {unused : α} {newhead : ℕ} {l : MapLoc} :
    .allocate l ∈ allocateNode unused newhead ↔ l = .node newhead := by
  simp [allocateNode, allocate_not_mem_assign]

/-- An object's bytes are allocated with it. -/
theorem allocate_mem_allocateObject {live : List Extent} {obj : Extent} {l : MapLoc} :
    .allocate l ∈ allocateObject α live obj ↔
      ∃ x, obj.base ≤ x ∧ x < obj.base + obj.size ∧ l = .byte x := by
  rw [allocateObject, List.mem_append, mem_opsFrom]
  constructor
  · rintro (h | ⟨i, hi, h⟩)
    · exact absurd h (allocate_not_mem_assign _ _)
    · rw [List.length_replicate] at hi
      simp only [List.mem_cons, Op.allocate.injEq, reduceCtorEq, List.not_mem_nil, or_false] at h
      exact ⟨obj.base + i, by omega, by omega, h⟩
  · rintro ⟨x, hl, hu, rfl⟩
    refine .inr ⟨x - obj.base, by rw [List.length_replicate]; omega, ?_⟩
    rw [show obj.base + (x - obj.base) = x by omega]
    exact List.mem_cons_self ..

theorem allocate_not_mem_copyBytes {a : ℕ} {bs : Bytes} {l : MapLoc} :
    .allocate l ∉ copyBytes α a bs := by
  intro h
  obtain ⟨i, hi, h⟩ := mem_opsFrom.mp h
  cases List.mem_singleton.mp h

end Ops

/-! ## The template map -/

namespace PmemHashMapTemplate

variable {C : Type} {hashCode : C → UInt64} {m m' : PmemHashMapTemplate C} {cs : List C} {c : C}
  {pool : Pool}

/-- A node that has been allocated: both pointers are null. -/
def newNode : Node2 C := ⟨none, none⟩

/-- The image of the map, in a pool that holds whatever else there is. -/
def imageOf (pool : Pool) (m : PmemHashMapTemplate C) : MapImage (Node2 C) :=
  .of newNode pool m.nodes m.tab

/-- The map found in an image. -/
def recovered (m : PmemHashMapTemplate C) (image : MapImage (Node2 C)) : PmemHashMapTemplate C :=
  { m with nodes := image.nodes, tab := image.tab m.tab.length }

/-- The operations of `put`, from the begin of its transaction to the commit. -/
def putTrace (hashCode : C → UInt64) (m : PmemHashMapTemplate C) (c : C) :
    List (Op (MapVal (Node2 C))) :=
  let idx := (hashCode c).toNat % m.tabLen % m.tabLen
  let bucketHeadNode := (m.tab[idx]?).getD none
  let newhead := m.nodes.length
  allocateNode newNode newhead ++
    (assignAll (V := MapVal (Node2 C)) (.node newhead)
        ([⟨none, some c⟩] ++ [⟨bucketHeadNode, some c⟩]) ++
      assign (V := MapVal (Node2 C)) (.slot idx) (some newhead))

/-- What is found before the commit: everything is as it was. -/
structure Unchanged (pool : Pool) (m : PmemHashMapTemplate C) (image : MapImage (Node2 C)) :
    Prop where
  pool : image.pool = pool
  map : recovered m image = m
  getAll : ∀ vec, getAll (recovered m image) vec = getAll m vec

/-- What is found after the commit: the new node heads its bucket and has the content, the other
slots are as they were, and `getAll` lists one more content. -/
structure PutDone (hashCode : C → UInt64) (pool : Pool) (m : PmemHashMapTemplate C) (c : C)
    (image : MapImage (Node2 C)) : Prop where
  pool : image.pool = pool
  put : put hashCode m (some c) = .ok (recovered m image)
  node : ∃ head, m.tab[bucketOf hashCode m.tabLen c]? = some head ∧
    (recovered m image).nodes = m.nodes ++ [⟨head, some c⟩]
  slot : (recovered m image).tab[bucketOf hashCode m.tabLen c]? = some (some m.nodes.length)
  others : ∀ b, b ≠ bucketOf hashCode m.tabLen c → (recovered m image).tab[b]? = m.tab[b]?
  getAll : ∀ vec, ∃ xs ys, getAll m vec = .ok (vec ++ (xs ++ ys)) ∧
    getAll (recovered m image) vec = .ok (vec ++ (xs ++ some c :: ys))

/-- The image of a map with as many slots is that map. -/
theorem recovered_imageOf_of (pool : Pool) (htab : m'.tab.length = m.tab.length)
    (htabLen : m'.tabLen = m.tabLen) : recovered m (imageOf pool m') = m' := by
  rw [recovered, ← htab, ← htabLen, imageOf, MapImage.nodes_of, MapImage.tab_of]

theorem recovered_imageOf (pool : Pool) (m : PmemHashMapTemplate C) :
    recovered m (imageOf pool m) = m :=
  recovered_imageOf_of pool rfl rfl

/-- **Every store of `put` is registered.** -/
theorem registers_putTrace (hashCode : C → UInt64) (m : PmemHashMapTemplate C) (c : C)
    (l : MapLoc) : Registers l (putTrace hashCode m c) :=
  (registers_allocateNode l _ _).append
    ((registers_assignAll l _ _).append (registers_assign l _ _))

/-- `put` allocates its node only. -/
theorem allocate_mem_putTrace {l : MapLoc} (h : .allocate l ∈ putTrace hashCode m c) :
    l = .node m.nodes.length := by
  simpa only [putTrace, List.mem_append, allocate_mem_allocateNode, allocate_not_mem_assignAll,
    allocate_not_mem_assign, or_false] using h

/-- The trace of `put` is `put`. -/
theorem view_putTrace (hm : MapOk hashCode m cs) (hput : put hashCode m (some c) = .ok m') :
    (exec (durable (imageOf pool m).values) (putTrace hashCode m c)).view =
      (imageOf pool m').values := by
  obtain ⟨head, hhead⟩ := hm.exists_head c
  rw [put_eq hm hhead, Except.ok.injEq] at hput
  subst hput
  have hidx : (hashCode c).toNat % m.tabLen % m.tabLen = bucketOf hashCode m.tabLen c :=
    Nat.mod_mod _ _
  have hlt : bucketOf hashCode m.tabLen c < m.tab.length :=
    (List.getElem?_eq_some_iff.mp hhead).1
  have h₁ := view_allocateNode (σ := durable (imageOf pool m).values) rfl
    (newNode : Node2 C) m.nodes.length
  have h₂ := view_assignAllNode h₁ m.nodes.length [⟨none, some c⟩] ⟨head, some c⟩
  have h₃ := view_assignSlot h₂ (bucketOf hashCode m.tabLen c) (some m.nodes.length)
  dsimp only [putTrace]
  rw [hidx, hhead, Option.getD_some, exec_append, exec_append, h₃]
  refine congrArg MapImage.values ?_
  rw [imageOf, imageOf, MapImage.of_set _ _ _ hlt, MapImage.of_append, Function.update_idem]

/-- An image that differs from the map in the new node only. -/
theorem unchanged_of_same {image : ∀ l, MapVal (Node2 C) l}
    (himage : ∀ l, .allocate l ∉ putTrace hashCode m c → image l = (imageOf pool m).values l) :
    Unchanged pool m (.ofValues image) := by
  have hsame : ∀ l, l ≠ .node m.nodes.length → image l = (imageOf pool m).values l := by
    intro l hl
    exact himage l fun hmem => hl (allocate_mem_putTrace hmem)
  have hnodes : (MapImage.ofValues image).nodes = (imageOf pool m).nodes :=
    MapImage.nodes_congr (hsame .nodeCount (by simp)) fun id hid =>
      hsame (.node id) fun hc => Nat.ne_of_lt hid (MapLoc.node.inj hc)
  have htab : (MapImage.ofValues image).tab m.tab.length = (imageOf pool m).tab m.tab.length :=
    MapImage.tab_congr (fun i => hsame (.slot i) (by simp)) _
  have hmap : recovered m (.ofValues image) = m := by
    rw [recovered, hnodes, htab]
    exact recovered_imageOf pool m
  have hmem : (MapImage.ofValues image).mem = pool.mem :=
    funext fun a => hsame (.byte a) (by simp)
  have hlive : (MapImage.ofValues image).live = pool.live := hsame .live (by simp)
  refine ⟨?_, hmap, ?_⟩
  · rw [MapImage.pool, hmem, hlive]
  · intro vec
    rw [hmap]

/-- After a `put`, `getAll` lists one more content. -/
theorem getAll_of_put (hm : MapOk hashCode m cs) (hm' : MapOk hashCode m' (cs ++ [c]))
    (htabLen : m'.tabLen = m.tabLen) (vec : List (Option C)) :
    ∃ xs ys, getAll m vec = .ok (vec ++ (xs ++ ys)) ∧
      getAll m' vec = .ok (vec ++ (xs ++ some c :: ys)) := by
  obtain ⟨xs, ys, hold, hnew⟩ := exists_flatMap_range_insert
    (fun b => (cs.filter fun c => bucketOf hashCode m.tabLen c = b).reverse)
    (fun b => ((cs ++ [c]).filter fun c => bucketOf hashCode m.tabLen c = b).reverse)
    (x := c) (Nat.mod_lt (hashCode c).toNat hm.tabLen_pos)
    (by simp [List.filter_append, bucketOf])
    (fun b hb => by
      have hne : ¬ bucketOf hashCode m.tabLen c = b := Ne.symm hb
      simp [List.filter_append, hne])
  refine ⟨xs.map some, ys.map some, ?_, ?_⟩
  · rw [hm.getAll, hold, List.map_append]
  · rw [hm'.getAll, htabLen, hnew, List.map_append, List.map_cons]

/-- What `put` leaves. -/
theorem putDone_of_put (hm : MapOk hashCode m cs) (pool : Pool)
    (hput : put hashCode m (some c) = .ok m') :
    PutDone hashCode pool m c (imageOf pool m') := by
  obtain ⟨head, hhead⟩ := hm.exists_head c
  have hm' := hm.put hput
  have heq := hput
  rw [put_eq hm hhead, Except.ok.injEq] at heq
  have hnodes : m'.nodes = m.nodes ++ [⟨head, some c⟩] := by rw [← heq]
  have htab : m'.tab = m.tab.set (bucketOf hashCode m.tabLen c) (some m.nodes.length) := by
    rw [← heq]
  have htabLen : m'.tabLen = m.tabLen := by rw [← heq]
  have hlt := (List.getElem?_eq_some_iff.mp hhead).1
  have hrec : recovered m (imageOf pool m') = m' :=
    recovered_imageOf_of pool (by rw [htab, List.length_set]) htabLen
  constructor
  case pool => rfl
  all_goals rw [hrec]
  case put => exact hput
  case node => exact ⟨head, hhead, hnodes⟩
  case slot =>
    rw [htab]
    exact List.getElem?_set_self hlt
  case others =>
    intro b hb
    rw [htab]
    exact List.getElem?_set_ne (Ne.symm hb)
  case getAll => exact getAll_of_put hm hm' htabLen

/-- **`put` is all-or-nothing.** -/
theorem put_allOrNothing (hm : MapOk hashCode m cs) (pool : Pool) (c : C) :
    AllOrNothing (imageOf pool m).values (putTrace hashCode m c)
      (fun image => Unchanged pool m (.ofValues image))
      (fun image => PutDone hashCode pool m c (.ofValues image)) := by
  obtain ⟨head, hhead⟩ := hm.exists_head c
  have hput := put_eq hm hhead
  refine (allOrNothing_of_registers (registers_putTrace hashCode m c)).imp ?_ ?_
  · intro image himage
    exact unchanged_of_same himage
  · intro image himage
    rw [himage, view_putTrace hm hput, MapImage.ofValues_values]
    exact putDone_of_put hm pool hput

end PmemHashMapTemplate

/-! ## The map of prefixes -/

namespace PmemHashMap

/-- `getNode(hash, key)`. -/
def getNode (s : MapState) (hashValue : ℕ) (key : Bytes) : Except Fault (Option ℕ) := do
  let nod ← vectorAt s.map.tab (hashValue % s.map.tabLen)
  findNode s.pool.mem s.nodes hashValue key s.nodes.length nod

/-- `getAll`. Its counter is an `int`; a node stands for its content. -/
def getAll (s : MapState) (nodeVec : List Node) : Except Fault (List Node) :=
  scanTable Node.next (fun node => node) (2 ^ 31) s.nodes s.map.tab s.map.tabLen 0 nodeVec

/-- A node that has been allocated: it is zeroed. -/
def newNode : Node :=
  { hash := 0, prefixLen := 0, prefixBuf := 0, keyRange := none, chunkNum := 0, seqNum := 0,
    bufSize := 0, buf := 0, dataLen := 0, extraBuf := none, bufSize_lt := Nat.two_pow_pos 64,
    next := none }

/-- The image of the map. -/
def imageOf (s : MapState) : MapImage Node := .of newNode s.pool s.nodes s.map.tab

/-- The map found in an image. -/
def recovered (s : MapState) (image : MapImage Node) : MapState :=
  { pool := image.pool, nodes := image.nodes,
    map := { s.map with tab := image.tab s.map.tab.length } }

/-- The object for the prefix. -/
def prefixObject (A : Allocator) (s : MapState) (pre : Bytes) : Extent :=
  ⟨A.alloc s.pool.live (pre.length + 1), pre.length + 1⟩

/-- The buffer, allocated after the object for the prefix. -/
def bufObject (A : Allocator) (s : MapState) (pre : Bytes) (bufSize : UInt64) : Extent :=
  ⟨A.alloc (prefixObject A s pre :: s.pool.live) bufSize.toNat, bufSize.toNat⟩

/-- The operations of `putAndGet`, from the begin of its transaction to the commit. -/
def putAndGetTrace (A : Allocator) (hash : Bytes → ℕ) (seqNum : ℕ) (s : MapState) (pre : Bytes)
    (bufSize : UInt64) : List (Op (MapVal Node)) :=
  let idx := hash pre % s.map.tabLen
  let bucketHeadNode := (s.map.tab[idx]?).getD none
  let newhead := s.nodes.length
  let pfx := prefixObject A s pre
  let buf := bufObject A s pre bufSize
  -- the node behind each store to one of its fields
  let hashed : Node := { newNode with hash := hash pre }
  let measured : Node := { hashed with prefixLen := pre.length }
  let prefixed : Node := { measured with prefixBuf := pfx.base }
  let ranged : Node := { prefixed with keyRange := none }
  let counted : Node := { ranged with chunkNum := 0 }
  let numbered : Node := { counted with seqNum }
  let sized : Node := { numbered with bufSize := bufSize.toNat, bufSize_lt := bufSize.toNat_lt }
  let buffered : Node := { sized with buf := buf.base }
  let empty : Node := { buffered with dataLen := 0 }
  let linked : Node := { empty with next := bucketHeadNode }
  allocateNode newNode newhead ++
    assignAll (V := MapVal Node) (.node newhead) ([hashed] ++ [measured]) ++
    allocateObject Node s.pool.live pfx ++
    assign (V := MapVal Node) (.node newhead) prefixed ++
    copyBytes Node pfx.base (pre ++ [0]) ++
    assignAll (V := MapVal Node) (.node newhead) ([ranged, counted, numbered] ++ [sized]) ++
    allocateObject Node (pfx :: s.pool.live) buf ++
    assignAll (V := MapVal Node) (.node newhead) ([buffered, empty] ++ [linked]) ++
    assign (V := MapVal Node) (.slot idx) (some newhead)

/-- What is found before the commit: nodes, slots and objects are as they were, and readers see
what they saw. -/
structure Unchanged (s : MapState) (image : MapImage Node) : Prop where
  nodes : (recovered s image).nodes = s.nodes
  map : (recovered s image).map = s.map
  live : (recovered s image).pool.live = s.pool.live
  objects : ∀ e ∈ s.pool.live, e.SameOn s.pool.mem (recovered s image).pool.mem
  getAll : ∀ nodeVec, getAll (recovered s image) nodeVec = getAll s nodeVec
  getNode : ∀ hashValue key, getNode (recovered s image) hashValue key = getNode s hashValue key

/-- The new node has all its fields, stores its prefix, and has an empty buffer. -/
structure Initialised (hash : Bytes → ℕ) (seqNum : ℕ) (m : Memory) (pre : Bytes)
    (bufSize : UInt64) (head : Option ℕ) (node : Node) : Prop where
  stores : Stores hash m node pre
  keyRange : node.keyRange = none
  chunkNum : node.chunkNum = 0
  seqNum : node.seqNum = seqNum
  buf : ByteMemory.read m node.buf bufSize.toNat = List.replicate bufSize.toNat 0
  bufSize : node.bufSize = bufSize.toNat
  dataLen : node.dataLen = 0
  next : node.next = head

/-- What is found after the commit: one more node, initialised, at the head of its bucket. The older
nodes and the other slots are as they were, and readers see the new entry and no other change. -/
structure PutDone (A : Allocator) (hash : Bytes → ℕ) (seqNum : ℕ) (s : MapState)
    (ps : List Bytes) (pre : Bytes) (bufSize : UInt64) (image : MapImage Node) : Prop where
  put : putAndGet A hash seqNum s pre bufSize = .ok (recovered s image, s.nodes.length)
  holds : MapHolds hash (recovered s image) (ps ++ [pre])
  node : ∃ head node, s.map.tab[hash pre % s.map.tabLen]? = some head ∧
    (recovered s image).nodes = s.nodes ++ [node] ∧
    Initialised hash seqNum (recovered s image).pool.mem pre bufSize head node
  slot : (recovered s image).map.tab[hash pre % s.map.tabLen]? = some (some s.nodes.length)
  others : ∀ b, b ≠ hash pre % s.map.tabLen →
    (recovered s image).map.tab[b]? = s.map.tab[b]?
  untouched : Untouched s (recovered s image)
  getAll : ∀ nodeVec all, getAll s nodeVec = .ok all → ∃ node xs ys,
    (recovered s image).nodes[s.nodes.length]? = some node ∧ all = nodeVec ++ (xs ++ ys) ∧
    getAll (recovered s image) nodeVec = .ok (nodeVec ++ (xs ++ node :: ys))
  getNode : ∀ hashValue key, getNode (recovered s image) hashValue key =
    if ident hash pre = (hashValue, cstr key) then .ok (some s.nodes.length)
    else getNode s hashValue key

section Insertion

variable {A : Allocator} {hash : Bytes → ℕ} {seqNum : ℕ} {s s' : MapState} {ps : List Bytes}
  {pre : Bytes} {bufSize : UInt64} {image : MapImage Node}

/-! ### Readers -/

/-- What `getNode` finds: the node with the hash and the C string. -/
theorem MapHolds.getNode (h : MapHolds hash s ps) (hashValue : ℕ) (key : Bytes) :
    PmemHashMap.getNode s hashValue key =
      .ok ((bucket (slotOf s.map.tabLen) s.nodes (hashValue % s.map.tabLen)).find? fun id =>
        (ps[id]?).map (ident hash) = some (hashValue, cstr key)) := by
  have hlt : hashValue % s.map.tabLen < s.map.tab.length := by
    rw [h.tab_length]
    exact Nat.mod_lt _ h.tabLen_pos
  have hchain := h.table.chain _ _ (List.getElem?_eq_getElem hlt)
  rw [PmemHashMap.getNode, vectorAt_of_lt hlt, ok_bind]
  exact findNode_eq h hashValue key hchain (length_bucket_le _)

/-- What `getAll` finds, as long as its counter lasts. -/
theorem MapHolds.getAll (h : MapHolds hash s ps) (nodeVec : List Node) :
    PmemHashMap.getAll s nodeVec =
      if s.map.tabLen < 2 ^ 31 then
        .ok (nodeVec ++ (List.range s.map.tabLen).flatMap
          (bucketEntries (slotOf s.map.tabLen) (fun node => node) s.nodes))
      else .error .signedOverflow := by
  have hlen := h.tab_length
  have hpos := h.tabLen_pos
  rw [PmemHashMap.getAll, scanTable_eq h.table (by omega), List.range_eq_range']
  exact if_congr (by omega) rfl rfl

/-- A map holds what it held as long as its objects are left alone. -/
theorem MapHolds.sameOn (h : MapHolds hash s ps) (hnodes : s'.nodes = s.nodes)
    (hmap : s'.map = s.map) (hlive : s'.pool.live = s.pool.live)
    (hobjects : ∀ e ∈ s.pool.live, e.SameOn s.pool.mem s'.pool.mem) : MapHolds hash s' ps where
  tab_length := by rw [hmap]; exact h.tab_length
  tabLen_pos := by rw [hmap]; exact h.tabLen_pos
  table := by rw [hmap, hnodes]; exact h.table
  length := by rw [hnodes]; exact h.length
  stores := by
    intro id node p hnode hp
    rw [hnodes] at hnode
    have hobject := h.live node (List.mem_of_getElem? hnode) _ (prefixExtent_mem_extents node)
    exact (h.stores id node p hnode hp).sameOn (hobjects _ hobject)
  live := by rw [hnodes, hlive]; exact h.live
  disjoint := by rw [hnodes]; exact h.disjoint
  distinct := h.distinct

/-- A prefix that looks like none that the map holds is not found. -/
theorem MapHolds.getNode_eq_none (h : MapHolds hash s ps)
    (hmiss : ∀ p ∈ ps, ident hash p ≠ ident hash pre) :
    PmemHashMap.getNode s (hash pre) pre = .ok none := by
  rw [h.getNode, Except.ok.injEq, List.find?_eq_none]
  intro id _ hid
  obtain ⟨p, hp, hident⟩ := Option.map_eq_some_iff.mp (of_decide_eq_true hid)
  exact hmiss p (List.mem_of_getElem? hp) hident

/-- `getNode` finds nothing exactly when the prefix was not inserted. -/
theorem MapHolds.getNode_none (h : MapHolds hash s ps)
    (hmiss : PmemHashMap.getNode s (hash pre) pre = .ok none) :
    ∀ p ∈ ps, ident hash p ≠ ident hash pre := by
  intro p hp hident
  obtain ⟨id, hid⟩ := List.getElem?_of_mem hp
  obtain ⟨node, hnode, hstores⟩ := h.exists_node hid
  rw [h.getNode, Except.ok.injEq, List.find?_eq_none] at hmiss
  refine hmiss id (mem_bucket.mpr ⟨node, hnode, ?_⟩) (decide_eq_true ?_)
  · rw [slotOf, hstores.hash, show hash p = hash pre from congrArg Prod.fst hident]
  · rw [hid, Option.map_some, hident, ident]

/-! ### The transaction -/

/-- **Every store of `putAndGet` is registered.** The bytes of the prefix go to an object that the
transaction has allocated. -/
theorem registers_putAndGetTrace (A : Allocator) (hash : Bytes → ℕ) (seqNum : ℕ) (s : MapState)
    (pre : Bytes) (bufSize : UInt64) (l : MapLoc) :
    Registers l (putAndGetTrace A hash seqNum s pre bufSize) := by
  refine ((((registers_copyBytes ?_ ?_).append (registers_assignAll l _ _)).append
    (registers_allocateObject l _ _)).append (registers_assignAll l _ _)).append
      (registers_assign l _ _)
  · exact (((registers_allocateNode l _ _).append (registers_assignAll l _ _)).append
      (registers_allocateObject l _ _)).append (registers_assign l _ _)
  · intro i hi hl
    refine List.mem_append_left _ (List.mem_append_right _ ?_)
    refine allocate_mem_allocateObject.mpr ⟨_, Nat.le_add_right _ i, ?_, hl⟩
    simpa [prefixObject] using hi

/-- `putAndGet` allocates a node and two objects. -/
theorem allocate_mem_putAndGetTrace {l : MapLoc}
    (h : .allocate l ∈ putAndGetTrace A hash seqNum s pre bufSize) :
    l = .node s.nodes.length ∨ ∃ e x, (e = prefixObject A s pre ∨ e = bufObject A s pre bufSize) ∧
      e.base ≤ x ∧ x < e.base + e.size ∧ l = .byte x := by
  simp only [putAndGetTrace, List.mem_append, allocate_mem_allocateNode,
    allocate_mem_allocateObject, allocate_not_mem_assignAll, allocate_not_mem_copyBytes,
    allocate_not_mem_assign, or_false] at h
  rcases h with (h | ⟨x, hx⟩) | ⟨x, hx⟩
  · exact .inl h
  · exact .inr ⟨_, x, .inl rfl, hx⟩
  · exact .inr ⟨_, x, .inr rfl, hx⟩

/-! ### What is found -/

/-- The node that `putAndGet` fills. -/
def filledNode (A : Allocator) (hash : Bytes → ℕ) (seqNum : ℕ) (s : MapState) (pre : Bytes)
    (bufSize : UInt64) (head : Option ℕ) : Node :=
  { hash := hash pre, prefixLen := pre.length, prefixBuf := (prefixObject A s pre).base,
    keyRange := none, chunkNum := 0, seqNum, bufSize := bufSize.toNat,
    buf := (bufObject A s pre bufSize).base, dataLen := 0, extraBuf := none,
    bufSize_lt := bufSize.toNat_lt, next := head }

/-- The bytes of the pool after `putAndGet`. -/
def filledMem (A : Allocator) (s : MapState) (pre : Bytes) (bufSize : UInt64) : Memory :=
  let pfx := prefixObject A s pre
  let buf := bufObject A s pre bufSize
  fill (write (fill s.pool.mem pfx.base pfx.size 0) pfx.base (pre ++ [0])) buf.base buf.size 0

/-- Everything that `putAndGet` does on a miss. -/
theorem putAndGet_eq (A : Allocator) (seqNum : ℕ) (bufSize : UInt64)
    (hmiss : PmemHashMap.getNode s (hash pre) pre = .ok none) {head : Option ℕ}
    (hhead : s.map.tab[hash pre % s.map.tabLen]? = some head) :
    putAndGet A hash seqNum s pre bufSize =
      .ok ({ pool := { mem := filledMem A s pre bufSize,
                       live := bufObject A s pre bufSize :: prefixObject A s pre :: s.pool.live },
             nodes := s.nodes ++ [filledNode A hash seqNum s pre bufSize head],
             map := { s.map with
               tab := s.map.tab.set (hash pre % s.map.tabLen) (some s.nodes.length) } },
        s.nodes.length) := by
  have hslot : vectorAt s.map.tab (hash pre % s.map.tabLen) = .ok head := by
    rw [vectorAt, hhead]
  have hfind : findNode s.pool.mem s.nodes (hash pre) pre s.nodes.length head = .ok none := by
    rw [PmemHashMap.getNode, hslot, ok_bind] at hmiss
    exact hmiss
  have hle : 0 + (pre ++ [0]).length ≤ pre.length + 1 := by simp
  rw [putAndGet, hslot]
  simp only [ok_bind, hfind]
  rw [Pool.memcpy_of_le hle, ok_bind]
  rfl

/-- What such a transaction leaves, whatever is stored to the fields: the last node counts. -/
theorem view_insertion {α : Type} {σ : State (MapVal α)} {c : MapImage α} (h : σ.view = c.values)
    (unused : α) (newhead : ℕ) (as : List α) (a : α) (pfx : Extent) (b : α) (bs : Bytes)
    (ds : List α) (d : α) (buf : Extent) (es : List α) (e : α) (i : ℕ) (head : Option ℕ) :
    (exec σ (allocateNode unused newhead ++
      assignAll (V := MapVal α) (.node newhead) (as ++ [a]) ++ allocateObject α c.live pfx ++
      assign (V := MapVal α) (.node newhead) b ++ copyBytes α pfx.base bs ++
      assignAll (V := MapVal α) (.node newhead) (ds ++ [d]) ++
      allocateObject α (pfx :: c.live) buf ++
      assignAll (V := MapVal α) (.node newhead) (es ++ [e]) ++
      assign (V := MapVal α) (.slot i) head)).view =
      MapImage.values
        { mem := fill (write (fill c.mem pfx.base pfx.size 0) pfx.base bs) buf.base buf.size 0,
          node := Function.update c.node newhead e, slot := Function.update c.slot i head,
          nodeCount := newhead + 1, live := buf :: pfx :: c.live } := by
  have h₁ := view_allocateObject
    (view_assignAllNode (view_allocateNode h unused newhead) newhead as a) c.live pfx
  have h₂ := view_copyBytes (view_assignNode h₁ newhead b) pfx.base bs
  have h₃ := view_allocateObject (view_assignAllNode h₂ newhead ds d) (pfx :: c.live) buf
  have h₄ := view_assignSlot (view_assignAllNode h₃ newhead es e) i head
  simp only [exec_append]
  rw [h₄]
  simp only [Function.update_idem]

/-- The trace of `putAndGet` is `putAndGet`. -/
theorem view_putAndGetTrace (hmiss : PmemHashMap.getNode s (hash pre) pre = .ok none)
    {head : Option ℕ} (hhead : s.map.tab[hash pre % s.map.tabLen]? = some head) {id : ℕ}
    (hput : putAndGet A hash seqNum s pre bufSize = .ok (s', id)) :
    (exec (durable (imageOf s).values) (putAndGetTrace A hash seqNum s pre bufSize)).view =
      (imageOf s').values := by
  rw [putAndGet_eq A seqNum bufSize hmiss hhead, Except.ok.injEq, Prod.mk.injEq] at hput
  obtain ⟨rfl, -⟩ := hput
  have hlt : hash pre % s.map.tabLen < s.map.tab.length := (List.getElem?_eq_some_iff.mp hhead).1
  dsimp only [putAndGetTrace]
  rw [hhead, Option.getD_some]
  refine (view_insertion (c := imageOf s) rfl newNode s.nodes.length _ _ (prefixObject A s pre) _
    (pre ++ [0]) _ _ (bufObject A s pre bufSize) _ _ _ _).trans ?_
  refine congrArg MapImage.values ?_
  rw [imageOf, imageOf, MapImage.of_set _ _ _ hlt, MapImage.of_append]
  rfl

/-- The image of a map with as many slots is that map. -/
theorem recovered_imageOf_of (htab : s'.map.tab.length = s.map.tab.length)
    (htabLen : s'.map.tabLen = s.map.tabLen) : recovered s (imageOf s') = s' := by
  rw [recovered, ← htab, imageOf, MapImage.nodes_of, MapImage.tab_of, MapImage.pool_of]
  exact congrArg (fun tabLen => { s' with map := { s'.map with tabLen } }) htabLen.symm

theorem recovered_imageOf (s : MapState) : recovered s (imageOf s) = s :=
  recovered_imageOf_of rfl rfl

/-- New objects overlap no older one. -/
theorem disjoint_objects {e f : Extent} (he : e ∈ s.pool.live)
    (hf : f = prefixObject A s pre ∨ f = bufObject A s pre bufSize) : e.Disjoint f := by
  rcases hf with rfl | rfl
  · exact A.fresh _ _ e he
  · exact A.fresh _ _ e (List.mem_cons_of_mem _ he)

/-- An image that differs from the map in what the transaction allocates only. -/
theorem unchanged_of_same (h : MapHolds hash s ps) {image : ∀ l, MapVal Node l}
    (himage : ∀ l, .allocate l ∉ putAndGetTrace A hash seqNum s pre bufSize →
      image l = (imageOf s).values l) : Unchanged s (.ofValues image) := by
  have hsame : ∀ l, l ≠ .node s.nodes.length → (∀ x, l ≠ .byte x) →
      image l = (imageOf s).values l := by
    intro l hnode hbyte
    refine himage l ?_
    intro hmem
    rcases allocate_mem_putAndGetTrace hmem with hl | ⟨-, x, -, -, -, hl⟩
    · exact hnode hl
    · exact hbyte x hl
  have hnodes : (recovered s (.ofValues image)).nodes = s.nodes := by
    have hcongr : (MapImage.ofValues image).nodes = (imageOf s).nodes :=
      MapImage.nodes_congr (hsame .nodeCount (by simp) (by simp)) fun id hid =>
        hsame (.node id) (fun hc => Nat.ne_of_lt hid (MapLoc.node.inj hc)) (by simp)
    exact hcongr.trans (congrArg MapState.nodes (recovered_imageOf s))
  have hmap : (recovered s (.ofValues image)).map = s.map := by
    have htab : (MapImage.ofValues image).tab s.map.tab.length
        = (imageOf s).tab s.map.tab.length :=
      MapImage.tab_congr (fun i => hsame (.slot i) (by simp) (by simp)) _
    refine Eq.trans ?_ (congrArg MapState.map (recovered_imageOf s))
    rw [recovered, recovered, htab]
  have hlive : (recovered s (.ofValues image)).pool.live = s.pool.live :=
    hsame .live (by simp) (by simp)
  have hobjects : ∀ e ∈ s.pool.live,
      e.SameOn s.pool.mem (recovered s (.ofValues image)).pool.mem := by
    intro e he x hl hu
    show image (.byte x) = _
    refine himage (.byte x) ?_
    intro hmem
    rcases allocate_mem_putAndGetTrace hmem with hc | ⟨f, y, hf, hfl, hfu, hxy⟩
    · cases hc
    · cases hxy
      exact disjoint_objects he hf x ⟨⟨hl, hu⟩, hfl, hfu⟩
  have hholds := h.sameOn hnodes hmap hlive hobjects
  refine ⟨hnodes, hmap, hlive, hobjects, ?_, ?_⟩
  · intro nodeVec
    rw [getAll, getAll, hnodes, hmap]
  · intro hashValue key
    rw [hholds.getNode, h.getNode, hnodes, hmap]

/-- `putAndGet` fills its node. -/
theorem initialised_filledNode (A : Allocator) (hash : Bytes → ℕ) (seqNum : ℕ) (s : MapState)
    (pre : Bytes) (bufSize : UInt64) (head : Option ℕ) :
    Initialised hash seqNum (filledMem A s pre bufSize) pre bufSize head
      (filledNode A hash seqNum s pre bufSize head) := by
  have hdis : (prefixObject A s pre).Disjoint (bufObject A s pre bufSize) :=
    A.fresh _ _ _ (List.mem_cons_self ..)
  refine ⟨⟨rfl, rfl, ?_⟩, rfl, rfl, rfl, ?_, rfl, rfl, rfl⟩
  · have hlen : (pre ++ [0]).length = pre.length + 1 := by simp
    have hread := (Extent.SameOn.of_fill hdis (v := 0)
      (m := write (fill s.pool.mem (prefixObject A s pre).base (prefixObject A s pre).size 0)
        (prefixObject A s pre).base (pre ++ [0]))).read le_rfl le_rfl
    refine hread.trans ?_
    show read _ (prefixObject A s pre).base (pre.length + 1) = _
    rw [← hlen]
    exact read_write_self _ _ _
  · rw [filledMem, ← write_replicate]
    have hself := read_write_self
      (write (fill s.pool.mem (prefixObject A s pre).base (prefixObject A s pre).size 0)
        (prefixObject A s pre).base (pre ++ [0]))
      (bufObject A s pre bufSize).base (List.replicate bufSize.toNat 0)
    rwa [List.length_replicate] at hself

/-- After an insertion `getNode` finds the new node, and whatever it found before. -/
theorem getNode_of_insert (h : MapHolds hash s ps) (h' : MapHolds hash s' (ps ++ [pre]))
    {node : Node} (hnodes : s'.nodes = s.nodes ++ [node]) (htabLen : s'.map.tabLen = s.map.tabLen)
    (hhash : node.hash = hash pre) (hashValue : ℕ) (key : Bytes) :
    PmemHashMap.getNode s' hashValue key =
      if ident hash pre = (hashValue, cstr key) then .ok (some s.nodes.length)
      else PmemHashMap.getNode s hashValue key := by
  have hnew : (ps ++ [pre])[s.nodes.length]? = some pre := by
    rw [h.length]
    exact List.getElem?_concat_length ..
  -- in its bucket the new node is looked at first
  have hold : (bucket (slotOf s.map.tabLen) s.nodes (hashValue % s.map.tabLen)).find?
      (fun id => ((ps ++ [pre])[id]?).map (ident hash) = some (hashValue, cstr key)) =
      (bucket (slotOf s.map.tabLen) s.nodes (hashValue % s.map.tabLen)).find?
        fun id => (ps[id]?).map (ident hash) = some (hashValue, cstr key) := by
    refine List.find?_congr ?_
    intro id hid
    obtain ⟨n, hn, -⟩ := mem_bucket.mp hid
    have hlt := (List.getElem?_eq_some_iff.mp hn).1
    rw [List.getElem?_append_left (by rw [← h.length]; exact hlt)]
  rw [h'.getNode, h.getNode, hnodes, htabLen, bucket_append, slotOf, hhash]
  by_cases hident : ident hash pre = (hashValue, cstr key)
  · have hvalue : hash pre = hashValue := congrArg Prod.fst hident
    rw [if_pos hident, hvalue, if_pos rfl, List.find?_cons_of_pos]
    rw [hnew, Option.map_some, hident]
    exact decide_eq_true rfl
  · rw [if_neg hident, ← hold]
    split
    · rw [List.find?_cons_of_neg]
      rw [hnew, Option.map_some]
      simpa using hident
    · rfl

/-- After an insertion `getAll` lists one more entry. -/
theorem getAll_of_insert (h : MapHolds hash s ps) (h' : MapHolds hash s' (ps ++ [pre]))
    {node : Node} (hnodes : s'.nodes = s.nodes ++ [node]) (htabLen : s'.map.tabLen = s.map.tabLen)
    {nodeVec all : List Node} (hall : PmemHashMap.getAll s nodeVec = .ok all) :
    ∃ xs ys, all = nodeVec ++ (xs ++ ys) ∧
      PmemHashMap.getAll s' nodeVec = .ok (nodeVec ++ (xs ++ node :: ys)) := by
  obtain ⟨xs, ys, hold, hnew⟩ := exists_flatMap_range_insert
    (bucketEntries (slotOf s.map.tabLen) (fun node => node) s.nodes)
    (bucketEntries (slotOf s.map.tabLen) (fun node => node) (s.nodes ++ [node])) (x := node)
    (Nat.mod_lt node.hash h.tabLen_pos) (by rw [bucketEntries_append]; exact if_pos rfl)
    (fun b hb => by rw [bucketEntries_append]; exact if_neg (Ne.symm hb))
  rw [h.getAll] at hall
  split at hall
  · next hlt =>
    rw [Except.ok.injEq] at hall
    refine ⟨xs, ys, by rw [← hall, hold], ?_⟩
    rw [h'.getAll, htabLen, if_pos hlt, hnodes, hnew]
  · cases hall

/-- What `putAndGet` returns, on a miss. -/
theorem putDone_of_miss (h : MapHolds hash s ps)
    (hmiss : PmemHashMap.getNode s (hash pre) pre = .ok none) {head : Option ℕ}
    (hhead : s.map.tab[hash pre % s.map.tabLen]? = some head) {id : ℕ}
    (hput : putAndGet A hash seqNum s pre bufSize = .ok (s', id)) :
    PutDone A hash seqNum s ps pre bufSize (imageOf s') := by
  obtain ⟨t, node, hput', hins, hholds⟩ :=
    putAndGet_miss (A := A) h (h.getNode_none hmiss) seqNum bufSize
  have heq := putAndGet_eq A seqNum bufSize hmiss hhead
  rw [hput, Except.ok.injEq, Prod.mk.injEq] at hput' heq
  obtain ⟨rfl, rfl⟩ := hput'
  have hnodes : s'.nodes = s.nodes ++ [filledNode A hash seqNum s pre bufSize head] :=
    congrArg MapState.nodes heq.1
  have htab : s'.map.tab = s.map.tab.set (hash pre % s.map.tabLen) (some s.nodes.length) := by
    rw [heq.1]
  have hlt := (List.getElem?_eq_some_iff.mp hhead).1
  have hrec : recovered s (imageOf s') = s' :=
    recovered_imageOf_of (by rw [htab, List.length_set]) hins.tabLen
  constructor
  case node =>
    refine ⟨head, filledNode A hash seqNum s pre bufSize head, hhead, by rw [hrec, hnodes], ?_⟩
    rw [hrec, heq.1]
    exact initialised_filledNode A hash seqNum s pre bufSize head
  all_goals rw [hrec]
  case put => exact hput
  case holds => exact hholds
  case slot =>
    rw [htab]
    exact List.getElem?_set_self hlt
  case others =>
    intro b hb
    rw [htab]
    exact List.getElem?_set_ne (Ne.symm hb)
  case untouched => exact hins.untouched h hholds
  case getAll =>
    intro nodeVec all hall
    obtain ⟨xs, ys, hold, hnew⟩ := getAll_of_insert h hholds hnodes hins.tabLen hall
    exact ⟨_, xs, ys, by rw [hnodes]; exact List.getElem?_concat_length .., hold, hnew⟩
  case getNode => exact getNode_of_insert h hholds hnodes hins.tabLen rfl

/-- **`putAndGet` is all-or-nothing.** -/
theorem putAndGet_allOrNothing (h : MapHolds hash s ps)
    (hmiss : PmemHashMap.getNode s (hash pre) pre = .ok none) :
    AllOrNothing (imageOf s).values (putAndGetTrace A hash seqNum s pre bufSize)
      (fun image => Unchanged s (.ofValues image))
      (fun image => PutDone A hash seqNum s ps pre bufSize (.ofValues image)) := by
  obtain ⟨head, hhead, -⟩ := h.exists_head pre
  have hput := putAndGet_eq A seqNum bufSize hmiss hhead
  refine (allOrNothing_of_registers
    (registers_putAndGetTrace A hash seqNum s pre bufSize)).imp ?_ ?_
  · intro image himage
    exact unchanged_of_same h himage
  · intro image himage
    rw [himage, view_putAndGetTrace hmiss hhead hput, MapImage.ofValues_values]
    exact putDone_of_miss h hmiss hhead hput

end Insertion

end PmemHashMap

/-! ## Both maps -/

/-- **Insertion is all-or-nothing.** Wherever the transaction of `put`, or that of `putAndGet`, is
stopped before its commit, by an exception or by a crash, the map is as it was to every reader.
After the commit the new entry is there, complete, and nothing else has changed. `putAndGet` begins
its transaction when the prefix was not inserted before. -/
theorem insertion_allOrNothing :
    (∀ (C : Type) (hashCode : C → UInt64) (m : PmemHashMapTemplate C) (cs : List C) (pool : Pool)
      (c : C), PmemHashMapTemplate.MapOk hashCode m cs →
      AllOrNothing (PmemHashMapTemplate.imageOf pool m).values
        (PmemHashMapTemplate.putTrace hashCode m c)
        (fun image => PmemHashMapTemplate.Unchanged pool m (.ofValues image))
        fun image => PmemHashMapTemplate.PutDone hashCode pool m c (.ofValues image)) ∧
    ∀ (A : Allocator) (hash : Bytes → ℕ) (seqNum : ℕ) (s : MapState) (ps : List Bytes)
      (pre : Bytes) (bufSize : UInt64), PmemHashMap.MapHolds hash s ps →
      PmemHashMap.getNode s (hash pre) pre = .ok none →
      AllOrNothing (PmemHashMap.imageOf s).values
        (PmemHashMap.putAndGetTrace A hash seqNum s pre bufSize)
        (fun image => PmemHashMap.Unchanged s (.ofValues image))
        fun image => PmemHashMap.PutDone A hash seqNum s ps pre bufSize (.ofValues image) :=
  ⟨fun _ _ _ _ pool c hm => PmemHashMapTemplate.put_allOrNothing hm pool c,
    fun _ _ _ _ _ _ _ h hmiss => PmemHashMap.putAndGet_allOrNothing h hmiss⟩

/-- A content for a map of two contents, and a prefix for a map of two prefixes: the bucket of each
has an entry, and the other bucket has one too. -/
theorem insertion_allOrNothing_small :
    (∃ m, PmemHashMapTemplate.putAll id (PmemHashMapTemplate.blank 2) [5, 4] = .ok m ∧
      AllOrNothing (PmemHashMapTemplate.imageOf ⟨fun _ => 0, []⟩ m).values
        (PmemHashMapTemplate.putTrace id m 7)
        (fun image => PmemHashMapTemplate.Unchanged ⟨fun _ => 0, []⟩ m (.ofValues image))
        (fun image => PmemHashMapTemplate.PutDone id ⟨fun _ => 0, []⟩ m 7 (.ofValues image))) ∧
    ∃ s, run (PmemHashMap.call .bump List.length 0) (PmemHashMap.emptyMap ⟨fun _ => 0, []⟩ 2)
        [([3, 4], 8), ([5], 8)] = .ok s ∧
      AllOrNothing (PmemHashMap.imageOf s).values
        (PmemHashMap.putAndGetTrace .bump List.length 0 s [1, 2] 8)
        (fun image => PmemHashMap.Unchanged s (.ofValues image))
        (fun image => PmemHashMap.PutDone .bump List.length 0 s [[3, 4], [5]] [1, 2] 8
          (.ofValues image)) := by
  have hblank : PmemHashMapTemplate.MapOk id (PmemHashMapTemplate.blank (C := UInt64) 2) [] :=
    PmemHashMapTemplate.mapOk_blank id (by decide) (by decide)
  constructor
  · obtain ⟨m, hm, -, hok⟩ := hblank.putAll [5, 4]
    exact ⟨m, hm, insertion_allOrNothing.1 UInt64 id m _ _ 7 hok⟩
  · obtain ⟨s, hs, hholds⟩ := PmemHashMap.run_holds .bump List.length 0 ⟨fun _ => 0, []⟩
      (show 0 < 2 by decide) [([3, 4], 8), ([5], 8)]
    have hnew : ∀ p ∈ ([[3, 4], [5]] : List Bytes),
        PmemHashMap.ident List.length p ≠ PmemHashMap.ident List.length [1, 2] := by decide
    exact ⟨s, hs, insertion_allOrNothing.2 .bump List.length 0 s _ [1, 2] 8 hholds
      (hholds.getNode_eq_none hnew)⟩

end RangeCache
