import RangeCache.Lib.DurableRun
import RangeCache.MapAtomicity

/-!
# Insertions survive crashes

A run of insertions may be stopped by exceptions and crashes, at any operation and any number of
times. Both maps are then found as the completed insertions leave them when nothing stops them:
no completed one is lost, and of an interrupted one nothing is seen.

The program takes what it does next from what it finds in the memory: the operations of an
insertion are those on the map that was recovered.

## Main definitions

* `PmemHashMapTemplate.putTx`, `PmemHashMap.putAndGetTx` — the transaction of an insertion, if any
* `PmemHashMap.Alike` — maps that differ in unused memory only

## Main results

* `transacts_put`, `transacts_putAndGet` — the transactions are the insertions
* `PmemHashMapTemplate.puts_durable` — runs of `put`
* `PmemHashMap.inserts_durable` — runs of `putAndGet`
-/

namespace RangeCache

open ByteMemory ChainHeap TxMemory FallibleRun

namespace MapImage

variable {α : Type}

@[simp] theorem values_ofValues (v : ∀ l, MapVal α l) : (ofValues v).values = v := by
  funext l
  cases l <;> rfl

/-- One more node, in an image. -/
theorem nodes_push (c : MapImage α) {n : ℕ} (hn : c.nodeCount = n) (a : α) (mem : Memory)
    (slot : ℕ → Option ℕ) (live : List Extent) :
    nodes { mem, node := Function.update c.node n a, slot, nodeCount := n + 1, live } =
      c.nodes ++ [a] := by
  subst hn
  have hold : (List.range c.nodeCount).map (Function.update c.node c.nodeCount a)
      = (List.range c.nodeCount).map c.node := by
    refine List.map_congr_left fun id hid => ?_
    exact Function.update_of_ne (Nat.ne_of_lt (List.mem_range.mp hid)) _ _
  show (List.range (c.nodeCount + 1)).map (Function.update c.node c.nodeCount a) = _
  rw [List.range_succ, List.map_append, hold, List.map_singleton, Function.update_self]
  rfl

/-- One slot changed, in an image. -/
theorem tab_update (c : MapImage α) (n i : ℕ) (head : Option ℕ) (mem : Memory) (node : ℕ → α)
    (nodeCount : ℕ) (live : List Extent) :
    tab { mem, node, slot := Function.update c.slot i head, nodeCount, live } n =
      (c.tab n).set i head := by
  refine List.ext_getElem (by simp [tab]) fun j hj hj' => ?_
  rw [List.getElem_set]
  simp only [tab, List.getElem_map, List.getElem_range]
  by_cases hij : i = j
  · subst hij
    rw [if_pos rfl, Function.update_self]
  · rw [if_neg hij, Function.update_of_ne (Ne.symm hij)]

@[simp] theorem length_tab (c : MapImage α) (n : ℕ) : (c.tab n).length = n := by simp [tab]

@[simp] theorem length_nodes (c : MapImage α) : c.nodes.length = c.nodeCount := by simp [nodes]

end MapImage

/-! ## The template map -/

namespace PmemHashMapTemplate

variable {C : Type} {hashCode : C → UInt64} {m₀ m m' : PmemHashMapTemplate C} {pool : Pool}
  {v v' : ∀ l, MapVal (Node2 C) l}

/-- The transaction of `put(c)` in a program that opens the map of `m₀.tabLen` slots. -/
def putTx (hashCode : C → UInt64) (m₀ : PmemHashMapTemplate C) (v : ∀ l, MapVal (Node2 C) l)
    (c : C) : Option (List (Op (MapVal (Node2 C)))) :=
  some (putTrace hashCode (recovered m₀ (.ofValues v)) c)

/-- Everything is in use but the nodes that are not allocated. -/
def inUse (m : PmemHashMapTemplate C) : Set MapLoc :=
  {l | ∀ id, l = .node id → id < m.nodes.length}

/-- The memory holds the map `m`, in the pool `pool`. -/
structure Holds (hashCode : C → UInt64) (pool : Pool) (m₀ m : PmemHashMapTemplate C)
    (v : ∀ l, MapVal (Node2 C) l) : Prop where
  map : recovered m₀ (.ofValues v) = m
  pool : (MapImage.ofValues v).pool = pool
  ok : ∃ cs, MapOk hashCode m cs

theorem Holds.frame (h : Holds hashCode pool m₀ m v) (hv : ∀ l ∈ inUse m, v' l = v l) :
    Holds hashCode pool m₀ m v' := by
  have hlen : m.nodes.length = v .nodeCount := by
    rw [← h.map]
    exact MapImage.length_nodes (.ofValues v)
  have hsame : ∀ l, (∀ id, l ≠ .node id) → v' l = v l :=
    fun l hl => hv l fun id hid => absurd hid (hl id)
  have hnodes : (MapImage.ofValues v').nodes = (MapImage.ofValues v).nodes := by
    refine MapImage.nodes_congr (hsame .nodeCount (by simp)) fun id hid => hv (.node id) ?_
    intro id' hid'
    cases hid'
    rw [hlen]
    exact hid
  have htab : (MapImage.ofValues v').tab m₀.tab.length = (MapImage.ofValues v).tab m₀.tab.length :=
    MapImage.tab_congr (fun i => hsame (.slot i) (by simp)) _
  refine ⟨?_, ?_, h.ok⟩
  · rw [← h.map, recovered, recovered, hnodes, htab]
  · rw [← h.pool]
    have hmem : (MapImage.ofValues v').mem = (MapImage.ofValues v).mem :=
      funext fun a => hsame (.byte a) (by simp)
    have hlive : (MapImage.ofValues v').live = (MapImage.ofValues v).live := hsame .live (by simp)
    rw [MapImage.pool, MapImage.pool, hmem, hlive]

/-- What the operations of `put` leave is what `put` returns. -/
theorem Holds.put (h : Holds hashCode pool m₀ m v) {c : C}
    (hput : PmemHashMapTemplate.put hashCode m (some c) = .ok m') :
    Holds hashCode pool m₀ m' (exec (durable v) (putTrace hashCode m c)).view := by
  obtain ⟨cs, hm⟩ := h.ok
  obtain ⟨head, hhead⟩ := hm.exists_head c
  have hok := hm.put hput
  rw [put_eq hm hhead, Except.ok.injEq] at hput
  have hidx : (hashCode c).toNat % m.tabLen % m.tabLen = bucketOf hashCode m.tabLen c :=
    Nat.mod_mod _ _
  have hcount : (MapImage.ofValues v).nodeCount = m.nodes.length := by
    rw [← h.map]
    exact (MapImage.length_nodes _).symm
  -- the memory behind each of the three parts of the trace
  have h₁ := view_allocateNode (σ := durable v) (MapImage.values_ofValues v).symm
    (newNode : Node2 C) m.nodes.length
  have h₂ := view_assignAllNode h₁ m.nodes.length [⟨none, some c⟩] ⟨head, some c⟩
  have h₃ := view_assignSlot h₂ (bucketOf hashCode m.tabLen c) (some m.nodes.length)
  dsimp only [putTrace]
  rw [hidx, hhead, Option.getD_some, exec_append, exec_append, h₃, Function.update_idem]
  refine ⟨?_, ?_, _, hok⟩
  · rw [MapImage.ofValues_values, recovered, MapImage.nodes_push _ hcount, MapImage.tab_update,
      ← hput, ← h.map]
    rfl
  · rw [MapImage.ofValues_values]
    exact h.pool

theorem transacts_put (hashCode : C → UInt64) (pool : Pool) (m₀ : PmemHashMapTemplate C) :
    Transacts (putTx hashCode m₀) (Holds hashCode pool m₀) inUse
      (fun m c => put hashCode m (some c)) where
  frame := Holds.frame
  reads := by
    intro m v c _ htx
    cases htx
  registers := by
    intro m v c ops _ htx l
    cases htx
    exact registers_putTrace ..
  fresh := by
    intro m v c ops h htx l hl hmem
    cases htx
    rw [h.map] at hmem
    exact lt_irrefl _ (hl _ (allocate_mem_putTrace hmem))
  commits := by
    intro m v c ops h htx
    cases htx
    rw [h.map]
    obtain ⟨cs, hm⟩ := h.ok
    obtain ⟨head, hhead⟩ := hm.exists_head c
    have hput := put_eq hm hhead
    refine ⟨_, hput, h.put hput, fun l hl => ?_⟩
    by_cases hnew : l = .node m.nodes.length
    · refine .inr (List.mem_append_left _ ?_)
      exact allocate_mem_allocateNode.mpr hnew
    · refine .inl fun id hid => ?_
      have hlt := hl id hid
      rw [List.length_append, List.length_singleton] at hlt
      have hne : id ≠ m.nodes.length := by
        rintro rfl
        exact hnew hid
      omega

/-- What is found in the memory, at once or after a crash, when it holds the map of the contents
`done`. -/
theorem Holds.found {tabLen : UInt64} (hpos : 0 < tabLen.toNat) (hlt : tabLen.toNat < 2 ^ 32)
    {done : List C} {σ : State (MapVal (Node2 C))}
    (hall : putAll hashCode (blank tabLen) done = .ok m)
    (hholds : Holds hashCode pool (blank tabLen) m σ.view) (hquiet : Quiet (inUse m) σ)
    {image : ∀ l, MapVal (Node2 C) l} (himage : image = σ.view ∨ Crash σ image) :
    recovered (blank tabLen) (.ofValues image) = m ∧ (MapImage.ofValues image).pool = pool ∧
      ∃ found, getAll (recovered (blank tabLen) (.ofValues image)) [] = .ok found ∧
        found.Perm (done.map some) := by
  obtain ⟨m', hall', -, hok⟩ := (mapOk_blank hashCode hpos hlt).putAll done
  rw [hall, Except.ok.injEq] at hall'
  rw [← hall', List.nil_append] at hok
  have hfound : Holds hashCode pool (blank tabLen) m image := by
    rcases himage with rfl | hcrash
    · exact hholds
    · exact hholds.frame (hquiet.crash hcrash)
  have hperm : ((List.range m.tabLen).flatMap fun b =>
      (done.filter fun c => bucketOf hashCode m.tabLen c = b).reverse).Perm done :=
    flatMap_filter_perm _ fun c _ => Nat.mod_lt _ hok.tabLen_pos
  refine ⟨hfound.map, hfound.pool, _, ?_, hperm.map some⟩
  rw [hfound.map]
  exact hok.getAll []

theorem holds_blank (hashCode : C → UInt64) {tabLen : UInt64} (hpos : 0 < tabLen.toNat)
    (hlt : tabLen.toNat < 2 ^ 32) (pool : Pool) :
    Holds hashCode pool (blank tabLen) (blank tabLen) (imageOf pool (blank tabLen)).values :=
  ⟨recovered_imageOf pool _, rfl, [], mapOk_blank hashCode hpos hlt⟩

/-- A sequence of puts, as a run. -/
theorem putAll_eq_run (hashCode : C → UInt64) (m : PmemHashMapTemplate C) (cs : List C) :
    putAll hashCode m cs = run (fun m c => put hashCode m (some c)) m cs := by
  rw [putAll, run, List.foldlM_map]
  rfl

/-- **Contents survive crashes.** Wherever a run of puts is stopped, and however often, the map that
is found, at once or after one more crash, is the one that the completed puts leave when nothing
stops them. So `getAll` lists their contents, and no other. -/
theorem puts_durable (hashCode : C → UInt64) {tabLen : UInt64} (hpos : 0 < tabLen.toNat)
    (hlt : tabLen.toNat < 2 ^ 32) (pool : Pool) {done : List C} {σ : State (MapVal (Node2 C))}
    (hrun : DurableRun (putTx hashCode (blank tabLen))
      (durable (imageOf pool (blank tabLen)).values) done σ) :
    ∃ m, putAll hashCode (blank tabLen) done = .ok m ∧ ∀ image, image = σ.view ∨ Crash σ image →
      recovered (blank tabLen) (.ofValues image) = m ∧ (MapImage.ofValues image).pool = pool ∧
      ∃ found, getAll (recovered (blank tabLen) (.ofValues image)) [] = .ok found ∧
        found.Perm (done.map some) := by
  obtain ⟨m, hm, hholds, hquiet⟩ :=
    (transacts_put hashCode pool _).durableRun (holds_blank hashCode hpos hlt pool) hrun
  rw [← putAll_eq_run] at hm
  exact ⟨m, hm, fun image himage => hholds.found hpos hlt hm hquiet himage⟩

/-- A put that returned, one that was stopped, and one more. -/
theorem puts_durable_stopped :
    ∃ σ, DurableRun (putTx id (blank 2)) (durable (imageOf ⟨fun _ => 0, []⟩ (blank 2)).values)
        [7, 9] σ ∧
      ∃ m, putAll id (blank 2) [7, 9] = .ok m ∧ ∀ image, image = σ.view ∨ Crash σ image →
        recovered (blank 2) (.ofValues image) = m ∧
        (MapImage.ofValues image).pool = ⟨fun _ => 0, []⟩ ∧
        ∃ found, getAll (recovered (blank 2) (.ofValues image)) [] = .ok found ∧
          found.Perm ([7, 9].map some) := by
  have hstart : DurableRun (putTx id (blank 2))
      (durable (imageOf ⟨fun _ => 0, []⟩ (blank 2)).values) [] _ := .start
  have hfirst := hstart.commits (a := 7) rfl
  have hstopped := hfirst.stopped (a := 5) rfl (List.take_prefix 4 _) .throws
  have hagain := hstopped.commits (a := 9) rfl
  exact ⟨_, hagain, puts_durable id (by decide) (by decide) _ hagain⟩

end PmemHashMapTemplate

/-! ## The map of prefixes -/

namespace PmemHashMap

/-- Maps that are equal but for bytes outside of the objects. -/
structure Alike (s s' : MapState) : Prop where
  nodes : s'.nodes = s.nodes
  map : s'.map = s.map
  live : s'.pool.live = s.pool.live
  objects : ∀ e ∈ s.pool.live, e.SameOn s.pool.mem s'.pool.mem

section Insertion

variable {A : Allocator} {hash : Bytes → ℕ} {seqNum : ℕ} {s s' s₀ : MapState} {ps : List Bytes}
  {pre : Bytes} {bufSize : UInt64} {v v' : ∀ l, MapVal Node l}

theorem Alike.refl (s : MapState) : Alike s s :=
  ⟨rfl, rfl, rfl, fun _ _ => Extent.SameOn.refl _ _⟩

theorem Alike.holds (h : Alike s s') (hs : MapHolds hash s ps) : MapHolds hash s' ps :=
  hs.sameOn h.nodes h.map h.live h.objects

/-- Readers do not tell such maps apart. -/
theorem Alike.getNode (h : Alike s s') (hs : MapHolds hash s ps) (hashValue : ℕ) (key : Bytes) :
    PmemHashMap.getNode s' hashValue key = PmemHashMap.getNode s hashValue key := by
  rw [(h.holds hs).getNode, hs.getNode, h.nodes, h.map]

theorem Alike.getAll (h : Alike s s') (nodeVec : List Node) :
    PmemHashMap.getAll s' nodeVec = PmemHashMap.getAll s nodeVec := by
  rw [PmemHashMap.getAll, PmemHashMap.getAll, h.nodes, h.map]

/-- The allocator places the same objects. -/
theorem Alike.objects_eq (h : Alike s s') (A : Allocator) (pre : Bytes) (bufSize : UInt64) :
    prefixObject A s' pre = prefixObject A s pre ∧
      bufObject A s' pre bufSize = bufObject A s pre bufSize := by
  have hpfx : prefixObject A s' pre = prefixObject A s pre := by
    rw [prefixObject, prefixObject, h.live]
  exact ⟨hpfx, by rw [bufObject, bufObject, hpfx, h.live]⟩

/-- A write makes memories agree on what it covers, and elsewhere where they agreed. -/
theorem write_congr_of {m m' : Memory} {a x : ℕ} {bs : Bytes}
    (h : ¬ (a ≤ x ∧ x < a + bs.length) → m' x = m x) : write m' a bs x = write m a bs x := by
  by_cases hx : a ≤ x ∧ x < a + bs.length
  · obtain ⟨i, hi, rfl⟩ : ∃ i < bs.length, x = a + i := ⟨x - a, by omega, by omega⟩
    rw [write_getElem hi, write_getElem hi]
  · rw [write_of_not_mem (by omega), write_of_not_mem (by omega)]
    exact h hx

theorem fill_congr_of {m m' : Memory} {a n x : ℕ} {b : UInt8}
    (h : ¬ (a ≤ x ∧ x < a + n) → m' x = m x) : fill m' a n b x = fill m a n b x := by
  rw [← write_replicate, ← write_replicate]
  exact write_congr_of (by rwa [List.length_replicate])

/-- `putAndGet` fills what it allocates, so it leaves maps that are alike alike. -/
theorem Alike.filledMem (h : Alike s s') :
    ∀ e ∈ bufObject A s pre bufSize :: prefixObject A s pre :: s.pool.live,
      e.SameOn (filledMem A s pre bufSize) (PmemHashMap.filledMem A s' pre bufSize) := by
  obtain ⟨hpfx, hbuf⟩ := h.objects_eq A pre bufSize
  intro e he x hl hu
  rw [PmemHashMap.filledMem, PmemHashMap.filledMem, hpfx, hbuf]
  refine fill_congr_of fun hx => ?_
  rw [write_fill (by simp [prefixObject]), write_fill (by simp [prefixObject])]
  refine write_congr_of fun hx' => ?_
  rw [List.length_append, List.length_singleton] at hx'
  rcases List.mem_cons.mp he with rfl | he
  · exact absurd ⟨hl, hu⟩ hx
  rcases List.mem_cons.mp he with rfl | he
  · exact absurd ⟨hl, hu⟩ hx'
  · exact h.objects e he x hl hu

/-! ### The transaction -/

/-- The transaction of `putAndGet(prefix, bufSize)` in a program that opens the map with as many
slots as `s₀` has: a prefix that is found needs none. -/
def putAndGetTx (A : Allocator) (hash : Bytes → ℕ) (seqNum : ℕ) (s₀ : MapState)
    (v : ∀ l, MapVal Node l) (c : Bytes × UInt64) : Option (List (Op (MapVal Node))) :=
  let s := recovered s₀ (.ofValues v)
  match PmemHashMap.getNode s (hash c.1) c.1 with
  | .ok none => some (putAndGetTrace A hash seqNum s c.1 c.2)
  | _ => none

/-- The bytes of the objects, the nodes, the slots and the records of the allocator are in use. -/
def inUse (s : MapState) : Set MapLoc :=
  {l | match l with
    | .byte a => ∃ e ∈ s.pool.live, e.base ≤ a ∧ a < e.base + e.size
    | .node id => id < s.nodes.length
    | _ => True}

/-- The memory holds the map `s`. -/
structure Holds (hash : Bytes → ℕ) (s₀ s : MapState) (v : ∀ l, MapVal Node l) : Prop where
  alike : Alike s (recovered s₀ (.ofValues v))
  holds : ∃ ps, MapHolds hash s ps

theorem Holds.nodeCount (h : Holds hash s₀ s v) :
    (MapImage.ofValues v).nodeCount = s.nodes.length := by
  rw [← h.alike.nodes]
  exact (MapImage.length_nodes _).symm

theorem Holds.frame (h : Holds hash s₀ s v) (hv : ∀ l ∈ inUse s, v' l = v l) :
    Holds hash s₀ s v' := by
  have hnodes : (MapImage.ofValues v').nodes = (MapImage.ofValues v).nodes := by
    refine MapImage.nodes_congr (hv .nodeCount trivial) fun id hid => hv (.node id) ?_
    rw [h.nodeCount] at hid
    exact hid
  have htab : (MapImage.ofValues v').tab s₀.map.tab.length
      = (MapImage.ofValues v).tab s₀.map.tab.length :=
    MapImage.tab_congr (fun i => hv (.slot i) trivial) _
  refine ⟨⟨hnodes.trans h.alike.nodes, ?_, (hv .live trivial).trans h.alike.live, ?_⟩, h.holds⟩
  · refine Eq.trans ?_ h.alike.map
    rw [recovered, recovered, htab]
  · intro e he x hl hu
    exact (hv (.byte x) ⟨e, he, hl, hu⟩).trans (h.alike.objects e he x hl hu)

/-- The node and the objects of `putAndGet` are allocated by its transaction. -/
theorem allocate_node_mem_putAndGetTrace :
    .allocate (.node s.nodes.length) ∈ putAndGetTrace A hash seqNum s pre bufSize := by
  simp only [putAndGetTrace, List.mem_append, allocate_mem_allocateNode, true_or]

theorem allocate_byte_mem_putAndGetTrace {e : Extent} {x : ℕ}
    (he : e = prefixObject A s pre ∨ e = bufObject A s pre bufSize) (hl : e.base ≤ x)
    (hu : x < e.base + e.size) :
    .allocate (.byte x) ∈ putAndGetTrace A hash seqNum s pre bufSize := by
  simp only [putAndGetTrace, List.mem_append, allocate_mem_allocateNode,
    allocate_mem_allocateObject, allocate_not_mem_assignAll, allocate_not_mem_copyBytes,
    allocate_not_mem_assign, or_false]
  rcases he with rfl | rfl
  · exact .inl (.inr ⟨x, hl, hu, rfl⟩)
  · exact .inr ⟨x, hl, hu, rfl⟩

/-- What the operations of `putAndGet` leave is what `putAndGet` returns. -/
theorem recovered_putAndGetTrace (hs : recovered s₀ (.ofValues v) = s)
    (hmiss : PmemHashMap.getNode s (hash pre) pre = .ok none) {head : Option ℕ}
    (hhead : s.map.tab[hash pre % s.map.tabLen]? = some head) {id : ℕ}
    (hput : putAndGet A hash seqNum s pre bufSize = .ok (s', id)) :
    recovered s₀ (.ofValues (exec (durable v)
      (putAndGetTrace A hash seqNum s pre bufSize)).view) = s' := by
  rw [putAndGet_eq A seqNum bufSize hmiss hhead, Except.ok.injEq, Prod.mk.injEq] at hput
  have hcount : (MapImage.ofValues v).nodeCount = s.nodes.length := by
    rw [← hs]
    exact (MapImage.length_nodes _).symm
  have hlive : (MapImage.ofValues v).live = s.pool.live := by rw [← hs]; rfl
  have hview := view_insertion (σ := durable v) (MapImage.values_ofValues v).symm newNode
    s.nodes.length [{ newNode with hash := hash pre }]
    { newNode with hash := hash pre, prefixLen := pre.length } (prefixObject A s pre)
  dsimp only [putAndGetTrace]
  rw [hhead, Option.getD_some, ← hlive, hview, MapImage.ofValues_values, recovered,
    MapImage.nodes_push _ hcount, MapImage.tab_update, ← hput.1, ← hs]
  rfl

/-- `putAndGet` leaves maps that are alike alike. -/
theorem Alike.putAndGet (h : Alike s s') (A : Allocator) (seqNum : ℕ) (bufSize : UInt64)
    (hmiss : PmemHashMap.getNode s (hash pre) pre = .ok none)
    (hmiss' : PmemHashMap.getNode s' (hash pre) pre = .ok none) {head : Option ℕ}
    (hhead : s.map.tab[hash pre % s.map.tabLen]? = some head) :
    ∃ t t' id, PmemHashMap.putAndGet A hash seqNum s pre bufSize = .ok (t, id) ∧
      PmemHashMap.putAndGet A hash seqNum s' pre bufSize = .ok (t', id) ∧ Alike t t' := by
  obtain ⟨hpfx, hbuf⟩ := h.objects_eq A pre bufSize
  have hhead' : s'.map.tab[hash pre % s'.map.tabLen]? = some head := by rw [h.map]; exact hhead
  have hput := putAndGet_eq A seqNum bufSize hmiss hhead
  have hput' := putAndGet_eq A seqNum bufSize hmiss' hhead'
  rw [← h.nodes] at hput
  refine ⟨_, _, _, hput, hput', ?_, ?_, ?_, h.filledMem⟩
  · show s'.nodes ++ [_] = s'.nodes ++ [_]
    rw [filledNode, filledNode, hpfx, hbuf]
  · show ({ s'.map with tab := s'.map.tab.set (hash pre % s'.map.tabLen) _ } : PmemHashMap) = _
    rw [h.map]
  · show bufObject A s' pre bufSize :: prefixObject A s' pre :: s'.pool.live = _
    rw [hbuf, hpfx, h.live]

theorem putAndGetTx_eq_some {c : Bytes × UInt64} {ops : List (Op (MapVal Node))} :
    putAndGetTx A hash seqNum s₀ v c = some ops ↔
      PmemHashMap.getNode (recovered s₀ (.ofValues v)) (hash c.1) c.1 = .ok none ∧
        ops = putAndGetTrace A hash seqNum (recovered s₀ (.ofValues v)) c.1 c.2 := by
  rw [putAndGetTx]
  split
  · next hmiss => simp [hmiss, eq_comm]
  · next hother =>
    constructor
    · intro h
      cases h
    · rintro ⟨hmiss, -⟩
      exact absurd hmiss hother

/-- Without a transaction nothing is inserted. -/
theorem Holds.reads (h : Holds hash s₀ s v) {c : Bytes × UInt64}
    (htx : putAndGetTx A hash seqNum s₀ v c = none) : call A hash seqNum s c = .ok s := by
  obtain ⟨ps, hs⟩ := h.holds
  by_cases hex : ∃ q ∈ ps, ident hash q = ident hash c.1
  · obtain ⟨q, hq, hident⟩ := hex
    obtain ⟨id, hid⟩ := List.getElem?_of_mem hq
    rw [call, putAndGet_hit hs hid hident seqNum c.2]
    rfl
  · have hmiss : PmemHashMap.getNode (recovered s₀ (.ofValues v)) (hash c.1) c.1 = .ok none :=
      (h.alike.holds hs).getNode_eq_none fun q hq hident => hex ⟨q, hq, hident⟩
    rw [putAndGetTx_eq_some.mpr ⟨hmiss, rfl⟩] at htx
    cases htx

/-- The transaction allocates nothing that is in use. -/
theorem Holds.fresh (h : Holds hash s₀ s v) {l : MapLoc} (hl : l ∈ inUse s) :
    .allocate l ∉ putAndGetTrace A hash seqNum (recovered s₀ (.ofValues v)) pre bufSize := by
  intro hmem
  obtain ⟨hpfx, hbuf⟩ := h.alike.objects_eq A pre bufSize
  rcases allocate_mem_putAndGetTrace hmem with rfl | ⟨f, x, hf, hfl, hfu, rfl⟩
  · rw [h.alike.nodes] at hl
    exact lt_irrefl s.nodes.length hl
  · obtain ⟨e, he, hel, heu⟩ := hl
    rw [hpfx, hbuf] at hf
    exact disjoint_objects he hf x ⟨⟨hel, heu⟩, hfl, hfu⟩

/-- The transaction is the insertion, and what it adds it has allocated. -/
theorem Holds.commits (h : Holds hash s₀ s v) {c : Bytes × UInt64} {ops : List (Op (MapVal Node))}
    (htx : putAndGetTx A hash seqNum s₀ v c = some ops) :
    ∃ t, call A hash seqNum s c = .ok t ∧ Holds hash s₀ t (exec (durable v) ops).view ∧
      ∀ l ∈ inUse t, l ∈ inUse s ∨ .allocate l ∈ ops := by
  obtain ⟨hmiss', rfl⟩ := putAndGetTx_eq_some.mp htx
  obtain ⟨ps, hs⟩ := h.holds
  have hmiss : PmemHashMap.getNode s (hash c.1) c.1 = .ok none := by
    rw [← h.alike.getNode hs]
    exact hmiss'
  obtain ⟨head, hhead, -⟩ := hs.exists_head c.1
  obtain ⟨hpfx, hbuf⟩ := h.alike.objects_eq A c.1 c.2
  have hhead' : (recovered s₀ (.ofValues v)).map.tab[
      hash c.1 % (recovered s₀ (.ofValues v)).map.tabLen]? = some head := by
    rw [h.alike.map]
    exact hhead
  obtain ⟨t, t', id, hput, hput', halike⟩ :=
    h.alike.putAndGet A seqNum c.2 hmiss hmiss' hhead
  obtain ⟨u, node, hput'', -, hholds⟩ :=
    putAndGet_miss (A := A) hs (hs.getNode_none hmiss) seqNum c.2
  rw [hput, Except.ok.injEq, Prod.mk.injEq] at hput''
  obtain ⟨rfl, -⟩ := hput''
  refine ⟨t, by rw [call, hput]; rfl, ⟨?_, _, hholds⟩, fun l hl => ?_⟩
  · rw [recovered_putAndGetTrace rfl hmiss' hhead' hput']
    exact halike
  · rw [putAndGet_eq A seqNum c.2 hmiss hhead, Except.ok.injEq, Prod.mk.injEq] at hput
    rw [← hput.1] at hl
    cases l with
    | node id =>
      rcases Nat.lt_or_eq_of_le (Nat.le_of_lt_succ (by simpa [inUse] using hl)) with hlt | heq
      · exact .inl hlt
      · rw [heq, ← h.alike.nodes]
        exact .inr allocate_node_mem_putAndGetTrace
    | byte x =>
      obtain ⟨e, he, hel, heu⟩ := hl
      rcases List.mem_cons.mp he with rfl | he
      · exact .inr (allocate_byte_mem_putAndGetTrace (.inr hbuf.symm) hel heu)
      rcases List.mem_cons.mp he with rfl | he
      · exact .inr (allocate_byte_mem_putAndGetTrace (.inl hpfx.symm) hel heu)
      · exact .inl ⟨e, he, hel, heu⟩
    | slot i => exact .inl trivial
    | nodeCount => exact .inl trivial
    | live => exact .inl trivial

theorem transacts_putAndGet (A : Allocator) (hash : Bytes → ℕ) (seqNum : ℕ) (s₀ : MapState) :
    Transacts (putAndGetTx A hash seqNum s₀) (Holds hash s₀) inUse (call A hash seqNum) where
  frame := Holds.frame
  reads h htx := h.reads htx
  registers := by
    intro s v c ops _ htx l
    obtain ⟨-, rfl⟩ := putAndGetTx_eq_some.mp htx
    exact registers_putAndGetTrace ..
  fresh := by
    intro s v c ops h htx l hl
    obtain ⟨-, rfl⟩ := putAndGetTx_eq_some.mp htx
    exact h.fresh hl
  commits h htx := h.commits htx

/-- A prefix is found when one with its identity was inserted. -/
theorem MapHolds.getNode_isSome (h : MapHolds hash s ps) (pre : Bytes) :
    (∃ id, PmemHashMap.getNode s (hash pre) pre = .ok (some id)) ↔
      ∃ p ∈ ps, ident hash p = ident hash pre := by
  constructor
  · rintro ⟨id, hid⟩
    by_contra hc
    rw [h.getNode_eq_none fun p hp hident => hc ⟨p, hp, hident⟩] at hid
    cases hid
  · rintro ⟨p, hp, hident⟩
    cases hfound : (bucket (slotOf s.map.tabLen) s.nodes (hash pre % s.map.tabLen)).find? fun id =>
        (ps[id]?).map (ident hash) = some (hash pre, cstr pre) with
    | some id => exact ⟨id, by rw [h.getNode, hfound]⟩
    | none =>
      have hmiss : PmemHashMap.getNode s (hash pre) pre = .ok none := by rw [h.getNode, hfound]
      exact absurd hident (h.getNode_none hmiss p hp)

end Insertion

/-- **The map that is found**, at once or after one more crash, is alike to the one that the
completed insertions leave. -/
theorem exists_found (A : Allocator) (hash : Bytes → ℕ) (seqNum : ℕ) (pool : Pool) {tabLen : ℕ}
    (htab : 0 < tabLen) {done : List (Bytes × UInt64)} {σ : State (MapVal Node)}
    (hrun : DurableRun (putAndGetTx A hash seqNum (emptyMap pool tabLen))
      (durable (imageOf (emptyMap pool tabLen)).values) done σ) :
    ∃ s, run (call A hash seqNum) (emptyMap pool tabLen) done = .ok s ∧
      MapHolds hash s (storedPrefixes hash (done.map Prod.fst)) ∧
      ∀ image, image = σ.view ∨ Crash σ image →
        Alike s (recovered (emptyMap pool tabLen) (.ofValues image)) := by
  have hinit : Holds hash (emptyMap pool tabLen) (emptyMap pool tabLen)
      (imageOf (emptyMap pool tabLen)).values := by
    refine ⟨?_, [], mapHolds_empty pool htab⟩
    rw [MapImage.ofValues_values, recovered_imageOf]
    exact Alike.refl _
  obtain ⟨s, hs, hholds, hquiet⟩ := (transacts_putAndGet A hash seqNum _).durableRun hinit hrun
  refine ⟨s, hs, MapHolds.of_run htab hs, fun image himage => ?_⟩
  rcases himage with rfl | hcrash
  · exact hholds.alike
  · exact (hholds.frame (hquiet.crash hcrash)).alike

/-- **Prefixes survive crashes.** Wherever a run of insertions is stopped, and however often, the
map that is found, at once or after one more crash, is the one that the completed insertions leave
when nothing stops them: its nodes, its slots, its objects and their bytes. So `getNode` and
`getAll` see the completed insertions, and no other. -/
theorem inserts_durable (A : Allocator) (hash : Bytes → ℕ) (seqNum : ℕ) (pool : Pool) {tabLen : ℕ}
    (htab : 0 < tabLen) {done : List (Bytes × UInt64)} {σ : State (MapVal Node)}
    (hrun : DurableRun (putAndGetTx A hash seqNum (emptyMap pool tabLen))
      (durable (imageOf (emptyMap pool tabLen)).values) done σ) :
    ∃ s, run (call A hash seqNum) (emptyMap pool tabLen) done = .ok s ∧
      ∀ image, image = σ.view ∨ Crash σ image →
        let found := recovered (emptyMap pool tabLen) (.ofValues image)
        Alike s found ∧ MapHolds hash found (storedPrefixes hash (done.map Prod.fst)) ∧
        (∀ hashValue key, getNode found hashValue key = getNode s hashValue key) ∧
        (∀ nodeVec, getAll found nodeVec = getAll s nodeVec) ∧
        ∀ pre, (∃ id, getNode found (hash pre) pre = .ok (some id)) ↔
          ∃ c ∈ done, ident hash c.1 = ident hash pre := by
  obtain ⟨s, hs, hstored, hfound⟩ := exists_found A hash seqNum pool htab hrun
  refine ⟨s, hs, fun image himage => ?_⟩
  have halike := hfound image himage
  refine ⟨halike, halike.holds hstored, halike.getNode hstored, halike.getAll, fun pre => ?_⟩
  rw [(halike.holds hstored).getNode_isSome]
  constructor
  · rintro ⟨p, hp, hident⟩
    obtain ⟨c, hc, rfl⟩ := List.mem_map.mp (mem_of_mem_storedPrefixes hp)
    exact ⟨c, hc, hident⟩
  · rintro ⟨c, hc, hident⟩
    have hmem : c.1 ∈ done.map Prod.fst := List.mem_map_of_mem hc
    obtain ⟨p, hp, hident'⟩ := exists_mem_storedPrefixes hmem
    exact ⟨p, hp, hident'.trans hident⟩

/-- An insertion that returned, one that was stopped, and the same once more. -/
theorem inserts_durable_stopped :
    ∃ σ, DurableRun (putAndGetTx .bump List.length 0 (emptyMap ⟨fun _ => 0, []⟩ 2))
        (durable (imageOf (emptyMap ⟨fun _ => 0, []⟩ 2)).values) [([1, 2], 8), ([3], 8)] σ ∧
      ∃ s, run (call .bump List.length 0) (emptyMap ⟨fun _ => 0, []⟩ 2) [([1, 2], 8), ([3], 8)]
          = .ok s ∧
        ∀ image, image = σ.view ∨ Crash σ image →
          let found := recovered (emptyMap ⟨fun _ => 0, []⟩ 2) (.ofValues image)
          Alike s found ∧ MapHolds List.length found (storedPrefixes List.length [[1, 2], [3]]) ∧
          (∀ hashValue key, getNode found hashValue key = getNode s hashValue key) ∧
          (∀ nodeVec, getAll found nodeVec = getAll s nodeVec) ∧
          ∀ pre, (∃ id, getNode found pre.length pre = .ok (some id)) ↔
            ∃ c ∈ [(([1, 2] : Bytes), (8 : UInt64)), ([3], 8)],
              ident List.length c.1 = ident List.length pre := by
  have hstart : DurableRun (putAndGetTx .bump List.length 0 (emptyMap ⟨fun _ => 0, []⟩ 2))
      (durable (imageOf (emptyMap ⟨fun _ => 0, []⟩ 2)).values) [] _ := .start
  have hfirst := hstart.commits (a := ([1, 2], 8)) rfl
  have hstopped := hfirst.stopped (a := ([3], 8)) rfl (List.take_prefix 9 _) .throws
  have hagain := hstopped.commits (a := ([3], 8)) rfl
  exact ⟨_, hagain, inserts_durable .bump List.length 0 _ (by decide) hagain⟩

end PmemHashMap

end RangeCache
