import RangeCache.PmemHashMapTemplate

/-!
# Two implementations of `put`

`pmem_hash_map.cc` defines a `put` and a `getAll` for contents of any type beside those of the
header. They work on the same table; their `tab` and `tabLen` are the header's `tab_` and `tabLen_`.
Where the header's `put` links every node in front of its chain, this one allocates a node for an
empty bucket only, and returns `true` in either case. Its `getAll` counts the slots with an `int`.

## Main definitions

* `PmemHashMapCc.put`, `getAll`, `putAll` — the functions of the source file
* `keep` — of each bucket, the content that came first
* `PutsAgree` — both implementations list the same contents

## Main results

* `putAll_stores` — which contents the source file's `put` stores
* `putsAgree_iff` — when the implementations agree
-/

namespace RangeCache

open ChainHeap FallibleRun

namespace PmemHashMapCc

open PmemHashMapTemplate

variable {C : Type}

/-! ## The functions -/

/-- `put`: what it returns, and the map afterwards. -/
def put (hashCode : C → UInt64) (m : PmemHashMapTemplate C) (pContent : Option C) :
    Except Fault (Bool × PmemHashMapTemplate C) :=
  match pContent with
  | none => .error .nullDeref
  | some content => do
    let idx ← remainder (hashCode content).toNat m.tabLen
    let bucketHeadNode ← slotAt m.tab idx
    match bucketHeadNode with
    | none =>
      let newhead := m.nodes.length
      return (true, { m with
        nodes := m.nodes ++ [⟨none, pContent⟩],
        tab := m.tab.set idx (some newhead) })
    | some _ => return (true, m)

/-- `getAll`; its counter is an `int`. -/
def getAll (m : PmemHashMapTemplate C) (nodeVec : List (Option C)) :
    Except Fault (List (Option C)) :=
  scanTable Node2.next Node2.pContent (2 ^ 31) m.nodes m.tab m.tabLen 0 nodeVec

/-- A sequence of puts, with what each of them returns. -/
def putAll (hashCode : C → UInt64) (m : PmemHashMapTemplate C) :
    List C → Except Fault (List Bool × PmemHashMapTemplate C)
  | [] => .ok ([], m)
  | c :: cs => do
    let (stored, m) ← put hashCode m (some c)
    let (rest, m) ← putAll hashCode m cs
    return (stored :: rest, m)

/-! ## What is stored -/

/-- Keep a content whose bucket is not taken. -/
def keep (f : C → ℕ) (kept : List C) (c : C) : List C :=
  if f c ∈ kept.map f then kept else kept ++ [c]

/-- Nothing is kept twice. -/
theorem length_keep_le (f : C → ℕ) (kept cs : List C) :
    (cs.foldl (keep f) kept).length ≤ kept.length + cs.length := by
  induction cs generalizing kept with
  | nil => exact le_rfl
  | cons c cs ih =>
    have hkeep : (keep f kept c).length ≤ kept.length + 1 := by
      rw [keep]
      split
      · exact Nat.le_succ _
      · rw [List.length_append, List.length_singleton]
    have hrest := ih (keep f kept c)
    rw [List.foldl_cons, List.length_cons]
    omega

/-- Contents in different free buckets are all kept. -/
theorem foldl_keep_of_nodup (f : C → ℕ) {kept cs : List C} (h : ((kept ++ cs).map f).Nodup) :
    cs.foldl (keep f) kept = kept ++ cs := by
  induction cs generalizing kept with
  | nil => rw [List.append_nil]; rfl
  | cons c cs ih =>
    have hfree : f c ∉ kept.map f := by
      intro hmem
      rw [List.map_append, List.nodup_append] at h
      exact h.2.2 _ hmem (f c) (by simp) rfl
    have hsplit : kept ++ c :: cs = (kept ++ [c]) ++ cs := by rw [List.append_assoc]; rfl
    rw [List.foldl_cons, keep, if_neg hfree, hsplit]
    exact ih (hsplit ▸ h)

/-- Nothing is lost exactly if the buckets are different and free. -/
theorem length_foldl_keep_iff (f : C → ℕ) {kept cs : List C} (hkept : (kept.map f).Nodup) :
    (cs.foldl (keep f) kept).length = kept.length + cs.length ↔ ((kept ++ cs).map f).Nodup := by
  refine ⟨fun h => ?_, fun h => by rw [foldl_keep_of_nodup f h, List.length_append]⟩
  induction cs generalizing kept with
  | nil => rwa [List.append_nil]
  | cons c cs ih =>
    rw [List.foldl_cons, keep] at h
    by_cases hmem : f c ∈ kept.map f
    · rw [if_pos hmem, List.length_cons] at h
      have hle := length_keep_le f kept cs
      omega
    · rw [if_neg hmem, List.length_cons] at h
      have hnodup : ((kept ++ [c]).map f).Nodup := by
        rw [List.map_append, List.nodup_append]
        refine ⟨hkept, List.nodup_singleton _, ?_⟩
        rintro a ha b hb rfl
        rw [List.map_singleton, List.mem_singleton] at hb
        exact hmem (hb ▸ ha)
      have hrest := ih hnodup (by rw [h, List.length_append, List.length_singleton]; omega)
      rwa [List.append_assoc] at hrest

section Spec

variable {hashCode : C → UInt64} {m : PmemHashMapTemplate C} {cs : List C}

/-- The buckets of the nodes are those of the contents. -/
theorem map_slotOf (h : Stores hashCode m cs) :
    m.nodes.map (slotOf hashCode m.tabLen) = cs.map (bucketOf hashCode m.tabLen) := by
  have hmap := congrArg (List.map fun o => (o.map (bucketOf hashCode m.tabLen)).getD m.tabLen)
    h.contents
  rwa [List.map_map, List.map_map] at hmap

/-- **A `put` returns true, and stores its content in an empty bucket only.** -/
theorem put_spec (h : Stores hashCode m cs) (hpos : 0 < m.tabLen) (c : C) :
    ∃ m', put hashCode m (some c) = .ok (true, m') ∧ m'.tabLen = m.tabLen ∧
      Stores hashCode m' (keep (bucketOf hashCode m.tabLen) cs c) := by
  obtain ⟨head, hhead⟩ := h.exists_head hpos c
  have hidx : remainder (hashCode c).toNat m.tabLen = .ok (bucketOf hashCode m.tabLen c) :=
    if_neg (Nat.ne_of_gt hpos)
  have hslot : slotAt m.tab (bucketOf hashCode m.tabLen c) = .ok head := slotAt_of_getElem? hhead
  have hempty := h.table.head_eq_none_iff hhead
  rw [map_slotOf h] at hempty
  simp only [put, hidx, ok_bind, hslot]
  cases head with
  | none =>
    rw [keep, if_neg (hempty.mp rfl)]
    exact ⟨_, rfl, rfl, h.push hhead⟩
  | some id =>
    have htaken : bucketOf hashCode m.tabLen c ∈ cs.map (bucketOf hashCode m.tabLen) :=
      not_not.mp fun hnot => absurd (hempty.mpr hnot) (by simp)
    rw [keep, if_pos htaken]
    exact ⟨m, rfl, rfl, h⟩

/-- **What a sequence of puts stores**: of each bucket, the content that came first. All of them
return true. -/
theorem putAll_stores (h : Stores hashCode m cs) (hpos : 0 < m.tabLen) (cs' : List C) :
    ∃ m', putAll hashCode m cs' = .ok (List.replicate cs'.length true, m') ∧
      m'.tabLen = m.tabLen ∧
      Stores hashCode m' (cs'.foldl (keep (bucketOf hashCode m.tabLen)) cs) := by
  induction cs' generalizing m cs with
  | nil => exact ⟨m, rfl, rfl, h⟩
  | cons c cs' ih =>
    obtain ⟨m₁, hput, hlen₁, hm₁⟩ := put_spec h hpos c
    obtain ⟨m', hrun, hlen', hm'⟩ := ih hm₁ (by rw [hlen₁]; exact hpos)
    rw [hlen₁] at hlen' hm'
    refine ⟨m', ?_, hlen', hm'⟩
    simp only [putAll, hput, ok_bind, hrun]
    rfl

/-! ## Agreement -/

/-- Both implementations, applied to the same contents from a new map, return, and the vectors that
their `getAll` build have the same contents as often; each content whose put has returned true is in
the vector of the source file's. -/
def PutsAgree (hashCode : C → UInt64) (tabLen : UInt64) (cs : List C) : Prop :=
  ∃ m contentVec m' stored nodeVec,
    PmemHashMapTemplate.putAll hashCode (blank tabLen) cs = .ok m ∧
    PmemHashMapTemplate.getAll m [] = .ok contentVec ∧
    putAll hashCode (blank tabLen) cs = .ok (stored, m') ∧
    getAll m' [] = .ok nodeVec ∧
    nodeVec.Perm contentVec ∧ ∀ p ∈ cs.zip stored, p.2 = true → some p.1 ∈ nodeVec

/-- Without a remainder to take, no put returns. -/
theorem not_putsAgree_of_tabLen_zero {tabLen : UInt64} (hzero : tabLen.toNat % 2 ^ 32 = 0) {c : C}
    {cs : List C} : ¬ PutsAgree hashCode tabLen (c :: cs) := by
  rintro ⟨m, contentVec, m', stored, nodeVec, hrun, -⟩
  obtain ⟨m₁, hput, -⟩ := run_cons_ok.mp hrun
  have hdiv : remainder (hashCode c).toNat (blank tabLen : PmemHashMapTemplate C).tabLen
      = .error .divideByZero := if_pos hzero
  rw [PmemHashMapTemplate.put, hdiv] at hput
  cases hput

/-- In a table with a bucket, the implementations agree exactly if the `int` lasts and nothing is
lost. -/
theorem putsAgree_of_pos {tabLen : UInt64} (hpos : 0 < tabLen.toNat % 2 ^ 32) (cs : List C) :
    PutsAgree hashCode tabLen cs ↔ tabLen.toNat % 2 ^ 32 < 2 ^ 31 ∧
      (cs.map (bucketOf hashCode (tabLen.toNat % 2 ^ 32))).Nodup := by
  have hinit := stores_blank hashCode tabLen
  obtain ⟨m, hrun, hlen, -, hm⟩ := hinit.putAll hpos cs
  obtain ⟨m', hrun', hlen', hm'⟩ := putAll_stores hinit hpos cs
  have htabLen : m.tabLen = tabLen.toNat % 2 ^ 32 := hlen
  have htabLen' : m'.tabLen = tabLen.toNat % 2 ^ 32 := hlen'
  have hcount : (cs.foldl (keep (bucketOf hashCode (tabLen.toNat % 2 ^ 32))) []).length
        = ([] : List C).length + cs.length ↔
      (([] ++ cs).map (bucketOf hashCode (tabLen.toNat % 2 ^ 32))).Nodup :=
    length_foldl_keep_iff _ List.nodup_nil
  rw [List.length_nil, Nat.zero_add, List.nil_append] at hcount
  obtain ⟨all, hall, hgetAll⟩ := hm.scanTable_perm (by rw [htabLen]; exact hpos) (2 ^ 64)
    (by rw [htabLen]; omega)
  constructor
  · rintro ⟨m₁, contentVec, m₂, stored, nodeVec, h₁, hvec, h₂, hvec', hperm, -⟩
    obtain rfl : m = m₁ := Except.ok.inj (hrun.symm.trans h₁)
    obtain rfl : m' = m₂ := (Prod.mk.inj (Except.ok.inj (hrun'.symm.trans h₂))).2
    have hlt : tabLen.toNat % 2 ^ 32 < 2 ^ 31 := by
      by_contra hge
      rw [getAll, hm'.scanTable_eq, htabLen', if_neg (by omega)] at hvec'
      cases hvec'
    obtain ⟨all', hall', hgetAll'⟩ := hm'.scanTable_perm (by rw [htabLen']; exact hpos) (2 ^ 31)
      (by rw [htabLen']; exact hlt)
    refine ⟨hlt, hcount.mp ?_⟩
    obtain rfl : all.map some = contentVec := Except.ok.inj (hgetAll.symm.trans hvec)
    obtain rfl : all'.map some = nodeVec := Except.ok.inj (hgetAll'.symm.trans hvec')
    have hsame := hperm.length_eq
    rw [List.length_map, List.length_map, hall.length_eq, hall'.length_eq] at hsame
    exact hsame
  · rintro ⟨hlt, hnodup⟩
    obtain ⟨all', hall', hgetAll'⟩ := hm'.scanTable_perm (by rw [htabLen']; exact hpos) (2 ^ 31)
      (by rw [htabLen']; exact hlt)
    have hkept :
        cs.foldl (keep (bucketOf hashCode (blank tabLen : PmemHashMapTemplate C).tabLen)) [] = cs :=
      foldl_keep_of_nodup _ hnodup
    rw [List.nil_append] at hall
    rw [hkept] at hall'
    refine ⟨m, _, m', _, _, hrun, hgetAll, hrun', hgetAll', (hall'.trans hall.symm).map some, ?_⟩
    intro p hp _
    exact List.mem_map_of_mem (hall'.mem_iff.mpr (List.of_mem_zip hp).1)

end Spec

/-- **When the two implementations agree.** `tabLen_` keeps 32 bits of `tabLen`. -/
theorem putsAgree_iff (hashCode : C → UInt64) (tabLen : UInt64) (cs : List C) :
    PutsAgree hashCode tabLen cs ↔
      (cs ≠ [] → 0 < tabLen.toNat % 2 ^ 32) ∧ tabLen.toNat % 2 ^ 32 < 2 ^ 31 ∧
        (cs.map (bucketOf hashCode (tabLen.toNat % 2 ^ 32))).Nodup := by
  rcases Nat.eq_zero_or_pos (tabLen.toNat % 2 ^ 32) with hzero | hpos
  · cases cs with
    | nil =>
      refine iff_of_true ?_ ⟨fun h => absurd rfl h, by omega, List.nodup_nil⟩
      have hscan : ∀ limit tab, scanTable Node2.next Node2.pContent limit [] tab
          (tabLen.toNat % 2 ^ 32) 0 [] = .ok ([] : List (Option C)) := by
        intro limit tab
        rw [hzero]
        rfl
      exact ⟨blank tabLen, [], blank tabLen, [], [], rfl, hscan _ _, rfl, hscan _ _, .refl _,
        by simp⟩
    | cons c cs =>
      refine iff_of_false (not_putsAgree_of_tabLen_zero hzero) fun h => ?_
      have := h.1 (List.cons_ne_nil c cs)
      omega
  · rw [putsAgree_of_pos hpos]
    exact ⟨fun h => ⟨fun _ => hpos, h⟩, fun h => h.2⟩

/-- With one bucket, the second put returns true and stores nothing. -/
theorem put_loses_small :
    ∃ m', putAll id (blank 1) [(4 : UInt64), 7] = .ok ([true, true], m') ∧
      getAll m' [] = .ok [some 4] ∧ ¬ PutsAgree id 1 [(4 : UInt64), 7] := by
  refine ⟨_, rfl, rfl, ?_⟩
  rintro ⟨m, contentVec, m', stored, nodeVec, hrun, hvec, hrun', hvec', hperm, -⟩
  cases hrun
  cases hvec
  cases hrun'
  cases hvec'
  exact absurd hperm.length_eq (by decide)

end PmemHashMapCc

end RangeCache
