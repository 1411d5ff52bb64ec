import Mathlib.Data.List.Perm.Basic
import Mathlib.Data.List.Sigma

/-!
# Chained tables in a growing heap

Nodes are allocated one after the other and never freed, so a pointer is an index into the list of
nodes. A table of slots heads one chain of nodes for each bucket; inserting pushes a new node onto
the front of its chain. The functions `next` and `keyOf` read a node's link and its bucket.

## Main definitions

* `ChainHeap.Chain` — following links from a head visits exactly these nodes and ends
* `ChainHeap.bucket` — the nodes of a bucket, newest first
* `ChainHeap.Table` — each slot heads the chain of its bucket

## Main results

* `Table.empty`, `Table.push` — the empty table, and insertion at the front
* `Chain.congr`, `Table.congr` — only links and buckets matter
* `Chain.nodup`, `Chain.length_le` — a chain that ends visits each node at most once
* `map_getElem?_bucket`, `flatMap_filter_perm` — the buckets list every entry once
-/

namespace ChainHeap

variable {α : Type*} {next : α → Option ℕ} {keyOf : α → ℕ} {heap heap' : List α}

/-- An entry of a grown heap is an old one or the new one. -/
theorem getElem?_snoc {a b : α} {i : ℕ} :
    (heap ++ [a])[i]? = some b ↔ heap[i]? = some b ∨ i = heap.length ∧ a = b := by
  rcases Nat.lt_trichotomy i heap.length with hi | rfl | hi
  · rw [List.getElem?_append_left hi]
    constructor
    · exact Or.inl
    · rintro (h | ⟨rfl, -⟩)
      · exact h
      · exact absurd hi (Nat.lt_irrefl _)
  · simp
  · rw [List.getElem?_eq_none (by simp; omega), List.getElem?_eq_none (Nat.le_of_lt hi)]
    constructor
    · intro h; cases h
    · rintro (h | ⟨rfl, -⟩)
      · cases h
      · exact absurd hi (Nat.lt_irrefl _)

/-! ## Chains -/

/-- From a head, the links visit `ids` in order and end with null. -/
inductive Chain (next : α → Option ℕ) (heap : List α) : Option ℕ → List ℕ → Prop where
  | nil : Chain next heap none []
  | cons {id : ℕ} {a : α} {ids : List ℕ} : heap[id]? = some a → Chain next heap (next a) ids →
      Chain next heap (some id) (id :: ids)

/-- Only the links matter. -/
theorem Chain.congr {head : Option ℕ} {ids : List ℕ} (h : Chain next heap head ids)
    (hnext : ∀ (id : ℕ) (a : α), heap[id]? = some a →
      ∃ a', heap'[id]? = some a' ∧ next a' = next a) :
    Chain next heap' head ids := by
  induction h with
  | nil => exact .nil
  | @cons id a ids ha _ ih =>
    obtain ⟨a', ha', hlink⟩ := hnext id a ha
    exact .cons ha' (hlink ▸ ih)

/-- The links determine the chain. -/
theorem Chain.unique {head : Option ℕ} {ids ids' : List ℕ} (h : Chain next heap head ids)
    (h' : Chain next heap head ids') : ids = ids' := by
  induction h generalizing ids' with
  | nil => cases h'; rfl
  | @cons id a ids ha _ ih =>
    cases h' with
    | cons ha' hrest =>
      rw [ha, Option.some.injEq] at ha'
      subst ha'
      rw [ih hrest]

/-- A chain visits nodes of the heap. -/
theorem Chain.lt_length {head : Option ℕ} {ids : List ℕ} (h : Chain next heap head ids) {id : ℕ}
    (hid : id ∈ ids) : id < heap.length := by
  induction h with
  | nil => cases hid
  | cons ha _ ih =>
    rcases List.mem_cons.mp hid with rfl | hid
    · exact (List.getElem?_eq_some_iff.mp ha).1
    · exact ih hid

/-- From each of its nodes on, a chain is a chain, and no longer than the whole. -/
theorem Chain.exists_from {head : Option ℕ} {ids : List ℕ} (h : Chain next heap head ids) {id : ℕ}
    (hid : id ∈ ids) : ∃ rest, Chain next heap (some id) rest ∧ rest.length ≤ ids.length := by
  induction h with
  | nil => cases hid
  | @cons id' a ids ha hrest ih =>
    rcases List.mem_cons.mp hid with rfl | hid
    · exact ⟨_, .cons ha hrest, le_rfl⟩
    · obtain ⟨rest, hfrom, hle⟩ := ih hid
      exact ⟨rest, hfrom, Nat.le_succ_of_le hle⟩

/-- **A chain that ends visits no node twice.** From a node it met again it would never end. -/
theorem Chain.nodup {head : Option ℕ} {ids : List ℕ} (h : Chain next heap head ids) :
    ids.Nodup := by
  induction h with
  | nil => exact List.nodup_nil
  | @cons id a ids ha hrest ih =>
    refine List.nodup_cons.mpr ⟨fun hmem => ?_, ih⟩
    obtain ⟨again, hagain, hle⟩ := hrest.exists_from hmem
    have hlen := congrArg List.length ((Chain.cons ha hrest).unique hagain)
    rw [List.length_cons] at hlen
    omega

/-- So it visits at most all nodes. -/
theorem Chain.length_le {head : Option ℕ} {ids : List ℕ} (h : Chain next heap head ids) :
    ids.length ≤ heap.length := by
  have hsub : ids ⊆ List.range heap.length := fun id hid => List.mem_range.mpr (h.lt_length hid)
  simpa using h.nodup.length_le_of_subset hsub

/-- A new node disturbs no chain. -/
theorem Chain.append {head : Option ℕ} {ids : List ℕ} (h : Chain next heap head ids) (a : α) :
    Chain next (heap ++ [a]) head ids :=
  h.congr fun _ a' ha' => ⟨a', getElem?_snoc.mpr (.inl ha'), rfl⟩

/-- A new node linked to a head is the head of a longer chain. -/
theorem Chain.push {head : Option ℕ} {ids : List ℕ} (h : Chain next heap head ids) {a : α}
    (ha : next a = head) : Chain next (heap ++ [a]) (some heap.length) (heap.length :: ids) :=
  .cons (List.getElem?_concat_length ..) (ha ▸ h.append a)

/-! ## Buckets -/

/-- The nodes of a bucket, newest first. -/
def bucket (keyOf : α → ℕ) (heap : List α) (b : ℕ) : List ℕ :=
  ((heap.zipIdx.filter fun p => keyOf p.1 = b).map Prod.snd).reverse

@[simp] theorem bucket_nil (b : ℕ) : bucket keyOf [] b = [] := rfl

theorem mem_bucket {b id : ℕ} :
    id ∈ bucket keyOf heap b ↔ ∃ a, heap[id]? = some a ∧ keyOf a = b := by
  simp only [bucket, List.mem_reverse, List.mem_map, List.mem_filter, decide_eq_true_eq]
  constructor
  · rintro ⟨⟨a, i⟩, ⟨hmem, hkey⟩, rfl⟩
    exact ⟨a, List.mem_zipIdx_iff_getElem?.mp hmem, hkey⟩
  · rintro ⟨a, ha, hkey⟩
    exact ⟨(a, id), ⟨List.mem_zipIdx_iff_getElem?.mpr ha, hkey⟩, rfl⟩

theorem nodup_bucket (b : ℕ) : (bucket keyOf heap b).Nodup := by
  rw [bucket, List.nodup_reverse]
  exact (List.nodup_zipIdx_map_snd heap).sublist (List.filter_sublist.map Prod.snd)

/-- The entries of a bucket, newest first. -/
theorem map_getElem?_bucket (b : ℕ) :
    (bucket keyOf heap b).map (fun id => heap[id]?) =
      (heap.filter fun a => keyOf a = b).reverse.map some := by
  have hzip : (heap.zipIdx.filter fun p => keyOf p.1 = b).map Prod.fst
      = heap.filter fun a => keyOf a = b := by
    have hfst := List.filter_map (f := (Prod.fst : α × ℕ → α)) (p := fun a => keyOf a = b)
      (l := heap.zipIdx)
    rw [List.zipIdx_map_fst] at hfst
    exact hfst.symm
  rw [bucket, List.map_reverse, List.map_map, List.map_reverse, ← hzip, List.map_map]
  refine congrArg List.reverse (List.map_congr_left fun p hp => ?_)
  exact List.mem_zipIdx_iff_getElem?.mp (List.mem_of_mem_filter hp)

theorem length_bucket_le (b : ℕ) : (bucket keyOf heap b).length ≤ heap.length := by
  rw [bucket, List.length_reverse, List.length_map]
  exact le_of_le_of_eq (List.length_filter_le _ _) List.length_zipIdx

/-- A new node comes first in its own bucket and is in no other. -/
theorem bucket_append (a : α) (b : ℕ) :
    bucket keyOf (heap ++ [a]) b =
      if keyOf a = b then heap.length :: bucket keyOf heap b else bucket keyOf heap b := by
  rw [bucket, List.zipIdx_append, List.filter_append, List.map_append, List.reverse_append]
  by_cases h : keyOf a = b <;> simp [h, bucket]

/-- Only the buckets of the nodes matter. -/
theorem bucket_congr (h : heap'.map keyOf = heap.map keyOf) (b : ℕ) :
    bucket keyOf heap' b = bucket keyOf heap b := by
  have hzip : ∀ l : List α, bucket keyOf l b
      = (((l.map keyOf).zipIdx.filter fun p => p.1 = b).map Prod.snd).reverse := by
    intro l
    rw [List.zipIdx_map, List.filter_map, List.map_map]
    rfl
  rw [hzip, hzip, h]

/-- **Buckets partition.** Listing a sequence bucket by bucket, each in reverse, permutes it. -/
theorem flatMap_filter_perm {β : Type*} (key : β → ℕ) {n : ℕ} {xs : List β}
    (h : ∀ x ∈ xs, key x < n) :
    ((List.range n).flatMap fun b => (xs.filter fun x => key x = b).reverse).Perm xs := by
  induction n generalizing xs with
  | zero =>
    have hnil : xs = [] := List.eq_nil_iff_forall_not_mem.mpr fun x hx => Nat.not_lt_zero _ (h x hx)
    rw [hnil]
    exact List.Perm.refl []
  | succ n ih =>
    have hkeys : ∀ x ∈ xs.filter (fun x => ¬ key x = n), key x < n := by
      intro x hx
      have hlt := h x (List.mem_of_mem_filter hx)
      have hne : ¬ key x = n := by simpa using (List.mem_filter.mp hx).2
      omega
    have hbelow := ih hkeys
    have hsame : ((List.range n).flatMap fun b => (xs.filter fun x => key x = b).reverse)
        = (List.range n).flatMap fun b =>
            ((xs.filter fun x => ¬ key x = n).filter fun x => key x = b).reverse := by
      refine List.flatMap_congr fun b hb => congrArg List.reverse ?_
      rw [List.filter_filter]
      refine List.filter_congr fun x _ => ?_
      have hbn := List.mem_range.mp hb
      by_cases hx : key x = b
      · simp [hx, Nat.ne_of_lt hbn]
      · simp [hx]
    rw [List.range_succ, List.flatMap_append, List.flatMap_singleton, hsame]
    have hsplit : ((xs.filter fun x => key x = n) ++ xs.filter fun x => ¬ key x = n).Perm xs := by
      simpa using List.filter_append_perm (fun x => key x = n) xs
    exact (hbelow.append (List.reverse_perm _)).trans (List.perm_append_comm.trans hsplit)

/-- One more entry in one bucket is one more entry of the whole list. -/
theorem exists_flatMap_range_insert {β : Type*} (f f' : ℕ → List β) {n i : ℕ} {x : β}
    (hi : i < n) (hself : f' i = x :: f i) (hother : ∀ b, b ≠ i → f' b = f b) :
    ∃ xs ys, (List.range n).flatMap f = xs ++ ys ∧ (List.range n).flatMap f' = xs ++ x :: ys := by
  induction n with
  | zero => cases hi
  | succ n ih =>
    simp only [List.range_succ, List.flatMap_append, List.flatMap_singleton]
    rcases Nat.lt_succ_iff_lt_or_eq.mp hi with hlt | rfl
    · obtain ⟨xs, ys, h, h'⟩ := ih hlt
      refine ⟨xs, ys ++ f n, by rw [h, List.append_assoc], ?_⟩
      rw [h', hother n (Nat.ne_of_gt hlt), List.append_assoc, List.cons_append]
    · refine ⟨(List.range i).flatMap f, f i, rfl, ?_⟩
      rw [hself]
      refine congrArg (· ++ x :: f i) (List.flatMap_congr fun b hb => ?_)
      exact hother b (Nat.ne_of_lt (List.mem_range.mp hb))

/-! ## Tables -/

/-- Each slot heads the chain of its bucket, and each node is in the bucket of some slot. -/
structure Table (next : α → Option ℕ) (keyOf : α → ℕ) (heap : List α)
    (slots : List (Option ℕ)) : Prop where
  key_lt : ∀ a ∈ heap, keyOf a < slots.length
  chain : ∀ b head, slots[b]? = some head → Chain next heap head (bucket keyOf heap b)

theorem Table.empty (n : ℕ) : Table next keyOf [] (List.replicate n none) := by
  refine ⟨by simp, fun b head hhead => ?_⟩
  obtain rfl := List.eq_of_mem_replicate (List.mem_of_getElem? hhead)
  exact .nil

/-- **Insertion.** A new node, linked to the head of its bucket, becomes the head. -/
theorem Table.push {slots : List (Option ℕ)} (h : Table next keyOf heap slots) {a : α}
    {head : Option ℕ} (hhead : slots[keyOf a]? = some head) (hnext : next a = head) :
    Table next keyOf (heap ++ [a]) (slots.set (keyOf a) (some heap.length)) := by
  have hlt : keyOf a < slots.length := (List.getElem?_eq_some_iff.mp hhead).1
  constructor
  · intro a' ha'
    rw [List.length_set]
    rcases List.mem_append.mp ha' with ha' | ha'
    · exact h.key_lt a' ha'
    · rw [List.mem_singleton.mp ha']
      exact hlt
  · intro b head' hb
    rw [bucket_append]
    by_cases hkey : keyOf a = b
    · subst hkey
      rw [List.getElem?_set_self hlt, Option.some.injEq] at hb
      subst hb
      rw [if_pos rfl]
      exact (h.chain _ _ hhead).push hnext
    · rw [List.getElem?_set_ne hkey] at hb
      rw [if_neg hkey]
      exact (h.chain b head' hb).append a

/-- A slot is empty exactly if no node is in its bucket. -/
theorem Table.head_eq_none_iff {slots : List (Option ℕ)} (h : Table next keyOf heap slots) {b : ℕ}
    {head : Option ℕ} (hhead : slots[b]? = some head) : head = none ↔ b ∉ heap.map keyOf := by
  have hchain := h.chain b head hhead
  constructor
  · rintro rfl hmem
    obtain ⟨a, ha, hkey⟩ := List.mem_map.mp hmem
    obtain ⟨id, hid⟩ := List.mem_iff_getElem?.mp ha
    have hbucket : id ∈ bucket keyOf heap b := mem_bucket.mpr ⟨a, hid, hkey⟩
    rw [hchain.unique .nil] at hbucket
    cases hbucket
  · intro hnot
    cases head with
    | none => rfl
    | some id =>
      have hmem : id ∈ bucket keyOf heap b := by
        generalize bucket keyOf heap b = ids at hchain
        cases hchain
        exact List.mem_cons_self ..
      obtain ⟨a, ha, hkey⟩ := mem_bucket.mp hmem
      exact absurd (List.mem_map.mpr ⟨a, List.mem_of_getElem? ha, hkey⟩) hnot

/-- Only links and buckets matter. -/
theorem Table.congr {slots : List (Option ℕ)} (h : Table next keyOf heap slots)
    (hmap : heap'.map (fun a => (next a, keyOf a)) = heap.map fun a => (next a, keyOf a)) :
    Table next keyOf heap' slots := by
  have hkeys : heap'.map keyOf = heap.map keyOf := by
    simpa [List.map_map, Function.comp_def] using congrArg (List.map Prod.snd) hmap
  constructor
  · intro a ha
    obtain ⟨a', ha', heq⟩ := List.mem_map.mp (hkeys ▸ List.mem_map_of_mem (f := keyOf) ha)
    rw [← heq]
    exact h.key_lt a' ha'
  · intro b head hhead
    rw [bucket_congr hkeys]
    refine (h.chain b head hhead).congr fun id a ha => ?_
    have hid := congrArg (fun l => l[id]?) hmap
    simp only [List.getElem?_map, ha, Option.map_some] at hid
    obtain ⟨a', ha', heq⟩ := Option.map_eq_some_iff.mp hid
    exact ⟨a', ha', congrArg Prod.fst heq⟩

end ChainHeap
