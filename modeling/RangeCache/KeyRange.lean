import RangeCache.RangeLog

/-!
# The key range of a tab

Every `Append` ends in `CheckAndUpdateKeyRange`, which widens the stored range by the bounds of
the new chunk and encodes the result in a new object, `new_range`. The pointer to that object is
dropped at the end of the transaction: `key_range_` is read by `GetRealRange` and assigned nowhere
but in `freqUpdateInfo::update`, which nothing calls. So every call starts from the range the
constructor left, and `GetRealRange` returns two null slices for good.

## Main definitions

* `IsHull` — the smallest start and the largest end of a list of chunks
* `widened` — the range `CheckAndUpdateKeyRange` computes
* `LeavesBehind` — the objects that nothing points to

## Main results

* `IsHull.append`, `getRealRange_putKeyRange` — the range is computed and encoded correctly
* `isHull_getRealRange_iff` — the recorded range is the hull exactly if all bounds are null slices
* `appends_leak` — what the dropped pointers cost
-/

namespace RangeCache

open ByteMemory RecordLog FallibleRun

namespace FixedRangeTab

/-! ## The hull of the bounds -/

/-- `x` is a smallest element of `xs`. For a comparator with its arguments swapped, it is a
largest one. -/
def IsSmallest {α : Type} (cmp : α → α → Ordering) (xs : List α) (x : α) : Prop :=
  x ∈ xs ∧ ∀ y ∈ xs, (cmp x y).isLE

theorem IsSmallest.singleton {α : Type} {cmp : α → α → Ordering} [Std.ReflCmp cmp] (x : α) :
    IsSmallest cmp [x] x := by
  refine ⟨List.mem_singleton.mpr rfl, fun y hy => ?_⟩
  have hself : cmp x x = .eq := Std.ReflCmp.compare_self
  rw [List.mem_singleton.mp hy, hself]
  rfl

/-- Keeping the smaller of two elements keeps a smallest element. -/
theorem IsSmallest.append {α : Type} {cmp : α → α → Ordering} [Std.TransCmp cmp] {xs : List α}
    {x : α} (h : IsSmallest cmp xs x) (y : α) :
    IsSmallest cmp (xs ++ [y]) (if cmp x y = .gt then y else x) := by
  by_cases hgt : cmp x y = .gt
  · rw [if_pos hgt]
    refine ⟨by simp, fun z hz => ?_⟩
    have hyx : (cmp y x).isLE := Ordering.isLE_of_eq_lt (Std.OrientedCmp.lt_of_gt hgt)
    rcases List.mem_append.mp hz with hz | hz
    · exact Std.TransCmp.isLE_trans hyx (h.2 z hz)
    · exact (IsSmallest.singleton y).2 z hz
  · rw [if_neg hgt]
    refine ⟨List.mem_append_left _ h.1, fun z hz => ?_⟩
    rcases List.mem_append.mp hz with hz | hz
    · exact h.2 z hz
    · rw [List.mem_singleton.mp hz]
      exact Ordering.isLE_iff_ne_gt.mpr hgt

/-- `r` is the smallest start and the largest end of the chunks `as`. -/
structure IsHull (icmp : Bytes → Bytes → Ordering) (as : List AppendArgs) (r : Bytes × Bytes) :
    Prop where
  start : IsSmallest icmp (as.map AppendArgs.newStart) r.1
  stop : IsSmallest (fun x y => icmp y x) (as.map AppendArgs.newEnd) r.2

/-- The range `CheckAndUpdateKeyRange` computes from the stored one and the bounds of a chunk. -/
def widened (icmp : Bytes → Bytes → Ordering) (cur new : Bytes × Bytes) : Bytes × Bytes :=
  (if icmp cur.1 new.1 = .gt then new.1 else cur.1,
    if icmp cur.2 new.2 = .lt then new.2 else cur.2)

section Order

variable {icmp : Bytes → Bytes → Ordering} [Std.TransCmp icmp]

/-- **The widening is right.** From the hull of some chunks it makes the hull of one more. -/
theorem IsHull.append {as : List AppendArgs} {r : Bytes × Bytes} (h : IsHull icmp as r)
    (a : AppendArgs) : IsHull icmp (as ++ [a]) (widened icmp r (a.newStart, a.newEnd)) := by
  have hstop := h.stop.append a.newEnd
  have hswap : icmp a.newEnd r.2 = .gt ↔ icmp r.2 a.newEnd = .lt := Std.OrientedCmp.gt_iff_lt
  simp only [hswap] at hstop
  refine ⟨?_, ?_⟩
  · rw [List.map_append]
    exact h.start.append a.newStart
  · rw [List.map_append]
    exact hstop

/-- If the hull is two null slices, so are the bounds of every chunk. -/
theorem IsHull.eq_nil [Std.LawfulEqCmp icmp] {as : List AppendArgs} (h : IsHull icmp as ([], []))
    (hbounds : ∀ a ∈ as, (icmp a.newStart a.newEnd).isLE) {a : AppendArgs} (ha : a ∈ as) :
    a.newStart = [] ∧ a.newEnd = [] := by
  have hlow : (icmp [] a.newStart).isLE := h.start.2 _ (List.mem_map_of_mem ha)
  have hhigh : (icmp a.newEnd []).isLE := h.stop.2 _ (List.mem_map_of_mem ha)
  have hstart : (icmp a.newStart []).isLE := Std.TransCmp.isLE_trans (hbounds a ha) hhigh
  have hend : (icmp [] a.newEnd).isLE := Std.TransCmp.isLE_trans hlow (hbounds a ha)
  exact ⟨Std.LawfulEqCmp.eq_of_compare (Std.OrientedCmp.isLE_antisymm hstart hlow),
    Std.LawfulEqCmp.eq_of_compare (Std.OrientedCmp.isLE_antisymm hhigh hend)⟩

end Order

/-! ## The encoded range -/

/-- A key range in memory: two length-prefixed strings. -/
def rangeRecords (start stop : Bytes) : List Record := [⟨[], start⟩, ⟨[], stop⟩]

/-- The four copies are one copy of the encoded range. -/
theorem putKeyRange_eq (pool : Pool) (obj : Extent) (start stop : Bytes) :
    putKeyRange pool obj start stop =
      pool.memcpy obj 0 (encodeAll 8 (rangeRecords start stop)) := by
  have hfirst := fun p : Pool => Pool.memcpy_append p obj (8 + start.length)
    (encodeFixed64 stop.length) stop
  have hsecond := fun p : Pool => Pool.memcpy_append p obj 8 start
    (encodeFixed64 stop.length ++ stop)
  have hthird := Pool.memcpy_append pool obj 0 (encodeFixed64 start.length)
    (start ++ (encodeFixed64 stop.length ++ stop))
  simp only [length_encodeFixed64, Nat.zero_add] at hfirst hthird
  have hcode : encodeAll 8 (rangeRecords start stop)
      = encodeFixed64 start.length ++ (start ++ (encodeFixed64 stop.length ++ stop)) := by
    simp [rangeRecords, encodeAll_cons, Record.encode, encodeFixed64]
  rw [hcode, ← hthird]
  simp only [← hsecond, ← hfirst]
  rfl

/-- A record without a tag is what `GetKVData` reads. -/
theorem getKVData_of_recordAt {m : Memory} {raw off : ℕ} {bs : Bytes} (hlen : bs.length < 2 ^ 64)
    (h : RecordAt 8 m (raw + off) ⟨[], bs⟩) : getKVData m raw off = bs := by
  have hfield : decodeFixed64 m (raw + off) = bs.length := h.decodeLE_length (by simpa using hlen)
  rw [getKVData, hfield]
  exact h.payload

/-- **The range is encoded so that `GetRealRange` would read it back**, were `key_range_` set to
the object it is put in. -/
theorem getRealRange_putKeyRange {pool pool' : Pool} {obj : Extent} {start stop : Bytes}
    (hput : putKeyRange pool obj start stop = .ok pool') (hstart : start.length < 2 ^ 64)
    (hstop : stop.length < 2 ^ 64) (nv : NvRangeTab) :
    getRealRange pool'.mem { nv with keyRange := some obj.base } = (start, stop) := by
  rw [putKeyRange_eq] at hput
  have hlog : HoldsAt 8 pool'.mem obj.base (rangeRecords start stop) := by
    rw [Pool.memcpy_inv hput, HoldsAt, ← length_encodeAll]
    exact read_write_self _ _ _
  obtain ⟨hfirst, hrest⟩ := holdsAt_cons_iff.mp hlog
  have hsecond := holdsAt_singleton_iff.mp hrest
  have hstartEq : getKVData pool'.mem obj.base 0 = start := getKVData_of_recordAt hstart hfirst
  simp only [getRealRange, hstartEq]
  rw [getKVData_of_recordAt hstop]
  have hsize : Record.size 8 ⟨[], start⟩ = start.length + 8 := by
    show 0 + 8 + start.length = start.length + 8
    omega
  rwa [hsize] at hsecond

/-- **What `CheckAndUpdateKeyRange` leaves behind**: when a bound widens the range, an object that
holds the hull, which no field points to. -/
theorem checkAndUpdateKeyRange_hull {A : Allocator} {icmp : Bytes → Bytes → Ordering}
    [Std.TransCmp icmp] {pool pool' : Pool} {nv : NvRangeTab} {as : List AppendArgs}
    {a : AppendArgs} (hull : IsHull icmp as (getRealRange pool.mem nv))
    (hwiden : icmp (getRealRange pool.mem nv).1 a.newStart = .gt ∨
      icmp (getRealRange pool.mem nv).2 a.newEnd = .lt)
    (hlen : ∀ b ∈ as ++ [a], b.newStart.length < 2 ^ 64 ∧ b.newEnd.length < 2 ^ 64)
    (hok : checkAndUpdateKeyRange A icmp pool nv a.newStart a.newEnd = .ok pool') :
    ∃ raw, IsHull icmp (as ++ [a]) (getRealRange pool'.mem { nv with keyRange := some raw }) := by
  have hnext := hull.append a
  have hstart : (widened icmp (getRealRange pool.mem nv) (a.newStart, a.newEnd)).1.length
      < 2 ^ 64 := by
    obtain ⟨b, hb, heq⟩ := List.mem_map.mp hnext.start.1
    rw [← heq]
    exact (hlen b hb).1
  have hstop : (widened icmp (getRealRange pool.mem nv) (a.newStart, a.newEnd)).2.length
      < 2 ^ 64 := by
    obtain ⟨b, hb, heq⟩ := List.mem_map.mp hnext.stop.1
    rw [← heq]
    exact (hlen b hb).2
  simp only [checkAndUpdateKeyRange, beq_iff_eq, Bool.or_eq_true, if_pos hwiden] at hok
  have hread := getRealRange_putKeyRange hok hstart hstop nv
  exact ⟨_, by rw [hread]; exact hnext⟩

/-! ## The recorded range -/

/-- Without a stored range there are two null slices. -/
theorem getRealRange_of_null {nv : NvRangeTab} (h : nv.keyRange = none) (m : Memory) :
    getRealRange m nv = ([], []) := by
  rw [getRealRange, h]

/-- **No `Append` stores a range.** -/
theorem getRealRange_appendAll {A : Allocator} {icmp : Bytes → Bytes → Ordering}
    {s s' : RangeState} {as : List AppendArgs} (hnull : s.nv.keyRange = none)
    (hrun : appendAll A icmp s as = .ok s') : getRealRange s'.pool.mem s'.nv = ([], []) := by
  refine getRealRange_of_null ?_ _
  rw [appendAll_nv hrun]
  exact hnull

/-- **When the recorded range is the hull of the chunks.** -/
theorem isHull_getRealRange_iff {A : Allocator} {icmp : Bytes → Bytes → Ordering}
    [Std.TransCmp icmp] [Std.LawfulEqCmp icmp] {s s' : RangeState} {as : List AppendArgs}
    (hnull : s.nv.keyRange = none) (hne : as ≠ [])
    (hbounds : ∀ a ∈ as, (icmp a.newStart a.newEnd).isLE)
    (hrun : appendAll A icmp s as = .ok s') :
    IsHull icmp as (getRealRange s'.pool.mem s'.nv) ↔
      ∀ a ∈ as, a.newStart = [] ∧ a.newEnd = [] := by
  rw [getRealRange_appendAll hnull hrun]
  constructor
  · intro hull a ha
    exact hull.eq_nil hbounds ha
  · intro hnil
    have hself : icmp [] [] = .eq := Std.ReflCmp.compare_self
    obtain ⟨a, ha⟩ := List.exists_mem_of_ne_nil as hne
    have hstarts : ∀ x ∈ as.map AppendArgs.newStart, x = [] :=
      List.forall_mem_map.mpr fun b hb => (hnil b hb).1
    have hends : ∀ x ∈ as.map AppendArgs.newEnd, x = [] :=
      List.forall_mem_map.mpr fun b hb => (hnil b hb).2
    refine ⟨⟨List.mem_map.mpr ⟨a, ha, (hnil a ha).1⟩, fun x hx => ?_⟩,
      ⟨List.mem_map.mpr ⟨a, ha, (hnil a ha).2⟩, fun x hx => ?_⟩⟩
    · rw [hstarts x hx, hself]
      rfl
    · rw [hends x hx]
      show (icmp [] []).isLE
      rw [hself]
      rfl

/-- One `Append` to the small range, with the bounds `[1]` and `[2]`. -/
theorem run_smallAppend : ∃ s', appendAll .bump compare (smallState 16) [smallAppend] = .ok s' :=
  appendAll_of_fits .bump compare (by decide)

theorem isHull_getRealRange_iff_small :
    ∃ s', appendAll .bump compare (smallState 16) [smallAppend] = .ok s' ∧
      (IsHull compare [smallAppend] (getRealRange s'.pool.mem s'.nv) ↔
        ∀ a ∈ [smallAppend], a.newStart = [] ∧ a.newEnd = []) := by
  obtain ⟨s', hs'⟩ := run_smallAppend
  exact ⟨s', hs', isHull_getRealRange_iff rfl (by simp) (by decide) hs'⟩

/-- After an `Append` with the bounds `[1]` and `[2]`, the recorded range is empty. -/
theorem keyRange_not_hull_small :
    ∃ s', appendAll .bump compare (smallState 16) [smallAppend] = .ok s' ∧
      ¬ IsHull compare [smallAppend] (getRealRange s'.pool.mem s'.nv) := by
  obtain ⟨s', hs'⟩ := run_smallAppend
  refine ⟨s', hs', fun hull => ?_⟩
  have hmem := hull.start.1
  rw [getRealRange_appendAll (show (smallState 16).nv.keyRange = none from rfl) hs'] at hmem
  exact absurd hmem (by decide)

/-! ## What is left behind -/

/-- The bounds of a chunk widen the range of two null slices. -/
def Widens (icmp : Bytes → Bytes → Ordering) (a : AppendArgs) : Prop :=
  icmp [] a.newStart = .gt ∨ icmp [] a.newEnd = .lt

instance (icmp : Bytes → Bytes → Ordering) : DecidablePred (Widens icmp) :=
  fun _ => inferInstanceAs (Decidable (_ ∨ _))

/-- The size of the object that `CheckAndUpdateKeyRange` then puts the range in. -/
def newRangeSize (icmp : Bytes → Bytes → Ordering) (a : AppendArgs) : ℕ :=
  let range := widened icmp ([], []) (a.newStart, a.newEnd)
  range.1.length + range.2.length + 2 * 8

/-- The objects `objs` came to those of `p` when `q` was made, for the chunks `as`. -/
structure LeavesBehind (icmp : Bytes → Bytes → Ordering) (p q : Pool) (as : List AppendArgs)
    (objs : List Extent) : Prop where
  live : q.live = objs ++ p.live
  size : objs.map Extent.size = ((as.filter (Widens icmp ·)).map (newRangeSize icmp)).reverse
  disjoint : objs.Pairwise Extent.Disjoint
  fresh : ∀ e ∈ objs, ∀ f ∈ p.live, f.Disjoint e

section Leak

variable {A : Allocator} {icmp : Bytes → Bytes → Ordering} {p q r : Pool} {s s' : RangeState}
  {as bs : List AppendArgs} {a : AppendArgs} {objs objs' : List Extent}

theorem LeavesBehind.append (h : LeavesBehind icmp p q as objs)
    (h' : LeavesBehind icmp q r bs objs') : LeavesBehind icmp p r (as ++ bs) (objs' ++ objs) where
  live := by rw [h'.live, h.live, List.append_assoc]
  size := by
    rw [List.map_append, h.size, h'.size, List.filter_append, List.map_append, List.reverse_append]
  disjoint := by
    refine List.pairwise_append.mpr ⟨h'.disjoint, h.disjoint, fun e he f hf => ?_⟩
    have hlive : f ∈ q.live := by
      rw [h.live]
      exact List.mem_append_left _ hf
    exact (h'.fresh e he f hlive).symm
  fresh := by
    intro e he f hf
    rcases List.mem_append.mp he with he | he
    · refine h'.fresh e he f ?_
      rw [h.live]
      exact List.mem_append_right _ hf
    · exact h.fresh e he f hf

/-- `CheckAndUpdateKeyRange` over a null range leaves an object behind, or nothing. -/
theorem checkAndUpdateKeyRange_leavesBehind {nv : NvRangeTab} (hnull : nv.keyRange = none)
    (h : checkAndUpdateKeyRange A icmp p nv a.newStart a.newEnd = .ok q) :
    ∃ objs, LeavesBehind icmp p q [a] objs := by
  have hrange : getRealRange p.mem nv = ([], []) := getRealRange_of_null hnull _
  simp only [checkAndUpdateKeyRange, hrange, beq_iff_eq, Bool.or_eq_true] at h
  by_cases hwiden : Widens icmp a
  · have hif : icmp [] a.newStart = .gt ∨ icmp [] a.newEnd = .lt := hwiden
    have hfilter : [a].filter (Widens icmp ·) = [a] := by simp [hwiden]
    rw [if_pos hif, putKeyRange_eq] at h
    refine ⟨[⟨(p.makePersistent A (newRangeSize icmp a)).2, newRangeSize icmp a⟩], ?_, ?_,
      List.pairwise_singleton _ _, ?_⟩
    · rw [Pool.memcpy_inv h]
      rfl
    · rw [hfilter]
      rfl
    · intro e he f hf
      rw [List.mem_singleton.mp he]
      exact Pool.disjoint_makePersistent A p _ hf
  · have hfilter : [a].filter (Widens icmp ·) = [] := by simp [hwiden]
    have hif : ¬ (icmp [] a.newStart = .gt ∨ icmp [] a.newEnd = .lt) := hwiden
    rw [if_neg hif] at h
    obtain rfl := Except.ok.inj h
    exact ⟨[], rfl, by rw [hfilter]; rfl, List.Pairwise.nil, by simp⟩

theorem append_leavesBehind (hnull : s.nv.keyRange = none) (h : append A icmp s a = .ok s') :
    ∃ objs, LeavesBehind icmp s.pool s'.pool [a] objs := by
  rw [append_eq A icmp (append_inv h).fits] at h
  cases hcheck : checkAndUpdateKeyRange A icmp (writeBlock s a)
      { s.nv with dataLen := s.nv.dataLen + a.record.size 8 } a.newStart a.newEnd with
  | error e =>
    rw [hcheck] at h
    cases h
  | ok pool =>
    rw [hcheck] at h
    obtain rfl := Except.ok.inj h
    obtain ⟨objs, hobjs⟩ := checkAndUpdateKeyRange_leavesBehind (a := a) (by exact hnull) hcheck
    exact ⟨objs, hobjs.live, hobjs.size, hobjs.disjoint, hobjs.fresh⟩

/-- **Every append that widens the empty range leaves an object behind.** A run of appends over a
null range takes an object for each of them, of 16 bytes and the bounds, which overlaps nothing
that was there. The node changes in its data length only, so nothing points to these objects. -/
theorem appends_leak (hnull : s.nv.keyRange = none) (hrun : appendAll A icmp s as = .ok s') :
    (∃ leaked, LeavesBehind icmp s.pool s'.pool as leaked) ∧
      s'.nv = { s.nv with dataLen := s.nv.dataLen + totalSize 8 (records as) } := by
  refine ⟨?_, appendAll_nv hrun⟩
  induction as generalizing s with
  | nil =>
    cases hrun
    exact ⟨[], rfl, rfl, List.Pairwise.nil, by simp⟩
  | cons a as ih =>
    obtain ⟨s₁, ha, has⟩ := run_cons_ok.mp hrun
    obtain ⟨objs, hobjs⟩ := append_leavesBehind hnull ha
    obtain ⟨objs', hobjs'⟩ := ih (by rw [(append_inv ha).nv]; exact hnull) has
    exact ⟨_, hobjs.append hobjs'⟩

end Leak

/-- Two appends to the small range, with the bounds `[1]` and `[2]`: two objects of 17 bytes. -/
theorem appends_leak_small :
    ∃ s' leaked, appendAll .bump compare (smallState 16) [smallAppend, smallAppend] = .ok s' ∧
      s'.pool.live = leaked ++ smallPool.live ∧ leaked.map Extent.size = [17, 17] := by
  have hfits : (smallState 16).nv.dataLen + totalSize 8 (records [smallAppend, smallAppend]) ≤
      (smallState 16).nv.bufSize := by decide
  obtain ⟨s', hs'⟩ := appendAll_of_fits .bump compare hfits
  obtain ⟨⟨leaked, hleaked⟩, -⟩ := appends_leak rfl hs'
  exact ⟨s', leaked, hs', hleaked.live, hleaked.size.trans (by decide)⟩

end FixedRangeTab

end RangeCache
