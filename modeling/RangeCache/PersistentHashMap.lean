import RangeCache.Lib.BitSmear
import RangeCache.Lib.FallibleRun
import RangeCache.Pmem

/-!
# The table size of `PersistentHashMap`

`tableSizeFor` rounds a capacity up to a power of two by smearing the top bit of one less. An `int`
has 32 bits; `>>>`, which is Java's, shifts zeros in. `MAXIMUM_CAPACITY` is used and not declared;
it has the value it has in Java's `HashMap`, where the function comes from.

## Main definitions

* `PersistentHashMap.tableSizeFor`

## Main results

* `toNat_orShifts` — the shifts set every bit below the top one
* `tableSizeFor_rounds_up` — the result is the least power of two, or the maximum
-/

namespace RangeCache

open BitSmear FallibleRun

namespace PersistentHashMap

def MAXIMUM_CAPACITY : BitVec 32 := 0x40000000#32

/-- `a - b` of two `int`s. An overflow is undefined. -/
def intSub (a b : BitVec 32) : Except Fault (BitVec 32) :=
  if a.ssubOverflow b then .error .signedOverflow else .ok (a - b)

/-- `a + b` of two `int`s. -/
def intAdd (a b : BitVec 32) : Except Fault (BitVec 32) :=
  if a.saddOverflow b then .error .signedOverflow else .ok (a + b)

/-- The five lines `n |= n >>> k`. -/
def orShifts (n : BitVec 32) : BitVec 32 :=
  let n := n ||| n >>> 1
  let n := n ||| n >>> 2
  let n := n ||| n >>> 4
  let n := n ||| n >>> 8
  n ||| n >>> 16

def tableSizeFor (cap : BitVec 32) : Except Fault (BitVec 32) := do
  let n ← intSub cap 1
  let n := orShifts n
  if n.slt 0 then
    return 1
  else if MAXIMUM_CAPACITY.sle n then
    return MAXIMUM_CAPACITY
  else
    intAdd n 1

/-! ## `int`s and their bits -/

theorem toInt_one : (1 : BitVec 32).toInt = 1 := rfl

/-- One less, when that is an `int`. -/
theorem intSub_one {cap : BitVec 32} (h : -2 ^ 31 ≤ cap.toInt - 1) :
    ∃ n, intSub cap 1 = .ok n ∧ n.toInt = cap.toInt - 1 := by
  have hlt := cap.toInt_lt
  have hno : ¬ cap.ssubOverflow 1 := by
    simp only [BitVec.ssubOverflow, toInt_one, Bool.or_eq_true, decide_eq_true_eq]
    omega
  exact ⟨cap - 1, if_neg hno, BitVec.toInt_sub_of_not_ssubOverflow hno⟩

/-- One more, when that is an `int`. -/
theorem intAdd_one {n : BitVec 32} (h : n.toInt + 1 < 2 ^ 31) :
    ∃ r, intAdd n 1 = .ok r ∧ r.toInt = n.toInt + 1 := by
  have hle := n.le_toInt
  have hno : ¬ n.saddOverflow 1 := by
    simp only [BitVec.saddOverflow, toInt_one, Bool.or_eq_true, decide_eq_true_eq]
    omega
  exact ⟨n + 1, if_neg hno, BitVec.toInt_add_of_not_saddOverflow hno⟩

/-- **The shifts set every bit below the top one.** -/
theorem toNat_orShifts (n : BitVec 32) : (orShifts n).toNat = 2 ^ n.toNat.size - 1 := by
  have hsmear : smear 5 1 n.toNat = 2 ^ n.toNat.size - 1 := smear_eq n.isLt
  rw [← hsmear]
  simp only [orShifts, BitVec.toNat_or, BitVec.toNat_ushiftRight]
  rfl

/-- From a negative number they lead to one. -/
theorem orShifts_of_neg {n : BitVec 32} (h : n.toInt < 0) : (orShifts n).toInt < 0 := by
  have hbit : 2 ^ 31 ≤ n.toNat := by
    have := BitVec.toInt_neg_iff.mp h
    omega
  have hsize : n.toNat.size = 32 := by
    have := Nat.lt_size.mpr hbit
    have := Nat.size_le.mpr n.isLt
    omega
  rw [BitVec.toInt_neg_iff, toNat_orShifts, hsize]
  decide

/-- From any other to one less than the next power of two. -/
theorem toInt_orShifts {n : BitVec 32} (h : 0 ≤ n.toInt) :
    (orShifts n).toInt = 2 ^ n.toInt.toNat.size - 1 := by
  have hlt : n.toNat < 2 ^ 31 := by
    by_contra hge
    exact absurd (BitVec.toInt_neg_iff.mpr (by omega)) (not_lt.mpr h)
  have hnat : n.toInt = n.toNat := BitVec.toInt_eq_toNat_of_lt (by omega)
  have hsize : (2 : ℕ) ^ n.toNat.size ≤ 2 ^ 31 :=
    Nat.pow_le_pow_right Nat.two_pos (Nat.size_le.mpr hlt)
  rw [BitVec.toInt_eq_toNat_of_lt (by rw [toNat_orShifts]; omega), toNat_orShifts, hnat,
    Int.toNat_natCast]
  push_cast [Nat.one_le_two_pow]
  rfl

/-- **`tableSizeFor` rounds up to a power of two**, and to the maximum from there on. No `int`
overflows behind the first line. -/
theorem tableSizeFor_rounds_up {cap : BitVec 32} (hcap : -2 ^ 31 ≤ cap.toInt - 1) :
    ∃ size, tableSizeFor cap = .ok size ∧
      (cap.toInt ≤ 2 ^ 30 →
        IsLeast {p : ℤ | (∃ k : ℕ, p = 2 ^ k) ∧ max cap.toInt 1 ≤ p} size.toInt) ∧
      (2 ^ 30 < cap.toInt → size.toInt = 2 ^ 30) := by
  obtain ⟨n, hsub, hn⟩ := intSub_one hcap
  have hzero : (0 : BitVec 32).toInt = 0 := rfl
  have hmax : MAXIMUM_CAPACITY.toInt = 2 ^ 30 := rfl
  have hleast := isLeast_two_pow_toNat_size cap.toInt
  rw [← hn] at hleast
  simp only [tableSizeFor, hsub, ok_bind, BitVec.slt_iff_toInt_lt, BitVec.sle_iff_toInt_le, hmax,
    hzero]
  by_cases hneg : n.toInt < 0
  · -- the capacity is zero or negative
    rw [if_pos (orShifts_of_neg hneg)]
    rw [Int.toNat_of_nonpos hneg.le, Nat.size_zero, pow_zero] at hleast
    exact ⟨1, rfl, fun _ => hleast, fun hgt => by omega⟩
  have hshifts := toInt_orShifts (not_lt.mp hneg)
  by_cases hbig : 2 ^ 30 < cap.toInt
  · -- the top bit is the thirtieth
    have hsize : 30 < n.toInt.toNat.size := Nat.lt_size.mpr (by omega)
    have hpow : (2 : ℤ) ^ 31 ≤ 2 ^ n.toInt.toNat.size := pow_le_pow_right₀ (by decide) hsize
    rw [if_neg (by omega), if_pos (by omega)]
    exact ⟨MAXIMUM_CAPACITY, rfl, fun hle => by omega, fun _ => hmax⟩
  · have hsize : n.toInt.toNat.size ≤ 30 := Nat.size_le.mpr (by omega)
    have hpow : (2 : ℤ) ^ n.toInt.toNat.size ≤ 2 ^ 30 := pow_le_pow_right₀ (by decide) hsize
    have hone : (1 : ℤ) ≤ 2 ^ n.toInt.toNat.size := one_le_pow₀ (by decide)
    obtain ⟨size, hadd, hvalue⟩ := intAdd_one (n := orShifts n) (by omega)
    rw [if_neg (by omega), if_neg (by omega)]
    refine ⟨size, hadd, fun _ => ?_, fun hgt => absurd hgt hbig⟩
    rw [hvalue, hshifts, Int.sub_add_cancel]
    exact hleast

theorem tableSizeFor_rounds_up_small :
    ∃ size, tableSizeFor 17 = .ok size ∧
      IsLeast {p : ℤ | (∃ k : ℕ, p = 2 ^ k) ∧ max (17 : BitVec 32).toInt 1 ≤ p} size.toInt := by
  have hcap : -2 ^ 31 ≤ (17 : BitVec 32).toInt - 1 := by decide
  obtain ⟨size, hsize, hleast, -⟩ := tableSizeFor_rounds_up hcap
  exact ⟨size, hsize, hleast (by decide)⟩

end PersistentHashMap

end RangeCache
