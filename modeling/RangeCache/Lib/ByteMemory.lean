import Mathlib.Data.List.Basic
import Mathlib.Data.Nat.Basic
import Mathlib.Tactic.Ring

/-!
# Byte-addressed memory

A memory is a total function from addresses to bytes. Reading takes an address and a length,
writing overwrites a stretch of addresses and leaves the rest alone. Both are total: which
stretches a program may touch is a matter of the program, not of the memory.

## Main definitions

* `ByteMemory.encodeLE`, `decodeLE` — fixed-width little-endian numbers
* `ByteMemory.Memory`, `read`, `write`, `fill`
* `ByteMemory.Extent` — an interval of addresses, with `Extent.Disjoint`

## Main results

* `decodeLE_encodeLE` — the round trip, exact below `256 ^ w`
* `read_write_self`, `Extent.SameOn.of_write` — read after write, and the frame rule
* `write_append` — consecutive writes are one write
* `read_eq_iff`, `read_segment` — a region determines each of its parts
-/

namespace ByteMemory

/-! ## Little-endian numbers -/

/-- The `w` low bytes of `n`, least significant first. -/
def encodeLE : ℕ → ℕ → List UInt8
  | 0, _ => []
  | w + 1, n => UInt8.ofNat (n % 256) :: encodeLE w (n / 256)

/-- The number whose bytes are given, least significant first. -/
def decodeLE : List UInt8 → ℕ
  | [] => 0
  | b :: bs => b.toNat + 256 * decodeLE bs

@[simp] theorem length_encodeLE (w n : ℕ) : (encodeLE w n).length = w := by
  induction w generalizing n with
  | zero => rfl
  | succ w ih => simp [encodeLE, ih]

theorem decodeLE_encodeLE_mod (w n : ℕ) : decodeLE (encodeLE w n) = n % 256 ^ w := by
  induction w generalizing n with
  | zero => simp [encodeLE, decodeLE, Nat.mod_one]
  | succ w ih =>
    have hbyte : (UInt8.ofNat (n % 256)).toNat = n % 256 := by
      simp [UInt8.toNat_ofNat']
    rw [encodeLE, decodeLE, ih, hbyte, pow_succ', Nat.mod_mul]

theorem decodeLE_encodeLE {w n : ℕ} (h : n < 256 ^ w) : decodeLE (encodeLE w n) = n := by
  rw [decodeLE_encodeLE_mod, Nat.mod_eq_of_lt h]

theorem decodeLE_lt (bs : List UInt8) : decodeLE bs < 256 ^ bs.length := by
  induction bs with
  | nil => simp [decodeLE]
  | cons b bs ih =>
    have hb : b.toNat < 256 := b.toNat_lt
    rw [decodeLE, List.length_cons, pow_succ]
    omega

/-- Every byte string of the right width is the encoding of the number it decodes to. -/
theorem encodeLE_decodeLE (bs : List UInt8) : encodeLE bs.length (decodeLE bs) = bs := by
  induction bs with
  | nil => rfl
  | cons b bs ih =>
    have hb : b.toNat < 256 := b.toNat_lt
    have hlow : (b.toNat + 256 * decodeLE bs) % 256 = b.toNat := by omega
    have hhigh : (b.toNat + 256 * decodeLE bs) / 256 = decodeLE bs := by omega
    rw [List.length_cons, decodeLE, encodeLE, hlow, hhigh, ih, UInt8.ofNat_toNat]

/-! ## Reading -/

/-- Every address holds a byte. -/
abbrev Memory := ℕ → UInt8

/-- The `n` bytes from address `a` on. -/
def read (m : Memory) (a : ℕ) : ℕ → List UInt8
  | 0 => []
  | n + 1 => m a :: read m (a + 1) n

@[simp] theorem read_zero (m : Memory) (a : ℕ) : read m a 0 = [] := rfl

theorem read_succ (m : Memory) (a n : ℕ) : read m a (n + 1) = m a :: read m (a + 1) n := rfl

@[simp] theorem length_read (m : Memory) (a n : ℕ) : (read m a n).length = n := by
  induction n generalizing a with
  | zero => rfl
  | succ n ih => simp [read_succ, ih]

theorem read_add (m : Memory) (a n k : ℕ) : read m a (n + k) = read m a n ++ read m (a + n) k := by
  induction n generalizing a with
  | zero => simp
  | succ n ih =>
    rw [Nat.succ_add, read_succ, read_succ, ih, List.cons_append]
    congr 3
    omega

theorem read_getElem? (m : Memory) (a n i : ℕ) :
    (read m a n)[i]? = if i < n then some (m (a + i)) else none := by
  induction n generalizing a i with
  | zero => simp
  | succ n ih =>
    cases i with
    | zero => simp [read_succ]
    | succ i =>
      rw [read_succ, List.getElem?_cons_succ, ih, show a + 1 + i = a + (i + 1) by omega]
      simp

@[simp] theorem getElem_read (m : Memory) (a : ℕ) {n i : ℕ} (h : i < (read m a n).length) :
    (read m a n)[i] = m (a + i) := by
  have hi : i < n := by simpa using h
  have hopt := read_getElem? m a n i
  rw [List.getElem?_eq_getElem h, if_pos hi] at hopt
  exact Option.some.inj hopt

/-- Two memories read alike exactly when they agree byte by byte. -/
theorem read_eq_read_iff {m m' : Memory} {a b n : ℕ} :
    read m a n = read m' b n ↔ ∀ i < n, m (a + i) = m' (b + i) := by
  constructor
  · intro h i hi
    have hopt : (read m a n)[i]? = (read m' b n)[i]? := by rw [h]
    rw [read_getElem?, read_getElem?, if_pos hi, if_pos hi] at hopt
    exact Option.some.inj hopt
  · intro h
    refine List.ext_getElem? fun i => ?_
    rw [read_getElem?, read_getElem?]
    split
    · next hi => rw [h i hi]
    · rfl

theorem read_congr {m m' : Memory} {a n : ℕ} (h : ∀ i < n, m (a + i) = m' (a + i)) :
    read m a n = read m' a n :=
  read_eq_read_iff.mpr h

/-- A region that reads `bs` holds `bs` byte by byte. -/
theorem read_eq_iff {m : Memory} {a : ℕ} {bs : List UInt8} :
    read m a bs.length = bs ↔ ∀ i (h : i < bs.length), m (a + i) = bs[i] := by
  constructor
  · intro h i hi
    have hopt : (read m a bs.length)[i]? = bs[i]? := by rw [h]
    rw [read_getElem?, if_pos hi, List.getElem?_eq_getElem hi] at hopt
    exact Option.some.inj hopt
  · intro h
    refine List.ext_getElem? fun i => ?_
    rw [read_getElem?]
    split
    · next hi => rw [h i hi, List.getElem?_eq_getElem hi]
    · next hi => rw [List.getElem?_eq_none (not_lt.mp hi)]

/-- A region that reads as a concatenation reads each part in its place. -/
theorem read_append_iff {m : Memory} {a : ℕ} {xs ys : List UInt8} :
    read m a (xs ++ ys).length = xs ++ ys ↔
      read m a xs.length = xs ∧ read m (a + xs.length) ys.length = ys := by
  rw [List.length_append, read_add]
  constructor
  · intro h
    exact List.append_inj h (by simp)
  · rintro ⟨hx, hy⟩
    rw [hx, hy]

/-- A part of a region, read on its own, is the corresponding segment. -/
theorem read_segment (m : Memory) (a : ℕ) {n i k : ℕ} (h : i + k ≤ n) :
    read m (a + i) k = ((read m a n).drop i).take k := by
  obtain ⟨r, rfl⟩ := Nat.exists_eq_add_of_le h
  rw [read_add, read_add, List.append_assoc, List.drop_left' (by simp),
    List.take_left' (by simp)]

/-! ## Writing -/

/-- Overwrite the addresses from `a` on with `bs`. -/
def write (m : Memory) (a : ℕ) (bs : List UInt8) : Memory :=
  fun x => if a ≤ x then bs[x - a]?.getD (m x) else m x

/-- Overwrite `n` addresses from `a` on with one byte. -/
def fill (m : Memory) (a n : ℕ) (v : UInt8) : Memory :=
  fun x => if a ≤ x ∧ x < a + n then v else m x

@[simp] theorem write_nil (m : Memory) (a : ℕ) : write m a [] = m := by
  funext x
  simp [write]

/-- **Frame.** A write leaves every address outside its stretch alone. -/
theorem write_of_not_mem {m : Memory} {a x : ℕ} {bs : List UInt8}
    (h : x < a ∨ a + bs.length ≤ x) : write m a bs x = m x := by
  rw [write]
  split
  · rw [List.getElem?_eq_none (by omega), Option.getD_none]
  · rfl

theorem write_getElem {m : Memory} {a i : ℕ} {bs : List UInt8} (h : i < bs.length) :
    write m a bs (a + i) = bs[i] := by
  simp [write, List.getElem?_eq_getElem h]

theorem fill_of_not_mem {m : Memory} {a n x : ℕ} {v : UInt8} (h : x < a ∨ a + n ≤ x) :
    fill m a n v x = m x :=
  if_neg (by omega)

@[simp] theorem read_write_self (m : Memory) (a : ℕ) (bs : List UInt8) :
    read (write m a bs) a bs.length = bs :=
  read_eq_iff.mpr fun _ hi => write_getElem hi

/-- Two writes side by side are one write. -/
theorem write_append (m : Memory) (a : ℕ) (xs ys : List UInt8) :
    write m a (xs ++ ys) = write (write m a xs) (a + xs.length) ys := by
  funext x
  by_cases hlow : x < a + xs.length
  · rw [write_of_not_mem (m := write m a xs) (Or.inl hlow)]
    unfold write
    split
    · rw [List.getElem?_append_left (by omega)]
    · rfl
  · obtain ⟨i, rfl⟩ := Nat.exists_eq_add_of_le (not_lt.mp hlow)
    by_cases hi : i < ys.length
    · rw [write_getElem hi, Nat.add_assoc, write_getElem (by simp; omega)]
      simp
    · rw [write_of_not_mem (Or.inr (by simp; omega)), write_of_not_mem (Or.inr (by omega)),
        write_of_not_mem (Or.inr (by omega))]

theorem write_singleton (m : Memory) (a : ℕ) (b : UInt8) :
    write m a [b] = Function.update m a b := by
  funext x
  rcases eq_or_ne x a with rfl | hx
  · have hhere : 0 < [b].length := Nat.zero_lt_one
    simpa using write_getElem (m := m) (a := x) hhere
  · rw [Function.update_of_ne hx, write_of_not_mem (by rw [List.length_singleton]; omega)]

/-- Filling is writing one byte over and over. -/
theorem write_replicate (m : Memory) (a n : ℕ) (v : UInt8) :
    write m a (List.replicate n v) = fill m a n v := by
  funext x
  by_cases hx : a ≤ x ∧ x < a + n
  · obtain ⟨i, hi, rfl⟩ : ∃ i < n, x = a + i := ⟨x - a, by omega, by omega⟩
    rw [write_getElem (by simpa using hi), List.getElem_replicate, fill, if_pos hx]
  · rw [write_of_not_mem (by rw [List.length_replicate]; omega), fill_of_not_mem (by omega)]

@[simp] theorem fill_zero (m : Memory) (a : ℕ) (v : UInt8) : fill m a 0 v = m :=
  funext fun _ => fill_of_not_mem (by omega)

/-- Filling goes from left to right. -/
theorem fill_succ (m : Memory) (a n : ℕ) (v : UInt8) :
    fill m a (n + 1) v = fill (write m a [v]) (a + 1) n v := by
  funext x
  rw [write_singleton]
  rcases eq_or_ne x a with rfl | hx
  · rw [fill_of_not_mem (a := x + 1) (by omega), Function.update_self]
    exact if_pos (by omega)
  · unfold fill
    rw [Function.update_of_ne hx]
    exact if_congr (by omega) rfl rfl

/-- Bytes written over filled ones leave nothing of the filling. -/
theorem write_fill {m : Memory} {a n : ℕ} {v : UInt8} {bs : List UInt8} (h : bs.length = n) :
    write (fill m a n v) a bs = write m a bs := by
  funext x
  by_cases hx : a ≤ x ∧ x < a + n
  · obtain ⟨i, hi, rfl⟩ : ∃ i < bs.length, x = a + i := ⟨x - a, by omega, by omega⟩
    rw [write_getElem hi, write_getElem hi]
  · rw [write_of_not_mem (by omega), write_of_not_mem (by omega), fill_of_not_mem (by omega)]

/-! ## Extents -/

/-- An interval of addresses: `size` bytes from `base` on. -/
structure Extent where
  base : ℕ
  size : ℕ
  deriving DecidableEq, Repr

/-- No address lies in both. -/
def Extent.Disjoint (e f : Extent) : Prop :=
  ∀ x, ¬ ((e.base ≤ x ∧ x < e.base + e.size) ∧ (f.base ≤ x ∧ x < f.base + f.size))

theorem Extent.Disjoint.symm {e f : Extent} (h : e.Disjoint f) : f.Disjoint e :=
  fun x hx => h x ⟨hx.2, hx.1⟩

/-- `m'` agrees with `m` on the extent. -/
def Extent.SameOn (e : Extent) (m m' : Memory) : Prop :=
  ∀ x, e.base ≤ x → x < e.base + e.size → m' x = m x

theorem Extent.SameOn.refl (e : Extent) (m : Memory) : e.SameOn m m := fun _ _ _ => rfl

theorem Extent.SameOn.symm {e : Extent} {m m' : Memory} (h : e.SameOn m m') : e.SameOn m' m :=
  fun x hl hu => (h x hl hu).symm

theorem Extent.SameOn.trans {e : Extent} {m₁ m₂ m₃ : Memory} (h : e.SameOn m₁ m₂)
    (h' : e.SameOn m₂ m₃) : e.SameOn m₁ m₃ :=
  fun x hl hu => (h' x hl hu).trans (h x hl hu)

/-- A region inside an extent reads the same in memories that agree on the extent. -/
theorem Extent.SameOn.read {e : Extent} {m m' : Memory} (h : e.SameOn m m') {a n : ℕ}
    (hl : e.base ≤ a) (hu : a + n ≤ e.base + e.size) : read m' a n = read m a n :=
  read_congr fun i _ => h (a + i) (by omega) (by omega)

/-- A write inside one extent leaves any disjoint extent alone. -/
theorem Extent.SameOn.of_write {e f : Extent} (hd : e.Disjoint f) {m : Memory} {a : ℕ}
    {bs : List UInt8} (hl : f.base ≤ a) (hu : a + bs.length ≤ f.base + f.size) :
    e.SameOn m (write m a bs) := by
  intro x hx hx'
  refine write_of_not_mem ?_
  by_contra hc
  exact hd x ⟨⟨hx, hx'⟩, by omega, by omega⟩

theorem Extent.SameOn.of_fill {e f : Extent} (hd : e.Disjoint f) {m : Memory} {v : UInt8} :
    e.SameOn m (fill m f.base f.size v) := by
  intro x hx hx'
  refine fill_of_not_mem ?_
  by_contra hc
  exact hd x ⟨⟨hx, hx'⟩, by omega, by omega⟩

end ByteMemory
