import RangeCache.Lib.ByteMemory

/-!
# Logs of length-prefixed records

A record is a tag and a payload. Its encoding is the tag, the payload's length in a little-endian
field of `w` bytes, and the payload; a log is the concatenation of such encodings. The width of
the length field is a parameter, and tags may have any length: a reader has to know it, the
format does not store it.

## Main definitions

* `RecordLog.Record`, `Record.encode`, `Record.size`, `encodeAll`, `totalSize`
* `RecordLog.place` — where each record of a log starts
* `RecordLog.RecordAt`, `HoldsAt` — a memory holds a record, or a whole log, at an address

## Main results

* `holdsAt_cons_iff`, `holdsAt_append_iff` — a log in memory splits at every record boundary
* `HoldsAt.congr` — framing
* `place_append`, `place_bounds`, `pairwise_place`, `getElem?_place` — where records lie
* `recordAt_decode` — any bytes hold a record
-/

namespace RecordLog

open ByteMemory

variable {w : ℕ}

/-! ## Records and logs -/

/-- A tag and a payload. -/
structure Record where
  tag : List UInt8
  payload : List UInt8
  deriving DecidableEq, Repr

/-- Tag, length field, payload. -/
def Record.encode (w : ℕ) (r : Record) : List UInt8 :=
  r.tag ++ (encodeLE w r.payload.length ++ r.payload)

/-- The number of bytes a record takes. -/
def Record.size (w : ℕ) (r : Record) : ℕ := r.tag.length + w + r.payload.length

@[simp] theorem Record.length_encode (r : Record) : (r.encode w).length = r.size w := by
  simp [Record.encode, Record.size, Nat.add_assoc]

/-- The encodings one after the other. -/
def encodeAll (w : ℕ) (rs : List Record) : List UInt8 := rs.flatMap (Record.encode w)

/-- The number of bytes a log takes. -/
def totalSize (w : ℕ) (rs : List Record) : ℕ := (rs.map (Record.size w)).sum

@[simp] theorem encodeAll_nil : encodeAll w [] = [] := rfl

theorem encodeAll_cons (r : Record) (rs : List Record) :
    encodeAll w (r :: rs) = r.encode w ++ encodeAll w rs := rfl

theorem encodeAll_append (rs ss : List Record) :
    encodeAll w (rs ++ ss) = encodeAll w rs ++ encodeAll w ss := by
  simp [encodeAll]

@[simp] theorem totalSize_nil : totalSize w [] = 0 := rfl

@[simp] theorem totalSize_cons (r : Record) (rs : List Record) :
    totalSize w (r :: rs) = r.size w + totalSize w rs := by
  simp [totalSize]

@[simp] theorem totalSize_append (rs ss : List Record) :
    totalSize w (rs ++ ss) = totalSize w rs + totalSize w ss := by
  simp [totalSize]

@[simp] theorem length_encodeAll (rs : List Record) :
    (encodeAll w rs).length = totalSize w rs := by
  induction rs with
  | nil => rfl
  | cons r rs ih =>
    rw [encodeAll_cons, List.length_append, ih, totalSize_cons, Record.length_encode]

/-- A record takes at least the bytes of its length field, so a log has at most `size / w`
records. -/
theorem length_mul_le_totalSize (rs : List Record) : w * rs.length ≤ totalSize w rs := by
  induction rs with
  | nil => simp
  | cons r rs ih =>
    rw [totalSize_cons, List.length_cons, Nat.mul_succ]
    have : w ≤ r.size w := by rw [Record.size]; omega
    omega

/-! ## Where the records start -/

/-- The records of a log that starts at `o`, each with the position of its tag. -/
def place (w o : ℕ) : List Record → List (ℕ × Record)
  | [] => []
  | r :: rs => (o, r) :: place w (o + r.size w) rs

@[simp] theorem place_nil (o : ℕ) : place w o [] = [] := rfl

theorem place_cons (o : ℕ) (r : Record) (rs : List Record) :
    place w o (r :: rs) = (o, r) :: place w (o + r.size w) rs := rfl

@[simp] theorem length_place (o : ℕ) (rs : List Record) : (place w o rs).length = rs.length := by
  induction rs generalizing o with
  | nil => rfl
  | cons r rs ih => rw [place_cons, List.length_cons, ih, List.length_cons]

theorem place_append (o : ℕ) (rs ss : List Record) :
    place w o (rs ++ ss) = place w o rs ++ place w (o + totalSize w rs) ss := by
  induction rs generalizing o with
  | nil => simp
  | cons r rs ih =>
    rw [List.cons_append, place_cons, place_cons, ih, totalSize_cons, List.cons_append,
      Nat.add_assoc]

theorem place_bounds {o : ℕ} {rs : List Record} {p : ℕ × Record} (h : p ∈ place w o rs) :
    o ≤ p.1 ∧ p.1 + p.2.size w ≤ o + totalSize w rs := by
  induction rs generalizing o with
  | nil => simp at h
  | cons r rs ih =>
    rw [totalSize_cons]
    rcases List.mem_cons.mp h with rfl | h
    · exact ⟨le_rfl, Nat.add_le_add_left (Nat.le_add_right _ _) _⟩
    · have := ih h
      omega

/-- The records lie one behind the other. -/
theorem pairwise_place (o : ℕ) (rs : List Record) :
    (place w o rs).Pairwise fun p q => p.1 + p.2.size w ≤ q.1 := by
  induction rs generalizing o with
  | nil => exact List.Pairwise.nil
  | cons r rs ih =>
    rw [place_cons]
    exact List.Pairwise.cons (fun q hq => (place_bounds hq).1) (ih _)

/-- Each record starts where those before it end. -/
theorem getElem?_place (o : ℕ) (rs : List Record) (i : ℕ) :
    (place w o rs)[i]? = rs[i]?.map fun r => (o + totalSize w (rs.take i), r) := by
  induction rs generalizing o i with
  | nil => simp
  | cons r rs ih =>
    cases i with
    | zero => simp [place_cons]
    | succ i =>
      rw [place_cons, List.getElem?_cons_succ, List.getElem?_cons_succ, ih, List.take_succ_cons,
        totalSize_cons, Nat.add_assoc]

/-- What is placed is the log. -/
theorem map_snd_place (o : ℕ) (rs : List Record) : (place w o rs).map Prod.snd = rs := by
  induction rs generalizing o with
  | nil => rfl
  | cons r rs ih => rw [place_cons, List.map_cons, ih]

/-- What is placed comes from the log. -/
theorem mem_of_mem_place {o : ℕ} {rs : List Record} {p : ℕ × Record} (h : p ∈ place w o rs) :
    p.2 ∈ rs := by
  obtain ⟨i, hi⟩ := List.mem_iff_getElem?.mp h
  rw [getElem?_place] at hi
  obtain ⟨r, hr, rfl⟩ := Option.map_eq_some_iff.mp hi
  exact List.mem_of_getElem? hr

/-! ## Logs in memory -/

/-- The memory holds the record at address `a`. -/
structure RecordAt (w : ℕ) (m : Memory) (a : ℕ) (r : Record) : Prop where
  tag : read m a r.tag.length = r.tag
  length : read m (a + r.tag.length) w = encodeLE w r.payload.length
  payload : read m (a + r.tag.length + w) r.payload.length = r.payload

/-- The memory holds the log from address `a` on. -/
def HoldsAt (w : ℕ) (m : Memory) (a : ℕ) (rs : List Record) : Prop :=
  read m a (totalSize w rs) = encodeAll w rs

@[simp] theorem holdsAt_nil (m : Memory) (a : ℕ) : HoldsAt w m a [] := rfl

theorem recordAt_iff {m : Memory} {a : ℕ} {r : Record} :
    RecordAt w m a r ↔ read m a (r.size w) = r.encode w := by
  rw [← Record.length_encode, Record.encode, read_append_iff, read_append_iff, length_encodeLE]
  exact ⟨fun h => ⟨h.tag, h.length, h.payload⟩, fun h => ⟨h.1, h.2.1, h.2.2⟩⟩

theorem holdsAt_append_iff {m : Memory} {a : ℕ} {rs ss : List Record} :
    HoldsAt w m a (rs ++ ss) ↔ HoldsAt w m a rs ∧ HoldsAt w m (a + totalSize w rs) ss := by
  simp only [HoldsAt]
  rw [← length_encodeAll, encodeAll_append, read_append_iff]
  simp only [length_encodeAll]

theorem holdsAt_singleton_iff {m : Memory} {a : ℕ} {r : Record} :
    HoldsAt w m a [r] ↔ RecordAt w m a r := by
  rw [recordAt_iff, HoldsAt, totalSize_cons, encodeAll_cons]
  simp

theorem holdsAt_cons_iff {m : Memory} {a : ℕ} {r : Record} {rs : List Record} :
    HoldsAt w m a (r :: rs) ↔ RecordAt w m a r ∧ HoldsAt w m (a + r.size w) rs := by
  rw [← List.singleton_append, holdsAt_append_iff, holdsAt_singleton_iff]
  simp

/-- A log in memory is each of its records in its place. -/
theorem holdsAt_iff_forall_place {m : Memory} {a o : ℕ} {rs : List Record} :
    HoldsAt w m (a + o) rs ↔ ∀ p ∈ place w o rs, RecordAt w m (a + p.1) p.2 := by
  induction rs generalizing o with
  | nil => simp
  | cons r rs ih =>
    rw [holdsAt_cons_iff, Nat.add_assoc, ih, place_cons, List.forall_mem_cons]

/-- Whatever the bytes are, they hold the record that their length field cuts out. -/
theorem recordAt_decode (m : Memory) (a t : ℕ) :
    RecordAt w m a ⟨read m a t, read m (a + t + w) (decodeLE (read m (a + t) w))⟩ := by
  constructor
  · rw [length_read]
  · have hcode := encodeLE_decodeLE (read m (a + t) w)
    rw [length_read] at hcode
    rw [length_read, length_read, hcode]
  · rw [length_read, length_read]

/-- **Framing.** Only the log's own bytes matter. -/
theorem HoldsAt.congr {m m' : Memory} {a : ℕ} {rs : List Record} (h : HoldsAt w m a rs)
    (hm : ∀ i < totalSize w rs, m' (a + i) = m (a + i)) : HoldsAt w m' a rs :=
  (read_congr hm).trans h

/-- The length field of a record in memory decodes to the payload's length. -/
theorem RecordAt.decodeLE_length {m : Memory} {a : ℕ} {r : Record} (h : RecordAt w m a r)
    (hr : r.payload.length < 256 ^ w) :
    decodeLE (read m (a + r.tag.length) w) = r.payload.length := by
  rw [h.length, decodeLE_encodeLE hr]

end RecordLog
