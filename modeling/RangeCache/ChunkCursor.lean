import RangeCache.Lookup

/-!
# The chunk iterator as a cursor

What the cursor methods of `PersistentChunkIterator` are for: a position that moves over the pairs
of a chunk and may leave them at either end. The reference cursor is an integer, `-1` before the
first of `n` pairs and `n` past the last one. `current_` is an unsigned word, so both ends are
words from `n` on: `Next` on the last pair reaches `n`, and `Prev` on the first pair and
`SeekToLast` on an empty chunk wrap to the largest word. No method tells the ends apart, since
`Next` and `Prev` are called on a pair only.

## Main definitions

* `CursorOp`, `move`, `Legal` — the methods, and sequences of calls that respect their assertions
* `refMove` — the reference cursor
* `Sim` — the simulation relation
* `scan` — the loops `for (seek; Valid(); move)`

## Main results

* `sim_move` — one call is simulated
* `cursor_faithful` — any legal sequence of calls is, and both loops hand out every pair once
-/

namespace RangeCache

open FixedRangeTab

namespace PersistentChunkIterator

/-! ## The methods -/

inductive CursorOp where
  | seekToFirst
  | seekToLast
  | seekTo (idx : UInt64)
  | next
  | prev
  deriving DecidableEq

/-- One call. -/
def move (it : PersistentChunkIterator) : CursorOp → PersistentChunkIterator
  | .seekToFirst => it.seekToFirst
  | .seekToLast => it.seekToLast
  | .seekTo idx => it.seekTo idx.toNat
  | .next => it.next
  | .prev => it.prev

/-- `assert(Valid())` in `Next` and `Prev`. -/
def CursorOp.NeedsValid : CursorOp → Prop
  | .next => True
  | .prev => True
  | _ => False

/-- The calls respect the assertions. -/
inductive Legal : PersistentChunkIterator → List CursorOp → Prop where
  | nil (it : PersistentChunkIterator) : Legal it []
  | cons {it : PersistentChunkIterator} {op : CursorOp} {ops : List CursorOp} :
      (op.NeedsValid → it.valid = true) → Legal (it.move op) ops → Legal it (op :: ops)

/-- The loop `for (...; it->Valid(); adv)`, with the pairs it hands out. `fuel` bounds the turns. -/
def scan (m : ByteMemory.Memory) (adv : PersistentChunkIterator → PersistentChunkIterator) :
    (fuel : ℕ) → PersistentChunkIterator → Except Fault (List (Bytes × Bytes))
  | 0, it => if it.valid then .error .diverges else .ok []
  | fuel + 1, it =>
    if it.valid then do
      let key ← it.key m
      let value ← it.value m
      let rest ← scan m adv fuel (adv it)
      return (key, value) :: rest
    else
      .ok []

/-! ## The reference cursor -/

/-- The reference cursor over `n` pairs. -/
def refMove (n : ℕ) (p : ℤ) : CursorOp → ℤ
  | .seekToFirst => 0
  | .seekToLast => n - 1
  | .seekTo idx => min idx.toNat n
  | .next => p + 1
  | .prev => p - 1

/-- Where the reference cursor starts when `current_` holds a word the constructor has left. -/
def refStart (n current : ℕ) : ℤ := min current n

/-- A word stands for the position it is the index of; every word from `n` on stands for both
ends. -/
def Sim (n current : ℕ) (p : ℤ) : Prop :=
  current < n ∧ p = current ∨ n ≤ current ∧ (p = -1 ∨ p = n)

theorem sim_start (n current : ℕ) : Sim n current (refStart n current) := by
  rw [Sim, refStart]
  omega

/-- The cursor is on a pair exactly if the reference cursor is. -/
theorem Sim.lt_iff {n current : ℕ} {p : ℤ} (h : Sim n current p) :
    current < n ↔ 0 ≤ p ∧ p < n := by
  rw [Sim] at h
  omega

theorem Sim.eq {n current i : ℕ} {p : ℤ} (h : Sim n current p) (hi : i < n) (hp : p = i) :
    current = i := by
  rw [Sim] at h
  omega

section Simulation

variable {m : ByteMemory.Memory} {it : PersistentChunkIterator} {kvs : List (Bytes × Bytes)}

theorem valid_iff (it : PersistentChunkIterator) : it.valid = true ↔ it.current < it.vKey.length :=
  decide_eq_true_iff

/-- A call moves the cursor only. -/
theorem handsOut_move (h : HandsOut m it kvs) (op : CursorOp) : HandsOut m (it.move op) kvs := by
  obtain ⟨i, hi⟩ : ∃ i, it.move op = it.seekTo i := by cases op <;> exact ⟨_, rfl⟩
  rw [hi]
  exact h.seekTo i

/-- **One call is simulated.** -/
theorem sim_move (h : HandsOut m it kvs) {p : ℤ} (hsim : Sim kvs.length it.current p)
    {op : CursorOp} (hop : op.NeedsValid → it.valid = true) :
    Sim kvs.length (it.move op).current (refMove kvs.length p op) := by
  have hcount : it.vKey.length = kvs.length := h.count
  have hlt := h.length_lt
  cases op with
  | seekToFirst =>
    show Sim kvs.length 0 0
    rw [Sim]
    omega
  | seekToLast =>
    show Sim kvs.length (u64 (it.vKey.length + (2 ^ 64 - 1))) (kvs.length - 1)
    rw [hcount, Sim]
    rcases Nat.eq_zero_or_pos kvs.length with hzero | hpos
    · rw [hzero, u64_of_lt (by omega)]
      omega
    · rw [u64_pred hpos (by omega)]
      omega
  | seekTo idx => exact sim_start kvs.length idx.toNat
  | next =>
    have hvalid := (valid_iff it).mp (hop trivial)
    show Sim kvs.length (u64 (it.current + 1)) (p + 1)
    rw [u64_of_lt (by omega)]
    rw [Sim] at hsim ⊢
    omega
  | prev =>
    have hvalid := (valid_iff it).mp (hop trivial)
    show Sim kvs.length (u64 (it.current + (2 ^ 64 - 1))) (p - 1)
    rw [Sim] at hsim ⊢
    rcases Nat.eq_zero_or_pos it.current with hzero | hpos
    · rw [hzero, u64_of_lt (by omega)]
      omega
    · rw [u64_pred hpos (by omega)]
      omega

/-- **Any legal sequence of calls is simulated.** -/
theorem sim_moves (h : HandsOut m it kvs) {p : ℤ} (hsim : Sim kvs.length it.current p)
    {ops : List CursorOp} (hlegal : Legal it ops) :
    HandsOut m (ops.foldl move it) kvs ∧
      Sim kvs.length (ops.foldl move it).current (ops.foldl (refMove kvs.length) p) := by
  induction hlegal generalizing p with
  | nil it => exact ⟨h, hsim⟩
  | cons hop _ ih => exact ih (handsOut_move h _) (sim_move h hsim hop)

/-- What a reader sees of a cursor at position `p`: it is valid exactly on a pair, and there `key`
and `value` return the pair. -/
structure Shows (m : ByteMemory.Memory) (it : PersistentChunkIterator)
    (kvs : List (Bytes × Bytes)) (p : ℤ) : Prop where
  within : -1 ≤ p ∧ p ≤ kvs.length
  valid : it.valid = true ↔ 0 ≤ p ∧ p < kvs.length
  pair : ∀ i (hi : i < kvs.length), p = i →
    it.key m = .ok kvs[i].1 ∧ it.value m = .ok kvs[i].2

theorem shows_of_sim (h : HandsOut m it kvs) {p : ℤ} (hsim : Sim kvs.length it.current p) :
    Shows m it kvs p := by
  have hcount : it.vKey.length = kvs.length := h.count
  refine ⟨?_, ?_, fun i hi hp => ?_⟩
  · rw [Sim] at hsim
    omega
  · rw [valid_iff, hcount, hsim.lt_iff]
  · have hat : it = it.seekTo i := by rw [← hsim.eq hi hp]; rfl
    rw [hat]
    exact ⟨h.key_seekTo hi, h.value_seekTo hi⟩

/-! ## The loops -/

/-- One turn of a loop on a pair. -/
theorem scan_of_lt (h : HandsOut m it kvs) {adv : PersistentChunkIterator → PersistentChunkIterator}
    {i fuel : ℕ} (hi : i < kvs.length) (hcur : it.current = i) {rest : List (Bytes × Bytes)}
    (hrest : scan m adv fuel (adv it) = .ok rest) :
    scan m adv (fuel + 1) it = .ok (kvs[i] :: rest) := by
  have hshows : Shows m it kvs i := by
    refine shows_of_sim h ?_
    rw [Sim]
    omega
  have hvalid : it.valid = true := hshows.valid.mpr (by omega)
  obtain ⟨hkey, hvalue⟩ := hshows.pair i hi rfl
  rw [scan, if_pos hvalid, hkey, hvalue]
  simp only [FallibleRun.ok_bind, hrest]
  rfl

/-- A loop stops where the cursor is off the pairs. -/
theorem scan_of_le (h : HandsOut m it kvs) {adv : PersistentChunkIterator → PersistentChunkIterator}
    (fuel : ℕ) (hcur : kvs.length ≤ it.current) : scan m adv fuel it = .ok [] := by
  have hcount : it.vKey.length = kvs.length := h.count
  have hvalid : ¬ it.valid = true := by
    rw [valid_iff]
    omega
  cases fuel <;> exact if_neg hvalid

/-- From pair `i`, `Next` hands out the pairs from there on, in order. -/
theorem scan_next (h : HandsOut m it kvs) {i fuel : ℕ} (hi : it.current = i)
    (hle : i ≤ kvs.length) (hfuel : kvs.length ≤ i + fuel) :
    scan m next fuel it = .ok (kvs.drop i) := by
  have hlt := h.length_lt
  induction fuel generalizing it i with
  | zero =>
    rw [List.drop_of_length_le (by omega)]
    exact scan_of_le h 0 (by omega)
  | succ fuel ih =>
    rcases Nat.lt_or_ge i kvs.length with hi' | hi'
    · have hnext : it.next.current = i + 1 := by
        show u64 (it.current + 1) = i + 1
        rw [u64_of_lt (by omega), hi]
      rw [List.drop_eq_getElem_cons hi']
      exact scan_of_lt h hi' hi (ih (handsOut_move h .next) hnext (by omega) (by omega))
    · rw [List.drop_of_length_le hi']
      exact scan_of_le h _ (by omega)

/-- From pair `i - 1`, `Prev` hands out the pairs from there down. -/
theorem scan_prev (h : HandsOut m it kvs) {i fuel : ℕ} (hi : it.current = u64 (i + (2 ^ 64 - 1)))
    (hle : i ≤ kvs.length) (hfuel : i ≤ fuel) :
    scan m prev fuel it = .ok (kvs.take i).reverse := by
  have hlt := h.length_lt
  induction i generalizing it fuel with
  | zero =>
    have hwrap := le_u64_pred_zero (n := kvs.length) (by omega)
    exact scan_of_le h _ (by rw [hi]; exact hwrap)
  | succ i ih =>
    obtain ⟨fuel, rfl⟩ : ∃ k, fuel = k + 1 := ⟨fuel - 1, by omega⟩
    rw [u64_pred (Nat.succ_pos i) (by omega), Nat.succ_sub_one] at hi
    have hprev : it.prev.current = u64 (i + (2 ^ 64 - 1)) := by rw [← hi]; rfl
    rw [List.take_succ_eq_append_getElem (by omega), List.reverse_append, List.reverse_singleton,
      List.singleton_append]
    exact scan_of_lt h (by omega) hi (ih (handsOut_move h .prev) hprev (by omega) (by omega))

/-- **The iterator is a faithful two-way cursor**: whatever `current_` holds at first, after any
legal sequence of calls it shows what the reference cursor is on; and from there the loop over all
pairs hands out each of them once and stops, forwards and backwards. -/
theorem cursor_faithful (h : HandsOut m it kvs) {ops : List CursorOp} (hlegal : Legal it ops) :
    Shows m (ops.foldl move it) kvs
        (ops.foldl (refMove kvs.length) (refStart kvs.length it.current)) ∧
      scan m next kvs.length (ops.foldl move it).seekToFirst = .ok kvs ∧
      scan m prev kvs.length (ops.foldl move it).seekToLast = .ok kvs.reverse := by
  obtain ⟨hout, hsim⟩ := sim_moves h (sim_start kvs.length it.current) hlegal
  have hcount : (ops.foldl move it).vKey.length = kvs.length := hout.count
  refine ⟨shows_of_sim hout hsim, ?_, ?_⟩
  · exact scan_next (handsOut_move hout .seekToFirst) rfl (Nat.zero_le _) (by omega)
  · have hlast : (ops.foldl move it).seekToLast.current = u64 (kvs.length + (2 ^ 64 - 1)) := by
      rw [← hcount]
      rfl
    have hscan := scan_prev (handsOut_move hout .seekToLast) hlast le_rfl le_rfl
    rwa [List.take_length] at hscan

end Simulation

/-- An iterator over two pairs, whose keys are the bytes at `0` and `1`, before any call. -/
def twoIter : PersistentChunkIterator :=
  { vKey := [⟨1, 0⟩, ⟨1, 1⟩], vValue := [⟨0, 0⟩, ⟨0, 0⟩], current := 7 }

theorem handsOut_twoIter :
    HandsOut (fun a => UInt8.ofNat a) twoIter [([0], []), ([1], [])] :=
  ⟨rfl, rfl, by decide⟩

/-- Off both ends and back on the last pair. -/
def roundTrip : List CursorOp := [.seekToFirst, .prev, .seekToLast, .next, .seekTo 1]

theorem legal_roundTrip : Legal twoIter roundTrip :=
  .cons (fun h => h.elim) <| .cons (fun _ => rfl) <| .cons (fun h => h.elim) <|
    .cons (fun _ => rfl) <| .cons (fun h => h.elim) <| .nil _

theorem cursor_faithful_roundTrip :
    Shows (fun a => UInt8.ofNat a) (roundTrip.foldl move twoIter) [([0], []), ([1], [])]
        (roundTrip.foldl (refMove 2) (refStart 2 7)) ∧
      scan (fun a => UInt8.ofNat a) next 2 (roundTrip.foldl move twoIter).seekToFirst
        = .ok [([0], []), ([1], [])] ∧
      scan (fun a => UInt8.ofNat a) prev 2 (roundTrip.foldl move twoIter).seekToLast
        = .ok [([1], []), ([0], [])] :=
  cursor_faithful handsOut_twoIter legal_roundTrip

end PersistentChunkIterator

end RangeCache
