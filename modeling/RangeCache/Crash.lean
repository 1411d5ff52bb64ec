import RangeCache.Recovery
import RangeCache.Lib.TxMemory

/-!
# Crashes

`Append` stores the block into the buffer, assigns `dataLen`, and commits; the key range goes to a
new object in a second transaction. The assignment registers `dataLen` with the transaction, but
nothing registers the block. So after the commit `dataLen` is durable and covers bytes that may
never have reached the medium, and no later transaction makes up for it.

## Main definitions

* `Loc`, `Val`, `viewOf` — the persistent locations of a range
* `appendTrace` — the persistent operations of one `Append`, in order
* `blockTrace`, `committed` — the first transaction, and the range behind its commit
* `Executed` — the operations executed when a run of `Append` stops anywhere
* `Recovers`, `CrashConsistent` — what a crash may leave

## Main results

* `tracks_append` — the trace is the faithful `append`, operation by operation
* `crashConsistent_iff` — a sequence of appends is crash consistent exactly when it is empty or
  writes what the medium already holds
-/

namespace RangeCache

open ByteMemory RecordLog TxMemory FallibleRun

namespace FixedRangeTab

/-! ## Persistent locations -/

/-- The persistent locations an `Append` writes: the bytes of the pool, and the node's data
length. -/
inductive Loc where
  | byte (a : ℕ)
  | dataLen
  deriving DecidableEq

/-- What a location holds. -/
abbrev Val : Loc → Type
  | .byte _ => UInt8
  | .dataLen => ℕ

/-- The values of all locations, from the bytes and the data length. -/
def values (m : Memory) (d : ℕ) : ∀ l, Val l
  | .byte a => m a
  | .dataLen => d

def memOf (v : ∀ l, Val l) : Memory := fun a => v (.byte a)

def lenOf (v : ∀ l, Val l) : ℕ := v .dataLen

/-- The values in a state of the range. -/
def viewOf (s : RangeState) : ∀ l, Val l := values s.pool.mem s.nv.dataLen

/-! ## The operations of one `Append` -/

/-- `memcpy`, byte by byte. -/
def storeBytes : ℕ → Bytes → List (Op Val)
  | _, [] => []
  | a, b :: bs => .store (.byte a) b :: storeBytes (a + 1) bs

/-- `make_persistent<char[]>(n)` inside a transaction. -/
def allocateBytes : ℕ → ℕ → List (Op Val)
  | _, 0 => []
  | a, n + 1 => .allocate (.byte a) :: .store (.byte a) 0 :: allocateBytes (a + 1) n

/-- Assignment to a `p<>` field adds the field to the transaction. -/
def assignDataLen (n : ℕ) : List (Op Val) := [.snapshot .dataLen, .store .dataLen n]

/-- The stores of `CheckAndUpdateKeyRange` into the new object. -/
def putKeyRangeTrace (base : ℕ) (start stop : Bytes) : List (Op Val) :=
  storeBytes base (encodeFixed64 start.length) ++ (storeBytes (base + 8) start ++
    (storeBytes (base + (8 + start.length)) (encodeFixed64 stop.length) ++
      storeBytes (base + (8 + start.length + 8)) stop))

/-- The second transaction: `CheckAndUpdateKeyRange`. -/
def keyRangeTrace (A : Allocator) (icmp : Bytes → Bytes → Ordering) (pool : Pool)
    (nv : NvRangeTab) (newStart newEnd : Bytes) : List (Op Val) :=
  let (curStart, curEnd) := getRealRange pool.mem nv
  let updateStart := icmp curStart newStart == .gt
  let curStart := if updateStart then newStart else curStart
  let updateEnd := icmp curEnd newEnd == .lt
  let curEnd := if updateEnd then newEnd else curEnd
  if updateStart || updateEnd then
    let size := curStart.length + curEnd.length + 2 * 8
    let newRange := (pool.makePersistent A size).2
    allocateBytes newRange size ++ (putKeyRangeTrace newRange curStart curEnd ++ [.commit])
  else
    []

/-- The first transaction: filter, length field and data are copied, `dataLen` is assigned. -/
def copyTrace (s : RangeState) (a : AppendArgs) : List (Op Val) :=
  let dest := s.nv.buf + s.nv.dataLen
  storeBytes dest a.bloomData ++ (storeBytes (dest + CHUNK_BLOOM_FILTER_LEN)
    (encodeFixed64 a.chunkData.length) ++
    storeBytes (dest + CHUNK_BLOOM_FILTER_LEN + 8) a.chunkData)

/-- The persistent operations of `Append` in state `s`, from its first store to its return. -/
def appendTrace (A : Allocator) (icmp : Bytes → Bytes → Ordering) (s : RangeState)
    (a : AppendArgs) : List (Op Val) :=
  let dataLen := u64 (s.nv.dataLen + CHUNK_BLOOM_FILTER_LEN + 8 + a.chunkData.length)
  copyTrace s a ++ (assignDataLen dataLen ++ (.commit ::
    keyRangeTrace A icmp (writeBlock s a) { s.nv with dataLen } a.newStart a.newEnd))

/-! ## What the program sees -/

section View

variable {σ : State Val} {m : Memory} {d : ℕ}

@[simp] theorem update_values_byte (m : Memory) (d a : ℕ) (b : UInt8) :
    Function.update (values m d) (.byte a) b = values (write m a [b]) d := by
  funext l
  rw [write_singleton]
  cases l with
  | byte x =>
    rcases eq_or_ne x a with rfl | hx
    · rw [Function.update_self, values, Function.update_self]
    · rw [Function.update_of_ne (by simpa using hx), values, values, Function.update_of_ne hx]
  | dataLen => rfl

@[simp] theorem update_values_dataLen (m : Memory) (d n : ℕ) :
    Function.update (values m d) .dataLen n = values m n := by
  funext l
  cases l with
  | byte x => rfl
  | dataLen => simp [values]

/-- Byte stores are one write. -/
theorem view_storeBytes (h : σ.view = values m d) (a : ℕ) (bs : Bytes) :
    (exec σ (storeBytes a bs)).view = values (write m a bs) d := by
  induction bs generalizing σ m a with
  | nil => rw [write_nil]; exact h
  | cons b bs ih =>
    rw [storeBytes, exec_cons, ← List.singleton_append, write_append]
    exact ih (by rw [view_step_store, h, update_values_byte]) (a + 1)

/-- Allocation zeroes the new object. -/
theorem view_allocateBytes (h : σ.view = values m d) (a n : ℕ) :
    (exec σ (allocateBytes a n)).view = values (fill m a n 0) d := by
  induction n generalizing σ m a with
  | zero => rw [fill_zero]; exact h
  | succ n ih =>
    rw [allocateBytes, exec_cons, exec_cons, fill_succ]
    exact ih (by rw [view_step_store, view_step_allocate, h, update_values_byte]) (a + 1)

theorem storeBytes_append (a : ℕ) (xs ys : Bytes) :
    storeBytes a (xs ++ ys) = storeBytes a xs ++ storeBytes (a + xs.length) ys := by
  induction xs generalizing a with
  | nil => rfl
  | cons x xs ih =>
    rw [List.cons_append, storeBytes, storeBytes, ih, List.cons_append, List.length_cons,
      Nat.add_assoc, Nat.add_comm 1]

/-- The copies of the first transaction are the stores of one block. -/
theorem copyTrace_eq (s : RangeState) (a : AppendArgs) :
    copyTrace s a = storeBytes (s.nv.buf + s.nv.dataLen) (a.record.encode 8) := by
  rw [Record.encode, storeBytes_append, storeBytes_append]
  simp only [copyTrace, AppendArgs.record, a.bloomData_length, length_encodeLE]
  rfl

/-- A copy into an object has the effect of its stores. -/
theorem view_memcpy {p q : Pool} {obj : Extent} {off : ℕ} {src : Bytes}
    (h : σ.view = values p.mem d) (hcopy : p.memcpy obj off src = .ok q) :
    (exec σ (storeBytes (obj.base + off) src)).view = values q.mem d := by
  rw [Pool.memcpy_inv hcopy]
  exact view_storeBytes h _ _

theorem view_putKeyRangeTrace {p q : Pool} {obj : Extent} {start stop : Bytes}
    (h : σ.view = values p.mem d) (hput : putKeyRange p obj start stop = .ok q) :
    (exec σ (putKeyRangeTrace obj.base start stop)).view = values q.mem d := by
  obtain ⟨p₁, h₁, hput⟩ := bind_eq_ok.mp hput
  obtain ⟨p₂, h₂, hput⟩ := bind_eq_ok.mp hput
  obtain ⟨p₃, h₃, hput⟩ := bind_eq_ok.mp hput
  have v₁ := view_memcpy h h₁
  have v₂ := view_memcpy v₁ h₂
  have v₃ := view_memcpy v₂ h₃
  have v₄ := view_memcpy v₃ hput
  rw [Nat.add_zero] at v₄
  simp only [putKeyRangeTrace, exec_append]
  exact v₄

/-- The second transaction has the effect of `CheckAndUpdateKeyRange`. -/
theorem view_keyRangeTrace {A : Allocator} {icmp : Bytes → Bytes → Ordering} {p q : Pool}
    {nv : NvRangeTab} {newStart newEnd : Bytes} (h : σ.view = values p.mem d)
    (hcheck : checkAndUpdateKeyRange A icmp p nv newStart newEnd = .ok q) :
    (exec σ (keyRangeTrace A icmp p nv newStart newEnd)).view = values q.mem d := by
  simp only [checkAndUpdateKeyRange] at hcheck
  simp only [keyRangeTrace]
  split at hcheck
  · next hupdate =>
    have v := view_putKeyRangeTrace (view_allocateBytes h _ _) hcheck
    simp only [if_pos hupdate, exec_append, exec_cons, exec_nil, view_step_commit]
    exact v
  · next hupdate =>
    rw [if_neg hupdate, exec_nil, h]
    cases hcheck
    rfl

end View

/-! ## What a trace touches -/

theorem mem_storeBytes {op : Op Val} {a : ℕ} {bs : Bytes} (h : op ∈ storeBytes a bs) :
    ∃ i, ∃ hi : i < bs.length, op = .store (.byte (a + i)) bs[i] := by
  induction bs generalizing a with
  | nil => cases h
  | cons b bs ih =>
    rcases List.mem_cons.mp h with rfl | h
    · exact ⟨0, by simp, rfl⟩
    · obtain ⟨i, hi, rfl⟩ := ih h
      exact ⟨i + 1, by simpa using hi,
        by rw [List.getElem_cons_succ, Nat.add_assoc, Nat.add_comm 1]⟩

/-- The operation allocates or stores a byte of the extent. -/
def TouchesIn (e : Extent) (op : Op Val) : Prop :=
  ∃ x, e.base ≤ x ∧ x < e.base + e.size ∧ (op = .allocate (.byte x) ∨ ∃ v, op = .store (.byte x) v)

theorem touchesIn_of_mem_storeBytes {e : Extent} {op : Op Val} {a : ℕ} {bs : Bytes}
    (h : op ∈ storeBytes a bs) (hl : e.base ≤ a) (hu : a + bs.length ≤ e.base + e.size) :
    TouchesIn e op := by
  obtain ⟨i, hi, rfl⟩ := mem_storeBytes h
  exact ⟨a + i, by omega, by omega, .inr ⟨_, rfl⟩⟩

theorem touchesIn_of_mem_allocateBytes {e : Extent} {op : Op Val} {a n : ℕ}
    (h : op ∈ allocateBytes a n) (hl : e.base ≤ a) (hu : a + n ≤ e.base + e.size) :
    TouchesIn e op := by
  induction n generalizing a with
  | zero => cases h
  | succ n ih =>
    rcases List.mem_cons.mp h with rfl | h
    · exact ⟨a, by omega, by omega, .inl rfl⟩
    · rcases List.mem_cons.mp h with rfl | h
      · exact ⟨a, by omega, by omega, .inr ⟨_, rfl⟩⟩
      · exact ih h (by omega) (by omega)

/-- A key range is put into an object of its size, and committed. -/
theorem mem_newRangeTrace {op : Op Val} {base : ℕ} {start stop : Bytes}
    (h : op ∈ allocateBytes base (start.length + stop.length + 2 * 8) ++
      (putKeyRangeTrace base start stop ++ [.commit])) :
    op = .commit ∨ TouchesIn ⟨base, start.length + stop.length + 2 * 8⟩ op := by
  simp only [putKeyRangeTrace, List.mem_append, List.mem_singleton] at h
  rcases h with h | (h | h | h | h) | rfl
  · exact .inr (touchesIn_of_mem_allocateBytes h le_rfl le_rfl)
  · exact .inr (touchesIn_of_mem_storeBytes h le_rfl
      (by rw [length_encodeFixed64]; simp only; omega))
  · exact .inr (touchesIn_of_mem_storeBytes h (by simp only; omega) (by simp only; omega))
  · exact .inr (touchesIn_of_mem_storeBytes h (by simp only; omega)
      (by rw [length_encodeFixed64]; simp only; omega))
  · exact .inr (touchesIn_of_mem_storeBytes h (by simp only; omega) (by simp only; omega))
  · exact .inl rfl

/-- The second transaction commits, and otherwise touches one object disjoint from all others. -/
theorem mem_keyRangeTrace {A : Allocator} {icmp : Bytes → Bytes → Ordering} {p : Pool}
    {nv : NvRangeTab} {newStart newEnd : Bytes} {op : Op Val}
    (h : op ∈ keyRangeTrace A icmp p nv newStart newEnd) :
    op = .commit ∨ ∃ e : Extent, (∀ f ∈ p.live, f.Disjoint e) ∧ TouchesIn e op := by
  simp only [keyRangeTrace] at h
  split at h
  · exact (mem_newRangeTrace h).imp_right fun ht =>
      ⟨_, fun f hf => Pool.disjoint_makePersistent A p _ hf, ht⟩
  · cases h

/-- The trace of an `Append` that fits. -/
theorem appendTrace_eq {A : Allocator} {icmp : Bytes → Bytes → Ordering} {s : RangeState}
    {a : AppendArgs} (hfits : Fits s a) :
    appendTrace A icmp s a = storeBytes (s.nv.buf + s.nv.dataLen) (a.record.encode 8) ++
      (assignDataLen (s.nv.dataLen + a.record.size 8) ++ (.commit ::
        keyRangeTrace A icmp (writeBlock s a)
          { s.nv with dataLen := s.nv.dataLen + a.record.size 8 } a.newStart a.newEnd)) := by
  rw [appendTrace, dataLen_of_fits hfits, copyTrace_eq]

/-- The operations of an `Append` that fits. -/
theorem mem_appendTrace {A : Allocator} {icmp : Bytes → Bytes → Ordering} {s : RangeState}
    {a : AppendArgs} {op : Op Val} (hfits : Fits s a) (h : op ∈ appendTrace A icmp s a) :
    (∃ i, ∃ hi : i < (a.record.encode 8).length,
        op = .store (.byte (s.nv.buf + s.nv.dataLen + i)) (a.record.encode 8)[i]) ∨
      op = .snapshot .dataLen ∨ op = .store .dataLen (s.nv.dataLen + a.record.size 8) ∨
      op = .commit ∨ ∃ e : Extent, (∀ f ∈ s.pool.live, f.Disjoint e) ∧ TouchesIn e op := by
  rw [appendTrace_eq hfits, List.mem_append, List.mem_append, List.mem_cons] at h
  rcases h with h | h | rfl | h
  · exact .inl (mem_storeBytes h)
  · simp only [assignDataLen, List.mem_cons, List.not_mem_nil, or_false] at h
    rcases h with rfl | rfl
    · exact .inr (.inl rfl)
    · exact .inr (.inr (.inl rfl))
  · exact .inr (.inr (.inr (.inl rfl)))
  · have hfresh := mem_keyRangeTrace h
    exact .inr (.inr (.inr hfresh))

section Trace

variable {A : Allocator} {icmp : Bytes → Bytes → Ordering} {s : RangeState} {a : AppendArgs}

/-- An operation on an object that no live one overlaps is not on a live byte. -/
theorem TouchesIn.not_live {e : Extent} {op : Op Val} (h : TouchesIn e op)
    (hdis : ∀ f ∈ s.pool.live, f.Disjoint e) (hlive : s.nv.bufExtent ∈ s.pool.live) {i : ℕ}
    (hi : i < s.nv.bufSize) :
    op ≠ .allocate (.byte (s.nv.buf + i)) ∧ ∀ v, op ≠ .store (.byte (s.nv.buf + i)) v := by
  obtain ⟨x, hl, hu, hop⟩ := h
  have hne : x ≠ s.nv.buf + i := by
    rintro rfl
    exact hdis _ hlive (s.nv.buf + i)
      ⟨⟨Nat.le_add_right _ _, Nat.add_lt_add_left hi _⟩, hl, hu⟩
  rcases hop with rfl | ⟨v, rfl⟩
  · exact ⟨by simpa using hne, by simp⟩
  · exact ⟨by simp, fun v' hv => hne (by cases hv; rfl)⟩

/-- **Nothing registers the buffer.** -/
theorem neverTracks_appendTrace (hfits : Fits s a) (hlive : s.nv.bufExtent ∈ s.pool.live) {i : ℕ}
    (hi : i < s.nv.bufSize) : NeverTracks (.byte (s.nv.buf + i)) (appendTrace A icmp s a) := by
  intro op hop
  rcases mem_appendTrace hfits hop with ⟨j, hj, rfl⟩ | rfl | rfl | rfl | ⟨e, hdis, ht⟩
  · exact ⟨nofun, nofun⟩
  · exact ⟨nofun, nofun⟩
  · exact ⟨nofun, nofun⟩
  · exact ⟨nofun, nofun⟩
  · refine ⟨?_, (ht.not_live hdis hlive hi).1⟩
    obtain ⟨x, -, -, rfl | ⟨v, rfl⟩⟩ := ht <;> nofun

/-- What is stored to the buffer is the block. -/
theorem storesIn_appendTrace (hfits : Fits s a) (hlive : s.nv.bufExtent ∈ s.pool.live) {m : Memory}
    (hrec : RecordAt 8 m (s.nv.buf + s.nv.dataLen) a.record) {i : ℕ} (hi : i < s.nv.bufSize) :
    StoresIn (V := Val) (.byte (s.nv.buf + i)) {m (s.nv.buf + i)} (appendTrace A icmp s a) := by
  intro op hop v hv
  rcases mem_appendTrace hfits hop with ⟨j, hj, rfl⟩ | rfl | rfl | rfl | ⟨e, hdis, ht⟩
  · rw [recordAt_iff, ← Record.length_encode] at hrec
    have hbyte := read_eq_iff.mp hrec j hj
    obtain ⟨hl, hv⟩ := Op.store.inj hv
    rw [Loc.byte.inj hl] at hbyte
    exact (eq_of_heq hv).symm.trans hbyte.symm
  · cases hv
  · cases hv
  · cases hv
  · exact absurd hv ((ht.not_live hdis hlive hi).2 v)

/-- What is stored to the data length is where the log then ends. -/
theorem storesIn_dataLen_appendTrace (hfits : Fits s a) :
    StoresIn (V := Val) .dataLen {s.nv.dataLen + a.record.size 8} (appendTrace A icmp s a) := by
  intro op hop v hv
  rcases mem_appendTrace hfits hop with ⟨j, hj, rfl⟩ | rfl | rfl | rfl | ⟨e, -, ht⟩
  · cases hv
  · cases hv
  · cases hv
    rfl
  · cases hv
  · obtain ⟨x, -, -, rfl | ⟨v', rfl⟩⟩ := ht <;> cases hv

end Trace

/-! ## Between two appends -/

/-- The program sees `s`, no transaction is running, and `dataLen` is durable. -/
structure Tracks (s : RangeState) (σ : State Val) : Prop where
  view : σ.view = viewOf s
  mark : ∀ l, σ.mark l = .untracked
  dataLen : σ.media .dataLen = {s.nv.dataLen}

theorem tracks_durable (s : RangeState) : Tracks s (durable (viewOf s)) := ⟨rfl, fun _ => rfl, rfl⟩

section Run

variable {A : Allocator} {icmp : Bytes → Bytes → Ordering} {s s' : RangeState} {σ : State Val}

theorem mark_keyRangeTrace {p : Pool} {nv : NvRangeTab} {newStart newEnd : Bytes}
    (h : ∀ l, σ.mark l = .untracked) (l : Loc) :
    (exec σ (keyRangeTrace A icmp p nv newStart newEnd)).mark l = .untracked := by
  simp only [keyRangeTrace]
  split
  · simp only [exec_append, exec_cons, exec_nil, mark_step_commit]
  · exact h l

/-- The second transaction leaves `dataLen` as durable as it was. -/
theorem media_keyRangeTrace {p : Pool} {nv : NvRangeTab} {newStart newEnd : Bytes} {d : ℕ}
    (hview : σ.view .dataLen = d) (hmark : σ.mark .dataLen = .untracked)
    (hmedia : σ.media .dataLen = {d}) :
    (exec σ (keyRangeTrace A icmp p nv newStart newEnd)).media .dataLen = {d} := by
  refine Set.Subset.antisymm ?_ ?_
  · have hbounded : Bounded (V := Val) .dataLen {d} σ :=
      ⟨hview, hmedia.subset, fun v hv => by rw [hmark] at hv; cases hv⟩
    refine (hbounded.exec fun op hop v hv => ?_).media
    rcases mem_keyRangeTrace hop with rfl | ⟨e, -, x, -, -, rfl | ⟨v', rfl⟩⟩ <;> cases hv
  · rw [← hmedia]
    refine media_subset_exec hmark fun op hop => ?_
    rcases mem_keyRangeTrace hop with rfl | ⟨e, -, x, -, -, rfl | ⟨v', rfl⟩⟩ <;>
      exact ⟨nofun, nofun⟩

/-- The range when the first transaction has committed; the index is left aside. -/
def committed (s : RangeState) (a : AppendArgs) : RangeState :=
  { s with pool := writeBlock s a,
           nv := { s.nv with dataLen := s.nv.dataLen + a.record.size 8 } }

/-- What the first transaction of a block that fits does before its commit. -/
def blockTrace (s : RangeState) (a : AppendArgs) : List (Op Val) :=
  storeBytes (s.nv.buf + s.nv.dataLen) (a.record.encode 8) ++
    assignDataLen (s.nv.dataLen + a.record.size 8)

/-- The two transactions of an `Append`. -/
theorem appendTrace_split {a : AppendArgs} (hfits : Fits s a) :
    appendTrace A icmp s a = blockTrace s a ++ .commit ::
      keyRangeTrace A icmp (committed s a).pool (committed s a).nv a.newStart a.newEnd := by
  rw [appendTrace_eq hfits, ← List.append_assoc]
  rfl

/-- The first transaction: the block is stored, `dataLen` is assigned, and it commits. -/
theorem tracks_commit (hσ : Tracks s σ) (a : AppendArgs) :
    Tracks (committed s a) (TxMemory.step (exec σ (blockTrace s a)) .commit) := by
  have hcopied := view_storeBytes hσ.view (s.nv.buf + s.nv.dataLen) (a.record.encode 8)
  have hmark : (exec σ (storeBytes (s.nv.buf + s.nv.dataLen) (a.record.encode 8))).mark .dataLen
      = .untracked := by
    refine mark_exec_of_neverTracks (hσ.mark _) fun op hop => ?_
    obtain ⟨i, hi, rfl⟩ := mem_storeBytes hop
    exact ⟨nofun, nofun⟩
  rw [blockTrace, exec_append]
  generalize exec σ (storeBytes (s.nv.buf + s.nv.dataLen) (a.record.encode 8)) = σ₁
    at hcopied hmark ⊢
  refine ⟨?_, fun l => mark_step_commit _ l, media_commit_assign σ₁ .dataLen _ hmark⟩
  simp only [assignDataLen, exec_cons, exec_nil, view_step_commit, view_step_store,
    view_step_snapshot, hcopied, update_values_dataLen]
  rfl

/-- **The trace of an `Append` is the `Append`.** -/
theorem tracks_append {a : AppendArgs} (hσ : Tracks s σ) (h : append A icmp s a = .ok s') :
    Tracks s' (exec σ (appendTrace A icmp s a)) := by
  have hfits := (append_inv h).fits
  obtain ⟨pool', hpool, hext⟩ := checkAndUpdateKeyRange_ok A icmp (writeBlock s a)
    { s.nv with dataLen := s.nv.dataLen + a.record.size 8 } a.newStart a.newEnd
  rw [append_eq A icmp hfits, hpool] at h
  obtain rfl := Except.ok.inj h
  have hcommit := tracks_commit hσ a
  rw [appendTrace_split hfits, exec_append, exec_cons]
  refine ⟨view_keyRangeTrace hcommit.view hpool, mark_keyRangeTrace hcommit.mark, ?_⟩
  exact media_keyRangeTrace (by rw [hcommit.view]; rfl) (hcommit.mark _) hcommit.dataLen

/-! ## Crash points of a run -/

/-- `Executed A icmp s as n ops`: of the appends `as` from `s`, `n` have returned, and `ops` are
all the persistent operations executed so far. -/
inductive Executed (A : Allocator) (icmp : Bytes → Bytes → Ordering) :
    RangeState → List AppendArgs → ℕ → List (Op Val) → Prop where
  | idle {s : RangeState} {as : List AppendArgs} : Executed A icmp s as 0 []
  | inside {s : RangeState} {a : AppendArgs} {as : List AppendArgs} {ops : List (Op Val)} :
      ops <+: appendTrace A icmp s a → Executed A icmp s (a :: as) 0 ops
  | returned {s s' : RangeState} {a : AppendArgs} {as : List AppendArgs} {n : ℕ}
      {ops : List (Op Val)} : append A icmp s a = .ok s' → Executed A icmp s' as n ops →
      Executed A icmp s (a :: as) (n + 1) (appendTrace A icmp s a ++ ops)

theorem bounded_dataLen (hσ : Tracks s σ) {P : Set ℕ} (h : s.nv.dataLen ∈ P) :
    Bounded (V := Val) .dataLen P σ := by
  refine ⟨?_, ?_, fun v hv => ?_⟩
  · rw [hσ.view]
    exact h
  · rw [hσ.dataLen]
    exact Set.singleton_subset_iff.mpr h
  · rw [hσ.mark] at hv
    cases hv

/-- **A crash inside an append** leaves `dataLen` as it was before or as it is behind, and the
buffer as it was, if the medium holds what is about to be appended. -/
theorem crash_of_inside {a : AppendArgs} {ops : List (Op Val)} {m : Memory} {n : ℕ}
    (hpre : ops <+: appendTrace A icmp s a) (hσ : Tracks s σ)
    (hlive : s.nv.bufExtent ∈ s.pool.live) (hfit : Fits s a)
    (hrec : RecordAt 8 m (s.nv.buf + s.nv.dataLen) a.record) (hn : n ≤ s.nv.bufSize)
    (hbytes : ∀ i < n, Bounded (V := Val) (.byte (s.nv.buf + i)) {m (s.nv.buf + i)} σ)
    {image : ∀ l, Val l} (hcrash : Crash (exec σ ops) image) :
    (lenOf image = s.nv.dataLen ∨ lenOf image = s.nv.dataLen + a.record.size 8) ∧
      ∀ i < n, memOf image (s.nv.buf + i) = m (s.nv.buf + i) := by
  constructor
  · have hbounded := bounded_dataLen hσ
      (Set.mem_insert s.nv.dataLen {s.nv.dataLen + a.record.size 8})
    refine hcrash.of_bounded (hbounded.exec fun op hop v hv => ?_)
    exact Set.mem_insert_of_mem _ (storesIn_dataLen_appendTrace hfit op (hpre.subset hop) v hv)
  · intro i hi
    refine hcrash.of_bounded ((hbytes i hi).exec fun op hop v hv => ?_)
    exact storesIn_appendTrace hfit hlive hrec (by omega) op (hpre.subset hop) v hv

/-- **What a crash leaves of a log that was there before.** If the medium holds, behind the data,
what is about to be appended, then a crash leaves the buffer as it was, and `dataLen` at the end of
a prefix of the appends that includes every one that returned. -/
theorem crash_of_executed {as : List AppendArgs} {n : ℕ} {ops : List (Op Val)} {m : Memory}
    (hexec : Executed A icmp s as n ops) (hσ : Tracks s σ) (hlive : s.nv.bufExtent ∈ s.pool.live)
    (hfits : s.nv.dataLen + totalSize 8 (records as) ≤ s.nv.bufSize)
    (hold : HoldsAt 8 m (s.nv.buf + s.nv.dataLen) (records as))
    (hbytes : ∀ i < s.nv.dataLen + totalSize 8 (records as),
      Bounded (V := Val) (.byte (s.nv.buf + i)) {m (s.nv.buf + i)} σ)
    {image : ∀ l, Val l} (hcrash : Crash (exec σ ops) image) :
    ∃ k, n ≤ k ∧ k ≤ as.length ∧
      lenOf image = s.nv.dataLen + totalSize 8 (records (as.take k)) ∧
      ∀ i < s.nv.dataLen + totalSize 8 (records as),
        memOf image (s.nv.buf + i) = m (s.nv.buf + i) := by
  induction hexec generalizing σ with
  | idle =>
    refine ⟨0, le_rfl, Nat.zero_le _, ?_, fun i hi => hcrash.of_bounded (hbytes i hi)⟩
    exact hcrash.of_bounded (bounded_dataLen hσ (Set.mem_singleton _))
  | @inside s a as ops hpre =>
    simp only [records, List.map_cons, totalSize_cons] at hfits hold hbytes ⊢
    have hfit : Fits s a := by rw [Fits]; omega
    obtain ⟨hlen | hlen, hmem⟩ := crash_of_inside hpre hσ hlive hfit (holdsAt_cons_iff.mp hold).1
      (by omega) hbytes hcrash
    · exact ⟨0, le_rfl, Nat.zero_le _, hlen, hmem⟩
    · exact ⟨1, Nat.zero_le _, by simp, by simpa using hlen, hmem⟩
  | @returned s s' a as n ops ha _ ih =>
    have hstep := append_inv ha
    have hbuf : s'.nv.buf = s.nv.buf := by rw [hstep.nv]
    have hsize : s'.nv.bufSize = s.nv.bufSize := by rw [hstep.nv]
    have hdata : s'.nv.dataLen = s.nv.dataLen + a.record.size 8 := by rw [hstep.nv]
    simp only [records, List.map_cons, totalSize_cons, ← Nat.add_assoc] at hfits hold hbytes ih ⊢
    rw [hbuf, hsize, hdata] at ih
    rw [exec_append] at hcrash
    obtain ⟨hrec, hrest⟩ := holdsAt_cons_iff.mp hold
    obtain ⟨k, hn, hk, hlen, hmem⟩ := ih (tracks_append hσ ha) (hstep.live hlive) hfits
      (by rwa [← Nat.add_assoc]) (fun i hi => (hbytes i hi).exec
        (storesIn_appendTrace hstep.fits hlive hrec (by omega))) hcrash
    refine ⟨k + 1, by omega, by simpa using hk, ?_, hmem⟩
    rw [hlen, List.take_succ_cons, List.map_cons, totalSize_cons, Nat.add_assoc]

/-- Appends that fit can all be executed; afterwards nothing of the buffer has been registered. -/
theorem exists_executed (A : Allocator) (icmp : Bytes → Bytes → Ordering) {as : List AppendArgs}
    (hσ : Tracks s σ) (hlive : s.nv.bufExtent ∈ s.pool.live)
    (hfits : s.nv.dataLen + totalSize 8 (records as) ≤ s.nv.bufSize) :
    ∃ ops s', Executed A icmp s as as.length ops ∧ Tracks s' (exec σ ops) ∧
      s'.nv.dataLen = s.nv.dataLen + totalSize 8 (records as) ∧
      ∀ i < s.nv.bufSize, NeverTracks (.byte (s.nv.buf + i)) ops := by
  induction as generalizing s σ with
  | nil => exact ⟨[], s, .idle, hσ, rfl, fun _ _ => by simp [NeverTracks]⟩
  | cons a as ih =>
    simp only [records, List.map_cons, totalSize_cons] at hfits ih ⊢
    obtain ⟨s₁, ha, hstep⟩ := append_of_fits A icmp (s := s) (a := a) (by rw [Fits]; omega)
    obtain ⟨ops, s', hexec, htracks, hdata, hnever⟩ :=
      ih (s := s₁) (tracks_append hσ ha) (hstep.live hlive) (by rw [hstep.nv]; simp only; omega)
    refine ⟨_, s', .returned ha hexec, by rwa [exec_append], ?_, fun i hi => ?_⟩
    · rw [hdata, hstep.nv, Nat.add_assoc]
    · rw [hstep.nv] at hnever
      exact neverTracks_append.mpr
        ⟨neverTracks_appendTrace hstep.fits hlive hi, hnever i hi⟩

/-! ## Recovery -/

/-- The recovered buffer decodes to the old blocks followed by those of `new`, and each block is
what was written. -/
structure Recovers (opts : FixedRangeBasedOptions) (s : RangeState) (olds : List Record)
    (new : List AppendArgs) (image : ∀ l, Val l) : Prop where
  blocks : rebuildBlkList opts (memOf image) { s.nv with dataLen := lenOf image } [] =
    .ok ((place 8 16 olds ++ place 8 s.nv.dataLen (records new)).map (ChunkBlk.ofPlace 8))
  bytes : ∀ p ∈ place 8 16 olds ++ place 8 s.nv.dataLen (records new),
    RecordAt 8 (memOf image) (s.nv.buf + p.1) p.2

/-- From a durable buffer whose log is `olds`, wherever a run of `Append` stops, a crash leaves
the old blocks and those of a prefix of the appends that includes every one that returned. -/
def CrashConsistent (A : Allocator) (icmp : Bytes → Bytes → Ordering)
    (opts : FixedRangeBasedOptions) (s : RangeState) (olds : List Record)
    (as : List AppendArgs) : Prop :=
  ∀ n ops image, Executed A icmp s as n ops → Crash (exec (durable (viewOf s)) ops) image →
    ∃ k, n ≤ k ∧ k ≤ as.length ∧ Recovers opts s olds (as.take k) image

variable {opts : FixedRangeBasedOptions} {olds : List Record} {as : List AppendArgs}

/-- With the data inside the header there are no old blocks. -/
theorem LogRegion.eq_nil (hlog : LogRegion opts s olds) (h : s.nv.dataLen ≤ 16) : olds = [] := by
  have hsize := hlog.totalSize_eq
  have hcount := length_mul_le_totalSize (w := 8) olds
  exact List.length_eq_zero_iff.mp (by omega)

/-- A buffer that holds the old log, and behind it the new one, recovers any prefix of the new one
that `dataLen` says. -/
theorem recovers_of_holdsAt (hlog : LogRegion opts s olds) (hb : opts.chunkBloomBits = 8)
    (hd : 16 ≤ s.nv.dataLen) (hfits : s.nv.dataLen + totalSize 8 (records as) ≤ s.nv.bufSize)
    {image : ∀ l, Val l} (hlen : lenOf image = s.nv.dataLen + totalSize 8 (records as))
    (hold : HoldsAt 8 (memOf image) (s.nv.buf + 16) (olds ++ records as)) :
    Recovers opts s olds as image := by
  have hsize := hlog.totalSize_eq
  have hplace : place 8 16 olds ++ place 8 s.nv.dataLen (records as)
      = place 8 16 (olds ++ records as) := by
    rw [place_append, hsize, show 16 + (s.nv.dataLen - 16) = s.nv.dataLen by omega]
  have htags : ∀ r ∈ olds ++ records as, r.tag.length = opts.chunkBloomBits := by
    intro r hr
    rcases List.mem_append.mp hr with hr | hr
    · exact hlog.tags r hr
    · obtain ⟨a, -, rfl⟩ := List.mem_map.mp hr
      rw [hb]
      exact a.bloomData_length
  have hrebuilt :
      rebuildBlkList opts (memOf image) { s.nv with dataLen := lenOf image } [] = .ok _ :=
    rebuildBlkList_of_holdsAt [] htags hold (by rw [totalSize_append, hsize]; simp only; omega)
      (by simp only; omega)
  refine ⟨?_, fun p hp => ?_⟩
  · rw [hb] at hrebuilt
    rw [hplace]
    exact hrebuilt
  · rw [hplace] at hp
    exact holdsAt_iff_forall_place.mp hold p hp

/-- Nothing was appended and nothing is recovered but the old log. -/
theorem recovers_nil (hlog : LogRegion opts s olds) (hb : opts.chunkBloomBits = 8)
    (hfits : s.nv.dataLen ≤ s.nv.bufSize) {image : ∀ l, Val l}
    (hlen : lenOf image = s.nv.dataLen)
    (hmem : ∀ i < s.nv.dataLen, memOf image (s.nv.buf + i) = s.pool.mem (s.nv.buf + i)) :
    Recovers opts s olds [] image := by
  have hsize := hlog.totalSize_eq
  rcases Nat.lt_or_ge s.nv.dataLen 16 with hd | hd
  · obtain rfl := hlog.eq_nil (by omega)
    exact ⟨rebuildBlkList_of_le (by simp only; omega), by simp [records]⟩
  · refine recovers_of_holdsAt hlog hb hd (by simpa [records] using hfits)
      (by simpa [records] using hlen) ?_
    rw [records, List.map_nil, List.append_nil]
    refine hlog.holdsAt.congr fun i hi => ?_
    rw [Nat.add_assoc]
    exact hmem (16 + i) (by omega)

/-- **The medium already holds what is appended: enough for crash consistency.** -/
theorem crashConsistent_of_holdsAt (hlog : LogRegion opts s olds) (hb : opts.chunkBloomBits = 8)
    (hd : as = [] ∨ 16 ≤ s.nv.dataLen)
    (hfits : s.nv.dataLen + totalSize 8 (records as) ≤ s.nv.bufSize)
    (hold : HoldsAt 8 s.pool.mem (s.nv.buf + s.nv.dataLen) (records as)) :
    CrashConsistent A icmp opts s olds as := by
  intro n ops image hexec hcrash
  obtain ⟨k, hn, hk, hlen, hmem⟩ := crash_of_executed hexec (tracks_durable s) hlog.live hfits hold
    (fun i _ => Bounded.durable (Set.mem_singleton _)) hcrash
  refine ⟨k, hn, hk, ?_⟩
  rcases hd with rfl | hd
  · rw [List.take_nil] at hlen ⊢
    simp only [records, List.map_nil, totalSize_nil, Nat.add_zero] at hlen hmem hfits
    exact recovers_nil hlog hb hfits hlen hmem
  · have hsize := hlog.totalSize_eq
    have hsplit : records as = records (as.take k) ++ records (as.drop k) := by
      rw [records, records, records, ← List.map_append, List.take_append_drop]
    rw [hsplit, totalSize_append] at hfits hmem
    rw [hsplit, holdsAt_append_iff] at hold
    refine recovers_of_holdsAt hlog hb hd (by omega) hlen ?_
    rw [holdsAt_append_iff, hsize]
    constructor
    · refine hlog.holdsAt.congr fun i hi => ?_
      rw [Nat.add_assoc]
      exact hmem (16 + i) (by omega)
    · rw [Nat.add_assoc, show 16 + (s.nv.dataLen - 16) = s.nv.dataLen by omega]
      refine hold.1.congr fun i hi => ?_
      rw [Nat.add_assoc]
      exact hmem (s.nv.dataLen + i) (by omega)

/-- **Lost stores.** When all appends have returned, a crash may still leave the whole buffer as it
was before the first one. -/
theorem exists_lost_image (A : Allocator) (icmp : Bytes → Bytes → Ordering)
    (hlive : s.nv.bufExtent ∈ s.pool.live)
    (hfits : s.nv.dataLen + totalSize 8 (records as) ≤ s.nv.bufSize) :
    ∃ ops image, Executed A icmp s as as.length ops ∧ Crash (exec (durable (viewOf s)) ops) image ∧
      ∀ i < s.nv.bufSize, memOf image (s.nv.buf + i) = s.pool.mem (s.nv.buf + i) := by
  obtain ⟨ops, s', hexec, htracks, hdata, hnever⟩ :=
    exists_executed A icmp (tracks_durable s) hlive hfits
  have hview := view_mem_media_exec (s := durable (viewOf s)) ops
    (fun l => Set.mem_singleton _)
  classical
  refine ⟨ops, fun l => if ∃ i < s.nv.bufSize, l = .byte (s.nv.buf + i) then viewOf s l
    else (exec (durable (viewOf s)) ops).view l, hexec, fun l => ?_, fun i hi => ?_⟩
  · rw [htracks.mark l]
    simp only
    split
    · next hbuf =>
      obtain ⟨i, hi, rfl⟩ := hbuf
      exact media_subset_exec rfl (hnever i hi) (Set.mem_singleton _)
    · exact hview l
  · exact if_pos ⟨i, hi, rfl⟩

/-- A crash consistent sequence writes what the medium already holds. -/
theorem holdsAt_of_crashConsistent (hlog : LogRegion opts s olds)
    (hfits : s.nv.dataLen + totalSize 8 (records as) ≤ s.nv.bufSize)
    (h : CrashConsistent A icmp opts s olds as) :
    (as = [] ∨ 16 ≤ s.nv.dataLen) ∧
      HoldsAt 8 s.pool.mem (s.nv.buf + s.nv.dataLen) (records as) := by
  obtain ⟨ops, image, hexec, hcrash, hlost⟩ := exists_lost_image A icmp hlog.live hfits
  obtain ⟨k, hn, hk, hrec⟩ := h _ ops image hexec hcrash
  rw [List.take_of_length_le hn] at hrec
  constructor
  · by_contra hc
    obtain ⟨hne, hd⟩ := not_or.mp hc
    obtain ⟨a, as, rfl⟩ := List.exists_cons_of_ne_nil hne
    obtain rfl := hlog.eq_nil (by omega)
    -- the first new block would have to be listed inside the header
    have hhead := rebuildBlkList_head hrec.blocks
    simp only [ChunkBlk.ofPlace] at hhead
    omega
  · refine HoldsAt.congr (holdsAt_iff_forall_place.mpr fun p hp =>
      hrec.bytes p (List.mem_append_right _ hp)) fun i hi => ?_
    rw [Nat.add_assoc]
    exact (hlost _ (by omega)).symm

/-- **When appending is crash consistent.** -/
theorem crashConsistent_iff (hlog : LogRegion opts s olds) (hb : opts.chunkBloomBits = 8)
    (hfits : s.nv.dataLen + totalSize 8 (records as) ≤ s.nv.bufSize) :
    CrashConsistent A icmp opts s olds as ↔
      (as = [] ∨ 16 ≤ s.nv.dataLen) ∧
        HoldsAt 8 s.pool.mem (s.nv.buf + s.nv.dataLen) (records as) :=
  ⟨holdsAt_of_crashConsistent hlog hfits, fun h => crashConsistent_of_holdsAt hlog hb h.1 hfits h.2⟩

end Run

theorem crashConsistent_iff_small :
    CrashConsistent .bump compare (smallOptions 8 (by decide)) (smallState 16) [] [smallAppend] ↔
      ([smallAppend] = [] ∨ 16 ≤ (smallState 16).nv.dataLen) ∧
        HoldsAt 8 (smallState 16).pool.mem ((smallState 16).nv.buf + (smallState 16).nv.dataLen)
          (records [smallAppend]) :=
  crashConsistent_iff (logRegion_small _) rfl (by decide)

/-- One small chunk: after its `Append` has returned, a crash may leave its block zeroed. -/
theorem crash_loses_small :
    ¬ CrashConsistent .bump compare (smallOptions 8 (by decide)) (smallState 16) []
        [smallAppend] := by
  intro h
  have hold := (holdsAt_of_crashConsistent (logRegion_small _) (by decide) h).2
  exact absurd hold (by rw [HoldsAt]; decide)

end FixedRangeTab

end RangeCache
