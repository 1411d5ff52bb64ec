import RangeCache.Lib.TxMemory

/-!
# All-or-nothing transactions

A transaction that registers every location before it stores to it can be stopped anywhere. By an
exception it is aborted: each snapshot is written back, and the program goes on. By a crash the
same happens when the memory is opened again. Once it has committed, all that it stored is there.

Nothing is said about locations that the transaction allocated and did not keep.

## Main definitions

* `TxMemory.assign`, `assignAll`, `opsFrom` — the operations of assignments, and of loops
* `TxMemory.rollback`, `Recovered` — the memory after an exception, and after any stop
* `TxMemory.Registers` — each store to a location comes behind its registration
* `TxMemory.AllOrNothing` — what is found before the commit, and what is found after it

## Main results

* `allOrNothing_of_registers` — registering every location is enough
-/

namespace TxMemory

variable {L : Type*} {V : L → Type*}

/-- An assignment that registers its location. -/
def assign (l : L) (v : V l) : List (Op V) := [.snapshot l, .store l v]

/-- A sequence of assignments to one location. -/
def assignAll (l : L) (vs : List (V l)) : List (Op V) := vs.flatMap (assign l)

/-- What `f` does at consecutive addresses, for one item each. -/
def opsFrom {β : Type*} (f : ℕ → β → List (Op V)) : ℕ → List β → List (Op V)
  | _, [] => []
  | a, b :: bs => f a b ++ opsFrom f (a + 1) bs

/-- The memory after an exception: each snapshot is written back. -/
def rollback (s : State V) : ∀ l, V l := fun l =>
  match s.mark l with
  | .snapshot v => v
  | _ => s.view l

/-- A memory that may be found when the program was stopped in state `s`. -/
def Recovered (s : State V) (m : ∀ l, V l) : Prop := m = rollback s ∨ Crash s m

/-- Nothing commits, and each store to `l` comes behind an operation that adds `l` to the
transaction. -/
inductive Registers (l : L) : List (Op V) → Prop where
  | nil : Registers l []
  | skip {op : Op V} {ops : List (Op V)} : (∀ v, op ≠ .store l v) → op ≠ .commit →
      Registers l ops → Registers l (op :: ops)
  | track {op : Op V} {ops : List (Op V)} : op = .snapshot l ∨ op = .allocate l →
      .commit ∉ ops → Registers l (op :: ops)

/-- **All or nothing.** Wherever the transaction `ops` is stopped before its commit, what is found
satisfies `P`; after the commit it satisfies `Q`. -/
def AllOrNothing [DecidableEq L] (m : ∀ l, V l) (ops : List (Op V))
    (P Q : (∀ l, V l) → Prop) : Prop :=
  (∀ before, before <+: ops → ∀ image, Recovered (exec (durable m) before) image → P image) ∧
    ∀ image, Recovered (exec (durable m) (ops ++ [.commit])) image → Q image

section Registers

variable {l : L} {ops ops' : List (Op V)}

theorem Registers.commit_not_mem (h : Registers l ops) : .commit ∉ ops := by
  induction h with
  | nil => simp
  | skip _ hop _ ih => simp [Ne.symm hop, ih]
  | track hop hops => rcases hop with rfl | rfl <;> simpa using hops

theorem Registers.append (h : Registers l ops) (h' : Registers l ops') :
    Registers l (ops ++ ops') := by
  induction h with
  | nil => exact h'
  | skip hstore hcommit _ ih => exact .skip hstore hcommit ih
  | track hop hops =>
    exact .track hop fun hmem => (List.mem_append.mp hmem).elim hops h'.commit_not_mem

/-- Behind its allocation a location may be stored to at will. -/
theorem Registers.append_of_mem (h : Registers l ops) (hmem : .allocate l ∈ ops)
    (hops : .commit ∉ ops') : Registers l (ops ++ ops') := by
  induction h with
  | nil => cases hmem
  | @skip op ops hstore hcommit _ ih =>
    rcases List.mem_cons.mp hmem with rfl | hmem
    · refine .track (.inr rfl) fun hc => ?_
      rcases List.mem_append.mp hc with hc | hc
      · exact Registers.commit_not_mem ‹_› hc
      · exact hops hc
    · exact .skip hstore hcommit (ih hmem)
  | track hop hrest =>
    exact .track hop fun hc => (List.mem_append.mp hc).elim hrest hops

theorem Registers.of_isPrefix (h : Registers l ops) (hp : ops' <+: ops) : Registers l ops' := by
  induction h generalizing ops' with
  | nil =>
    rw [List.prefix_nil.mp hp]
    exact .nil
  | @skip op ops hstore hcommit _ ih =>
    rcases List.prefix_cons_iff.mp hp with rfl | ⟨rest, rfl, hrest⟩
    · exact .nil
    · exact .skip hstore hcommit (ih hrest)
  | @track op ops hop hops =>
    rcases List.prefix_cons_iff.mp hp with rfl | ⟨rest, rfl, hrest⟩
    · exact .nil
    · exact .track hop fun hmem => hops (hrest.subset hmem)

theorem Registers.of_forall (h : ∀ op ∈ ops, (∀ v, op ≠ .store l v) ∧ op ≠ .commit) :
    Registers l ops := by
  induction ops with
  | nil => exact .nil
  | cons op ops ih =>
    obtain ⟨hop, hops⟩ := List.forall_mem_cons.mp h
    exact .skip hop.1 hop.2 (ih hops)

theorem registers_assign (l l' : L) (v : V l') : Registers l (assign l' v) := by
  by_cases hl : l' = l
  · subst hl
    exact .track (.inl rfl) (by simp)
  · refine .skip (by simp) (by simp) (.skip (fun v' hv => hl ?_) (by simp) .nil)
    cases hv
    rfl

theorem registers_assignAll (l l' : L) (vs : List (V l')) : Registers l (assignAll l' vs) := by
  induction vs with
  | nil => exact .nil
  | cons v vs ih => exact (registers_assign l l' v).append ih

theorem allocate_not_mem_assign (l' : L) (v : V l') : .allocate l ∉ assign l' v := by
  simp [assign]

theorem allocate_not_mem_assignAll (l' : L) (vs : List (V l')) :
    .allocate l ∉ assignAll l' vs := by
  simp [assignAll, allocate_not_mem_assign]

theorem registers_opsFrom {β : Type*} {f : ℕ → β → List (Op V)} (h : ∀ a b, Registers l (f a b))
    (a : ℕ) (bs : List β) : Registers l (opsFrom f a bs) := by
  induction bs generalizing a with
  | nil => exact .nil
  | cons b bs ih => exact (h a b).append (ih (a + 1))

theorem mem_opsFrom {β : Type*} {f : ℕ → β → List (Op V)} {op : Op V} {a : ℕ} {bs : List β} :
    op ∈ opsFrom f a bs ↔ ∃ i, ∃ hi : i < bs.length, op ∈ f (a + i) bs[i] := by
  induction bs generalizing a with
  | nil => simp [opsFrom]
  | cons b bs ih =>
    rw [opsFrom, List.mem_append, ih]
    constructor
    · rintro (h | ⟨i, hi, h⟩)
      · exact ⟨0, by simp, h⟩
      · refine ⟨i + 1, by simpa using hi, ?_⟩
        rwa [List.getElem_cons_succ, show a + (i + 1) = a + 1 + i by omega]
    · rintro ⟨i, hi, h⟩
      cases i with
      | zero => exact .inl h
      | succ i =>
        refine .inr ⟨i, by simpa using hi, ?_⟩
        rwa [List.getElem_cons_succ, show a + (i + 1) = a + 1 + i by omega] at h

end Registers

/-! ## What the program sees -/

section View

variable [DecidableEq L]

theorem view_exec_assign (s : State V) (l : L) (v : V l) :
    (exec s (assign l v)).view = Function.update s.view l v := by
  rw [assign, exec_cons, exec_cons, exec_nil, view_step_store, view_step_snapshot]

/-- Of several assignments the last one counts. -/
theorem view_exec_assignAll (s : State V) (l : L) (vs : List (V l)) (v : V l) :
    (exec s (assignAll l (vs ++ [v]))).view = Function.update s.view l v := by
  induction vs generalizing s with
  | nil => exact view_exec_assign s l v
  | cons v' vs ih =>
    rw [List.cons_append, assignAll, List.flatMap_cons, exec_append]
    show (exec _ (assignAll l (vs ++ [v]))).view = _
    rw [ih, view_exec_assign, Function.update_idem]

end View

/-! ## What is found -/

section Found

variable {s : State V} {l : L} {ops : List (Op V)} {m m₀ : ∀ l, V l}

/-- A rollback finds `v` at `l`: `l` is untouched, or has `v` as its snapshot. -/
def Keeps (l : L) (v : V l) (s : State V) : Prop :=
  s.mark l = .snapshot v ∨ s.mark l = .untracked ∧ s.view l = v ∧ s.media l = {v}

theorem Keeps.recovered {v : V l} (h : Keeps l v s) (hm : Recovered s m) : m l = v := by
  rcases h with hmark | ⟨hmark, hview, hmedia⟩
  · rcases hm with rfl | hcrash
    · rw [rollback, hmark]
    · have hl := hcrash l
      rw [hmark] at hl
      exact hl
  · rcases hm with rfl | hcrash
    · rw [rollback, hmark]
      exact hview
    · have hl := hcrash l
      rw [hmark, hmedia] at hl
      exact hl

/-- An exception leaves a value that was there before or was stored. -/
theorem Bounded.rollback {P : Set (V l)} (h : Bounded l P s) : TxMemory.rollback s l ∈ P := by
  rw [TxMemory.rollback]
  cases hmark : s.mark l with
  | untracked => exact h.view
  | snapshot v => exact h.mark v hmark
  | allocated => exact h.view

variable [DecidableEq L]

/-- A snapshot stays until the commit. -/
theorem mark_step_snapshot {v : V l} (h : s.mark l = .snapshot v) {op : Op V}
    (hcommit : op ≠ .commit) (hnew : op ≠ .allocate l) : (step s op).mark l = .snapshot v := by
  cases op with
  | store l' v' => exact h
  | snapshot l' =>
    simp only [step]
    split
    · next hmark =>
      by_cases hl : l = l'
      · subst hl
        rw [h] at hmark
        cases hmark
      · simpa [Function.update_of_ne hl] using h
    · exact h
  | allocate l' =>
    have hl : l ≠ l' := fun hl => hnew (by rw [hl])
    simpa [step, Function.update_of_ne hl] using h
  | commit => exact absurd rfl hcommit

theorem mark_exec_snapshot {v : V l} (h : s.mark l = .snapshot v) (hcommit : .commit ∉ ops)
    (hnew : .allocate l ∉ ops) : (exec s ops).mark l = .snapshot v := by
  induction ops generalizing s with
  | nil => exact h
  | cons op ops ih =>
    simp only [List.mem_cons, not_or] at hcommit hnew
    exact ih (mark_step_snapshot h (Ne.symm hcommit.1) (Ne.symm hnew.1)) hcommit.2 hnew.2

/-- An operation that neither stores to `l` nor ends the transaction keeps what `l` was. -/
theorem Keeps.step {v : V l} (h : Keeps l v s) {op : Op V} (hstore : ∀ v, op ≠ .store l v)
    (hcommit : op ≠ .commit) (hnew : op ≠ .allocate l) : Keeps l v (step s op) := by
  rcases h with hmark | ⟨hmark, hview, hmedia⟩
  · exact .inl (mark_step_snapshot hmark hcommit hnew)
  · cases op with
    | store l' v' =>
      have hl : l ≠ l' := by
        rintro rfl
        exact hstore v' rfl
      refine .inr ⟨hmark, ?_, ?_⟩
      · simpa [TxMemory.step, Function.update_of_ne hl] using hview
      · simpa [TxMemory.step, Function.update_of_ne hl] using hmedia
    | snapshot l' =>
      by_cases hl : l = l'
      · subst hl
        refine .inl ?_
        simp [TxMemory.step, hmark, hview]
      · refine .inr ?_
        simp only [TxMemory.step]
        split
        · exact ⟨by simpa [Function.update_of_ne hl] using hmark, hview, hmedia⟩
        · exact ⟨hmark, hview, hmedia⟩
    | allocate l' =>
      have hl : l ≠ l' := fun hl => hnew (by rw [hl])
      exact .inr ⟨by simpa [TxMemory.step, Function.update_of_ne hl] using hmark, hview, hmedia⟩
    | commit => exact absurd rfl hcommit

theorem Keeps.exec {v : V l} (h : Keeps l v s) (hreg : Registers l ops)
    (hnew : .allocate l ∉ ops) : Keeps l v (exec s ops) := by
  induction hreg generalizing s with
  | nil => exact h
  | skip hstore hcommit _ ih =>
    simp only [List.mem_cons, not_or] at hnew
    exact ih (h.step hstore hcommit (Ne.symm hnew.1)) hnew.2
  | @track op ops hop hops =>
    simp only [List.mem_cons, not_or] at hnew
    obtain rfl : op = .snapshot l := hop.resolve_right (Ne.symm hnew.1)
    have hmark : (TxMemory.step s (.snapshot l)).mark l = .snapshot v := by
      rcases h with hmark | ⟨hmark, hview, -⟩
      · exact mark_step_snapshot hmark (by simp) (by simp)
      · simp [TxMemory.step, hmark, hview]
    rw [exec_cons]
    exact .inl (mark_exec_snapshot hmark hops hnew.2)

/-- The commit will make the value of `l` durable. -/
def Settles (l : L) (s : State V) : Prop := s.mark l ≠ .untracked ∨ s.media l = {s.view l}

/-- A registered location stays registered until the commit. -/
theorem mark_step_ne (h : s.mark l ≠ .untracked) {op : Op V} (hcommit : op ≠ .commit) :
    (step s op).mark l ≠ .untracked := by
  cases op with
  | store l' v => exact h
  | snapshot l' =>
    simp only [step]
    split
    · by_cases hl : l = l'
      · subst hl
        simp
      · simpa [Function.update_of_ne hl] using h
    · exact h
  | allocate l' =>
    by_cases hl : l = l'
    · subst hl
      simp [step]
    · simpa [step, Function.update_of_ne hl] using h
  | commit => exact absurd rfl hcommit

theorem mark_exec_ne (h : s.mark l ≠ .untracked) (hcommit : .commit ∉ ops) :
    (exec s ops).mark l ≠ .untracked := by
  induction ops generalizing s with
  | nil => exact h
  | cons op ops ih =>
    simp only [List.mem_cons, not_or] at hcommit
    exact ih (mark_step_ne h (Ne.symm hcommit.1)) hcommit.2

theorem Settles.exec (h : Settles l s) (hreg : Registers l ops) : Settles l (exec s ops) := by
  induction hreg generalizing s with
  | nil => exact h
  | @skip op ops hstore hcommit _ ih =>
    refine ih ?_
    rcases h with hmark | hmedia
    · exact .inl (mark_step_ne hmark hcommit)
    · cases op with
      | store l' v =>
        have hl : l ≠ l' := by
          rintro rfl
          exact hstore v rfl
        exact .inr (by simpa [step, Function.update_of_ne hl] using hmedia)
      | snapshot l' =>
        refine .inr ?_
        simp only [step]
        split <;> exact hmedia
      | allocate l' => exact .inr hmedia
      | commit => exact absurd rfl hcommit
  | @track op ops hop hops =>
    rw [exec_cons]
    refine .inl (mark_exec_ne ?_ hops)
    rcases hop with rfl | rfl
    · simp only [step]
      split
      · simp
      · next hmark => exact hmark
    · simp [step]

/-- After a commit, what is found is what the program saw. -/
theorem Settles.recovered (h : Settles l s) (hm : Recovered (step s .commit) m) :
    m l = s.view l := by
  rcases hm with rfl | hcrash
  · rfl
  · have hl : m l ∈ (step s .commit).media l := hcrash l
    simp only [step] at hl
    cases hmark : s.mark l with
    | untracked =>
      rw [hmark, h.resolve_left (fun hn => hn hmark)] at hl
      exact hl
    | snapshot v =>
      rw [hmark] at hl
      exact hl
    | allocated =>
      rw [hmark] at hl
      exact hl

/-- **A transaction that registers what it stores to is all-or-nothing.** Stopped before its
commit it leaves every location it did not allocate as it was; after the commit everything is
there. -/
theorem allOrNothing_of_registers (h : ∀ l, Registers l ops) :
    AllOrNothing m₀ ops (fun image => ∀ l, .allocate l ∉ ops → image l = m₀ l)
      fun image => image = (exec (durable m₀) ops).view := by
  constructor
  · intro before hbefore image himage l hnew
    have hkeeps : Keeps l (m₀ l) (durable m₀) := .inr ⟨rfl, rfl, rfl⟩
    exact (hkeeps.exec ((h l).of_isPrefix hbefore) fun hmem =>
      hnew (hbefore.subset hmem)).recovered himage
  · intro image himage
    funext l
    rw [exec_append] at himage
    have hsettles : Settles l (durable m₀) := .inr rfl
    exact (hsettles.exec (h l)).recovered himage

/-- What is found only matters through its consequences. -/
theorem AllOrNothing.imp {P P' Q Q' : (∀ l, V l) → Prop} (h : AllOrNothing m₀ ops P Q)
    (hP : ∀ image, P image → P' image) (hQ : ∀ image, Q image → Q' image) :
    AllOrNothing m₀ ops P' Q' :=
  ⟨fun before hbefore image himage => hP image (h.1 before hbefore image himage),
    fun image himage => hQ image (h.2 image himage)⟩

end Found

end TxMemory
