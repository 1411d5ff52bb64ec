import Mathlib.Data.Set.Insert
import Mathlib.Logic.Function.Basic

/-!
# Transactional persistent memory

What a store to persistent memory means when the machine can stop at any point. Each location has
the value the program sees and a set of values that the medium may hold: a plain store adds to the
set and never removes from it. A transaction tracks locations. A crash restores the snapshot of
each tracked location that has one; a commit makes the tracked locations durable, and only those.

Locations are independent of each other, so a crash may keep any subset of the plain stores.

## Main definitions

* `TxMemory.Op` — store, snapshot, allocate, commit
* `TxMemory.State`, `step`, `exec` — what the program sees and what the medium may hold
* `TxMemory.Crash` — the memories that may be found after a crash

## Main results

* `Crash.of_bounded` — a property of every value stored to a location survives a crash
* `media_subset_exec` — a value once on the medium may stay there while nothing tracks its location
-/

namespace TxMemory

variable {L : Type*} {V : L → Type*}

/-- How the running transaction tracks a location. -/
inductive Mark (α : Type*) where
  /-- Not at all. -/
  | untracked
  /-- It was snapshotted when it held this value. -/
  | snapshot (a : α)
  /-- It was allocated, so there is nothing to restore. -/
  | allocated

/-- One operation on persistent memory. -/
inductive Op (V : L → Type*) where
  | store (l : L) (v : V l)
  /-- Add an existing location to the transaction. -/
  | snapshot (l : L)
  /-- Add a new location to the transaction. -/
  | allocate (l : L)
  | commit

structure State (V : L → Type*) where
  /-- The value the program sees. -/
  view : ∀ l, V l
  /-- The values the medium may hold. -/
  media : ∀ l, Set (V l)
  mark : ∀ l, Mark (V l)

/-- Everything is on the medium and no transaction is running. -/
def durable (m : ∀ l, V l) : State V where
  view := m
  media l := {m l}
  mark _ := .untracked

/-- One operation. -/
def step [DecidableEq L] (s : State V) : Op V → State V
  | .store l v =>
    { s with view := Function.update s.view l v,
             media := Function.update s.media l (insert v (s.media l)) }
  | .snapshot l =>
    match s.mark l with
    | .untracked => { s with mark := Function.update s.mark l (.snapshot (s.view l)) }
    | _ => s
  | .allocate l => { s with mark := Function.update s.mark l .allocated }
  | .commit =>
    { s with media := fun l => match s.mark l with
               | .untracked => s.media l
               | _ => {s.view l},
             mark := fun _ => .untracked }

/-- A sequence of operations. -/
def exec [DecidableEq L] (s : State V) (ops : List (Op V)) : State V := ops.foldl step s

section Exec

variable [DecidableEq L]

@[simp] theorem exec_nil (s : State V) : exec s [] = s := rfl

theorem exec_cons (s : State V) (op : Op V) (ops : List (Op V)) :
    exec s (op :: ops) = exec (step s op) ops := rfl

theorem exec_append (s : State V) (ops ops' : List (Op V)) :
    exec s (ops ++ ops') = exec (exec s ops) ops' :=
  List.foldl_append ..

end Exec

/-- A memory that may be found after a crash in state `s`. -/
def Crash (s : State V) (m : ∀ l, V l) : Prop :=
  ∀ l, match s.mark l with
    | .snapshot v => m l = v
    | _ => m l ∈ s.media l

/-- Each operation that stores to `l` stores a value in `P`. -/
def StoresIn (l : L) (P : Set (V l)) (ops : List (Op V)) : Prop :=
  ∀ op ∈ ops, ∀ v, op = .store l v → v ∈ P

/-- No operation adds `l` to a transaction. -/
def NeverTracks (l : L) (ops : List (Op V)) : Prop :=
  ∀ op ∈ ops, op ≠ .snapshot l ∧ op ≠ .allocate l

section Location

variable {s : State V} {l : L} {P : Set (V l)} {ops : List (Op V)}

theorem storesIn_cons {op : Op V} :
    StoresIn l P (op :: ops) ↔ (∀ v, op = .store l v → v ∈ P) ∧ StoresIn l P ops :=
  List.forall_mem_cons

theorem neverTracks_cons {op : Op V} :
    NeverTracks l (op :: ops) ↔ (op ≠ .snapshot l ∧ op ≠ .allocate l) ∧ NeverTracks l ops :=
  List.forall_mem_cons

theorem neverTracks_append {ops' : List (Op V)} :
    NeverTracks l (ops ++ ops') ↔ NeverTracks l ops ∧ NeverTracks l ops' :=
  List.forall_mem_append

/-! ## What may be found after a crash -/

/-- Every value that a crash may leave at `l`, now or after a commit, is in `P`. -/
structure Bounded (l : L) (P : Set (V l)) (s : State V) : Prop where
  view : s.view l ∈ P
  media : s.media l ⊆ P
  mark : ∀ v, s.mark l = .snapshot v → v ∈ P

theorem Bounded.durable {m : ∀ l, V l} (h : m l ∈ P) : Bounded l P (durable m) :=
  ⟨h, Set.singleton_subset_iff.mpr h, nofun⟩

theorem Bounded.step [DecidableEq L] (h : Bounded l P s) {op : Op V}
    (hop : ∀ v, op = .store l v → v ∈ P) : Bounded l P (step s op) := by
  cases op with
  | store l' v =>
    by_cases hl : l' = l
    · subst hl
      refine ⟨?_, ?_, h.mark⟩
      · simpa [TxMemory.step] using hop v rfl
      · simpa [TxMemory.step, Set.insert_subset_iff] using ⟨hop v rfl, h.media⟩
    · refine ⟨?_, ?_, h.mark⟩
      · simpa [TxMemory.step, Function.update_of_ne (Ne.symm hl)] using h.view
      · simpa [TxMemory.step, Function.update_of_ne (Ne.symm hl)] using h.media
  | snapshot l' =>
    simp only [TxMemory.step]
    split
    · refine ⟨h.view, h.media, fun v hv => ?_⟩
      by_cases hl : l' = l
      · subst hl
        simp only [Function.update_self, Mark.snapshot.injEq] at hv
        exact hv ▸ h.view
      · exact h.mark v (by simpa [Function.update_of_ne (Ne.symm hl)] using hv)
    · exact h
  | allocate l' =>
    refine ⟨h.view, h.media, fun v hv => ?_⟩
    by_cases hl : l' = l
    · subst hl
      simp [TxMemory.step] at hv
    · exact h.mark v (by simpa [TxMemory.step, Function.update_of_ne (Ne.symm hl)] using hv)
  | commit =>
    refine ⟨h.view, ?_, nofun⟩
    simp only [TxMemory.step]
    cases s.mark l with
    | untracked => exact h.media
    | snapshot v => exact Set.singleton_subset_iff.mpr h.view
    | allocated => exact Set.singleton_subset_iff.mpr h.view

theorem Bounded.exec [DecidableEq L] (h : Bounded l P s) (hops : StoresIn l P ops) :
    Bounded l P (exec s ops) := by
  induction ops generalizing s with
  | nil => exact h
  | cons op ops ih =>
    obtain ⟨hop, hops⟩ := storesIn_cons.mp hops
    exact ih (h.step hop) hops

/-- **What a crash leaves.** If every value at `l` and every value stored to it is in `P`, then so
is the value found after a crash. -/
theorem Crash.of_bounded {m : ∀ l, V l} (hcrash : Crash s m) (h : Bounded l P s) : m l ∈ P := by
  have hl := hcrash l
  cases hmark : s.mark l with
  | untracked => rw [hmark] at hl; exact h.media hl
  | snapshot v => rw [hmark] at hl; exact hl ▸ h.mark v hmark
  | allocated => rw [hmark] at hl; exact h.media hl

/-! ## What the medium may keep -/

theorem step_of_neverTracks [DecidableEq L] (hmark : s.mark l = .untracked) {op : Op V}
    (hop : op ≠ .snapshot l ∧ op ≠ .allocate l) :
    (step s op).mark l = .untracked ∧ s.media l ⊆ (step s op).media l := by
  cases op with
  | store l' v =>
    refine ⟨hmark, ?_⟩
    by_cases hl : l' = l
    · subst hl
      simp [step]
    · simp [step, Function.update_of_ne (Ne.symm hl)]
  | snapshot l' =>
    have hl : l ≠ l' := fun h => hop.1 (by rw [h])
    simp only [step]
    split
    · exact ⟨by simpa [Function.update_of_ne hl] using hmark, subset_rfl⟩
    · exact ⟨hmark, subset_rfl⟩
  | allocate l' =>
    have hl : l ≠ l' := fun h => hop.2 (by rw [h])
    exact ⟨by simpa [step, Function.update_of_ne hl] using hmark, subset_rfl⟩
  | commit => exact ⟨rfl, by simp [step, hmark]⟩

theorem mark_exec_of_neverTracks [DecidableEq L] (hmark : s.mark l = .untracked)
    (hops : NeverTracks l ops) : (exec s ops).mark l = .untracked := by
  induction ops generalizing s with
  | nil => exact hmark
  | cons op ops ih =>
    obtain ⟨hop, hops⟩ := neverTracks_cons.mp hops
    exact ih (step_of_neverTracks hmark hop).1 hops

/-- **Plain stores are never safe.** A location that is never tracked keeps every value the medium
may hold. -/
theorem media_subset_exec [DecidableEq L] (hmark : s.mark l = .untracked)
    (hops : NeverTracks l ops) : s.media l ⊆ (exec s ops).media l := by
  induction ops generalizing s with
  | nil => exact subset_rfl
  | cons op ops ih =>
    obtain ⟨hop, hops⟩ := neverTracks_cons.mp hops
    obtain ⟨hmark', hsub⟩ := step_of_neverTracks hmark hop
    exact hsub.trans (ih hmark' hops)

/-- The value the program sees is one the medium may hold. -/
theorem view_mem_media_exec [DecidableEq L] (ops : List (Op V))
    (h : ∀ l, s.view l ∈ s.media l) (l : L) :
    (exec s ops).view l ∈ (exec s ops).media l := by
  induction ops generalizing s with
  | nil => exact h l
  | cons op ops ih =>
    refine ih fun l => ?_
    cases op with
    | store l' v =>
      by_cases hl : l' = l
      · subst hl
        simp [step]
      · simpa [step, Function.update_of_ne (Ne.symm hl)] using h l
    | snapshot l' =>
      simp only [step]
      split
      · exact h l
      · exact h l
    | allocate l' => exact h l
    | commit =>
      simp only [step]
      cases s.mark l with
      | untracked => exact h l
      | snapshot v => exact Set.mem_singleton _
      | allocated => exact Set.mem_singleton _

end Location

/-! ## What the program sees -/

section View

variable [DecidableEq L]

@[simp] theorem view_step_store (s : State V) (l : L) (v : V l) :
    (step s (.store l v)).view = Function.update s.view l v := rfl

@[simp] theorem view_step_snapshot (s : State V) (l : L) :
    (step s (.snapshot l)).view = s.view := by
  simp only [step]
  split <;> rfl

@[simp] theorem view_step_allocate (s : State V) (l : L) :
    (step s (.allocate l)).view = s.view := rfl

@[simp] theorem view_step_commit (s : State V) : (step s .commit).view = s.view := rfl

/-- After a commit no transaction is running. -/
theorem mark_step_commit (s : State V) (l : L) : (step s .commit).mark l = .untracked := rfl

/-- Assigning to a location inside a transaction and committing makes the new value durable. -/
theorem media_commit_assign (s : State V) (l : L) (v : V l) (hmark : s.mark l = .untracked) :
    (exec s [.snapshot l, .store l v, .commit]).media l = {v} := by
  simp [exec, step, hmark]

end View

end TxMemory
