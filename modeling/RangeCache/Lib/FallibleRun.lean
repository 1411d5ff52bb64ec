import Mathlib.Data.List.Forall2

/-!
# Runs of fallible steps

A step takes a state and an input to a new state, or fails; a run feeds a list of inputs to it,
one after the other, and fails with the first step that does. The rules here split a run at any
point and carry an invariant along it.

## Main results

* `mapM_eq_ok`, `mapM_returns_iff` — loops over a list
* `run_cons_ok`, `run_append_ok` — a run that succeeds, taken apart
* `run_induction`, `run_induction_mem` — what the steps preserve, a run preserves
* `run_lockstep` — two systems whose steps agree, errors included, agree on runs
* `always_iff_eachStep` — a condition that is exact for a step is exact for a run
-/

namespace FallibleRun

variable {ε σ ι : Type*} {step : σ → ι → Except ε σ}

/-- A computation that succeeded hands its value on. -/
theorem ok_bind {ε α β : Type} (a : α) (f : α → Except ε β) : (Except.ok a >>= f) = f a := rfl

/-- A sequence that succeeded, taken apart. -/
theorem bind_eq_ok {ε α β : Type} {x : Except ε α} {f : α → Except ε β} {b : β} :
    (x >>= f) = .ok b ↔ ∃ a, x = .ok a ∧ f a = .ok b := by
  cases x with
  | error e =>
    constructor
    · intro h; cases h
    · rintro ⟨a, ha, -⟩; cases ha
  | ok a =>
    rw [ok_bind]
    constructor
    · intro h; exact ⟨a, rfl, h⟩
    · rintro ⟨a', ha, h⟩; cases ha; exact h

/-- What a loop over a list returns: the results of its turns. -/
theorem mapM_eq_ok {ε α β : Type} {f : α → Except ε β} {as : List α} {bs : List β} :
    as.mapM f = .ok bs ↔ List.Forall₂ (fun a b => f a = .ok b) as bs := by
  induction as generalizing bs with
  | nil =>
    rw [List.forall₂_nil_left_iff]
    exact ⟨fun h => (Except.ok.inj h).symm, fun h => h ▸ rfl⟩
  | cons a as ih =>
    rw [List.mapM_cons, bind_eq_ok, List.forall₂_cons_left_iff]
    constructor
    · rintro ⟨b, hb, h⟩
      obtain ⟨bs', hbs', h⟩ := bind_eq_ok.mp h
      exact ⟨b, bs', hb, ih.mp hbs', (Except.ok.inj h).symm⟩
    · rintro ⟨b, bs', hb, hbs', rfl⟩
      exact ⟨b, hb, bind_eq_ok.mpr ⟨bs', ih.mpr hbs', rfl⟩⟩

/-- A loop returns if all of its turns do. -/
theorem mapM_returns_iff {ε α β : Type} {f : α → Except ε β} {as : List α} :
    (∃ bs, as.mapM f = .ok bs) ↔ ∀ a ∈ as, ∃ b, f a = .ok b := by
  induction as with
  | nil => exact iff_of_true ⟨[], rfl⟩ nofun
  | cons a as ih =>
    rw [List.forall_mem_cons, ← ih]
    constructor
    · rintro ⟨bs, hbs⟩
      cases mapM_eq_ok.mp hbs with
      | cons hb hrest => exact ⟨⟨_, hb⟩, _, mapM_eq_ok.mpr hrest⟩
    · rintro ⟨⟨b, hb⟩, bs, hbs⟩
      exact ⟨b :: bs, mapM_eq_ok.mpr (.cons hb (mapM_eq_ok.mp hbs))⟩

/-- Feed a list of inputs to a step. -/
def run (step : σ → ι → Except ε σ) (s : σ) (is : List ι) : Except ε σ := is.foldlM step s

@[simp] theorem run_nil (s : σ) : run step s [] = .ok s := rfl

theorem run_cons_ok {s s' : σ} {i : ι} {is : List ι} :
    run step s (i :: is) = .ok s' ↔ ∃ s₁, step s i = .ok s₁ ∧ run step s₁ is = .ok s' := by
  rw [run, List.foldlM_cons]
  cases h : step s i with
  | error e =>
    constructor
    · intro hr; cases hr
    · rintro ⟨s₁, hs₁, -⟩; cases hs₁
  | ok s₁ =>
    constructor
    · intro hr; exact ⟨s₁, rfl, hr⟩
    · rintro ⟨s₂, hs₂, hr⟩; cases hs₂; exact hr

theorem run_singleton {s s' : σ} {i : ι} : run step s [i] = .ok s' ↔ step s i = .ok s' := by
  rw [run_cons_ok]
  constructor
  · rintro ⟨s₁, hs₁, hr⟩; cases hr; exact hs₁
  · intro h; exact ⟨s', h, rfl⟩

theorem run_append_ok {s s' : σ} {is js : List ι} :
    run step s (is ++ js) = .ok s' ↔ ∃ s₁, run step s is = .ok s₁ ∧ run step s₁ js = .ok s' := by
  induction is generalizing s with
  | nil =>
    constructor
    · intro h; exact ⟨s, rfl, h⟩
    · rintro ⟨s₁, hs₁, h⟩; cases hs₁; exact h
  | cons i is ih =>
    rw [List.cons_append, run_cons_ok]
    constructor
    · rintro ⟨s₁, hs₁, h⟩
      obtain ⟨s₂, hs₂, h⟩ := ih.mp h
      exact ⟨s₂, run_cons_ok.mpr ⟨s₁, hs₁, hs₂⟩, h⟩
    · rintro ⟨s₂, hs₂, h⟩
      obtain ⟨s₁, hs₁, hs₂⟩ := run_cons_ok.mp hs₂
      exact ⟨s₁, hs₁, ih.mpr ⟨s₂, hs₂, h⟩⟩

/-- Every prefix of a run that succeeds succeeds. -/
theorem run_prefix_ok {s s' : σ} {is js : List ι} (hp : is <+: js) (h : run step s js = .ok s') :
    ∃ s₁, run step s is = .ok s₁ := by
  obtain ⟨rest, rfl⟩ := hp
  obtain ⟨s₁, hs₁, -⟩ := run_append_ok.mp h
  exact ⟨s₁, hs₁⟩

/-- **Invariants.** What the steps on the inputs of a run preserve, the run preserves. -/
theorem run_induction_mem {I : σ → Prop} {s s' : σ} {is : List ι}
    (hstep : ∀ i ∈ is, ∀ s s', I s → step s i = .ok s' → I s') (hs : I s)
    (h : run step s is = .ok s') : I s' := by
  induction is generalizing s with
  | nil => cases h; exact hs
  | cons i is ih =>
    obtain ⟨s₁, hs₁, h⟩ := run_cons_ok.mp h
    have htail : ∀ j ∈ is, ∀ s s', I s → step s j = .ok s' → I s' :=
      fun j hj => hstep j (List.mem_cons_of_mem _ hj)
    exact ih htail (hstep i (List.mem_cons_self ..) s s₁ hs hs₁) h

/-- What every step preserves, every run preserves. -/
theorem run_induction {I : σ → Prop} (hstep : ∀ s i s', I s → step s i = .ok s' → I s')
    {s s' : σ} {is : List ι} (hs : I s) (h : run step s is = .ok s') : I s' :=
  run_induction_mem (fun i _ s s' => hstep s i s') hs h

/-- A run of runs. -/
theorem run_flatten {s : σ} (iss : List (List ι)) :
    run (run step) s iss = run step s iss.flatten := by
  induction iss generalizing s with
  | nil => rfl
  | cons is iss ih =>
    rw [List.flatten_cons, run, run, List.foldlM_cons, List.foldlM_append]
    exact bind_congr fun s => ih

/-! ## Two systems in lock step -/

section Lockstep

variable {τ : Type*} {R : σ → τ → Prop}

/-- Both computations return, with results that are related, or both fail with the same error. -/
inductive Lockstep (R : σ → τ → Prop) : Except ε σ → Except ε τ → Prop where
  | returns {s : σ} {t : τ} : R s t → Lockstep R (.ok s) (.ok t)
  | fails (e : ε) : Lockstep R (.error e) (.error e)

/-- When one of them returns, the other one does. -/
theorem Lockstep.exists_ok {s : σ} {y : Except ε τ} (h : Lockstep R (.ok s) y) :
    ∃ t, y = .ok t ∧ R s t := by
  cases h with
  | returns hst => exact ⟨_, rfl, hst⟩

/-- **Lock step along runs.** If the steps on the inputs of a run keep two systems in lock step,
so does the run. -/
theorem run_lockstep {step' : τ → ι → Except ε τ} {is : List ι}
    (hstep : ∀ i ∈ is, ∀ s t, R s t → Lockstep R (step s i) (step' t i)) {s : σ} {t : τ}
    (h : R s t) : Lockstep R (run step s is) (run step' t is) := by
  induction is generalizing s t with
  | nil => exact .returns h
  | cons i is ih =>
    have htail := fun s t => ih (fun j hj => hstep j (List.mem_cons_of_mem _ hj)) (s := s) (t := t)
    have hhead := hstep i (List.mem_cons_self ..) s t h
    rw [run, run, List.foldlM_cons, List.foldlM_cons]
    revert hhead
    generalize step s i = x
    generalize step' t i = y
    rintro (hst | e)
    · exact htail _ _ hst
    · exact .fails e

end Lockstep

/-! ## Properties of whole runs -/

/-- `Q` holds of every state the run passes through. -/
def Always (step : σ → ι → Except ε σ) (Q : σ → Prop) (s : σ) (is : List ι) : Prop :=
  ∀ js, js <+: is → ∀ s', run step s js = .ok s' → Q s'

/-- Every step of the run meets the condition `R` in the state it is taken in. -/
def EachStep (step : σ → ι → Except ε σ) (R : σ → ι → Prop) (s : σ) (is : List ι) : Prop :=
  ∀ js i, js ++ [i] <+: is → ∀ s', run step s js = .ok s' → R s' i

theorem always_nil {Q : σ → Prop} {s : σ} : Always step Q s [] ↔ Q s := by
  constructor
  · intro h
    exact h [] (List.prefix_refl []) s rfl
  · intro hs js hjs s' hs'
    rw [List.prefix_nil.mp hjs] at hs'
    cases hs'
    exact hs

theorem always_cons {Q : σ → Prop} {s s₁ : σ} {i : ι} {is : List ι} (hi : step s i = .ok s₁) :
    Always step Q s (i :: is) ↔ Q s ∧ Always step Q s₁ is := by
  constructor
  · intro h
    refine ⟨h [] (List.nil_prefix) s rfl, fun js hjs s' hs' => ?_⟩
    exact h (i :: js) ((List.prefix_cons_inj i).mpr hjs) s' (run_cons_ok.mpr ⟨s₁, hi, hs'⟩)
  · rintro ⟨hs, h⟩ js hjs s' hs'
    cases js with
    | nil => cases hs'; exact hs
    | cons j js =>
      obtain ⟨rfl, hrest⟩ := List.cons_prefix_cons.mp hjs
      obtain ⟨s₂, hs₂, hs'⟩ := run_cons_ok.mp hs'
      obtain rfl : s₁ = s₂ := Except.ok.inj (hi.symm.trans hs₂)
      exact h js hrest s' hs'

theorem eachStep_nil {R : σ → ι → Prop} {s : σ} : EachStep step R s [] := by
  intro js i hjs
  exact absurd (List.prefix_nil.mp hjs) (by simp)

theorem eachStep_cons {R : σ → ι → Prop} {s s₁ : σ} {i : ι} {is : List ι}
    (hi : step s i = .ok s₁) :
    EachStep step R s (i :: is) ↔ R s i ∧ EachStep step R s₁ is := by
  constructor
  · intro h
    refine ⟨h [] i (by simp) s rfl, fun js j hjs s' hs' => ?_⟩
    exact h (i :: js) j ((List.prefix_cons_inj i).mpr hjs) s' (run_cons_ok.mpr ⟨s₁, hi, hs'⟩)
  · rintro ⟨hs, h⟩ js j hjs s' hs'
    cases js with
    | nil =>
      obtain ⟨rfl, -⟩ := List.cons_prefix_cons.mp hjs
      cases hs'
      exact hs
    | cons k js =>
      obtain ⟨rfl, hrest⟩ := List.cons_prefix_cons.mp hjs
      obtain ⟨s₂, hs₂, hs'⟩ := run_cons_ok.mp hs'
      obtain rfl : s₁ = s₂ := Except.ok.inj (hi.symm.trans hs₂)
      exact h js j hrest s' hs'

/-- **Exact conditions.** If, under an invariant, a step keeps a property exactly when it meets a
condition, the property holds throughout a run exactly when every step meets it. -/
theorem always_iff_eachStep {I Q : σ → Prop} {R : σ → ι → Prop}
    (hI : ∀ s i s', I s → step s i = .ok s' → I s')
    (hQ : ∀ s i s', I s → Q s → step s i = .ok s' → (Q s' ↔ R s i)) {s s' : σ} {is : List ι}
    (hs : I s) (hq : Q s) (hrun : run step s is = .ok s') :
    Always step Q s is ↔ EachStep step R s is := by
  induction is generalizing s with
  | nil =>
    rw [always_nil]
    exact ⟨fun _ => eachStep_nil, fun _ => hq⟩
  | cons i is ih =>
    obtain ⟨s₁, hi, hrun⟩ := run_cons_ok.mp hrun
    rw [always_cons hi, eachStep_cons hi]
    have hstep := hQ s i s₁ hs hq hi
    constructor
    · rintro ⟨-, h⟩
      have hq₁ : Q s₁ := h [] (List.nil_prefix) s₁ rfl
      exact ⟨hstep.mp hq₁, (ih (hI s i s₁ hs hi) hq₁ hrun).mp h⟩
    · rintro ⟨hr, h⟩
      exact ⟨hq, (ih (hI s i s₁ hs hi) (hstep.mpr hr) hrun).mpr h⟩

end FallibleRun
