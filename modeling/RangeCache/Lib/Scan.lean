import Mathlib.Algebra.BigOperators.Fin
import Mathlib.Algebra.Order.BigOperators.Group.Finset
import RangeCache.Lib.FallibleRun

/-!
# Reading counters one after the other

A reader adds up counters while the system that keeps them goes on. It reads each of them once, in
order, and between two reads the system takes any number of steps. No state of the system need have
had the sum that comes out. But a counter that only falls is read between what it was at first and
what it is in the end; so the sum is off by at most what the counters have grown meanwhile.

## Main definitions

* `Scan` — a reader that has read some of the counters

## Main results

* `Scan.bounds` — the sum against the counters before and after
-/

/-- `Scan step cells grown s₀ k total growth s`: since the system was in state `s₀`, a reader has
read the first `k` of the counters `cells`, which gave `total`; the system is in state `s`, and its
steps meanwhile may have added `growth` to the counters, `grown s a` in a step `a` from `s`. -/
inductive Scan {ε S A : Type*} {n : ℕ} (step : S → A → Except ε S) (cells : S → Fin n → ℕ)
    (grown : S → A → ℕ) (s₀ : S) : ℕ → ℕ → ℕ → S → Prop where
  | start : Scan step cells grown s₀ 0 0 0 s₀
  | moves {k total growth : ℕ} {s s' : S} {a : A} : Scan step cells grown s₀ k total growth s →
      step s a = .ok s' → Scan step cells grown s₀ k total (growth + grown s a) s'
  | reads {k total growth : ℕ} {s : S} : Scan step cells grown s₀ k total growth s →
      (hk : k < n) → Scan step cells grown s₀ (k + 1) (total + cells s ⟨k, hk⟩) growth s

namespace Scan

variable {ε S A : Type*} {n : ℕ} {step : S → A → Except ε S} {cells : S → Fin n → ℕ}
  {grown : S → A → ℕ} {s₀ s : S} {k total growth : ℕ}

/-- What the steps preserve holds when the reader is done. -/
theorem invariant {I : S → Prop} (hstep : ∀ s a s', I s → step s a = .ok s' → I s') (hs₀ : I s₀)
    (h : Scan step cells grown s₀ k total growth s) : I s := by
  induction h with
  | start => exact hs₀
  | moves _ hmove ih => exact hstep _ _ _ ih hmove
  | reads _ _ ih => exact ih

/-- The counters that have been read, and those that have not. -/
theorem sum_split (f : Fin n → ℕ) (k : ℕ) :
    ∑ i, f i = (∑ i with i.val < k, f i) + ∑ i with ¬ i.val < k, f i :=
  (Finset.sum_filter_add_sum_filter_not _ _ _).symm

/-- One more counter has been read. -/
theorem sum_succ (f : Fin n → ℕ) (hk : k < n) :
    ∑ i with i.val < k + 1, f i = (∑ i with i.val < k, f i) + f ⟨k, hk⟩ := by
  have hfilter : Finset.univ.filter (fun i : Fin n => i.val < k + 1)
      = insert ⟨k, hk⟩ (Finset.univ.filter fun i : Fin n => i.val < k) := by
    ext i
    simp only [Finset.mem_filter, Finset.mem_univ, true_and, Finset.mem_insert, Fin.ext_iff]
    omega
  rw [hfilter, Finset.sum_insert (by simp), Nat.add_comm]

/-- A step adds at most what the counters grow by, to any part of them. -/
theorem sum_grown {f g : Fin n → ℕ} {d : ℕ} (hd : ∑ i, (g i - f i) ≤ d) (p : Fin n → Prop)
    [DecidablePred p] : ∑ i with p i, g i ≤ (∑ i with p i, f i) + d := by
  have hpart : ∑ i with p i, (g i - f i) ≤ d :=
    (Finset.sum_le_sum_of_subset (Finset.filter_subset _ _)).trans hd
  have hle : ∑ i with p i, g i ≤ ∑ i with p i, (f i + (g i - f i)) :=
    Finset.sum_le_sum fun i _ => by omega
  rw [Finset.sum_add_distrib] at hle
  omega

/-- **The account of a reader.** What it has and what it has still to read is no more than there was
and has come; what it has read of is no more than it has and has come. -/
theorem accounting {I : S → Prop} (hstep : ∀ s a s', I s → step s a = .ok s' → I s')
    (hgrown : ∀ s a s', I s → step s a = .ok s' → ∑ i, (cells s' i - cells s i) ≤ grown s a)
    (hs₀ : I s₀) (h : Scan step cells grown s₀ k total growth s) :
    total + ∑ i with ¬ i.val < k, cells s i ≤ (∑ i, cells s₀ i) + growth ∧
      ∑ i with i.val < k, cells s i ≤ total + growth := by
  induction h with
  | start => simp
  | @moves k total growth s s' a hscan hmove ih =>
    have hd := hgrown s a s' (hscan.invariant hstep hs₀) hmove
    have hrest := sum_grown hd fun i => ¬ i.val < k
    have hread := sum_grown hd fun i => i.val < k
    omega
  | @reads k total growth s hscan hk ih =>
    have hsucc := sum_succ (cells s) hk
    have hall := sum_split (cells s) k
    have hall' := sum_split (cells s) (k + 1)
    omega

/-- **A reader is off by at most what the counters have grown meanwhile.** -/
theorem bounds {I : S → Prop} (hstep : ∀ s a s', I s → step s a = .ok s' → I s')
    (hgrown : ∀ s a s', I s → step s a = .ok s' → ∑ i, (cells s' i - cells s i) ≤ grown s a)
    (hs₀ : I s₀) (h : Scan step cells grown s₀ n total growth s) :
    total ≤ (∑ i, cells s₀ i) + growth ∧ ∑ i, cells s i ≤ total + growth := by
  obtain ⟨hle, hge⟩ := h.accounting hstep hgrown hs₀
  have hall : (Finset.univ.filter fun i : Fin n => i.val < n) = Finset.univ :=
    Finset.filter_true_of_mem fun i _ => i.isLt
  rw [hall] at hge
  exact ⟨(Nat.le_add_right _ _).trans hle, hge⟩

end Scan
