import Mathlib.Data.Nat.Basic

/-!
# Binary search between closed word-sized bounds

The textbook loop `while (left <= right)` with both bounds inclusive, over words that wrap at `W`.
Stepping to the left of index `0` wraps to `W - 1`, so on a miss below the first entry the loop
does not stop but leaves the array. `search` follows the loop turn by turn, over any array given
by its comparisons with the target, and `search_spec` says how it ends.

## Main definitions

* `ClosedSearch.Outcome`, `search` — the loop, and the ways it can end
* `ClosedSearch.Sorted` — the comparisons of a sorted array

## Main results

* `search_spec` — a hit, a miss above the first entry, or an access past the end
* `search_all_eq_iff` — each end, exactly
-/

namespace ClosedSearch

/-- How the loop ends. -/
inductive Outcome where
  /-- The target is at this index. -/
  | found (i : ℕ)
  /-- The bounds have crossed. -/
  | absent
  /-- An index past the end is accessed. -/
  | offEnd
  /-- The fuel is used up. -/
  | running
  deriving DecidableEq, Repr

/-- The loop on `[left, right]`. There are `n` entries, and `probe i` compares the `i`-th one with
the target. -/
def search (W n : ℕ) (probe : ℕ → Ordering) : (fuel left right : ℕ) → Outcome
  | 0, _, _ => .running
  | fuel + 1, left, right =>
    if left ≤ right then
      let middle := left + (right - left) / 2
      if middle < n then
        match probe middle with
        | .eq => .found middle
        | .lt => search W n probe fuel ((middle + 1) % W) right
        | .gt => search W n probe fuel left ((middle + (W - 1)) % W)
      else
        .offEnd
    else
      .absent

/-- Behind an entry that is not below the target, every entry is above it. -/
def Sorted (n : ℕ) (probe : ℕ → Ordering) : Prop :=
  ∀ i j, i < j → j < n → probe i ≠ .lt → probe j = .gt

section Spec

variable {W n : ℕ} {probe : ℕ → Ordering}

theorem Sorted.lt_of_lt (hs : Sorted n probe) {i j : ℕ} (hij : i < j) (hj : j < n)
    (h : probe j ≠ .gt) : probe i = .lt := by
  by_contra hi
  exact h (hs i j hij hj hi)

/-- In a sorted array at most one entry equals the target. -/
theorem Sorted.eq_unique (hs : Sorted n probe) {i j : ℕ} (hi : i < n) (hj : j < n)
    (hpi : probe i = .eq) (hpj : probe j = .eq) : i = j := by
  rcases Nat.lt_trichotomy i j with hij | hij | hij
  · rw [hs i j hij hj (by rw [hpi]; decide)] at hpj
    cases hpj
  · exact hij
  · rw [hs j i hij hi (by rw [hpj]; decide)] at hpi
    cases hpi

/-- What an outcome says about the array. -/
def Outcome.Explains (n : ℕ) (probe : ℕ → Ordering) : Outcome → Prop
  | .found i => i < n ∧ probe i = .eq
  | .absent => probe 0 = .lt ∧ ∀ i < n, probe i ≠ .eq
  | .offEnd => probe 0 = .gt
  | .running => False

/-- The step to the left of index `0` wraps, and the next access is past the end. -/
theorem search_wrapped (hW : 2 * n < W) (fuel : ℕ) :
    search W n probe (fuel + 1) 0 (W - 1) = .offEnd := by
  rw [search, if_pos (Nat.zero_le _)]
  simp only
  rw [if_neg (by omega)]

/-- **How the search ends**, from bounds around the place of the target. -/
theorem search_spec (hs : Sorted n probe) (hW : 2 * n < W) {fuel left right : ℕ}
    (hright : right < n) (hleft : left ≤ right + 1) (hfuel : right + 3 ≤ left + fuel)
    (hbelow : ∀ i < left, probe i = .lt) (habove : ∀ i, right < i → i < n → probe i = .gt) :
    (search W n probe fuel left right).Explains n probe := by
  induction fuel generalizing left right with
  | zero => omega
  | succ fuel ih =>
    rw [search]
    by_cases hle : left ≤ right
    · rw [if_pos hle]
      obtain ⟨middle, hmiddle⟩ : ∃ middle, middle = left + (right - left) / 2 := ⟨_, rfl⟩
      simp only [← hmiddle]
      rw [if_pos (by omega)]
      cases hprobe : probe middle with
      | eq => exact ⟨by omega, hprobe⟩
      | lt =>
        simp only
        rw [Nat.mod_eq_of_lt (by omega)]
        refine ih hright (by omega) (by omega) (fun i hi => ?_) habove
        rcases Nat.lt_succ_iff_lt_or_eq.mp hi with hi | rfl
        · exact hs.lt_of_lt hi (by omega) (by rw [hprobe]; decide)
        · exact hprobe
      | gt =>
        simp only
        rcases Nat.eq_zero_or_pos middle with rfl | hpos
        · -- the left neighbour of index `0` is the largest word
          obtain ⟨fuel, rfl⟩ : ∃ k, fuel = k + 1 := ⟨fuel - 1, by omega⟩
          rw [show left = 0 by omega, Nat.zero_add, Nat.mod_eq_of_lt (by omega),
            search_wrapped hW]
          exact hprobe
        · rw [show middle + (W - 1) = middle - 1 + W by omega, Nat.add_mod_right,
            Nat.mod_eq_of_lt (by omega)]
          refine ih (by omega) (by omega) (by omega) hbelow fun i hi hin => ?_
          rcases Nat.lt_or_eq_of_le (show middle ≤ i by omega) with hi | rfl
          · exact hs middle i hi hin (by rw [hprobe]; decide)
          · exact hprobe
    · -- the bounds have crossed, so every entry is on one side of the target
      rw [if_neg hle]
      refine ⟨hbelow 0 (by omega), fun i hi => ?_⟩
      rcases Nat.lt_or_ge i left with hil | hil
      · rw [hbelow i hil]; decide
      · rw [habove i (by omega) hi]; decide

/-- The whole array: the right bound starts at the last index. -/
theorem search_all_spec (hs : Sorted n probe) (hW : 2 * n < W) (hn : 0 < n) :
    (search W n probe (n + 2) 0 (n - 1)).Explains n probe :=
  search_spec hs hW (by omega) (by omega) (by omega) (fun _ h => absurd h (Nat.not_lt_zero _))
    fun _ _ _ => by omega

/-- In a sorted array only one outcome explains it. -/
theorem Outcome.Explains.unique (hs : Sorted n probe) (hn : 0 < n) {o o' : Outcome}
    (h : o.Explains n probe) (h' : o'.Explains n probe) : o = o' := by
  have hgt : ∀ i < n, probe 0 = .gt → probe i = .gt := fun i hi h₀ => by
    rcases Nat.eq_zero_or_pos i with rfl | hpos
    · exact h₀
    · exact hs 0 i hpos hi (by rw [h₀]; decide)
  cases o with
  | found i =>
    obtain ⟨hi, hp⟩ := h
    cases o' with
    | found j => rw [hs.eq_unique hi h'.1 hp h'.2]
    | absent => exact absurd hp (h'.2 i hi)
    | offEnd => rw [hgt i hi h'] at hp; cases hp
    | running => exact h'.elim
  | absent =>
    obtain ⟨hlt, hne⟩ := h
    cases o' with
    | found j => exact absurd h'.2 (hne j h'.1)
    | absent => rfl
    | offEnd => rw [hgt 0 hn h'] at hlt; cases hlt
    | running => exact h'.elim
  | offEnd =>
    cases o' with
    | found j => have := hgt j h'.1 h; rw [h'.2] at this; cases this
    | absent => have := hgt 0 hn h; rw [h'.1] at this; cases this
    | offEnd => rfl
    | running => exact h'.elim
  | running => exact h.elim

/-- **Each end, exactly.** The search ends the one way that explains the array. -/
theorem search_all_eq_iff (hs : Sorted n probe) (hW : 2 * n < W) (hn : 0 < n) {o : Outcome} :
    search W n probe (n + 2) 0 (n - 1) = o ↔ o.Explains n probe := by
  have hspec := search_all_spec hs hW hn
  constructor
  · rintro rfl
    exact hspec
  · exact hspec.unique hs hn

end Spec

end ClosedSearch
