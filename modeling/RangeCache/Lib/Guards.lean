import Mathlib.Logic.Basic

/-!
# Who holds a mutex

A mutex records its holder. It guards a part of a program when the holder is the thread that is in
that part. The rules here are for a step of one thread: it takes the mutex as it enters the part,
gives it back as it leaves, or stays where it is.

## Main definitions

* `Guards`

## Main results

* `Guards.unique` — two threads are not in the part at once
* `Guards.acquire`, `Guards.release`, `Guards.keep`
-/

/-- The mutex is held by the thread that is in the guarded part. -/
def Guards {ι : Type*} (mutex : Option ι) (inside : ι → Prop) : Prop :=
  ∀ t, mutex = some t ↔ inside t

namespace Guards

variable {ι : Type*} {mutex : Option ι} {inside inside' : ι → Prop} {t u : ι}

theorem free (h : ∀ t, ¬ inside t) : Guards none inside :=
  fun t => iff_of_false (by simp) (h t)

/-- **Mutual exclusion.** -/
theorem unique (h : Guards mutex inside) (ht : inside t) (hu : inside u) : t = u :=
  Option.some.inj (((h t).mpr ht).symm.trans ((h u).mpr hu))

theorem not_inside (h : Guards mutex inside) (hfree : mutex = none) (t : ι) : ¬ inside t := by
  intro ht
  rw [(h t).mpr ht] at hfree
  cases hfree

/-- The thread `t` has taken the mutex and gone in. -/
theorem acquire (h : Guards mutex inside) (hfree : mutex = none)
    (hothers : ∀ u, u ≠ t → (inside' u ↔ inside u)) (ht : inside' t) :
    Guards (some t) inside' := by
  intro u
  rcases eq_or_ne u t with rfl | hu
  · exact iff_of_true rfl ht
  · have hout : ¬ inside' u := fun hin => h.not_inside hfree u ((hothers u hu).mp hin)
    exact iff_of_false (fun heq => hu (Option.some.inj heq).symm) hout

/-- The thread `t` has given the mutex back and gone out. -/
theorem release (h : Guards mutex inside) (hin : inside t)
    (hothers : ∀ u, u ≠ t → (inside' u ↔ inside u)) (ht : ¬ inside' t) :
    Guards none inside' := by
  refine free fun u hu => ?_
  rcases eq_or_ne u t with rfl | hne
  · exact ht hu
  · exact hne (h.unique ((hothers u hne).mp hu) hin)

/-- Nobody has gone in or out. -/
theorem keep (h : Guards mutex inside) (hothers : ∀ u, u ≠ t → (inside' u ↔ inside u))
    (ht : inside' t ↔ inside t) : Guards mutex inside' := by
  intro u
  rcases eq_or_ne u t with rfl | hu
  · exact (h u).trans ht.symm
  · exact (h u).trans (hothers u hu).symm

end Guards
