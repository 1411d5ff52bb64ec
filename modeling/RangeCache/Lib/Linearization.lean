import Mathlib.Algebra.BigOperators.Group.Finset.Piecewise
import Mathlib.Algebra.GroupWithZero.Nat
import Mathlib.Data.Fintype.Defs
import RangeCache.Lib.FallibleRun

/-!
# Linearization

Threads take small steps on a shared state, in any order; between its request and its answer a
thread takes many. The interleaving is accounted for by an object whose calls take effect at once,
when every small step either changes nothing that the object shows, or is one call of the object.
The calls, in the order of these steps, are an order of the requests: the object answers them in
this order as the threads have been answered, and the order only grows at its end, so that a
request that was answered before another one was made comes before it.

## Main definitions

* `Entry`, `Replays` — a request that has taken effect, and the object going through such entries
* `Effect` — what a small step may do
* `Linearizes` — an order of the requests accounts for a state

## Main results

* `Linearizes.start`, `Linearizes.effect`, `Linearizes.run` — no step, one step, every run
-/

namespace Linearization

open FallibleRun

/-- The request of a thread, the call of the object that it takes effect as, and the answer. -/
structure Entry (ι ρ κ β : Type) where
  thread : ι
  request : ρ
  call : κ
  answer : β

section Spec

variable {ε σ ι α ρ κ β τ : Type} [DecidableEq ι]

/-- The object goes from `a` to `a'` through the entries, and gives the answers they say. -/
def Replays (apply : τ → κ → Except ε (β × τ)) : τ → List (Entry ι ρ κ β) → τ → Prop
  | a, [], a' => a = a'
  | a, e :: es, a' => ∃ a₁, apply a e.call = .ok (e.answer, a₁) ∧ Replays apply a₁ es a'

/-- What the small steps are compared with: the object, the calls that a request may take effect as,
the state the object is in, and the requests of each thread with their answers as soon as these are
determined. -/
structure Specification (ε σ ι ρ κ β τ : Type) where
  apply : τ → κ → Except ε (β × τ)
  admits : ρ → κ → Prop
  settled : σ → τ
  answered : σ → ι → List (ρ × β)

/-- A small step is not seen, or is one call of the object. -/
def Effect (S : Specification ε σ ι ρ κ β τ) (s s' : σ) : Prop :=
  (S.settled s' = S.settled s ∧ S.answered s' = S.answered s) ∨
    ∃ e : Entry ι ρ κ β, S.admits e.request e.call ∧
      S.apply (S.settled s) e.call = .ok (e.answer, S.settled s') ∧
      S.answered s' = Function.update (S.answered s) e.thread
        (S.answered s e.thread ++ [(e.request, e.answer)])

/-- What a thread has been answered, according to the entries. -/
def answersOf (t : ι) (order : List (Entry ι ρ κ β)) : List (ρ × β) :=
  (order.filter (fun e => e.thread = t)).map fun e => (e.request, e.answer)

/-- The entries account for the state `s`, when the object has started from `a`. -/
structure Linearizes (S : Specification ε σ ι ρ κ β τ) (a : τ) (s : σ)
    (order : List (Entry ι ρ κ β)) : Prop where
  replays : Replays S.apply a order (S.settled s)
  admits : ∀ e ∈ order, S.admits e.request e.call
  answers : ∀ t, answersOf t order = S.answered s t

variable {S : Specification ε σ ι ρ κ β τ} {a a' : τ} {s s' : σ}
  {order : List (Entry ι ρ κ β)}

/-! ## Replaying -/

omit [DecidableEq ι] in
theorem Replays.concat {apply : τ → κ → Except ε (β × τ)} {e : Entry ι ρ κ β} {a₂ : τ}
    (h : Replays apply a order a') (hcall : apply a' e.call = .ok (e.answer, a₂)) :
    Replays apply a (order ++ [e]) a₂ := by
  induction order generalizing a with
  | nil =>
    obtain rfl : a = a' := h
    exact ⟨a₂, hcall, rfl⟩
  | cons f order ih =>
    obtain ⟨a₁, hfirst, hrest⟩ := h
    exact ⟨a₁, hfirst, ih hrest⟩

omit [DecidableEq ι] in
/-- What the calls preserve, the object preserves. -/
theorem Replays.induction {apply : τ → κ → Except ε (β × τ)} {I : τ → Prop}
    (hstep : ∀ e ∈ order, ∀ a a', I a → apply a e.call = .ok (e.answer, a') → I a') (ha : I a)
    (h : Replays apply a order a') : I a' := by
  induction order generalizing a with
  | nil =>
    obtain rfl : a = a' := h
    exact ha
  | cons e order ih =>
    obtain ⟨a₁, hfirst, hrest⟩ := h
    exact ih (fun f hf => hstep f (List.mem_cons_of_mem _ hf))
      (hstep e (List.mem_cons_self ..) a a₁ ha hfirst) hrest

theorem answersOf_concat (t : ι) (order : List (Entry ι ρ κ β)) (e : Entry ι ρ κ β) :
    answersOf t (order ++ [e])
      = answersOf t order ++ if e.thread = t then [(e.request, e.answer)] else [] := by
  by_cases h : e.thread = t <;> simp [answersOf, h]

/-- Each entry counts once, for its thread. -/
theorem sum_answersOf [Fintype ι] (f : ρ × β → ℕ) (order : List (Entry ι ρ κ β)) :
    ∑ t, ((answersOf t order).map f).sum
      = (order.map fun e => f (e.request, e.answer)).sum := by
  induction order with
  | nil => simp [answersOf]
  | cons e order ih =>
    have hcons : ∀ t, ((answersOf t (e :: order)).map f).sum
        = (if e.thread = t then f (e.request, e.answer) else 0)
          + ((answersOf t order).map f).sum := by
      intro t
      by_cases ht : e.thread = t <;> simp [answersOf, ht]
    simp only [hcons, Finset.sum_add_distrib, ih, Finset.sum_ite_eq, Finset.mem_univ, if_true,
      List.map_cons, List.sum_cons]

/-! ## Linearizing -/

/-- Before the first request. -/
theorem Linearizes.start (h : ∀ t, S.answered s t = []) :
    Linearizes S (S.settled s) s [] :=
  ⟨rfl, by simp, fun t => (h t).symm⟩

/-- **One small step** adds at most one entry, at the end. -/
theorem Linearizes.effect (h : Linearizes S a s order) (heff : Effect S s s') :
    ∃ more, Linearizes S a s' (order ++ more) := by
  rcases heff with ⟨hsettled, hanswered⟩ | ⟨e, hadmits, hcall, hanswered⟩
  · refine ⟨[], ?_⟩
    rw [List.append_nil]
    exact ⟨hsettled ▸ h.replays, h.admits, fun t => hanswered ▸ h.answers t⟩
  · refine ⟨[e], h.replays.concat hcall, ?_, fun t => ?_⟩
    · simpa [or_imp, forall_and] using ⟨h.admits, hadmits⟩
    · rw [answersOf_concat, hanswered, h.answers]
      by_cases ht : e.thread = t
      · subst ht
        rw [if_pos rfl, Function.update_self]
      · rw [if_neg ht, Function.update_of_ne (Ne.symm ht), List.append_nil]

/-- **Every run** of small steps adds its entries at the end of the order. -/
theorem Linearizes.run {δ : Type} {step : σ → α → Except δ σ} {I : σ → Prop} {is : List α}
    (h : Linearizes S a s order) (hs : I s) (hrun : FallibleRun.run step s is = .ok s')
    (hI : ∀ s i s', I s → step s i = .ok s' → I s')
    (heff : ∀ s i s', I s → step s i = .ok s' → Effect S s s') :
    ∃ more, Linearizes S a s' (order ++ more) := by
  induction is generalizing s order with
  | nil =>
    cases hrun
    exact ⟨[], by rwa [List.append_nil]⟩
  | cons i is ih =>
    obtain ⟨s₁, hi, hrest⟩ := run_cons_ok.mp hrun
    obtain ⟨first, hfirst⟩ := h.effect (heff s i s₁ hs hi)
    obtain ⟨more, hmore⟩ := ih hfirst (hI s i s₁ hs hi) hrest
    exact ⟨first ++ more, by rwa [← List.append_assoc]⟩

end Spec

end Linearization
