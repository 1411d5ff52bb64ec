import Mathlib.Data.List.Pairwise
import Mathlib.Logic.Function.Basic
import RangeCache.Lib.ByteMemory

/-!
# Carving one block from both ends

An arena hands out pieces of one block. It keeps the bounds of the part that is still free and
moves them towards each other; what is below the lower bound or above the upper one has been given
away. Whatever the order of the requests, the pieces lie in the block and do not overlap. The same
holds of pieces of many blocks, when blocks that are new overlap none of the old ones, and when
several carvers each have a free part of their own.

## Main definitions

* `ByteMemory.Carved` — pieces carved out of a block, and the bounds of what is left
* `ByteMemory.CarvedAll` — pieces carved out of many blocks, and what is left of the last one
* `ByteMemory.CarvedMany` — the same, with a free part for each carver

## Main results

* `Carved.start`, `Carved.takeLow`, `Carved.takeHigh` — the untouched block, and one more piece
* `Carved.inside` — the pieces lie in the block
* `CarvedAll.take`, `CarvedAll.openBlock`, `CarvedAll.whole` — one more piece, one more block
* `CarvedMany.take`, `CarvedMany.openBlock`, `CarvedMany.whole` — the same, for one of the carvers
-/

namespace ByteMemory

/-- The pieces `es` have been carved out of `block`, and `[lo, hi)` is left. -/
structure Carved (block : Extent) (lo hi : ℕ) (es : List Extent) : Prop where
  base_le : block.base ≤ lo
  lo_le : lo ≤ hi
  le_end : hi ≤ block.base + block.size
  /-- A piece is below or above what is left. -/
  outside : ∀ e ∈ es, (block.base ≤ e.base ∧ e.base + e.size ≤ lo) ∨
    (hi ≤ e.base ∧ e.base + e.size ≤ block.base + block.size)
  disjoint : es.Pairwise Extent.Disjoint

variable {block e : Extent} {lo lo' hi hi' : ℕ} {es : List Extent}

/-- Extents on the two sides of an address do not overlap. -/
theorem Extent.disjoint_of_le {e f : Extent} (h : e.base + e.size ≤ f.base) : e.Disjoint f := by
  rintro x ⟨⟨-, hlt⟩, hle, -⟩
  omega

/-- The untouched block. -/
theorem Carved.start (block : Extent) :
    Carved block block.base (block.base + block.size) [] :=
  ⟨le_rfl, Nat.le_add_right _ _, le_rfl, by simp, List.Pairwise.nil⟩

/-- Each piece lies in the block. -/
theorem Carved.inside (h : Carved block lo hi es) {e : Extent} (he : e ∈ es) :
    block.base ≤ e.base ∧ e.base + e.size ≤ block.base + block.size := by
  obtain ⟨hbase, hlo, hend, hout, -⟩ := h
  rcases hout e he with ⟨h₁, h₂⟩ | ⟨h₁, h₂⟩
  · exact ⟨h₁, by omega⟩
  · exact ⟨by omega, h₂⟩

/-- A piece inside what is left overlaps none of the others. -/
theorem Carved.disjoint_of_free (h : Carved block lo hi es) (hl : lo ≤ e.base)
    (hu : e.base + e.size ≤ hi) : ∀ f ∈ es, e.Disjoint f := by
  intro f hf
  rcases h.outside f hf with ⟨-, hbelow⟩ | ⟨habove, -⟩
  · exact (Extent.disjoint_of_le (hbelow.trans hl)).symm
  · exact Extent.disjoint_of_le (hu.trans habove)

/-- **A piece taken at the lower end.** -/
theorem Carved.takeLow (h : Carved block lo hi es) (hl : lo ≤ e.base)
    (hu : e.base + e.size ≤ lo') (hhi : lo' ≤ hi) : Carved block lo' hi (e :: es) := by
  have hbase := h.base_le
  refine ⟨by omega, hhi, h.le_end, ?_, ?_⟩
  · refine List.forall_mem_cons.mpr ⟨.inl ⟨by omega, hu⟩, fun f hf => ?_⟩
    exact (h.outside f hf).imp_left fun ⟨h₁, h₂⟩ => ⟨h₁, by omega⟩
  · exact List.Pairwise.cons (h.disjoint_of_free hl (by omega)) h.disjoint

/-- **A piece taken at the upper end.** -/
theorem Carved.takeHigh (h : Carved block lo hi es) (hl : hi' ≤ e.base)
    (hu : e.base + e.size ≤ hi) (hlo : lo ≤ hi') : Carved block lo hi' (e :: es) := by
  have hend := h.le_end
  refine ⟨h.base_le, hlo, by omega, ?_, ?_⟩
  · refine List.forall_mem_cons.mpr ⟨.inr ⟨hl, by omega⟩, fun f hf => ?_⟩
    exact (h.outside f hf).imp_right fun ⟨h₁, h₂⟩ => ⟨by omega, h₂⟩
  · exact List.Pairwise.cons (h.disjoint_of_free (by omega) hu) h.disjoint

/-! ## Pieces of many blocks -/

/-- `e` lies in `f`. -/
def Extent.Inside (e f : Extent) : Prop := f.base ≤ e.base ∧ e.base + e.size ≤ f.base + f.size

theorem Extent.Inside.refl (e : Extent) : e.Inside e := ⟨le_rfl, le_rfl⟩

theorem Extent.Inside.trans {e f g : Extent} (h : e.Inside f) (h' : f.Inside g) : e.Inside g :=
  ⟨h'.1.trans h.1, h.2.trans h'.2⟩

/-- Parts of extents that do not overlap do not overlap. -/
theorem Extent.Disjoint.of_inside {e e' f f' : Extent} (h : e.Disjoint f) (he : e'.Inside e)
    (hf : f'.Inside f) : e'.Disjoint f' := by
  rintro x ⟨⟨h₁, h₂⟩, h₃, h₄⟩
  exact h x ⟨⟨he.1.trans h₁, lt_of_lt_of_le h₂ he.2⟩, hf.1.trans h₃, lt_of_lt_of_le h₄ hf.2⟩

/-- An empty extent overlaps nothing. -/
theorem Extent.disjoint_of_size_zero {e : Extent} (h : e.size = 0) (f : Extent) : e.Disjoint f := by
  rintro x ⟨⟨hle, hlt⟩, -⟩
  omega

/-- The pieces `es` have been carved out of `blocks`; `free` is left of one of them, or nothing
is. -/
structure CarvedAll (blocks : List Extent) (free : Extent) (es : List Extent) : Prop where
  inside : ∀ e ∈ es, ∃ b ∈ blocks, e.Inside b
  free_inside : free.size = 0 ∨ ∃ b ∈ blocks, free.Inside b
  free_disjoint : ∀ e ∈ es, free.Disjoint e
  disjoint : es.Pairwise Extent.Disjoint

section Blocks

variable {blocks es : List Extent} {free free' b e : Extent}

/-- No blocks yet. -/
theorem CarvedAll.start (base : ℕ) : CarvedAll [] ⟨base, 0⟩ [] :=
  ⟨by simp, .inl rfl, by simp, List.Pairwise.nil⟩

/-- **A piece of what is left.** -/
theorem CarvedAll.take (h : CarvedAll blocks free es) (hpos : 0 < e.size) (he : e.Inside free)
    (hfree : free'.Inside free) (hdis : free'.Disjoint e) : CarvedAll blocks free' (e :: es) := by
  obtain ⟨b, hb, hin⟩ : ∃ b ∈ blocks, free.Inside b := by
    refine h.free_inside.resolve_left fun hzero => ?_
    have := he.1
    have := he.2
    omega
  refine ⟨?_, .inr ⟨b, hb, hfree.trans hin⟩, ?_, ?_⟩
  · exact List.forall_mem_cons.mpr ⟨⟨b, hb, he.trans hin⟩, h.inside⟩
  · refine List.forall_mem_cons.mpr ⟨hdis, fun f hf => ?_⟩
    exact (h.free_disjoint f hf).of_inside hfree (Extent.Inside.refl f)
  · refine List.Pairwise.cons (fun f hf => ?_) h.disjoint
    exact (h.free_disjoint f hf).of_inside he (Extent.Inside.refl f)

/-- The pieces do not overlap a new block. -/
theorem CarvedAll.disjoint_new (h : CarvedAll blocks free es)
    (hfresh : ∀ f ∈ blocks, f.Disjoint b) :
    ∀ f ∈ es, b.Disjoint f := by
  intro f hf
  obtain ⟨c, hc, hin⟩ := h.inside f hf
  exact (hfresh c hc).symm.of_inside (Extent.Inside.refl b) hin

/-- A new block does not overlap what is left. -/
theorem CarvedAll.disjoint_free (h : CarvedAll blocks free es)
    (hfresh : ∀ f ∈ blocks, f.Disjoint b) : free.Disjoint b := by
  rcases h.free_inside with hzero | ⟨c, hc, hin⟩
  · exact Extent.disjoint_of_size_zero hzero b
  · exact (hfresh c hc).of_inside hin (Extent.Inside.refl b)

/-- **A new block**, from which the next pieces are carved; what was left of the old one is lost. -/
theorem CarvedAll.openBlock (h : CarvedAll blocks free es) (hfresh : ∀ f ∈ blocks, f.Disjoint b) :
    CarvedAll (b :: blocks) b es := by
  refine ⟨fun e he => ?_, .inr ⟨b, List.mem_cons_self .., Extent.Inside.refl b⟩,
    h.disjoint_new hfresh, h.disjoint⟩
  obtain ⟨c, hc, hin⟩ := h.inside e he
  exact ⟨c, List.mem_cons_of_mem _ hc, hin⟩

/-- **A new block, given away whole.** -/
theorem CarvedAll.whole (h : CarvedAll blocks free es) (hfresh : ∀ f ∈ blocks, f.Disjoint b) :
    CarvedAll (b :: blocks) free (b :: es) := by
  have hopen := h.openBlock hfresh
  refine ⟨List.forall_mem_cons.mpr ⟨⟨b, List.mem_cons_self .., Extent.Inside.refl b⟩, hopen.inside⟩,
    ?_, List.forall_mem_cons.mpr ⟨?_, h.free_disjoint⟩,
    List.Pairwise.cons (h.disjoint_new hfresh) h.disjoint⟩
  · exact h.free_inside.imp_right fun ⟨c, hc, hin⟩ => ⟨c, List.mem_cons_of_mem _ hc, hin⟩
  · exact h.disjoint_free hfresh

/-- More blocks. -/
theorem CarvedAll.mono (h : CarvedAll blocks free es) {blocks' : List Extent}
    (hsub : ∀ c ∈ blocks, c ∈ blocks') : CarvedAll blocks' free es :=
  ⟨fun e he => (h.inside e he).imp fun c hc => ⟨hsub c hc.1, hc.2⟩,
    h.free_inside.imp_right fun ⟨c, hc, hin⟩ => ⟨c, hsub c hc, hin⟩, h.free_disjoint, h.disjoint⟩

/-- A piece that someone else has carved out of `free'`. -/
theorem CarvedAll.other (h : CarvedAll blocks free es) (h' : CarvedAll blocks free' (e :: es))
    (hdis : free.Disjoint e) : CarvedAll blocks free (e :: es) :=
  ⟨h'.inside, h.free_inside, List.forall_mem_cons.mpr ⟨hdis, h.free_disjoint⟩, h'.disjoint⟩

end Blocks

/-! ## Many carvers -/

/-- The pieces `es` have been carved out of `blocks`, and `frees i` is left for the carver `i`. -/
structure CarvedMany {ι : Type*} (blocks : List Extent) (frees : ι → Extent) (es : List Extent) :
    Prop where
  carved : ∀ i, CarvedAll blocks (frees i) es
  frees_disjoint : ∀ i j, i ≠ j → (frees i).Disjoint (frees j)

section Carvers

variable {ι : Type*} {blocks es : List Extent} {frees : ι → Extent} {free' b e : Extent}

/-- Nothing has been carved, and nothing is left for anyone. -/
theorem CarvedMany.start (blocks : List Extent) (base : ℕ) :
    CarvedMany blocks (fun _ : ι => ⟨base, 0⟩) [] :=
  ⟨fun _ => (CarvedAll.start base).mono (by simp), fun _ _ _ => Extent.disjoint_of_size_zero rfl _⟩

theorem CarvedMany.mono (h : CarvedMany blocks frees es) {blocks' : List Extent}
    (hsub : ∀ c ∈ blocks, c ∈ blocks') : CarvedMany blocks' frees es :=
  ⟨fun i => (h.carved i).mono hsub, h.frees_disjoint⟩

/-- **A new block, given away whole.** -/
theorem CarvedMany.whole (h : CarvedMany blocks frees es) (hfresh : ∀ f ∈ blocks, f.Disjoint b) :
    CarvedMany (b :: blocks) frees (b :: es) :=
  ⟨fun i => (h.carved i).whole hfresh, h.frees_disjoint⟩

variable [DecidableEq ι]

/-- Replacing one free part by another that overlaps none of the rest. -/
theorem frees_disjoint_update (h : ∀ i j, i ≠ j → (frees i).Disjoint (frees j)) {i : ι}
    (hnew : ∀ j, j ≠ i → free'.Disjoint (frees j)) (j k : ι) (hjk : j ≠ k) :
    (Function.update frees i free' j).Disjoint (Function.update frees i free' k) := by
  rcases eq_or_ne j i with rfl | hj
  · rw [Function.update_self, Function.update_of_ne hjk.symm]
    exact hnew k hjk.symm
  · rw [Function.update_of_ne hj]
    rcases eq_or_ne k i with rfl | hk
    · rw [Function.update_self]
      exact (hnew j hj).symm
    · rw [Function.update_of_ne hk]
      exact h j k hjk

/-- **A piece of what is left for one carver.** -/
theorem CarvedMany.take (h : CarvedMany blocks frees es) {i : ι} (hpos : 0 < e.size)
    (he : e.Inside (frees i)) (hfree : free'.Inside (frees i)) (hdis : free'.Disjoint e) :
    CarvedMany blocks (Function.update frees i free') (e :: es) := by
  have htake := (h.carved i).take hpos he hfree hdis
  constructor
  · intro j
    rcases eq_or_ne j i with rfl | hj
    · rwa [Function.update_self]
    · rw [Function.update_of_ne hj]
      exact (h.carved j).other htake
        ((h.frees_disjoint j i hj).of_inside (Extent.Inside.refl _) he)
  · refine frees_disjoint_update h.frees_disjoint fun j hj => ?_
    exact (h.frees_disjoint i j hj.symm).of_inside hfree (Extent.Inside.refl _)

/-- **A new block for one carver**; what was left for it is lost. -/
theorem CarvedMany.openBlock (h : CarvedMany blocks frees es) (i : ι)
    (hfresh : ∀ f ∈ blocks, f.Disjoint b) :
    CarvedMany (b :: blocks) (Function.update frees i b) es := by
  constructor
  · intro j
    rcases eq_or_ne j i with rfl | hj
    · rw [Function.update_self]
      exact (h.carved j).openBlock hfresh
    · rw [Function.update_of_ne hj]
      exact (h.carved j).mono fun c hc => List.mem_cons_of_mem _ hc
  · exact frees_disjoint_update h.frees_disjoint fun j _ => ((h.carved j).disjoint_free hfresh).symm

end Carvers

end ByteMemory
