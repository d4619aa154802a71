import MallocLab.MMExplicit
import MallocLab.MMSeg
import MallocLab.MMView

/-! The two programs of the repository side by side, and the invariant of their runs. -/
namespace MallocLab.MM

/-- The two allocators: mm.c with one free list, part_000 with segregated lists. -/
inductive Variant
  | explicit
  | seg

namespace Variant

/-- The program of each variant. -/
def program : Variant → Program
  | explicit => Explicit.program
  | seg => Seg.program

theorem initSpec : ∀ v : Variant, v.program.InitSpec
  | explicit => Explicit.initSpec
  | seg => Seg.initSpec

theorem mallocSpec : ∀ v : Variant, v.program.MallocSpec
  | explicit => Explicit.mallocSpec
  | seg => Seg.mallocSpec

/-- Every state a run of either program reaches has the invariant. -/
theorem good (v : Variant) {s : Client} (h : v.program.Reachable s) : v.program.Good s :=
  h.good (v.initSpec) (v.mallocSpec)

theorem malloc_isSome (v : Variant) {ext : Extender} {σ : Heap} {u : Nat} (hu : u ≠ 0)
    (hg : ext σ.brk (max (adjustSize u) chunkSize) = true) : (v.program.malloc ext σ u).isSome := by
  cases v
  · exact Explicit.mmMalloc_isSome hu hg
  · exact Seg.mmMalloc_isSome hu hg

/-- `mm_init` from an empty heap, under the extender that grants every growth below `2^31`
bytes, succeeds with a heap of at most `88 + CHUNKSIZE` bytes. -/
theorem init_isSome (v : Variant) {σ₀ : Heap} (h₀ : σ₀.brk = σ₀.lo) :
    ∃ σ, v.program.init (Extender.upTo σ₀.lo) σ₀ = some σ ∧ σ.lo = σ₀.lo ∧
      σ.brk ≤ σ₀.lo + 8 * Seg.totalNumList + chunkSize := by
  have hg : ∀ brk n, brk + n ≤ σ₀.lo + 8 * Seg.totalNumList + chunkSize →
      Extender.upTo σ₀.lo brk n = true := fun brk n h => by
    simp only [Extender.upTo, decide_eq_true_eq]; unfold Seg.totalNumList chunkSize at h; omega
  cases v with
  | explicit =>
    exact ⟨_, Explicit.init_eq (hg _ _ (by omega)), by simp, by simp; omega⟩
  | seg =>
    obtain ⟨σ, h, hlo, hbrk⟩ := Seg.init_isSome (σ := σ₀)
      (hg σ₀.brk (8 * Seg.totalNumList) (by omega)) (hg _ _ (by omega))
    exact ⟨σ, h, hlo, by omega⟩

/-- Either program has a run: `mm_init` on the empty heap at address 0. -/
theorem reachable_init (v : Variant) :
    ∃ σ, v.program.Reachable ⟨σ, []⟩ ∧ σ.lo = 0 ∧ σ.brk ≤ 8 * Seg.totalNumList + chunkSize := by
  obtain ⟨σ, h, hlo, hbrk⟩ := v.init_isSome
    (show (⟨fun _ => 0, 0, 0, 0, 0, 0, []⟩ : Heap).brk = (⟨fun _ => 0, 0, 0, 0, 0, 0, []⟩ : Heap).lo from rfl)
  exact ⟨σ, @Program.Reachable.init _ _ ⟨fun _ => 0, 0, 0, 0, 0, 0, []⟩ σ rfl rfl
    (Extender.upTo_bounded 0) h, hlo, hbrk⟩

/-- Right after `mm_init`, a request of `u > 0` bytes with an adjusted size of at most `2^30`
is served under the extender that grants every growth below `2^31` bytes. -/
theorem exists_malloc (v : Variant) {u : Nat} (hu : u ≠ 0) (hsz : adjustSize u ≤ 2^30) :
    ∃ s p σ', v.program.Reachable s ∧ (Extender.upTo s.heap.lo).Bounded s.heap.lo ∧
      v.program.malloc (Extender.upTo s.heap.lo) s.heap u = some (p, σ') := by
  obtain ⟨σ, hs, hlo, hbrk⟩ := v.reachable_init
  have hg : Extender.upTo 0 σ.brk (max (adjustSize u) chunkSize) = true := by
    simp only [Extender.upTo, decide_eq_true_eq]; unfold Seg.totalNumList chunkSize at *; omega
  obtain ⟨⟨p, σ'⟩, h⟩ := Option.isSome_iff_exists.mp (v.malloc_isSome hu hg)
  exact ⟨⟨σ, []⟩, p, σ', hs, Extender.upTo_bounded _, by simpa [hlo] using h⟩

end Variant

end MallocLab.MM
