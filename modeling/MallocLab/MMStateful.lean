import MallocLab.MMPaths

/-! `mm_malloc` with the heap it leaves on every return, NULL included. The model the other
modules use returns no heap with a NULL result; here the heap is threaded through the code as it
runs, through `mem_sbrk`, `extend_heap` and `find_fit`. One refinement lemma per function says
that the two models agree, the heap of a NULL result being the heap the call started from. -/
namespace MallocLab.MM

/-- A result of the model without a heap on failure, with the heap the call leaves: its own heap,
or `σ`, the heap the call started from, on NULL. -/
def withHeap {α : Type} (σ : Heap) : Option (α × Heap) → Option α × Heap
  | some (b, σ') => (some b, σ')
  | none => (none, σ)

namespace Stateful

/-- memlib's `mem_sbrk` with the heap it leaves: the old break on a grant, `(void *)-1`, here
`none`, on a refusal, which moves nothing. -/
def memSbrk (ext : Extender) (σ : Heap) (incr : Nat) : Option Nat × Heap :=
  if ext σ.brk incr then (some σ.brk, { σ with brk := σ.brk + incr }) else (none, σ)

/-- `extend_heap` with the heap it leaves. -/
def extendHeap (L : FreeLists) (ext : Extender) (σ : Heap) (words : Nat) (willCoalesce : Bool) :
    Option Nat × Heap :=
  let size := words * 8 % 2^32
  if size = 0 then (none, σ)
  else match memSbrk ext σ size with
    | (none, σ₁) => (none, σ₁)
    | (some bp, σ₁) =>
      let block := bp - 8
      let σ₂ := (σ₁.setAllocated block false).setBlockSize block size
      let footer := getFooter σ₂ block
      let σ₃ := (σ₂.setAllocated footer false).setBlockSize footer (σ₂.blockSize block)
      let newEpilogue := footer + 8
      let σ₄ := (σ₃.setAllocated newEpilogue true).setBlockSize newEpilogue 0
      let σ₅ := L.push σ₄ block
      if willCoalesce then
        let r := coalesce L σ₅ block
        (some r.1, r.2)
      else (some block, σ₅)

/-- The part of `mm_malloc` both programs share, with the heap it leaves; `find_fit` only
reads. -/
def fitOrExtend (L : FreeLists) (findFit : Heap → Nat → Option Nat) (ext : Extender) (σ : Heap)
    (asize : Nat) : Option Nat × Heap :=
  match findFit σ asize with
  | some block => (some (block + 8), place L σ block asize)
  | none =>
    let extendsize := if asize > chunkSize then asize else chunkSize
    let extendwords := extendsize / 8
    match extendHeap L ext σ extendwords true with
    | (some block, σ₁) => (some (block + 8), place L σ₁ block asize)
    | (none, σ₁) => (none, σ₁)

/-- `mm_malloc` of each program with the heap it leaves. In part_000 the search goes on from the
heap the refused small-request extension left. -/
def mmMalloc : Variant → Extender → Heap → Nat → Option Nat × Heap
  | .explicit, ext, σ, size =>
    if size = 0 then (none, σ)
    else fitOrExtend Explicit.lists Explicit.findFit ext σ (adjustSize size)
  | .seg, ext, σ, size =>
    if size = 0 then (none, σ)
    else
      let asize := adjustSize size
      let fast := if asize ≤ 96 then extendHeap Seg.lists ext σ (asize / 8) false else (none, σ)
      match fast with
      | (some block, σ₁) => (some (block + 8), place Seg.lists σ₁ block asize)
      | (none, σ₁) => fitOrExtend Seg.lists Seg.findFit ext σ₁ asize

theorem memSbrk_eq (ext : Extender) (σ : Heap) (incr : Nat) :
    memSbrk ext σ incr = withHeap σ (MM.memSbrk ext σ incr) := by
  unfold memSbrk MM.memSbrk
  split_ifs <;> rfl

theorem extendHeap_eq (L : FreeLists) (ext : Extender) (σ : Heap) (words : Nat)
    (willCoalesce : Bool) :
    extendHeap L ext σ words willCoalesce = withHeap σ (MM.extendHeap L ext σ words willCoalesce) := by
  unfold extendHeap MM.extendHeap
  dsimp only
  rw [memSbrk_eq]
  split_ifs <;> cases MM.memSbrk ext σ (words * 8 % 2^32) <;> rfl

theorem fitOrExtend_eq (L : FreeLists) (findFit : Heap → Nat → Option Nat) (ext : Extender)
    (σ : Heap) (asize : Nat) :
    fitOrExtend L findFit ext σ asize = withHeap σ (MM.fitOrExtend L findFit ext σ asize) := by
  unfold fitOrExtend MM.fitOrExtend
  cases findFit σ asize with
  | some block => rfl
  | none =>
    dsimp only
    rw [extendHeap_eq]
    cases MM.extendHeap L ext σ ((if asize > chunkSize then asize else chunkSize) / 8) true <;> rfl

/-- The two models of `mm_malloc` agree: the heap a NULL result leaves is the heap the call
started from. -/
theorem mmMalloc_eq (v : Variant) (ext : Extender) (σ : Heap) (u : Nat) :
    mmMalloc v ext σ u = withHeap σ (v.program.malloc ext σ u) := by
  cases v with
  | explicit =>
    simp only [mmMalloc, Variant.program, Explicit.program, Explicit.mmMalloc]
    split_ifs
    · rfl
    · exact fitOrExtend_eq ..
  | seg =>
    simp only [mmMalloc, Variant.program, Seg.program, Seg.mmMalloc]
    split_ifs
    · rfl
    · rw [extendHeap_eq]
      cases MM.extendHeap Seg.lists ext σ (adjustSize u / 8) false with
      | none => exact fitOrExtend_eq ..
      | some r => rfl
    · exact fitOrExtend_eq ..

end Stateful

variable {L : FreeLists} {findFit : Heap → Nat → Option Nat} {ext : Extender} {σ : Heap}

theorem fitOrExtend_eq_none {asize : Nat} (h : fitOrExtend L findFit ext σ asize = none) :
    findFit σ asize = none ∧ extendHeap L ext σ
      ((if asize > chunkSize then asize else chunkSize) / 8) true = none := by
  unfold fitOrExtend at h
  split at h
  · cases h
  · rename_i hf
    refine ⟨hf, ?_⟩
    dsimp only at h
    split at h
    · cases h
    · assumption

/-- `mm_malloc` returns NULL only for a request of 0 bytes, or when `find_fit` finds nothing and
every extension it tries is refused. -/
theorem Variant.malloc_eq_none (v : Variant) {u : Nat} (h : v.program.malloc ext σ u = none) :
    u = 0 ∨ v.findFit σ (adjustSize u) = none ∧
      extendHeap v.program.L ext σ
        ((if adjustSize u > chunkSize then adjustSize u else chunkSize) / 8) true = none ∧
      (v = .seg → adjustSize u ≤ 96 →
        extendHeap v.program.L ext σ (adjustSize u / 8) false = none) := by
  by_cases hu : u = 0
  · exact .inl hu
  refine .inr ?_
  cases v with
  | explicit =>
    simp only [Variant.program, Explicit.program, Explicit.mmMalloc, if_neg hu] at h
    exact ⟨(fitOrExtend_eq_none h).1, (fitOrExtend_eq_none h).2, fun hv => nomatch hv⟩
  | seg =>
    simp only [Variant.program, Seg.program, Seg.mmMalloc, if_neg hu] at h
    split at h
    · cases h
    · rename_i hfast
      exact ⟨(fitOrExtend_eq_none h).1, (fitOrExtend_eq_none h).2,
        fun _ h96 => by simpa [h96] using hfast⟩

/-- A NULL `mm_malloc` leaves the whole heap as it was: the request was 0 or every extension tried
was refused. -/
theorem malloc_null_unchanged (v : Variant) (ext : Extender) (σ : Heap) (u : Nat)
    (h : (Stateful.mmMalloc v ext σ u).1 = none) :
    (Stateful.mmMalloc v ext σ u).2 = σ ∧
      (u = 0 ∨ v.findFit σ (adjustSize u) = none ∧
        extendHeap v.program.L ext σ
          ((if adjustSize u > chunkSize then adjustSize u else chunkSize) / 8) true = none ∧
        (v = .seg → adjustSize u ≤ 96 →
          extendHeap v.program.L ext σ (adjustSize u / 8) false = none)) := by
  rw [Stateful.mmMalloc_eq] at h ⊢
  cases hm : v.program.malloc ext σ u with
  | none => exact ⟨rfl, v.malloc_eq_none hm⟩
  | some r => rw [hm] at h; cases h

/-- Right after mm.c's `mm_init`, with every growth refused, a request of `2^16` bytes finds no
fit in the initial block and gets NULL, and the heap is as it was. -/
theorem malloc_null_after_init :
    ∃ s : Client, Variant.explicit.program.Reachable s ∧
      (Stateful.mmMalloc .explicit (fun _ _ => false) s.heap (2^16)).1 = none ∧
      (Stateful.mmMalloc .explicit (fun _ _ => false) s.heap (2^16)).2 = s.heap := by
  have hs : Variant.explicit.program.Reachable
      ⟨initChunk { (⟨fun _ => 0, 0, 0, 0, 0, 0, []⟩ : Heap) with brk := 0 + chunkSize } 0 .global, []⟩ :=
    @Program.Reachable.init _ _ ⟨fun _ => 0, 0, 0, 0, 0, 0, []⟩ _ rfl rfl (Extender.upTo_bounded 0)
      (Explicit.init_eq rfl)
  have hR : Repr Variant.explicit.program.L
      (initChunk { (⟨fun _ => 0, 0, 0, 0, 0, 0, []⟩ : Heap) with brk := 0 + chunkSize } 0 .global)
      (initArena Explicit.lists 0) := Explicit.init_repr
  have hfits : fits (initChunk { (⟨fun _ => 0, 0, 0, 0, 0, 0, []⟩ : Heap) with brk := 0 + chunkSize }
      0 .global) (adjustSize (2^16)) 8 = false := by
    rw [hR.fits_eq (show ((8 : Nat), (⟨chunkSize - 16, false⟩ : Block)) ∈ placed
      ((initChunk { (⟨fun _ => 0, 0, 0, 0, 0, 0, []⟩ : Heap) with brk := 0 + chunkSize } 0
        .global).prologue + 8) (initArena Explicit.lists 0).blocks by simp [initArena])]
    decide
  have hnone : Variant.explicit.program.malloc (fun _ _ => false) (initChunk
      { (⟨fun _ => 0, 0, 0, 0, 0, 0, []⟩ : Heap) with brk := 0 + chunkSize } 0 .global) (2^16) = none := by
    have hfit : Variant.explicit.findFit (initChunk { (⟨fun _ => 0, 0, 0, 0, 0, 0, []⟩ : Heap) with
        brk := 0 + chunkSize } 0 .global) (adjustSize (2^16)) = none := by
      rw [Variant.findFit_eq .explicit hR (by simpa using (initArena_inv Explicit.lists 0).toWF)
        (adjustSize_spec _).1, Variant.scan, List.findSome?_cons, show (initArena Explicit.lists 0).lists 0 = [8] from rfl,
        List.find?_cons_of_neg _ (by rw [hfits]; decide)]
      rfl
    simp only [Variant.program, Explicit.program, Explicit.mmMalloc, if_neg (show 2^16 ≠ 0 by decide),
      fitOrExtend]
    rw [show Explicit.findFit _ (adjustSize (2^16)) = none from hfit,
      extendHeap_eq_none (.inr rfl)]
  have h : (Stateful.mmMalloc .explicit (fun _ _ => false) (initChunk
      { (⟨fun _ => 0, 0, 0, 0, 0, 0, []⟩ : Heap) with brk := 0 + chunkSize } 0 .global) (2^16)).1 =
        none := by
    rw [Stateful.mmMalloc_eq, hnone]
    rfl
  exact ⟨_, hs, h, (malloc_null_unchanged .explicit _ _ _ h).1⟩

end MallocLab.MM
