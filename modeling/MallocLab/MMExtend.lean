import MallocLab.MMCoalesce

/-! `extend_heap`, shared by both programs: growing the heap by one free block at its end. -/
namespace MallocLab.MM

/-- `extend_heap`: grow the heap by `words` words. The old epilogue becomes the header of a new
free block, which gets a footer and is pushed on its list, and a new epilogue ends the heap.
`size` is a `uint32_t`; mm.c always coalesces, part_000's fast path does not. -/
def extendHeap (L : FreeLists) (ext : Extender) (σ : Heap) (words : Nat) (willCoalesce : Bool) :
    Option (Nat × Heap) :=
  let size := words * 8 % 2^32
  if size = 0 then none
  else match memSbrk ext σ size with
    | none => none
    | some (bp, σ₁) =>
      let block := bp - 8
      let σ₂ := (σ₁.setAllocated block false).setBlockSize block size
      let footer := getFooter σ₂ block
      let σ₃ := (σ₂.setAllocated footer false).setBlockSize footer (σ₂.blockSize block)
      let newEpilogue := footer + 8
      let σ₄ := (σ₃.setAllocated newEpilogue true).setBlockSize newEpilogue 0
      let σ₅ := L.push σ₄ block
      if willCoalesce then some (coalesce L σ₅ block) else some (block, σ₅)

theorem extendHeap_eq_none {L : FreeLists} {ext : Extender} {σ : Heap} {words : Nat}
    {willCoalesce : Bool} (h : words * 8 % 2^32 = 0 ∨ ext σ.brk (words * 8 % 2^32) = false) :
    extendHeap L ext σ words willCoalesce = none := by
  unfold extendHeap
  generalize words * 8 % 2^32 = size at h ⊢
  rcases h with h | h <;> simp [memSbrk, h]

theorem extendHeap_isSome {L : FreeLists} {ext : Extender} {σ : Heap} {words : Nat}
    {willCoalesce : Bool} (h0 : words * 8 % 2^32 ≠ 0) (hg : ext σ.brk (words * 8 % 2^32) = true) :
    (extendHeap L ext σ words willCoalesce).isSome := by
  unfold extendHeap
  generalize words * 8 % 2^32 = size at h0 hg ⊢
  cases willCoalesce <;> simp [memSbrk, h0, hg]

theorem extendHeap_brk {L : FreeLists} {ext : Extender} {σ σ' : Heap} {words b : Nat}
    {willCoalesce : Bool} (h : extendHeap L ext σ words willCoalesce = some (b, σ')) :
    σ'.brk = σ.brk + words * 8 % 2^32 ∧ words * 8 % 2^32 ≠ 0 := by
  unfold extendHeap at h
  generalize words * 8 % 2^32 = size at h ⊢
  by_cases h0 : size = 0
  · simp [h0] at h
  by_cases hg : ext σ.brk size = true
  · refine ⟨?_, h0⟩
    cases willCoalesce <;> simp [h0, memSbrk, hg] at h
    · rw [← h.2]; simp
    · rw [← congrArg (fun r : Nat × Heap => r.2.brk) h]; simp
  · simp [h0, memSbrk, hg] at h

namespace Arena

/-- The arena after growing the heap by a free block of `size` bytes, pushed on its list. -/
def grow (L : FreeLists) (start : Nat) (A : Arena) (size : Nat) : Arena :=
  (⟨A.blocks ++ [⟨size, false⟩], A.lists⟩ : Arena).cons (L.cls size) (start + total A.blocks)

@[simp] theorem grow_blocks (L : FreeLists) (start : Nat) (A : Arena) (size : Nat) :
    (A.grow L start size).blocks = A.blocks ++ [⟨size, false⟩] := rfl

theorem mem_grow_lists {L : FreeLists} {start : Nat} {A : Arena} {size k y : Nat} :
    y ∈ (A.grow L start size).lists k ↔
      (k = L.cls size ∧ y = start + total A.blocks) ∨ y ∈ A.lists k :=
  mem_cons_lists

theorem Listed.grow {L : FreeLists} {start : Nat} {A : Arena} (hW : A.WF L start)
    (hL : A.Listed L start) (size : Nat) : (A.grow L start size).Listed L start := by
  have hpos := hW.sized.pos
  refine ⟨fun x b hx hbf => ?_, fun k x b hx hxb => ?_⟩
  · simp only [grow_blocks, placed_append, List.mem_append, placed_cons, placed_nil,
      List.mem_singleton, Prod.mk.injEq] at hx
    rw [mem_grow_lists]
    rcases hx with hx | ⟨rfl, rfl⟩
    · exact .inr (hL.free_mem x b hx hbf)
    · exact .inl ⟨rfl, rfl⟩
  · simp only [grow_blocks, placed_append, List.mem_append, placed_cons, placed_nil,
      List.mem_singleton, Prod.mk.injEq] at hxb
    rcases mem_grow_lists.mp hx with ⟨rfl, rfl⟩ | hx
    · rcases hxb with hxb | ⟨-, rfl⟩
      · have := (mem_placed_bounds hxb).2
        have := hpos b (mem_placed_block hxb)
        omega
      · rfl
    · rcases hxb with hxb | ⟨rfl, rfl⟩
      · exact hL.mem_cls k x b hx hxb
      · obtain ⟨c, hc, -⟩ := (hW.nodes k _ hx).2
        have := (mem_placed_bounds hc).2
        have := hpos c (mem_placed_block hc)
        omega

end Arena

namespace Repr

variable {L : FreeLists} {σ : Heap} {A : Arena}

/-- The writes of `extend_heap` before the push: the old epilogue becomes the header of a free
block of `size` bytes, its footer and the new epilogue follow. -/
theorem grow (hR : Repr L σ A) (hW : A.WF L (σ.prologue + 8)) {size : Nat} (h32 : 32 ≤ size)
    (hs : size < 2^31) :
    Repr L ((((((({ σ with brk := σ.brk + size } : Heap).setAllocated (σ.brk - 8) false).setBlockSize
        (σ.brk - 8) size).setAllocated (σ.brk - 8 + size - 8) false).setBlockSize
        (σ.brk - 8 + size - 8) size).setAllocated (σ.brk - 8 + size) true).setBlockSize
        (σ.brk - 8 + size) 0) ⟨A.blocks ++ [⟨size, false⟩], A.lists⟩ := by
  set e := σ.prologue + 8 + total A.blocks
  have hbrk := hR.brk
  have he : σ.brk - 8 = e := by omega
  rw [he]
  set σ' := (((((({ σ with brk := σ.brk + size } : Heap).setAllocated e false).setBlockSize e
    size).setAllocated (e + size - 8) false).setBlockSize (e + size - 8) size).setAllocated
    (e + size) true).setBlockSize (e + size) 0
  have keep : ∀ a, a < e → σ'.mem a = σ.mem a := fun a ha => by
    simp (disch := omega) only [σ', Heap.setAllocated_mem_of_ne, Heap.setBlockSize_mem_of_ne]
  have tag_keep : ∀ a, a < e → σ'.tag a = σ.tag a := fun a ha => by
    simp only [Heap.tag, Heap.blockSize, Heap.allocated, keep a ha]
  have hpro : σ'.prologue = σ.prologue := rfl
  refine ⟨?_, ?_, ?_, ?_, fun k hk => ?_, fun k hk c hc => hR.slots k hk c hc, hR.calls⟩
  · rw [hpro, tag_keep _ (by omega)]; exact hR.prologue
  · rw [hpro, tags_append]
    refine ⟨hR.tags.of_agree fun x b hx => ?_, ?_⟩
    · have := (mem_placed_bounds hx).2
      have := (hW.sized b (mem_placed_block hx)).1
      exact ⟨keep _ (by omega), keep _ (by omega)⟩
    · simp (disch := omega) only [tags_cons, tags_nil, and_true, σ', Heap.tag_setAllocated_of_ne,
        Heap.tag_setBlockSize_of_ne, Heap.tag_setBlockSize_self, Heap.allocated_setAllocated_self,
        Nat.mod_eq_of_lt]
  · show σ'.tag (σ'.prologue + 8 + total (A.blocks ++ [⟨size, false⟩])) = _
    simp only [total_append, total_cons, total_nil, Nat.add_zero, hpro, ← Nat.add_assoc]
    simp [σ', Heap.tag_setBlockSize_self]
  · show σ.brk + size = σ'.prologue + 8 + total (A.blocks ++ [⟨size, false⟩]) + 8
    simp only [total_append, total_cons, total_nil, hpro]
    omega
  · refine (hR.lists k hk).of_agree ?_ fun x hx => ?_
    · cases hc : L.loc σ.segListHead k with
      | cell c => exact keep c (by have := hR.slots k hk c hc; omega)
      | global => rfl
    · obtain ⟨-, c, hc, -⟩ := hW.nodes k x hx
      have := (mem_placed_bounds hc).2
      have := (hW.sized c (mem_placed_block hc)).1
      exact ⟨keep _ (by omega), keep _ (by omega)⟩

/-- `extend_heap` of a granted `words * 8` bytes pushes the new free block, giving `Arena.grow`,
then coalesces it if asked; it writes only past the old heap and in free link words. -/
theorem extendHeap_spec (hR : Repr L σ A) (hW : A.WF L (σ.prologue + 8)) {ext : Extender}
    {words : Nat} (h32 : 32 ≤ words * 8) (hs : words * 8 < 2^31)
    (hgrant : ext σ.brk (words * 8) = true) :
    ∃ σ', Repr L σ' (A.grow L (σ.prologue + 8) (words * 8)) ∧
      (A.grow L (σ.prologue + 8) (words * 8)).WF L (σ.prologue + 8) ∧
      σ.WritesIn (FreeCell (σ.prologue + 8) A.blocks) σ' ∧ σ'.prologue = σ.prologue ∧
      σ'.lo = σ.lo ∧ ∀ c, extendHeap L ext σ words c =
        some (if c then coalesce L σ' (σ.prologue + 8 + total A.blocks)
          else (σ.prologue + 8 + total A.blocks, σ')) := by
  have hbrk := hR.brk
  have hsize : words * 8 % 2^32 = words * 8 := Nat.mod_eq_of_lt (by omega)
  have he : σ.brk - 8 = σ.prologue + 8 + total A.blocks := by omega
  have hep : σ.brk - 8 + words * 8 - 8 + 8 = σ.brk - 8 + words * 8 := by omega
  have hR₁ := hR.grow hW h32 hs
  set σ₁ := ((((((({ σ with brk := σ.brk + words * 8 } : Heap).setAllocated (σ.brk - 8)
    false).setBlockSize (σ.brk - 8) (words * 8)).setAllocated (σ.brk - 8 + words * 8 - 8)
    false).setBlockSize (σ.brk - 8 + words * 8 - 8) (words * 8)).setAllocated
    (σ.brk - 8 + words * 8) true).setBlockSize (σ.brk - 8 + words * 8) 0) with hσ₁
  have hpro : σ₁.prologue = σ.prologue := rfl
  have hW₁ : (⟨A.blocks ++ [⟨words * 8, false⟩], A.lists⟩ : Arena).WF L (σ₁.prologue + 8) := by
    refine ⟨Sized.append.mpr ⟨hW.sized, fun d hd => ?_⟩, hW.nodup, hW.disjoint, fun k x hx => ?_⟩
    · simp only [List.mem_singleton] at hd
      subst hd; exact ⟨h32, by simp⟩
    · obtain ⟨hk, c, hc, hcf⟩ := hW.nodes k x hx
      exact ⟨hk, c, by simpa [placed_append] using .inl hc, hcf⟩
  have hx : (σ.prologue + 8 + total A.blocks, (⟨words * 8, false⟩ : Block)) ∈
      placed (σ₁.prologue + 8) (A.blocks ++ [⟨words * 8, false⟩]) := by
    simp [placed_append, hpro]
  obtain ⟨hR₂, hW₂, hF₂⟩ := hR₁.push hW₁ hx rfl fun k hk => by
    obtain ⟨-, c, hc, -⟩ := hW.nodes k _ hk
    have := (mem_placed_bounds hc).2
    have := (hW.sized c (mem_placed_block hc)).1
    omega
  refine ⟨L.push σ₁ (σ.prologue + 8 + total A.blocks), hR₂, hW₂, fun a ha => ?_, by simp [hpro],
    by simp [σ₁], fun c => ?_⟩
  · have hlt : a < σ.prologue + 8 + total A.blocks := by
      by_contra h; exact ha (.inr (.inl (by omega)))
    rw [hF₂ a fun h => ha (by simpa [hpro] using h.of_snoc)]
    simp (disch := omega) only [σ₁, Heap.setAllocated_mem_of_ne, Heap.setBlockSize_mem_of_ne]
  · have h0 : words * 8 ≠ 0 := by omega
    rw [← he]
    unfold extendHeap
    rw [hsize]
    cases c <;> simp (disch := omega) [h0, memSbrk, hgrant, getFooter, Nat.mod_eq_of_lt, hep, σ₁]

end Repr

end MallocLab.MM
