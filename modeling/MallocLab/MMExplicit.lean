import MallocLab.MMInit

/-! mm.c: the allocator with one explicit free list, whose first block is the global `head`.
`place`, `coalesce`, `extend_heap`, `mm_free` and `mm_realloc` are the shared definitions applied
to this list. -/
namespace MallocLab.Explicit

open MM

/-- `list_push`: `newblock` becomes the first block of the free list; the call is recorded with
index 0, the one list. -/
def listPush (σ : Heap) (newblock : Nat) : Heap :=
  (pushAt σ .global newblock).record (σ.blockSize newblock) 0

/-- `list_pop`: unlink `removeblock` from the free list and clear its links; recorded as
`listPush`. -/
def listPop (σ : Heap) (removeblock : Nat) : Heap :=
  (popExplicit σ .global removeblock).record (σ.blockSize removeblock) 0

/-- mm.c's free list: one list, holding every free block, headed by `head`. -/
def lists : FreeLists where
  numLists := 1
  cls _ := 0
  loc _ _ := .global
  index _ := 0
  headAt _ _ := .global
  popAt := popExplicit
  cls_lt _ _ := Nat.one_pos
  loc_inj _ _ _ hj hk _ := by omega
  headAt_index _ _ _ _ := rfl
  popAt_spec := popExplicit_spec
  popAt_lo := popExplicit_lo
  popAt_brk := popExplicit_brk
  popAt_prologue := popExplicit_prologue
  popAt_segListHead := popExplicit_segListHead
  popAt_calls := popExplicit_calls

theorem push_eq (σ : Heap) (b : Nat) : lists.push σ b = listPush σ b := rfl

theorem pop_eq (σ : Heap) (b : Nat) : lists.pop σ b = listPop σ b := rfl

/-- `find_fit`: the first block of the free list that is free and has at least `asize` bytes. -/
def findFit (σ : Heap) (asize : Nat) : Option Nat :=
  if σ.head = 0 then none else fitFrom σ asize σ.brk σ.head

/-- `mm_init`: the first `CHUNKSIZE` bytes of the heap hold the prologue, one free block, which
becomes `head`, and the epilogue. -/
def mmInit (ext : Extender) (σ : Heap) : Option Heap :=
  match memSbrk ext σ chunkSize with
  | none => none
  | some (prologue, σ₁) => some (initChunk σ₁ prologue .global)

/-- `mm_malloc`: no block for a request of 0 bytes; otherwise the first fit, or an extension of
the heap, for the adjusted size. -/
def mmMalloc (ext : Extender) (σ : Heap) (size : Nat) : Option (Nat × Heap) :=
  if size = 0 then none else fitOrExtend lists findFit ext σ (adjustSize size)

/-- `mm_free`. -/
def mmFree (σ : Heap) (payload : Nat) : Heap := MM.mmFree lists σ payload

/-- `mm_realloc`. -/
def mmRealloc (ext : Extender) (σ : Heap) (ptr size : Nat) : Option (Nat × Heap) :=
  MM.mmRealloc (mmMalloc ext) lists σ ptr size

/-- mm.c as a program: nothing is kept below the prologue. -/
def program : Program := ⟨lists, 0, mmInit, mmMalloc⟩

variable {σ : Heap} {A : Arena}


theorem mmMalloc_isSome {ext : Extender} {size : Nat} (h0 : size ≠ 0)
    (hg : ext σ.brk (max (adjustSize size) chunkSize) = true) : (mmMalloc ext σ size).isSome := by
  obtain ⟨h32, h8, hlt⟩ := adjustSize_spec size
  simpa [mmMalloc, h0] using fitOrExtend_isSome lists findFit h32 h8 hlt hg

theorem findFit_eq (hR : Repr lists σ A) (hW : A.WF lists (σ.prologue + 8)) (asize : Nat) :
    findFit σ asize = (A.lists 0).find? (fits σ asize) := by
  unfold findFit
  split_ifs with h0
  · have hhead := (hR.lists 0 Nat.one_pos).1
    cases hl : A.lists 0 with
    | nil => rfl
    | cons y l =>
      obtain ⟨-, c, hc, -⟩ := hW.nodes 0 y (by simp [hl])
      have := (mem_placed_bounds hc).1
      simp only [hl, List.headD_cons] at hhead
      simp only [Heap.readHead, lists] at hhead
      omega
  · exact hR.fitFrom_eq hW Nat.one_pos asize

theorem findFit_block (hR : Repr lists σ A) (hW : A.WF lists (σ.prologue + 8)) {asize b : Nat}
    (h : findFit σ asize = some b) :
    ∃ pre c post, A.blocks = pre ++ c :: post ∧ b = σ.prologue + 8 + total pre ∧
      c.allocated = false ∧ asize ≤ c.size := by
  rw [findFit_eq hR hW] at h
  exact hR.fit_block hW (List.mem_of_find?_eq_some h) (List.find?_some h)

theorem init_eq {ext : Extender} (h : ext σ.brk chunkSize = true) :
    program.init ext σ = some (initChunk { σ with brk := σ.brk + chunkSize } σ.brk .global) := by
  simp [program, mmInit, memSbrk, h]

theorem init_repr {σ₀ : Heap} :
    Repr lists (initChunk { σ₀ with brk := σ₀.brk + chunkSize } σ₀.brk .global)
      (initArena lists σ₀.brk) :=
  initChunk_repr rfl (fun k hk hne => absurd (by simpa [lists] using hk) hne)
    (fun _ _ _ hc => by cases hc)

theorem initSpec : program.InitSpec := by
  intro ext σ₀ σ h₀ h8 _ h
  simp only [program, mmInit, memSbrk] at h
  split_ifs at h
  cases h
  exact initChunk_good (P := program) rfl (by simp [program, h₀]) (h₀ ▸ h8) (by simp [program])
    (fun k hk hne => absurd (by simpa [program, lists] using hk) hne) (fun _ _ _ hc => by cases hc)

theorem mallocSpec : program.MallocSpec := by
  intro ext σ A u p σ' hR hI hext hlo hbound hu h
  have hne : u ≠ 0 := by rintro rfl; simp [program, mmMalloc] at h
  obtain ⟨h32, h8, -⟩ := reqSize_spec u
  simp only [program, mmMalloc, if_neg hne, adjustSize_eq u (by omega)] at h
  obtain ⟨block, σ₁, rfl, rfl, hP⟩ := fitOrExtend_prepared hR hI hext hlo hbound h32 h8
    (by omega) (fun b hb => findFit_block hR hI.toWF hb) h
  exact ⟨by omega, σ₁, by simpa using hP, by simp⟩

end MallocLab.Explicit
