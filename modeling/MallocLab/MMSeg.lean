import MallocLab.MMInit

/-! part_000: the allocator with `TOTALNUMLIST` segregated free lists, whose heads form the
array `segListHead` at the bottom of the heap, and with a fast path that serves small requests
from a fresh extension. `place`, `coalesce`, `extend_heap`, `mm_free` and `mm_realloc` are the
shared definitions applied to these lists. -/
namespace MallocLab.Seg

open MM

/-- `TOTALNUMLIST`. -/
def totalNumList : Nat := 11

/-- `logBaseTwo`: `31 - __builtin_clz(input)`, the position of the highest set bit of the input
taken as a 32-bit unsigned value. -/
def logBaseTwo (input : Nat) : Nat := Nat.log2 (input % 2^32)

/-- `segListIndex`: the list of a size, `logBaseTwo(input) - 5` capped at `TOTALNUMLIST - 1`. -/
def segListIndex (input : Nat) : Int :=
  let index : Int := logBaseTwo input - 5
  if index < totalNumList - 1 then index else totalNumList - 1

/-- The cell `segListHead[index]`, `8 * index` bytes from the base of the array: below it for a
negative index. -/
def headCell (σ : Heap) (index : Int) : HeadLoc :=
  .cell (if 0 ≤ index then σ.segListHead + 8 * index.natAbs else σ.segListHead - 8 * index.natAbs)

/-- `list_push`: `newblock` becomes the first block of list `index`; the call is recorded. -/
def listPush (σ : Heap) (newblock : Nat) (index : Int) : Heap :=
  (pushAt σ (headCell σ index) newblock).record (σ.blockSize newblock) index

/-- `list_pop`: unlink `removeblock` from list `index`; the call is recorded. -/
def listPop (σ : Heap) (removeblock : Nat) (index : Int) : Heap :=
  (popSeg σ (headCell σ index) removeblock).record (σ.blockSize removeblock) index

theorem segListIndex_le (s : Nat) : segListIndex s ≤ totalNumList - 1 := by
  simp only [segListIndex]; split_ifs <;> omega

theorem logBaseTwo_eq {s k : Nat} (h₁ : 2^k ≤ s % 2^32) (h₂ : s % 2^32 < 2^(k + 1)) :
    logBaseTwo s = k := by
  have h0 : s % 2^32 ≠ 0 := by have := Nat.one_le_two_pow (n := k); omega
  have := (Nat.le_log2 h0).mpr h₁
  have := (Nat.log2_lt h0).mpr h₂
  unfold logBaseTwo; omega

/-- Every block size of a heap below `2^31` bytes has a list in `0..TOTALNUMLIST - 1`. -/
theorem segListIndex_nonneg {s : Nat} (h : 32 ≤ s) (hs : s < 2^32) : 0 ≤ segListIndex s := by
  have hm : s % 2^32 = s := Nat.mod_eq_of_lt hs
  have := (Nat.le_log2 (n := s % 2^32) (k := 5) (by omega)).mpr (by rw [hm]; simpa using h)
  simp only [segListIndex, logBaseTwo, totalNumList]; split_ifs <;> omega

/-- `segListIndex` does not decrease with the size, over the sizes of a `uint32_t`. -/
theorem segListIndex_mono {a b : Nat} (h0 : 0 < a) (hab : a ≤ b) (hb : b < 2^32) :
    segListIndex a ≤ segListIndex b := by
  have : logBaseTwo a ≤ logBaseTwo b := by
    unfold logBaseTwo
    rw [Nat.mod_eq_of_lt (show a < 2^32 by omega), Nat.mod_eq_of_lt hb]
    exact (Nat.le_log2 (by omega)).mpr ((Nat.log2_self_le (by omega)).trans hab)
  simp only [segListIndex]
  split_ifs <;> omega

/-- part_000's lists: each call indexes `segListHead` by the signed `segListIndex(size)`. The
arena numbers its lists by that index, which `headAt_index` shows is at least 0 for block sizes. -/
def lists : FreeLists where
  numLists := totalNumList
  cls s := (segListIndex s).toNat
  loc seg k := .cell (seg + 8 * k)
  index := segListIndex
  headAt := headCell
  popAt := popSeg
  cls_lt s _ := by have := segListIndex_le s; simp only [totalNumList] at *; omega
  loc_inj _ _ _ _ _ h := by simp only [HeadLoc.cell.injEq] at h; omega
  headAt_index σ s h32 hs := by
    have h0 := segListIndex_nonneg h32 (by omega)
    simp only [headCell, if_pos h0, HeadLoc.cell.injEq]
    omega
  popAt_spec := popSeg_spec
  popAt_lo := popSeg_lo
  popAt_brk := popSeg_brk
  popAt_prologue := popSeg_prologue
  popAt_segListHead := popSeg_segListHead
  popAt_calls := popSeg_calls

theorem push_eq (σ : Heap) (b : Nat) :
    lists.push σ b = listPush σ b (segListIndex (σ.blockSize b)) := rfl

theorem pop_eq (σ : Heap) (b : Nat) :
    lists.pop σ b = listPop σ b (segListIndex (σ.blockSize b)) := rfl

/-- The lists `find_fit(asize)` searches, in order: `i` from `segListIndex(asize)` while
`i < TOTALNUMLIST`, that is `TOTALNUMLIST - sizeIndex` iterations, or none. -/
def fitIndices (asize : Nat) : List Int :=
  (List.range (totalNumList - segListIndex asize).toNat).map fun (j : Nat) => segListIndex asize + j

/-- `find_fit`: the first block of the lists `fitIndices asize` that is free and has at least
`asize` bytes. -/
def findFit (σ : Heap) (asize : Nat) : Option Nat :=
  (fitIndices asize).findSome? fun i => fitFrom σ asize σ.brk (σ.readHead (headCell σ i))

/-- For a block size, `find_fit` searches list `segListIndex(asize)` and those above it. -/
theorem fitIndices_eq {asize : Nat} (h32 : 32 ≤ asize) (hlt : asize < 2^32) :
    fitIndices asize =
      (List.range' (lists.cls asize) (totalNumList - lists.cls asize)).map (↑) := by
  have h0 := segListIndex_nonneg h32 hlt
  have hcls : (lists.cls asize : Int) = segListIndex asize := Int.toNat_of_nonneg h0
  have hn : ((totalNumList : Int) - segListIndex asize).toNat = totalNumList - lists.cls asize := by
    simp only [lists] at hcls ⊢; omega
  rw [List.range'_eq_map_range, List.map_map, fitIndices, hn, ← hcls]
  exact List.map_congr_left fun j _ => by simp

/-- For a block size, `find_fit` starts at list `segListIndex(asize)` and searches only lists of
the array. -/
theorem fitIndices_spec {asize : Nat} (h32 : 32 ≤ asize) (hlt : asize < 2^32) :
    (fitIndices asize).head? = some (segListIndex asize) ∧
      ∀ i ∈ fitIndices asize, segListIndex asize ≤ i ∧ 0 ≤ i ∧ i < totalNumList := by
  have hcls : (lists.cls asize : Int) = segListIndex asize :=
    Int.toNat_of_nonneg (segListIndex_nonneg h32 hlt)
  obtain ⟨m, hm⟩ : ∃ m, totalNumList - lists.cls asize = m + 1 :=
    ⟨_, (Nat.succ_pred_eq_of_pos (Nat.sub_pos_of_lt (lists.cls_lt _ h32))).symm⟩
  rw [fitIndices_eq h32 hlt, hm, List.range'_succ, ← hcls]
  refine ⟨rfl, fun i hi => ?_⟩
  simp only [List.map_cons, List.mem_cons, List.mem_map, List.mem_range'_1] at hi
  rcases hi with rfl | ⟨k, hk, rfl⟩ <;> simp only [lists] at hm ⊢ <;> omega

theorem findFit_eq_range' (σ : Heap) {asize : Nat} (h32 : 32 ≤ asize) (hlt : asize < 2^32) :
    findFit σ asize = (List.range' (lists.cls asize) (totalNumList - lists.cls asize)).findSome?
      fun i => fitFrom σ asize σ.brk (σ.readHead (lists.loc σ.segListHead i)) := by
  rw [findFit, fitIndices_eq h32 hlt, List.findSome?_map]
  rfl

/-- No block fits a size of `2^31` bytes or more, whichever lists the search reads. -/
theorem findFit_of_large (σ : Heap) {asize : Nat} (h : 2^31 ≤ asize) : findFit σ asize = none :=
  List.findSome?_eq_none_iff.mpr fun _ _ => fitFrom_of_large h _ _

/-- `mm_init`: the array `segListHead` of NULL heads, then the first `CHUNKSIZE` bytes of the
heap with the prologue, one free block at the head of the last list, and the epilogue. The code
does not check the first `mem_sbrk`; a refusal is taken as a failed `mm_init`. -/
def mmInit (ext : Extender) (σ : Heap) : Option Heap :=
  match memSbrk ext σ (8 * totalNumList) with
  | none => none
  | some (segListHead, σ₁) =>
    let σ₂ := (List.range totalNumList).foldl (fun σ i => σ.store (segListHead + 8 * i) 0)
      { σ₁ with segListHead := segListHead }
    match memSbrk ext σ₂ chunkSize with
    | none => none
    | some (prologue, σ₃) =>
      some (initChunk σ₃ prologue (.cell (segListHead + 8 * (totalNumList - 1))))

/-- `mm_malloc`: no block for a request of 0 bytes; an adjusted size of at most 96 bytes is
served from a fresh extension of exactly that size, without coalescing; when that extension is
refused, and for larger sizes, the first fit or an extension for the adjusted size. -/
def mmMalloc (ext : Extender) (σ : Heap) (size : Nat) : Option (Nat × Heap) :=
  if size = 0 then none
  else
    let asize := adjustSize size
    let fast := if asize ≤ 96 then extendHeap lists ext σ (asize / 8) false else none
    match fast with
    | some (block, σ₁) => some (block + 8, place lists σ₁ block asize)
    | none => fitOrExtend lists findFit ext σ asize

/-- `mm_free`. -/
def mmFree (σ : Heap) (payload : Nat) : Heap := MM.mmFree lists σ payload

/-- `mm_realloc`. -/
def mmRealloc (ext : Extender) (σ : Heap) (ptr size : Nat) : Option (Nat × Heap) :=
  MM.mmRealloc (mmMalloc ext) lists σ ptr size

/-- part_000 as a program: the 88 bytes of `segListHead` lie below the prologue. -/
def program : Program := ⟨lists, 8 * totalNumList, mmInit, mmMalloc⟩

variable {σ : Heap} {A : Arena}

theorem mmMalloc_isSome {ext : Extender} {size : Nat} (h0 : size ≠ 0)
    (hg : ext σ.brk (max (adjustSize size) chunkSize) = true) : (mmMalloc ext σ size).isSome := by
  obtain ⟨h32, h8, hlt⟩ := adjustSize_spec size
  simp only [mmMalloc, if_neg h0]
  split
  · rfl
  · exact fitOrExtend_isSome lists findFit h32 h8 hlt hg

theorem findFit_block (hR : Repr lists σ A) (hW : A.WF lists (σ.prologue + 8)) {asize b : Nat}
    (h32 : 32 ≤ asize) (h : findFit σ asize = some b) :
    ∃ pre c post, A.blocks = pre ++ c :: post ∧ b = σ.prologue + 8 + total pre ∧
      c.allocated = false ∧ asize ≤ c.size := by
  have hlt : asize < 2^31 := Nat.lt_of_not_le fun hl => by rw [findFit_of_large σ hl] at h; cases h
  rw [findFit_eq_range' σ h32 (by omega)] at h
  obtain ⟨i, hi, hf⟩ := List.exists_of_findSome?_eq_some h
  have hi' : i < lists.numLists := by
    simp only [List.mem_range'_1] at hi; simp only [lists]; omega
  rw [hR.fitFrom_eq hW hi'] at hf
  exact hR.fit_block hW (List.mem_of_find?_eq_some hf) (List.find?_some hf)

theorem zeroed (σ : Heap) (seg : Nat) : ∀ n k, k < n →
    ((List.range n).foldl (fun σ i => σ.store (seg + 8 * i) 0) σ).mem (seg + 8 * k) = 0
  | 0, _, h => absurd h (Nat.not_lt_zero _)
  | n + 1, k, h => by
    rw [List.range_succ, List.foldl_append, List.foldl_cons, List.foldl_nil]
    by_cases hk : k = n
    · subst hk; exact Heap.store_mem_self ..
    · rw [Heap.store_mem_of_ne _ _ (by omega)]; exact zeroed σ seg n k (by omega)

/-- What `mm_init` does when both growths are granted: the `TOTALNUMLIST` heads zeroed at the old
break, then `initChunk` on the chunk above them, its block at the head of the last list. -/
theorem init_eq {ext : Extender} {σ₀ σ : Heap} (h : mmInit ext σ₀ = some σ) :
    ∃ X : Heap, σ = initChunk { X with brk := X.brk + chunkSize } X.brk
        (.cell (σ₀.brk + 8 * (totalNumList - 1))) ∧
      X.brk = σ₀.brk + 8 * totalNumList ∧ X.lo = σ₀.lo ∧ X.segListHead = σ₀.brk ∧
      ∀ k < totalNumList, X.mem (σ₀.brk + 8 * k) = 0 := by
  unfold mmInit at h
  split at h
  · cases h
  rename_i seg σ₁ h₁
  obtain ⟨-, rfl, rfl⟩ := memSbrk_eq_some h₁
  dsimp only at h
  split at h
  · cases h
  rename_i prologue σ₃ h₃
  obtain ⟨-, rfl, rfl⟩ := memSbrk_eq_some h₃
  cases h
  obtain ⟨m, hm⟩ := foldl_store_eq (fun i => σ₀.brk + 8 * i) (fun _ _ => 0)
    (List.range totalNumList) { σ₀ with brk := σ₀.brk + 8 * totalNumList, segListHead := σ₀.brk }
  generalize hX : (List.range totalNumList).foldl (fun σ i => σ.store (σ₀.brk + 8 * i) 0)
    { σ₀ with brk := σ₀.brk + 8 * totalNumList, segListHead := σ₀.brk } = X at hm ⊢
  have hseg : X.segListHead = σ₀.brk := by rw [hm]
  refine ⟨X, rfl, by rw [hm], by rw [hm], hseg, fun k hk => ?_⟩
  rw [← hX]
  exact zeroed _ _ _ _ hk

theorem loc_init_eq {X : Heap} {seg : Nat} (hseg : X.segListHead = seg) :
    lists.loc X.segListHead (lists.cls (chunkSize - 16)) = .cell (seg + 8 * (totalNumList - 1)) := by
  have hcls : lists.cls (chunkSize - 16) = totalNumList - 1 := by
    have : logBaseTwo (chunkSize - 16) = 15 :=
      logBaseTwo_eq (by simp [chunkSize]) (by simp [chunkSize])
    simp [lists, segListIndex, this, totalNumList]
  rw [hcls, hseg]
  rfl

theorem init_heads {X : Heap} {seg : Nat} (hseg : X.segListHead = seg)
    (hbrk : X.brk = seg + 8 * totalNumList) (hz : ∀ k < totalNumList, X.mem (seg + 8 * k) = 0) :
    (∀ k < lists.numLists, k ≠ lists.cls (chunkSize - 16) →
      X.readHead (lists.loc X.segListHead k) = 0) ∧
    ∀ k < lists.numLists, ∀ c, lists.loc X.segListHead k = .cell c → c < X.brk :=
  ⟨fun k hk _ => by simpa [lists, Heap.readHead, hseg] using hz k hk, fun k hk c hc => by
    simp only [lists, HeadLoc.cell.injEq, hseg] at hk hc
    simp only [hbrk]
    omega⟩

theorem initSpec : program.InitSpec := by
  intro ext σ₀ σ h₀ h8 _ h
  obtain ⟨X, rfl, hbrk, hlo, hseg, hz⟩ := init_eq h
  obtain ⟨hempty, hslots⟩ := init_heads hseg hbrk hz
  have hgood := initChunk_good (P := program) (σ := { X with brk := X.brk + chunkSize }) rfl
    (by simp [hbrk, hlo, program, h₀]) (by simp [hbrk, totalNumList]; omega)
    (by simp [program, totalNumList]) hempty hslots
  rwa [show program.L = lists from rfl, loc_init_eq (X := { X with brk := X.brk + chunkSize }) hseg]
    at hgood

theorem init_repr {ext : Extender} {σ₀ σ : Heap} (h : mmInit ext σ₀ = some σ) :
    Repr lists σ (initArena lists σ.prologue) := by
  obtain ⟨X, rfl, hbrk, -, hseg, hz⟩ := init_eq h
  obtain ⟨hempty, hslots⟩ := init_heads hseg hbrk hz
  have hR := initChunk_repr (L := lists) (σ := { X with brk := X.brk + chunkSize }) rfl hempty hslots
  rw [initChunk_prologue]
  rwa [loc_init_eq (X := { X with brk := X.brk + chunkSize }) hseg] at hR

/-- Two granted growths, for the array and for the first chunk, give a heap `CHUNKSIZE` bytes
above the array. -/
theorem init_isSome {ext : Extender} (h₁ : ext σ.brk (8 * totalNumList) = true)
    (h₂ : ext (σ.brk + 8 * totalNumList) chunkSize = true) :
    ∃ σ', program.init ext σ = some σ' ∧ σ'.lo = σ.lo ∧ σ'.brk = σ.brk + 8 * totalNumList + chunkSize := by
  obtain ⟨m, hm⟩ := foldl_store_eq (fun i => σ.brk + 8 * i) (fun _ _ => 0) (List.range totalNumList)
    { σ with brk := σ.brk + 8 * totalNumList, segListHead := σ.brk }
  refine ⟨initChunk
    { σ with brk := σ.brk + 8 * totalNumList + chunkSize, segListHead := σ.brk, mem := m }
    (σ.brk + 8 * totalNumList) (.cell (σ.brk + 8 * (totalNumList - 1))), ?_, by simp, by simp⟩
  simp only [program, mmInit, memSbrk, h₁, if_true]
  rw [hm]
  simp [h₂]

theorem mallocSpec : program.MallocSpec := by
  intro ext σ A u p σ' hR hI hext hlo hbound hu h
  change mmMalloc ext σ u = some (p, σ') at h
  have hne : u ≠ 0 := by rintro rfl; simp [mmMalloc] at h
  obtain ⟨h32, h8, -⟩ := reqSize_spec u
  simp only [mmMalloc, if_neg hne, adjustSize_eq u (by omega)] at h
  split at h
  · -- the fast path
    rename_i block σ₁ hfast
    split_ifs at hfast
    cases h
    exact ⟨by omega, σ₁, by simpa using hR.grow_prepared hI hext hlo h32 h8 (by omega) hfast,
      by simp [program]⟩
  · obtain ⟨block, σ₁, rfl, rfl, hP⟩ := fitOrExtend_prepared hR hI hext hlo hbound h32 h8
      (by omega) (fun b hb => findFit_block hR hI.toWF h32 hb) h
    exact ⟨by omega, σ₁, by simpa using hP, by simp⟩

end MallocLab.Seg
