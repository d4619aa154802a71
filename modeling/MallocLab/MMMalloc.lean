import MallocLab.MMPlace
import MallocLab.MMExtend

/-! The parts of `mm_malloc`, `mm_free` and `mm_realloc` the two programs share: the size
adjustment, the walk of one free list for a first fit, placing in a fit or in a fresh extension,
freeing, and the copying of `mm_realloc`. -/
namespace MallocLab.MM

/-- `CHUNKSIZE`: the initial heap size and the least growth on a miss. -/
def chunkSize : Nat := 2^16

/-- The adjusted block size of `mm_malloc`: `size + OVERHEAD` and its rounding up to a multiple
of 8 are computed in `size_t`, stored in the `uint32_t` `asize`, then raised to
`MIN_BLOCK_SIZE`. -/
def adjustSize (size : Nat) : Nat :=
  let size := (size + 16) % 2^64
  let asize := (size + 7) % 2^64 / 8 * 8 % 2^32
  if asize < 32 then 32 else asize

/-- The block size a request of `u` bytes needs: room for the payload and the two tags, a
multiple of 8, at least `MIN_BLOCK_SIZE`. -/
def reqSize (u : Nat) : Nat := max 32 ((u + 16 + 7) / 8 * 8)

theorem adjustSize_eq (u : Nat) (h : reqSize u < 2^32) : adjustSize u = reqSize u := by
  simp only [adjustSize, reqSize] at *
  split_ifs <;> omega

theorem reqSize_spec (u : Nat) : 32 ≤ reqSize u ∧ reqSize u % 8 = 0 ∧ u + 16 ≤ reqSize u := by
  unfold reqSize; omega

/-- Whatever the request, the adjusted size is a block size that fits in `uint32_t`. -/
theorem adjustSize_spec (u : Nat) : 32 ≤ adjustSize u ∧ adjustSize u % 8 = 0 ∧ adjustSize u < 2^32 := by
  simp only [adjustSize]; split_ifs <;> omega

/-- The test of `find_fit`: the block is free and has at least `asize` bytes. -/
def fits (σ : Heap) (asize : Nat) (y : Nat) : Bool := !σ.allocated y && decide (asize ≤ σ.blockSize y)

/-- The inner loop of `find_fit`: walk a free list from `b` along the `next` links and return
the first block that fits, within `fuel` steps. -/
def fitFrom (σ : Heap) (asize : Nat) : Nat → Nat → Option Nat
  | 0, _ => none
  | fuel + 1, b =>
    if b = 0 then none
    else if fits σ asize b then some b
    else fitFrom σ asize fuel (σ.next b)

/-- With enough steps the walk of a linked list of nonzero nodes finds the list's first fit. -/
theorem fitFrom_eq_find {σ : Heap} {asize : Nat} :
    ∀ {l : List Nat} {p fuel : Nat}, (p :: l ++ [0]).Chain' (Linked σ.mem) → (∀ y ∈ l, y ≠ 0) →
      l.length < fuel → fitFrom σ asize fuel (l.headD 0) = l.find? (fits σ asize)
  | [], _, fuel + 1, _, _, _ => by simp [fitFrom]
  | y :: l, p, fuel + 1, hc, h0, hlen => by
    have hy := h0 y (List.mem_cons_self _ _)
    have hc' : (y :: l ++ [0]).Chain' (Linked σ.mem) := (List.chain'_cons'.mp hc).2
    have hnext : σ.next y = l.headD 0 :=
      ((List.chain'_cons'.mp hc').1 (l.headD 0) (by cases l <;> simp)).1 hy
    have ih : fitFrom σ asize fuel (l.headD 0) = l.find? (fits σ asize) :=
      fitFrom_eq_find hc' (fun z hz => h0 z (List.mem_cons_of_mem _ hz))
        (show l.length < fuel by simp at hlen; omega)
    simp only [List.headD_cons, fitFrom, hy, if_false, List.find?_cons, hnext, ih]
    cases fits σ asize y <;> rfl

/-- No block has `2^31` bytes or more, so no walk finds a fit for such a size. -/
theorem fitFrom_of_large {σ : Heap} {asize : Nat} (h : 2^31 ≤ asize) :
    ∀ fuel b, fitFrom σ asize fuel b = none
  | 0, _ => rfl
  | fuel + 1, b => by
    have hb : fits σ asize b = false := by
      simp only [fits, Bool.and_eq_false_iff, decide_eq_false_iff_not, not_le]
      exact .inr (lt_of_lt_of_le (σ.blockSize_lt b) h)
    simp only [fitFrom, hb, fitFrom_of_large h fuel, Bool.false_eq_true, if_false, ite_self]

/-- The part of `mm_malloc` both programs share: place in the first fit `find_fit` returns, or
else extend the heap by the larger of `asize` and `CHUNKSIZE`, coalescing, and place there.
Returns the payload and the heap. -/
def fitOrExtend (L : FreeLists) (findFit : Heap → Nat → Option Nat) (ext : Extender) (σ : Heap)
    (asize : Nat) : Option (Nat × Heap) :=
  match findFit σ asize with
  | some block => some (block + 8, place L σ block asize)
  | none =>
    let extendsize := if asize > chunkSize then asize else chunkSize
    let extendwords := extendsize / 8
    match extendHeap L ext σ extendwords true with
    | some (block, σ₁) => some (block + 8, place L σ₁ block asize)
    | none => none

theorem fitOrExtend_isSome (L : FreeLists) (findFit : Heap → Nat → Option Nat) {ext : Extender}
    {σ : Heap} {asize : Nat} (h32 : 32 ≤ asize) (h8 : asize % 8 = 0) (hlt : asize < 2^32)
    (hg : ext σ.brk (max asize chunkSize) = true) : (fitOrExtend L findFit ext σ asize).isSome := by
  unfold fitOrExtend
  split
  · rfl
  · have hw : (if asize > chunkSize then asize else chunkSize) / 8 * 8 % 2^32 = max asize chunkSize := by
      unfold chunkSize; split_ifs <;> omega
    have hs : (extendHeap L ext σ ((if asize > chunkSize then asize else chunkSize) / 8) true).isSome :=
      extendHeap_isSome (by rw [hw]; unfold chunkSize; omega) (by rw [hw]; exact hg)
    obtain ⟨⟨block, σ₁⟩, he⟩ := Option.isSome_iff_exists.mp hs
    dsimp only
    rw [he]
    rfl

/-- What `fitOrExtend` did when it returns a block: `place` in the first fit, or, when there
was none, in the block of the coalescing extension. -/
theorem fitOrExtend_cases {L : FreeLists} {findFit : Heap → Nat → Option Nat} {ext : Extender}
    {σ σ' : Heap} {asize p : Nat} (h : fitOrExtend L findFit ext σ asize = some (p, σ')) :
    ∃ block, p = block + 8 ∧
      ((findFit σ asize = some block ∧ σ' = place L σ block asize) ∨
        (findFit σ asize = none ∧ ∃ σ₁, extendHeap L ext σ
          ((if asize > chunkSize then asize else chunkSize) / 8) true = some (block, σ₁) ∧
          σ' = place L σ₁ block asize)) := by
  unfold fitOrExtend at h
  split at h
  · rename_i b hb
    simp only [Option.some.injEq, Prod.mk.injEq] at h
    exact ⟨b, h.1.symm, .inl ⟨hb, h.2.symm⟩⟩
  · rename_i hb
    dsimp only at h
    split at h
    · rename_i b σ₁ hx
      simp only [Option.some.injEq, Prod.mk.injEq] at h
      exact ⟨b, h.1.symm, .inr ⟨hb, σ₁, hx, h.2.symm⟩⟩
    · cases h

/-- `mm_free`: mark the block free in header and footer, push it on its list and coalesce. -/
def mmFree (L : FreeLists) (σ : Heap) (payload : Nat) : Heap :=
  let block := payload - 8
  let σ₁ := σ.setAllocated block false
  let footer := getFooter σ₁ block
  let σ₂ := σ₁.setAllocated footer false
  (coalesce L (L.push σ₂ block) block).2

/-- `memcpy` of `n` bytes between 8-aligned addresses on word memory: the whole words, then the
low bytes of a last partial word (little-endian). -/
def memcpy (σ : Heap) (dst src n : Nat) : Heap :=
  let σ₁ := (List.range (n / 8)).foldl (fun σ i => σ.store (dst + 8 * i) (σ.mem (src + 8 * i))) σ
  if n % 8 = 0 then σ₁
  else
    let w := dst + 8 * (n / 8)
    let r := 2^(8 * (n % 8))
    σ₁.store w (σ₁.mem w / r * r + σ₁.mem (src + 8 * (n / 8)) % r)

section Fields

variable (L : FreeLists) (σ : Heap) (p : Nat)

@[simp] theorem mmFree_prologue : (mmFree L σ p).prologue = σ.prologue := by simp [mmFree]
@[simp] theorem mmFree_lo : (mmFree L σ p).lo = σ.lo := by simp [mmFree]
@[simp] theorem mmFree_brk : (mmFree L σ p).brk = σ.brk := by simp [mmFree]

end Fields

theorem foldl_store_eq (g : Nat → Nat) (f : Heap → Nat → Nat) :
    ∀ (l : List Nat) (σ : Heap), ∃ m,
      l.foldl (fun σ i => σ.store (g i) (f σ i)) σ = { σ with mem := m }
  | [], σ => ⟨σ.mem, rfl⟩
  | i :: l, σ => by
    obtain ⟨m, hm⟩ := foldl_store_eq g f l (σ.store (g i) (f σ i))
    exact ⟨m, by rw [List.foldl_cons, hm]; rfl⟩

theorem foldl_store_mem (g : Nat → Nat) (f : Heap → Nat → Nat) {a : Nat} :
    ∀ (l : List Nat) (σ : Heap), (∀ i ∈ l, g i ≠ a) →
      (l.foldl (fun σ i => σ.store (g i) (f σ i)) σ).mem a = σ.mem a
  | [], _, _ => rfl
  | i :: l, σ, h => by
    rw [List.foldl_cons, foldl_store_mem g f l _ fun j hj => h j (List.mem_cons_of_mem _ hj)]
    exact σ.store_mem_of_ne _ (h i (List.mem_cons_self _ _)).symm

theorem memcpy_eq (σ : Heap) (dst src n : Nat) : ∃ m, memcpy σ dst src n = { σ with mem := m } := by
  obtain ⟨m, hm⟩ := foldl_store_eq (fun i => dst + 8 * i) (fun σ i => σ.mem (src + 8 * i))
    (List.range (n / 8)) σ
  simp only [memcpy]
  split_ifs
  · exact ⟨m, hm⟩
  · exact ⟨_, by rw [hm]; rfl⟩

theorem memcpy_mem (σ : Heap) {dst src n a : Nat} (h : a < dst ∨ dst + n ≤ a) :
    (memcpy σ dst src n).mem a = σ.mem a := by
  have hf := foldl_store_mem (a := a) (fun i => dst + 8 * i) (fun σ i => σ.mem (src + 8 * i))
    (List.range (n / 8)) σ fun i hi => show dst + 8 * i ≠ a by
      simp only [List.mem_range] at hi; omega
  simp only [memcpy]
  split_ifs
  · exact hf
  · rw [Heap.store_mem_of_ne _ _ (by omega), hf]

section Fields

variable (σ : Heap) (dst src n : Nat)

@[simp] theorem memcpy_prologue : (memcpy σ dst src n).prologue = σ.prologue := by
  obtain ⟨m, hm⟩ := memcpy_eq σ dst src n; rw [hm]
@[simp] theorem memcpy_lo : (memcpy σ dst src n).lo = σ.lo := by
  obtain ⟨m, hm⟩ := memcpy_eq σ dst src n; rw [hm]
@[simp] theorem memcpy_brk : (memcpy σ dst src n).brk = σ.brk := by
  obtain ⟨m, hm⟩ := memcpy_eq σ dst src n; rw [hm]

end Fields

/-- `memcpy` of `n` bytes writes only the words `dst + 8 * j` for `j < ⌈n / 8⌉`. -/
theorem memcpy_written (σ : Heap) {dst src n a : Nat} (ha : (memcpy σ dst src n).mem a ≠ σ.mem a) :
    ∃ j, a = dst + 8 * j ∧ j < (n + 7) / 8 := by
  by_contra hno
  push_neg at hno
  have hf := foldl_store_mem (a := a) (fun i => dst + 8 * i) (fun σ i => σ.mem (src + 8 * i))
    (List.range (n / 8)) σ fun i hi h => by
      simp only [List.mem_range] at hi; have := hno i h.symm; omega
  refine ha ?_
  simp only [memcpy]
  split_ifs with h0
  · exact hf
  · rw [Heap.store_mem_of_ne _ _ fun h => absurd (hno (n / 8) h) (by omega), hf]

/-- The byte at address `a` of the word memory: byte `a % 8`, little-endian, of the word at
`a - a % 8`. -/
def Heap.byte (σ : Heap) (a : Nat) : Nat := σ.mem (a - a % 8) / 2^(8 * (a % 8)) % 2^8

/-- In a word whose low `k` bytes come from `x` and the rest from `w`, byte `j < k` is `x`'s. -/
theorem byte_of_low (w x : Nat) {j k : Nat} (hj : j < k) :
    (w / 2^(8 * k) * 2^(8 * k) + x % 2^(8 * k)) / 2^(8 * j) % 2^8 = x / 2^(8 * j) % 2^8 := by
  obtain ⟨c, hc⟩ := Nat.pow_dvd_pow 2 (show 8 ≤ 8 * (k - j) by omega)
  have hk : 2^(8 * k) = 2^(8 * j) * (2^8 * c) := by
    rw [← hc, ← Nat.pow_add]; congr 1; omega
  rw [hk]
  generalize ht' : 2^(8 * j) = t
  have ht : 0 < t := ht' ▸ Nat.two_pow_pos _
  generalize w / (t * (2^8 * c)) = Q
  rw [Nat.mul_left_comm Q t, Nat.mul_add_div ht, Nat.mod_mul_right_div_self,
    Nat.mul_left_comm Q (2^8) c, Nat.mul_add_mod, Nat.mod_mod_of_dvd _ ⟨c, rfl⟩]

/-- Copying words `f i` to `g i` one after the other, none read after it is written, leaves
each `g i` holding the old `f i`. -/
theorem foldl_copy (g f : Nat → Nat) :
    ∀ (l : List Nat) (σ : Heap), l.Nodup → (∀ i ∈ l, ∀ j ∈ l, g i ≠ f j) →
      (∀ i ∈ l, ∀ j ∈ l, i ≠ j → g i ≠ g j) → ∀ i ∈ l,
        (l.foldl (fun σ i => σ.store (g i) (σ.mem (f i))) σ).mem (g i) = σ.mem (f i)
  | [], _, _, _, _, _, hi => absurd hi (List.not_mem_nil _)
  | k :: l, σ, hnd, hgf, hgg, i, hi => by
    rw [List.nodup_cons] at hnd
    rw [List.foldl_cons]
    rcases List.mem_cons.mp hi with rfl | hi
    · rw [foldl_store_mem g (fun σ i => σ.mem (f i)) l _ fun j hj =>
        hgg j (List.mem_cons_of_mem _ hj) i (List.mem_cons_self _ _) (fun e => hnd.1 (e ▸ hj))]
      exact Heap.store_mem_self ..
    · rw [foldl_copy g f l _ hnd.2 (fun a ha b hb => hgf a (List.mem_cons_of_mem _ ha) b
        (List.mem_cons_of_mem _ hb)) (fun a ha b hb => hgg a (List.mem_cons_of_mem _ ha) b
        (List.mem_cons_of_mem _ hb)) i hi]
      exact Heap.store_mem_of_ne _ _ (hgf k (List.mem_cons_self _ _) i (List.mem_cons_of_mem _ hi)).symm

/-- `memcpy` between 8-aligned addresses whose rounded-up ranges are apart copies every byte. -/
theorem memcpy_byte (σ : Heap) {dst src n i : Nat} (hd : dst % 8 = 0) (hs : src % 8 = 0)
    (hsep : src + (n + 7) / 8 * 8 ≤ dst ∨ dst + (n + 7) / 8 * 8 ≤ src) (hi : i < n) :
    (memcpy σ dst src n).byte (dst + i) = σ.byte (src + i) := by
  have hda : dst + i - i % 8 = dst + 8 * (i / 8) := by omega
  have hsa : src + i - i % 8 = src + 8 * (i / 8) := by omega
  have hcopy := foldl_copy (fun i => dst + 8 * i) (fun i => src + 8 * i) (List.range (n / 8)) σ
    (List.nodup_range _) (fun a ha b hb => by
      simp only [List.mem_range] at ha hb; show dst + 8 * a ≠ src + 8 * b; omega)
    (fun a _ b _ hab => show dst + 8 * a ≠ dst + 8 * b by omega)
  beta_reduce at hcopy
  simp only [Heap.byte, show (dst + i) % 8 = i % 8 by omega, show (src + i) % 8 = i % 8 by omega,
    memcpy]
  rw [hda, hsa]
  split_ifs with h0
  · rw [hcopy (i / 8) (List.mem_range.mpr (by omega))]
  · by_cases hlt : i / 8 < n / 8
    · rw [Heap.store_mem_of_ne _ _ (by omega), hcopy (i / 8) (List.mem_range.mpr hlt)]
    · have hkeep := foldl_store_mem (a := src + 8 * (n / 8)) (fun i => dst + 8 * i)
        (fun σ i => σ.mem (src + 8 * i)) (List.range (n / 8)) σ fun j hj => by
          simp only [List.mem_range] at hj; show dst + 8 * j ≠ src + 8 * (n / 8); omega
      rw [show i / 8 = n / 8 by omega, Heap.store_mem_self, hkeep,
        byte_of_low _ _ (show i % 8 < n % 8 by omega)]

/-- `mm_realloc`: allocate the new block (a failure prints and exits, here `none`), copy the
smaller of `size` and the old block's `block_size` bytes, free the old block. -/
def mmRealloc (malloc : Heap → Nat → Option (Nat × Heap)) (L : FreeLists) (σ : Heap)
    (ptr size : Nat) : Option (Nat × Heap) :=
  match malloc σ size with
  | none => none
  | some (newp, σ₁) =>
    let block := ptr - 8
    let copySize := if size < σ₁.blockSize block then size else σ₁.blockSize block
    some (newp, mmFree L (memcpy σ₁ newp ptr copySize) ptr)

/-- `mm_realloc` returns what its `mm_malloc` returned, with the heap after the copy of
`min(size, GET_SIZE(HDRP(ptr)))` bytes, the size read after the malloc, and the free of `ptr`. -/
theorem mmRealloc_eq_some {malloc : Heap → Nat → Option (Nat × Heap)} {L : FreeLists}
    {σ σ' : Heap} {ptr size q : Nat} (h : mmRealloc malloc L σ ptr size = some (q, σ')) :
    ∃ σ₁, malloc σ size = some (q, σ₁) ∧
      σ' = mmFree L (memcpy σ₁ q ptr (min size (σ₁.blockSize (ptr - 8)))) ptr := by
  unfold mmRealloc at h
  split at h
  · cases h
  rename_i q₁ σ₁ hm
  simp only [Option.some.injEq, Prod.mk.injEq] at h
  obtain ⟨rfl, rfl⟩ := h
  refine ⟨σ₁, hm, ?_⟩
  congr 2
  rw [Nat.min_def]
  split_ifs <;> omega

end MallocLab.MM
