import MallocLab.MMFragmentation

/-! Which free block `mm_malloc` takes. mm.c's `find_fit` takes the first fit of its one list, and
`mm_free` pushes the block it leaves at the front, so the block freed last is the first reused.
part_000 searches its lists from the class of the request up: the block it takes is of the least
class that holds a fit, within a factor of 2 of best fit; and it serves a request of at most 96
bytes from fresh memory at the break, never from a free block. Once every payload is freed, the
whole heap serves any request that fits without growing. -/
namespace MallocLab.MM

variable {ext : Extender}

/-- The search of `find_fit` for `asize` bytes starts with the list of `asize`. -/
theorem Variant.scan_cons (v : Variant) (asize : Nat) (h : 32 ≤ asize) :
    ∃ rest, v.scan asize = v.program.L.cls asize :: rest := by
  cases v with
  | explicit => exact ⟨[], rfl⟩
  | seg =>
    have hlt := Seg.lists.cls_lt asize h
    simp only [Seg.lists, Seg.totalNumList] at hlt
    obtain ⟨n, hn⟩ : ∃ n, Seg.totalNumList - Seg.lists.cls asize = n + 1 :=
      ⟨_, (Nat.succ_pred_eq_of_pos (by simp only [Seg.lists, Seg.totalNumList]; omega)).symm⟩
    exact ⟨_, by rw [Variant.scan, hn, List.range'_succ]; rfl⟩

/-- `mm_free` of an allocated block leaves it inside a free block `c`, which heads the list of its
class. -/
theorem Repr.mmFree_front {L : FreeLists} {σ : Heap} {A : Arena} (hR : Repr L σ A)
    (hI : A.Inv L (σ.prologue + 8)) {pre post : List Block} {b : Block}
    (hA : A.blocks = pre ++ b :: post) (hb : b.allocated = true) (hsz : total A.blocks < 2^31) :
    ∃ A₁ c m r, Repr L (mmFree L σ (σ.prologue + 8 + total pre + 8)) A₁ ∧
      A₁.Inv L (σ.prologue + 8) ∧ (c, (⟨m, false⟩ : Block)) ∈ placed (σ.prologue + 8) A₁.blocks ∧
      A₁.lists (L.cls m) = c :: r ∧ c ≤ σ.prologue + 8 + total pre ∧
      σ.prologue + 8 + total pre + b.size ≤ c + m := by
  obtain ⟨hR₁, hI₁, -⟩ := hR.mmFree_spec hI hA hb hsz
  obtain ⟨m, r, hc, hhead, hc₁, hc₂⟩ := @Arena.coalesce_front L (σ.prologue + 8)
    ((⟨pre ++ [⟨b.size, false⟩] ++ post, A.lists⟩ : Arena).cons (L.cls b.size)
      (σ.prologue + 8 + total pre)) pre post ⟨b.size, false⟩ (by simp [Arena.cons]) rfl _
    (Function.update_same _ _ _)
  exact ⟨_, _, m, r, hR₁, hI₁, hc, hhead, hc₁, hc₂⟩

/-- `mm_free(p)` leaves `p`'s block inside a free block at the front of its class list, which the
next fitting request of that class takes. -/
theorem freed_block_reused_first (v : Variant) {s : Client} (hs : v.program.Reachable s)
    {p u : Nat} (hp : (p, u) ∈ s.live) (ext : Extender) :
    let σ₁ := mmFree v.program.L s.heap p
    ∃ bs e c m, heapWalk σ₁ = some (bs, e) ∧
      (c, (⟨m, false⟩ : Block)) ∈ bs ∧ c ≤ p - 8 ∧ p - 8 + s.heap.blockSize (p - 8) ≤ c + m ∧
      (∃ r, listFrom σ₁ σ₁.brk (σ₁.readHead (v.program.L.loc σ₁.segListHead (v.program.L.cls m))) =
        some (c :: r)) ∧
      ∀ u', u' ≠ 0 → reqSize u' ≤ m → v.program.L.cls (reqSize u') = v.program.L.cls m →
        (v = .seg → 96 < reqSize u') → ∃ σ',
          v.program.malloc ext σ₁ u' = some (c + 8, σ') ∧ σ'.brk = s.heap.brk := by
  intro σ₁
  have hG := v.good hs
  obtain ⟨A, hR, hI, hlive⟩ := hG.arena
  obtain ⟨h8, sp, hps, -⟩ := hlive.2 p u hp
  obtain ⟨pre, post, hA, hpre⟩ := mem_placed_iff.mp hps
  obtain ⟨A₁, c, m, r, hR₁, hI₁, hc, hhead, hc₁, hc₂⟩ :=
    hR.mmFree_front hI hA rfl (hG.total_lt hR)
  rw [show s.heap.prologue + 8 + total pre + 8 = p by omega] at hR₁
  have hW₁ : A₁.WF v.program.L (σ₁.prologue + 8) := by
    rw [mmFree_prologue]; exact hI₁.toWF
  rw [← mmFree_prologue v.program.L s.heap p] at hc
  have hk := v.program.L.cls_lt m (hI₁.sized _ (mem_placed_block hc)).1
  refine ⟨_, _, c, m, hR₁.heapWalk_eq hW₁, hc, by omega,
    by rw [hR.blockSize_eq hps]; simp only at hc₂ ⊢; omega,
    ⟨r, hhead ▸ hR₁.listFrom_lists hW₁ hk⟩, fun u' hu' hle hcls hfast => ?_⟩
  -- `find_fit` looks at that list first, and its head fits
  have hm : m < 2^31 := by
    have h₁ := mem_placed_bounds hc
    have h₂ := hR₁.brk
    simp only [mmFree_prologue, mmFree_brk] at h₁ h₂
    have := hG.bound; have := hG.lo_le; omega
  have hadj : adjustSize u' = reqSize u' := adjustSize_eq u' (by omega)
  obtain ⟨rest, hscan⟩ := v.scan_cons (reqSize u') (reqSize_spec u').1
  have hfit : fits σ₁ (reqSize u') c = true := by
    rw [hR₁.fits_eq hc]; simpa using hle
  have hf : v.findFit σ₁ (adjustSize u') = some c := by
    rw [v.findFit_eq hR₁ hW₁ (adjustSize_spec u').1, hadj, hscan, List.findSome?_cons, hcls, hhead,
      List.find?_cons_of_pos _ hfit]
  exact ⟨_, v.malloc_of_fit hu' (fun h => hadj ▸ hfast h) hf, by rw [place_brk, mmFree_brk]⟩

/-- In mm.c, after `mm_init` and a request of 1 byte, freeing the payload leaves a free block that
heads the list and that the next fitting request takes, even with every growth refused. -/
theorem freed_block_first_request :
    ∃ (s : Client) (p : Nat), Variant.explicit.program.Reachable s ∧ (p, 1) ∈ s.live ∧
      let σ₁ := mmFree Variant.explicit.program.L s.heap p
      ∃ bs e c m, heapWalk σ₁ = some (bs, e) ∧
        (c, (⟨m, false⟩ : Block)) ∈ bs ∧ c ≤ p - 8 ∧ p - 8 + s.heap.blockSize (p - 8) ≤ c + m ∧
        (∃ r, listFrom σ₁ σ₁.brk (σ₁.readHead (Variant.explicit.program.L.loc σ₁.segListHead
          (Variant.explicit.program.L.cls m))) = some (c :: r)) ∧
        ∀ u', u' ≠ 0 → reqSize u' ≤ m →
          Variant.explicit.program.L.cls (reqSize u') = Variant.explicit.program.L.cls m →
          (Variant.explicit = .seg → 96 < reqSize u') → ∃ σ',
            Variant.explicit.program.malloc (fun _ _ => false) σ₁ u' = some (c + 8, σ') ∧
              σ'.brk = s.heap.brk := by
  obtain ⟨s, p, σ', hs, hb, h⟩ := Variant.explicit.exists_malloc Nat.one_ne_zero (by decide)
  have hs' : Variant.explicit.program.Reachable ⟨σ', (p, 1) :: s.live⟩ :=
    .step hs (.malloc hb (by decide) h)
  exact ⟨_, p, hs', List.mem_cons_self _ _,
    freed_block_reused_first .explicit hs' (List.mem_cons_self _ _) _⟩

theorem findSome_range' {f : Nat → Option Nat} {b : Nat} : ∀ {a n : Nat},
    (List.range' a n).findSome? f = some b →
      ∃ i, a ≤ i ∧ f i = some b ∧ ∀ j, a ≤ j → j < i → f j = none
  | _, 0, h => by simp at h
  | a, n + 1, h => by
    rw [List.range'_succ, List.findSome?_cons] at h
    cases hfa : f a with
    | some c =>
      rw [hfa] at h
      exact ⟨a, le_rfl, hfa.trans h, fun j h₁ h₂ => by omega⟩
    | none =>
      rw [hfa] at h
      obtain ⟨i, h₁, hi, hlt⟩ := findSome_range' h
      exact ⟨i, by omega, hi, fun j hj hji => if hja : j = a then hja ▸ hfa else hlt j (by omega) hji⟩

theorem segListIndex_double {a b : Nat} (ha : a < 2^32) (hb32 : 32 ≤ b) (hb : b < 2^15)
    (h : Seg.segListIndex a ≤ Seg.segListIndex b) : a < 2 * b := by
  unfold Seg.segListIndex Seg.logBaseTwo Seg.totalNumList at h
  rw [Nat.mod_eq_of_lt ha, Nat.mod_eq_of_lt (by omega)] at h
  have hlb : Nat.log2 b < 15 := (Nat.log2_lt (by omega)).2 hb
  have hlog : Nat.log2 a ≤ Nat.log2 b := by dsimp only at h; split_ifs at h <;> omega
  calc a < 2^(Nat.log2 a + 1) := Nat.lt_log2_self
    _ ≤ 2^(Nat.log2 b + 1) := Nat.pow_le_pow_right (by decide) (by omega)
    _ = 2 * 2^(Nat.log2 b) := by rw [Nat.pow_succ, Nat.mul_comm]
    _ ≤ 2 * b := Nat.mul_le_mul_left 2 (Nat.log2_self_le (by omega))

/-- part_000's `find_fit` returns a block of the least class that holds a fit, less than twice any
fitting free block below `2^15` bytes. -/
theorem seg_fit_least_class {s : Client} (hs : Variant.seg.program.Reachable s) {asize b : Nat}
    (h32 : 32 ≤ asize) (hf : Seg.findFit s.heap asize = some b) :
    ∃ bs e d, heapWalk s.heap = some (bs, e) ∧ (b, d) ∈ bs ∧ d.allocated = false ∧
      asize ≤ d.size ∧ ∀ x c, (x, c) ∈ bs → c.allocated = false → asize ≤ c.size →
        Seg.segListIndex d.size ≤ Seg.segListIndex c.size ∧ (c.size < 2^15 → d.size < 2 * c.size) := by
  have hG := Variant.seg.good hs
  obtain ⟨A, hR, hI, -⟩ := hG.arena
  have hsz := hG.total_lt hR
  rw [show Seg.findFit s.heap asize = Variant.seg.findFit s.heap asize from rfl,
    Variant.seg.findFit_eq hR hI.toWF h32] at hf
  obtain ⟨i, -, hi, hfirst⟩ := findSome_range' hf
  -- `b` is the first fit of list `i`, and no list searched before has a fit
  have hbi : b ∈ A.lists i := List.mem_of_find?_eq_some hi
  obtain ⟨-, d, hd, hdf⟩ := hI.nodes i b hbi
  have hfit := List.find?_some hi
  rw [hR.fits_eq hd] at hfit
  have hle : asize ≤ d.size := by simpa [hdf] using hfit
  have hdi := hI.listed.mem_cls i b d hbi hd
  have hsize : ∀ {x c}, (x, c) ∈ placed (s.heap.prologue + 8) A.blocks → 32 ≤ c.size ∧ c.size < 2^32 :=
    fun hx => ⟨(hI.sized _ (mem_placed_block hx)).1, by have := mem_placed_bounds hx; omega⟩
  refine ⟨_, _, d, hR.heapWalk_eq hI.toWF, hd, hdf, hle, fun x c hx hc hcle => ?_⟩
  have hmono := Seg.segListIndex_mono (by omega) hcle (hsize hx).2
  have hcls : i ≤ Seg.lists.cls c.size := by
    by_contra hlt
    have hnone := hfirst (Seg.lists.cls c.size) (by simp only [Seg.lists]; omega) (by omega)
    rw [List.find?_eq_none] at hnone
    exact hnone x (hI.listed.free_mem x c hx hc) (by rw [hR.fits_eq hx]; simp [hc, hcle])
  have h0d := Seg.segListIndex_nonneg (hsize hd).1 (hsize hd).2
  have h0c := Seg.segListIndex_nonneg (hsize hx).1 (hsize hx).2
  have hdc : Seg.segListIndex d.size ≤ Seg.segListIndex c.size := by
    change i = Seg.lists.cls d.size at hdi
    simp only [Seg.lists] at hdi hcls
    omega
  exact ⟨hdc, fun hc15 => segListIndex_double (hsize hd).2 (hsize hx).1 hc15 hdc⟩

/-- Right after part_000's `mm_init`, `find_fit(32)` finds a block, of the least class of any
free block that fits. -/
theorem seg_fit_after_init :
    ∃ (s : Client) (b : Nat), Variant.seg.program.Reachable s ∧ Seg.findFit s.heap 32 = some b ∧
      ∃ bs e d, heapWalk s.heap = some (bs, e) ∧ (b, d) ∈ bs ∧ d.allocated = false ∧
        32 ≤ d.size ∧ ∀ x c, (x, c) ∈ bs → c.allocated = false → 32 ≤ c.size →
          Seg.segListIndex d.size ≤ Seg.segListIndex c.size ∧
            (c.size < 2^15 → d.size < 2 * c.size) := by
  obtain ⟨σ, hs, -⟩ := Variant.seg.reachable_init
  obtain ⟨A, hR, hI, -⟩ := (Variant.seg.good hs).arena
  -- the heap holds a block, and no block is allocated
  have hchunk := Variant.seg.chunk_le_brk hs
  have hbrk := hR.brk
  obtain ⟨d, ds, hA⟩ : ∃ d ds, A.blocks = d :: ds := by
    cases h : A.blocks with
    | nil => simp only [h, total_nil, chunkSize] at hbrk hchunk; omega
    | cons d ds => exact ⟨d, ds, rfl⟩
  have hd : (σ.prologue + 8, d) ∈ placed (σ.prologue + 8) A.blocks := by simp [hA]
  have hdf : d.allocated = false := by
    by_contra h
    obtain ⟨u, hu, -⟩ := Variant.seg.owns hs A hR hI.toWF _ d hd (by simpa using h)
    simp at hu
  obtain ⟨b, -, hf, -⟩ | ⟨-, hall⟩ :=
    Variant.seg.findFit_complete hR hI (by have := (Variant.seg.good hs).total_lt hR; omega) le_rfl
  · exact ⟨_, b, hs, hf, seg_fit_least_class hs le_rfl hf⟩
  · have := hall _ d hd hdf
    have := (hI.sized d (mem_placed_block hd)).1
    omega

/-- part_000 serves a request of at most 96 adjusted bytes from a fresh extension of exactly that
size, never from a free block. -/
theorem small_request_fresh {s : Client} (hs : Variant.seg.program.Reachable s)
    (hext : ext.Bounded s.heap.lo) {u : Nat} (hu : u ≠ 0) (h96 : reqSize u ≤ 96)
    (hg : ext s.heap.brk (reqSize u) = true) :
    ∃ σ', Variant.seg.program.malloc ext s.heap u = some (s.heap.brk, σ') ∧
      σ'.brk = s.heap.brk + reqSize u ∧ σ'.tag (s.heap.brk - 8) = ⟨reqSize u, true⟩ ∧
      σ'.tag (s.heap.brk + reqSize u - 16) = ⟨reqSize u, true⟩ := by
  have hG := Variant.seg.good hs
  obtain ⟨A, hR, hI, -⟩ := hG.arena
  obtain ⟨h32, h8, -⟩ := reqSize_spec u
  have hw : reqSize u / 8 * 8 = reqSize u := by omega
  have hbrk := hR.brk
  have hg' : ext s.heap.brk (reqSize u / 8 * 8) = true := by rwa [hw]
  obtain ⟨σ₂, -, -, -, -, -, heq⟩ := hR.extendHeap_spec hI.toWF (by omega) (by omega) hg'
  have hx : extendHeap Seg.lists ext s.heap (reqSize u / 8) false =
      some (s.heap.prologue + 8 + total A.blocks, σ₂) := heq false
  have hm : Variant.seg.program.malloc ext s.heap u = some (s.heap.brk,
      place Seg.lists σ₂ (s.heap.prologue + 8 + total A.blocks) (reqSize u)) := by
    show Seg.mmMalloc ext s.heap u = _
    simp only [Seg.mmMalloc, if_neg hu, adjustSize_eq u (by omega), if_pos h96, hx,
      Option.some.injEq, Prod.mk.injEq, and_true]
    omega
  have hbrk' : σ₂.brk = s.heap.brk + reqSize u := by
    have := (extendHeap_brk hx).1
    rwa [hw, Nat.mod_eq_of_lt (by omega)] at this
  have hal := Program.MallocSpec.allocates Variant.seg.mallocSpec hR hI hext hG.lo_le hG.bound
    (by omega) hm
  obtain ⟨A', hR', -, ⟨sz, hps, hle⟩, -⟩ := hal.arena
  have hpro := hal.prologue
  -- the block ends at the new epilogue, so it has no more than `A(u)` bytes
  have hend := (mem_placed_bounds hps).2
  simp only at hend
  have hbrk'' := hR'.brk
  rw [place_brk, hbrk', hpro] at hbrk''
  obtain rfl : sz = reqSize u := by omega
  obtain ⟨ht₁, ht₂⟩ := hR'.tags _ _ (by rw [hpro]; exact hps)
  refine ⟨_, hm, by rw [place_brk, hbrk'], ht₁, ?_⟩
  rwa [show s.heap.brk - 8 + reqSize u - 8 = s.heap.brk + reqSize u - 16 by omega] at ht₂

/-- Right after part_000's `mm_init`, a request of 1 byte is served at the break with a block of
exactly 32 bytes. -/
theorem small_request_fresh_after_init :
    ∃ (s : Client) (σ' : Heap), Variant.seg.program.Reachable s ∧
      Variant.seg.program.malloc (Extender.upTo s.heap.lo) s.heap 1 = some (s.heap.brk, σ') ∧
      σ'.brk = s.heap.brk + 32 ∧ σ'.tag (s.heap.brk - 8) = ⟨32, true⟩ := by
  obtain ⟨σ, hs, hlo, hbrk⟩ := Variant.seg.reachable_init
  have hg : Extender.upTo σ.lo σ.brk (reqSize 1) = true := by
    simp only [Extender.upTo, decide_eq_true_eq, hlo]
    unfold Seg.totalNumList chunkSize at hbrk
    have : reqSize 1 = 32 := by decide
    omega
  obtain ⟨σ', hm, hb, ht, -⟩ := small_request_fresh hs (Extender.upTo_bounded _) Nat.one_ne_zero
    (by decide) hg
  exact ⟨⟨σ, []⟩, σ', hs, hm, hb, ht⟩


end MallocLab.MM
