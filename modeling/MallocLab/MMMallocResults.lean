import MallocLab.MMPaths

/-! What `mm_malloc` returns, path by path: the size of the block it allocates, and that
`find_fit` misses no fit, so that the heap grows only when no free block is large enough. -/
namespace MallocLab.MM

namespace Variant

variable {ext : Extender} {σ σ₁ : Heap} {A : Arena}

/-- How `mm_malloc` of `v` reached `place(block, asize)` in `σ₁`: a fit in `σ`, the coalescing
extension when nothing fits, or part_000's extension by exactly `asize` bytes. -/
def Path (v : Variant) (ext : Extender) (σ : Heap) (asize block : Nat) (σ₁ : Heap) : Prop :=
  (v.findFit σ asize = some block ∧ σ₁ = σ) ∨
    (v.findFit σ asize = none ∧ extendHeap v.program.L ext σ
      ((if asize > chunkSize then asize else chunkSize) / 8) true = some (block, σ₁)) ∨
    (v = seg ∧ asize ≤ 96 ∧ extendHeap v.program.L ext σ (asize / 8) false = some (block, σ₁))

theorem path_prepared (v : Variant) (hR : Repr v.program.L σ A)
    (hI : A.Inv v.program.L (σ.prologue + 8)) (hext : ext.Bounded σ.lo) (hlo : σ.lo ≤ σ.prologue)
    (hbound : σ.brk < σ.lo + 2^31) {asize block : Nat} (h32 : 32 ≤ asize) (h8 : asize % 8 = 0)
    (hlt : asize < 2^31) (hp : v.Path ext σ asize block σ₁) :
    Prepared v.program.L σ A asize block σ₁ := by
  rcases hp with ⟨hf, rfl⟩ | ⟨-, hx⟩ | ⟨-, -, hx⟩
  · obtain ⟨pre, c, post, hA, rfl, hc, hle⟩ := v.findFit_block hR hI.toWF h32 hf
    exact .of_fit hR hI hbound hlo hA hc h32 h8 hle
  · have hw : (if asize > chunkSize then asize else chunkSize) / 8 * 8 =
        if asize > chunkSize then asize else chunkSize := by
      unfold chunkSize; split_ifs <;> omega
    exact hR.extend_prepared hI hext hlo h32 h8 (by rw [hw]; unfold chunkSize; split_ifs <;> omega)
      (by rw [hw]; split_ifs <;> omega) (by rw [hw]; unfold chunkSize; split_ifs <;> omega) hx
  · exact hR.grow_prepared hI hext hlo h32 h8 hlt hx

end Variant

theorem Repr.extendHeap_block {L : FreeLists} {σ σ₁ : Heap} {A : Arena} (hR : Repr L σ A)
    (hW : A.WF L (σ.prologue + 8)) {ext : Extender} {words b : Nat} (h32 : 32 ≤ words * 8)
    (hs : words * 8 < 2^31) (hx : extendHeap L ext σ words false = some (b, σ₁)) :
    σ₁.blockSize b = words * 8 := by
  have hgrant : ext σ.brk (words * 8) = true := by
    by_contra hne
    rw [extendHeap_eq_none (.inr (by rw [Nat.mod_eq_of_lt (by omega)]; simpa using hne))] at hx
    exact Option.noConfusion hx
  obtain ⟨σ₂, hR₂, -, -, hpro, -, heq⟩ := hR.extendHeap_spec hW h32 hs hgrant
  rw [heq false] at hx
  simp only [Bool.false_eq_true, if_false, Option.some.injEq, Prod.mk.injEq] at hx
  obtain ⟨rfl, rfl⟩ := hx
  have hm : (σ.prologue + 8 + total A.blocks, (⟨words * 8, false⟩ : Block)) ∈
      placed (σ₂.prologue + 8) (A.grow L (σ.prologue + 8) (words * 8)).blocks := by
    rw [Arena.grow_blocks, hpro]
    exact mem_placed_iff.mpr ⟨A.blocks, [], rfl, rfl⟩
  exact hR₂.blockSize_eq hm

/-- A request `mm_malloc(u)` with `A(u) < 2^31` gets an allocated block of `A(u)` to `A(u) + 31`
bytes. -/
theorem malloc_block_size (v : Variant) {s : Client} (hs : v.program.Reachable s)
    {ext : Extender} (hext : ext.Bounded s.heap.lo) {u p : Nat} {σ' : Heap}
    (hu : reqSize u < 2^31) (h : v.program.malloc ext s.heap u = some (p, σ')) :
    ∃ σ₁ sz, v.Path ext s.heap (reqSize u) (p - 8) σ₁ ∧
      σ' = place v.program.L σ₁ (p - 8) (reqSize u) ∧
      σ'.tag (p - 8) = ⟨sz, true⟩ ∧ σ'.tag (p - 8 + sz - 8) = ⟨sz, true⟩ ∧
      reqSize u ≤ sz ∧ sz < reqSize u + 32 ∧
      (32 ≤ (σ₁.blockSize (p - 8) + 2^64 - reqSize u) % 2^64 → sz = reqSize u) ∧
      (¬32 ≤ (σ₁.blockSize (p - 8) + 2^64 - reqSize u) % 2^64 → sz = σ₁.blockSize (p - 8)) ∧
      (v = .seg ∧ reqSize u ≤ 96 ∧
        extendHeap v.program.L ext s.heap (reqSize u / 8) false = some (p - 8, σ₁) →
          sz = reqSize u) := by
  have hG := v.good hs
  obtain ⟨A₀, hR₀, hI₀, -⟩ := hG.arena
  obtain ⟨h32, h8, -⟩ := reqSize_spec u
  have hadj := adjustSize_eq u (by omega)
  obtain ⟨-, block, σ₁, rfl, rfl, hpath⟩ := v.malloc_cases h
  rw [hadj] at hpath ⊢
  rw [Nat.add_sub_cancel]
  have hP := v.path_prepared hR₀ hI₀ hext hG.lo_le hG.bound h32 h8 hu hpath
  obtain ⟨A, pre, c, post, hsite, hblock, -⟩ := hP.site
  have hx : block = σ₁.prologue + 8 + total pre := by rw [hP.prologue]; exact hblock
  have hxc : (block, c) ∈ placed (σ₁.prologue + 8) A.blocks := by
    rw [hx, hsite.blocks]; exact mem_placed_of_eq
  have hcsz : σ₁.blockSize block = c.size := hsite.repr.blockSize_eq hxc
  have hsplit : (σ₁.blockSize block + 2^64 - reqSize u) % 2^64 = c.size - reqSize u := by
    have := mem_placed_bounds hxc
    have := hsite.bound
    have := hsite.le
    rw [hcsz]
    omega
  obtain ⟨hR', -, -⟩ := hsite.spec
  rw [← hx] at hR'
  have hle := hsite.le
  by_cases hs32 : 32 ≤ c.size - reqSize u
  · have hmem : (block, (⟨reqSize u, true⟩ : Block)) ∈ placed (σ₁.prologue + 8)
        (Arena.place v.program.L (σ₁.prologue + 8) A pre c post (reqSize u)).blocks := by
      simp only [Arena.place, if_pos hs32, Arena.cons_blocks, hx]
      exact mem_placed_iff.mpr ⟨pre, ⟨c.size - reqSize u, false⟩ :: post, by simp, rfl⟩
    obtain ⟨ht₁, ht₂⟩ := hR'.tags _ _ (by rw [place_prologue]; exact hmem)
    exact ⟨σ₁, reqSize u, hpath, rfl, ht₁, ht₂, le_rfl, by omega, fun _ => rfl,
      fun h => absurd (hsplit ▸ hs32) h, fun _ => rfl⟩
  · have hmem : (block, (⟨c.size, true⟩ : Block)) ∈ placed (σ₁.prologue + 8)
        (Arena.place v.program.L (σ₁.prologue + 8) A pre c post (reqSize u)).blocks := by
      simp only [Arena.place, if_neg hs32, hx]
      exact mem_placed_iff.mpr ⟨pre, post, by simp, rfl⟩
    obtain ⟨ht₁, ht₂⟩ := hR'.tags _ _ (by rw [place_prologue]; exact hmem)
    refine ⟨σ₁, c.size, hpath, rfl, ht₁, ht₂, hle, by omega,
      fun h => absurd (hsplit ▸ h) hs32, fun _ => hcsz.symm, fun ⟨_, _, hfast⟩ => ?_⟩
    have := hR₀.extendHeap_block hI₀.toWF (by omega) (by omega) hfast
    rw [hcsz] at this
    omega

/-- In part_000, right after `mm_init`, a request of 1 byte gets an allocated block of 32 to 63
bytes. -/
theorem malloc_block_size_first_request :
    ∃ (s : Client) (p : Nat) (σ' : Heap) (sz : Nat), Variant.seg.program.Reachable s ∧
      Variant.seg.program.malloc (Extender.upTo s.heap.lo) s.heap 1 = some (p, σ') ∧
      σ'.tag (p - 8) = ⟨sz, true⟩ ∧ 32 ≤ sz ∧ sz < 64 := by
  obtain ⟨s, p, σ', hs, hb, h⟩ := Variant.seg.exists_malloc Nat.one_ne_zero (by decide)
  obtain ⟨-, sz, -, -, ht, -, hle, hlt, -⟩ := malloc_block_size .seg hs hb (by decide) h
  exact ⟨s, p, σ', sz, hs, h, ht, hle, hlt⟩

namespace Variant

variable {σ : Heap} {A : Arena}

/-- `find_fit` in a heap with the invariant returns a free block of at least `asize` bytes on
the list of its class, or NULL when no free block has `asize` bytes. -/
theorem findFit_complete (v : Variant) (hR : Repr v.program.L σ A)
    (hI : A.Inv v.program.L (σ.prologue + 8)) (hsz : total A.blocks < 2^32) {asize : Nat}
    (h32 : 32 ≤ asize) :
    (∃ b d, v.findFit σ asize = some b ∧ (b, d) ∈ placed (σ.prologue + 8) A.blocks ∧
      d.allocated = false ∧ asize ≤ d.size ∧ b ∈ A.lists (v.program.L.cls d.size)) ∨
    (v.findFit σ asize = none ∧ ∀ x d, (x, d) ∈ placed (σ.prologue + 8) A.blocks →
      d.allocated = false → d.size < asize) := by
  cases hf : v.findFit σ asize with
  | some b =>
    obtain ⟨pre, c, post, hA, rfl, hc, hle⟩ := v.findFit_block hR hI.toWF h32 hf
    have hbc : (σ.prologue + 8 + total pre, c) ∈ placed (σ.prologue + 8) A.blocks := by
      rw [hA]; exact mem_placed_of_eq
    exact .inl ⟨_, c, rfl, hbc, hc, hle, hI.listed.free_mem _ _ hbc hc⟩
  | none =>
    refine .inr ⟨rfl, fun x d hx hd => Nat.lt_of_not_le fun hle => ?_⟩
    have hlt : d.size < 2^32 := by have := mem_placed_bounds hx; omega
    rw [v.findFit_eq hR hI.toWF h32, List.findSome?_eq_none_iff] at hf
    have hk := hf _ (v.cls_mem_scan h32 hle hlt)
    rw [List.find?_eq_none] at hk
    exact hk x (hI.listed.free_mem x d hx hd) (by rw [hR.fits_eq hx]; simp [hd, hle])

end Variant

/-- `find_fit(asize)` returns a listed free block of at least `asize` bytes, or NULL after walking
every list it searches when no free block is that large. -/
theorem find_fit_complete (v : Variant) {s : Client} (hs : v.program.Reachable s) :
    (∀ a b, 32 ≤ a → a ≤ b → b < 2^32 → Seg.segListIndex a ≤ Seg.segListIndex b) ∧
    ∃ bs e, heapWalk s.heap = some (bs, e) ∧
      (∀ asize, 32 ≤ asize →
        (∃ b d, v.findFit s.heap asize = some b ∧ (b, d) ∈ bs ∧ d.allocated = false ∧
          asize ≤ d.size ∧ ∃ k < v.program.L.numLists, ∃ l, listFrom s.heap s.heap.brk
            (s.heap.readHead (v.program.L.loc s.heap.segListHead k)) = some l ∧ b ∈ l) ∨
        (v.findFit s.heap asize = none ∧
          (∀ k ∈ v.scan asize, ∃ l, listFrom s.heap s.heap.brk
            (s.heap.readHead (v.program.L.loc s.heap.segListHead k)) = some l ∧
              ∀ y ∈ l, s.heap.blockSize y < asize) ∧
          ∀ x d, (x, d) ∈ bs → d.allocated = false → d.size < asize)) ∧
      ∀ (ext : Extender) (u p : Nat) (σ' : Heap), v.program.malloc ext s.heap u = some (p, σ') →
        (v = .seg → 96 < reqSize u) → s.heap.brk < σ'.brk →
        ∀ x d, (x, d) ∈ bs → d.allocated = false → d.size < reqSize u := by
  have hG := v.good hs
  obtain ⟨A, hR, hI, -⟩ := hG.arena
  have hsz : total A.blocks < 2^31 := by have := hR.brk; have := hG.bound; have := hG.lo_le; omega
  have hfind := fun asize (h32 : 32 ≤ asize) => v.findFit_complete hR hI (by omega) h32
  refine ⟨fun a b ha hab hb => Seg.segListIndex_mono (by omega) hab hb, _, _,
    hR.heapWalk_eq hI.toWF, fun asize h32 => (hfind asize h32).imp ?_ ?_, ?_⟩
  · rintro ⟨b, d, hf, hbd, hd, hle, hl⟩
    have hk := v.program.L.cls_lt d.size (by omega)
    exact ⟨b, d, hf, hbd, hd, hle, _, hk, _, hR.listFrom_lists hI.toWF hk, hl⟩
  · -- every list searched was walked to its end, and none of its blocks fits
    rintro ⟨hnone, hall⟩
    refine ⟨hnone, fun k hk => ⟨_, hR.listFrom_lists hI.toWF (v.lt_of_mem_scan hk), fun y hy => ?_⟩,
      hall⟩
    obtain ⟨-, d, hd, hdf⟩ := hI.nodes k y hy
    rw [hR.blockSize_eq hd]
    exact hall y d hd hdf
  · intro ext u p σ' hm hfast hgrow x d hx hd
    have hxs : d.size < 2^31 := by have := mem_placed_bounds hx; omega
    rcases Nat.lt_or_ge (reqSize u) (2^31) with hu | hu
    · obtain ⟨-, block, σ₁, -, rfl, hpath⟩ := v.malloc_cases hm
      rw [place_brk] at hgrow
      rw [adjustSize_eq u (by omega)] at hpath
      rcases hpath with ⟨-, rfl⟩ | ⟨hnone, -⟩ | ⟨hv, h96, -⟩
      · omega
      · rcases hfind _ (reqSize_spec u).1 with ⟨b, -, hf, -⟩ | ⟨-, hall⟩
        · rw [hf] at hnone; cases hnone
        · exact hall x d hx hd
      · have := hfast hv; omega
    · omega

/-- In part_000, right after `mm_init`, `find_fit(32)` finds a block or the walk has no free
block of 32 bytes. -/
theorem find_fit_complete_after_init :
    ∃ (s : Client) (bs : List (Nat × Block)) (e : Nat), Variant.seg.program.Reachable s ∧ heapWalk s.heap = some (bs, e) ∧
      ((∃ b, Variant.seg.findFit s.heap 32 = some b) ∨
        ∀ x d, (x, d) ∈ bs → d.allocated = false → d.size < 32) := by
  obtain ⟨σ, hs, -⟩ := Variant.seg.reachable_init
  obtain ⟨-, bs, e, hw, hfit, -⟩ := find_fit_complete .seg hs
  refine ⟨_, bs, e, hs, hw, ?_⟩
  rcases hfit 32 le_rfl with ⟨b, -, hf, -⟩ | ⟨-, -, hall⟩
  exacts [.inl ⟨b, hf⟩, .inr hall]

end MallocLab.MM
