import MallocLab.MMPaths

/-! Laws of consecutive calls in either program: `mm_free` of the block `mm_malloc` just placed
gives back the heap with the block moved to the front of its list, and a second `mm_malloc` of
the same size then places the same block again. -/
namespace MallocLab.MM

namespace Arena

variable {L : FreeLists} {start : Nat} {A : Arena} {pre post : List Block} {b : Block}

theorem cons_lists_congr {A B : Arena} (h : A.lists = B.lists) (k x : Nat) :
    (A.cons k x).lists = (B.cons k x).lists := by
  simp [cons, h]

theorem remove_lists_congr {A B : Arena} (h : A.lists = B.lists) (g : List Nat) :
    (A.remove g).lists = (B.remove g).lists := by
  simp [remove, h]

@[simp] theorem mk_remove_lists (bs : List Block) (A : Arena) (g : List Nat) :
    ((⟨bs, A.lists⟩ : Arena).remove g).lists = (A.remove g).lists := rfl

theorem remove_cons_lists {k x : Nat} {g : List Nat} (h : x ∈ g) :
    ((A.cons k x).remove g).lists = (A.remove g).lists := by
  funext j
  simp only [remove, cons, Function.update_apply]
  split_ifs with hj
  · subst hj; simp [h]
  · rfl

theorem remove_lists_eq {g g' : List Nat} (h : ∀ k y, y ∈ A.lists k → (y ∈ g ↔ y ∈ g')) :
    (A.remove g).lists = (A.remove g').lists := by
  funext k
  simp only [remove]
  exact List.filter_congr fun y hy => by simp [h k y hy]

theorem total_place (hA : A.blocks = pre ++ b :: post) {asize : Nat} (hle : asize ≤ b.size) :
    total (A.place L start pre b post asize).blocks = total A.blocks := by
  unfold place
  split_ifs <;> simp [hA]; omega

theorem place_congr {A' : Arena} {asize : Nat}
    (h : (A'.remove [start + total pre]).lists = (A.remove [start + total pre]).lists) :
    A'.place L start pre b post asize = A.place L start pre b post asize := by
  unfold place
  rw [h]

theorem front_lists (hW : A.WF L start) {k x : Nat} (hx : x ∈ A.lists k) (j : Nat) :
    ((A.remove [x]).cons k x).lists j = if j = k then x :: (A.lists j).erase x else A.lists j := by
  simp only [cons, remove, Function.update_apply]
  split_ifs with hj
  · subst hj
    rw [(hW.nodup j).erase_eq_filter]
    exact congrArg _ (List.filter_congr fun y _ => by by_cases y = x <;> simp [*])
  · exact List.filter_eq_self.mpr fun y hy => by
      simp only [List.mem_singleton, decide_eq_true_eq]
      rintro rfl
      exact hj (hW.disjoint _ _ _ hy hx)

/-- Freeing what `place` allocated in a block flanked by allocated ones gives back the arena, with
the block at the front of its list. -/
theorem free_place (hW : A.WF L start) (hA : A.blocks = pre ++ b :: post)
    (hb : b.allocated = false) (hp : prevFree pre = false) (hn : nextFree post = false)
    {asize : Nat} (h32 : 32 ≤ asize) (hle : asize ≤ b.size) :
    ∃ c post₁, (A.place L start pre b post asize).blocks = pre ++ c :: post₁ ∧
      c.allocated = true ∧
      (A.place L start pre b post asize).free L start pre c post₁ =
        (A.remove [start + total pre]).cons (L.cls b.size) (start + total pre) := by
  have hbf : b = ⟨b.size, false⟩ := by cases b; cases hb; rfl
  unfold place
  split_ifs with hsp
  · -- the rest split off is free and follows, so `mm_free` merges the two again
    refine ⟨⟨asize, true⟩, ⟨b.size - asize, false⟩ :: post, by simp, rfl, ?_⟩
    have hout : ∀ k y, y ∈ A.lists k → y ≠ start + total pre + asize := by
      intro k y hy hya
      obtain ⟨-, d, hd, -⟩ := hW.nodes k y hy
      have hx : (start + total pre, b) ∈ placed start A.blocks := hA ▸ mem_placed_of_eq
      have := placed_disjoint hW.sized.pos hx hd (by omega)
      have := hW.sized.pos d (mem_placed_block hd)
      omega
    have htot : asize + (b.size - asize) = b.size := by omega
    ext1
    · simp [free, coalesce, hp, nextFree, hA, htot, ← hbf]
    · simp only [free, coalesce, hp, nextFree, Bool.not_false, merge, List.take, List.drop,
        total_cons, total_nil, Nat.add_zero, htot, placed_cons, placed_nil, List.map_cons,
        List.map_nil]
      refine cons_lists_congr ?_ _ _
      rw [mk_remove_lists, remove_cons_lists (by simp), mk_remove_lists, remove_cons_lists (by simp),
        mk_remove_lists, remove_remove]
      exact remove_lists_eq fun k y hy => by simp [hout k y hy]
  · -- no rest: the block is simply freed and pushed again
    refine ⟨⟨b.size, true⟩, post, by simp, rfl, ?_⟩
    ext1
    · simp [free, coalesce, hp, hn, hA, ← hbf]
    · simp [free, coalesce, hp, hn]
      rfl

end Arena

namespace Repr

variable {L : FreeLists} {σ σ' : Heap} {A : Arena}

/-- Two heaps that hold the same arena above the same prologue look the same: the heap size,
the walk and every list read from its head. -/
theorem views_eq (hR : Repr L σ A) (hR' : Repr L σ' A) (hW : A.WF L (σ.prologue + 8))
    (hpro : σ'.prologue = σ.prologue) :
    σ'.brk = σ.brk ∧ heapWalk σ' = heapWalk σ ∧ ∀ k < L.numLists,
      listFrom σ' σ'.brk (σ'.readHead (L.loc σ'.segListHead k)) =
        listFrom σ σ.brk (σ.readHead (L.loc σ.segListHead k)) := by
  have hW' : A.WF L (σ'.prologue + 8) := hpro ▸ hW
  refine ⟨by rw [hR'.brk, hR.brk, hpro], by rw [hR'.heapWalk_eq hW', hR.heapWalk_eq hW, hpro],
    fun k hk => by rw [hR'.listFrom_lists hW' hk, hR.listFrom_lists hW hk]⟩

/-- `place`, `mm_free` of its payload and `place` again in the same block give the arena of the
first `place`. -/
theorem place_free_place (hR : Repr L σ A) (hI : A.Inv L (σ.prologue + 8))
    {pre post : List Block} {b : Block} (hA : A.blocks = pre ++ b :: post)
    (hb : b.allocated = false) {asize : Nat} (h32 : 32 ≤ asize) (h8 : asize % 8 = 0)
    (hle : asize ≤ b.size) (hsz : total A.blocks < 2^31) :
    let x := σ.prologue + 8 + total pre
    let σ₂ := mmFree L (place L σ x asize) (x + 8)
    Repr L (place L σ x asize) (A.place L (σ.prologue + 8) pre b post asize) ∧
      (A.place L (σ.prologue + 8) pre b post asize).Inv L (σ.prologue + 8) ∧
      Repr L σ₂ ((A.remove [x]).cons (L.cls b.size) x) ∧
      ((A.remove [x]).cons (L.cls b.size) x).Inv L (σ.prologue + 8) ∧
      Repr L (place L σ₂ x asize) (A.place L (σ.prologue + 8) pre b post asize) := by
  intro x σ₂
  obtain ⟨hR₁, hI₁, -⟩ := (PlaceSite.of_inv hR hI hA hb h32 h8 hle hsz).spec
  have hco := hI.coalesced
  rw [hA] at hco
  obtain ⟨-, -, hp, hn⟩ := hco.around_free hb
  obtain ⟨c, post₁, hA₁, hc, hfree⟩ := Arena.free_place hI.toWF hA hb hp hn h32 hle
  have hsz₁ : total (A.place L (σ.prologue + 8) pre b post asize).blocks = total A.blocks :=
    Arena.total_place hA hle
  obtain ⟨hR₂, hI₂, -⟩ := hR₁.mmFree_spec (by simpa using hI₁) hA₁ hc (by simpa [hsz₁] using hsz)
  simp only [place_prologue, hfree] at hR₂ hI₂
  have hA₂ : ((A.remove [x]).cons (L.cls b.size) x).blocks = pre ++ b :: post := by simp [hA]
  obtain ⟨hR₃, -, -⟩ := (PlaceSite.of_inv hR₂ (by simpa [σ₂] using hI₂) hA₂ hb h32 h8 hle
    (by simpa [hA] using hsz)).spec
  have hl : (((A.remove [x]).cons (L.cls b.size) x).remove [x]).lists = (A.remove [x]).lists := by
    rw [Arena.remove_cons_lists (List.mem_singleton_self _), Arena.remove_remove]
    exact Arena.remove_lists_eq fun _ _ _ => by simp
  simp only [mmFree_prologue, place_prologue] at hR₃
  rw [Arena.place_congr hl] at hR₃
  exact ⟨hR₁, hI₁, hR₂, hI₂, hR₃⟩

end Repr

namespace Variant

variable {σ : Heap} {A : Arena}

/-- Moving the block `find_fit` returned to the front of its list keeps it the first fit: the
other lists it searches are unchanged. -/
theorem findFit_front (v : Variant) (hR : Repr v.program.L σ A)
    (hI : A.Inv v.program.L (σ.prologue + 8)) {asize x : Nat} (h32 : 32 ≤ asize)
    (hfit : v.findFit σ asize = some x)
    {b : Block} (hx : (x, b) ∈ placed (σ.prologue + 8) A.blocks) (hb : b.allocated = false)
    (hle : asize ≤ b.size) {σ' : Heap}
    (hR' : Repr v.program.L σ' ((A.remove [x]).cons (v.program.L.cls b.size) x))
    (hW' : ((A.remove [x]).cons (v.program.L.cls b.size) x).WF v.program.L (σ'.prologue + 8))
    (hpro : σ'.prologue = σ.prologue) : v.findFit σ' asize = some x := by
  have hxl := hI.listed.free_mem x b hx hb
  rw [v.findFit_eq hR hI.toWF h32] at hfit
  rw [v.findFit_eq hR' hW' h32]
  refine findSome_of_agree (fun k _ => ?_) hfit
  rw [Arena.front_lists hI.toWF hxl]
  split_ifs with hk
  · refine .inr (List.find?_cons_of_pos _ ?_)
    rw [hR'.fits_eq (by simpa [hpro] using hx)]
    simpa [hb] using hle
  · exact .inl (find_congr fun y hy => by
      obtain ⟨-, d, hd, -⟩ := hI.nodes k y hy
      rw [hR'.fits_eq (by simpa [hpro] using hd), hR.fits_eq hd])

/-- After a growing `mm_malloc`, the block it yields, moved to the front of its list, is the first
fit. -/
theorem findFit_grown (v : Variant) (hR : Repr v.program.L σ A)
    (hI : A.Inv v.program.L (σ.prologue + 8)) {asize : Nat} (h32 : 32 ≤ asize)
    (hnone : v.findFit σ asize = none) {A₁ : Arena} {pre t : List Block} {M : Nat}
    (hI₁ : A₁.Inv v.program.L (σ.prologue + 8)) (hA₁ : A₁.blocks = pre ++ [⟨M, false⟩])
    (hA : A.blocks = pre ++ t) (hle : asize ≤ M) (hM : M < 2^32) {σ' : Heap}
    (hR' : Repr v.program.L σ' ((A₁.remove [σ.prologue + 8 + total pre]).cons
      (v.program.L.cls M) (σ.prologue + 8 + total pre)))
    (hW' : ((A₁.remove [σ.prologue + 8 + total pre]).cons (v.program.L.cls M)
      (σ.prologue + 8 + total pre)).WF v.program.L (σ'.prologue + 8))
    (hpro : σ'.prologue = σ.prologue) : v.findFit σ' asize = some (σ.prologue + 8 + total pre) := by
  rw [v.findFit_eq hR hI.toWF h32, List.findSome?_eq_none_iff] at hnone
  rw [v.findFit_eq hR' hW' h32]
  have hpre : ∀ y d, (y, d) ∈ placed (σ.prologue + 8) pre →
      (y, d) ∈ placed (σ.prologue + 8) A₁.blocks ∧ (y, d) ∈ placed (σ.prologue + 8) A.blocks :=
    fun y d h => by rw [hA₁, hA, placed_append, placed_append]; simp [h]
  have hy : (σ.prologue + 8 + total pre, (⟨M, false⟩ : Block)) ∈ placed (σ'.prologue + 8)
      ((A₁.remove [σ.prologue + 8 + total pre]).cons (v.program.L.cls M)
        (σ.prologue + 8 + total pre)).blocks := by
    simp [hA₁, hpro, placed_append]
  have hhead : (((A₁.remove [σ.prologue + 8 + total pre]).cons (v.program.L.cls M)
      (σ.prologue + 8 + total pre)).lists (v.program.L.cls M)).find? (fits σ' asize) =
        some (σ.prologue + 8 + total pre) := by
    simp only [Arena.cons, Function.update_same]
    refine List.find?_cons_of_pos _ ?_
    rw [hR'.fits_eq hy]
    simpa using hle
  refine findSome_of_only (fun k hk => ?_) ⟨_, v.cls_mem_scan h32 hle hM, hhead⟩
  by_cases hkM : k = v.program.L.cls M
  · exact .inr (hkM ▸ hhead)
  · refine .inl (List.find?_eq_none.mpr fun y hy => ?_)
    obtain ⟨hy₁, hyx⟩ := Arena.mem_remove.mp
      ((Arena.mem_cons_lists.mp hy).resolve_left fun h => hkM h.1)
    rw [List.mem_singleton] at hyx
    obtain ⟨-, d, hd, hdf⟩ := hI₁.nodes k y hy₁
    have hd' : (y, d) ∈ placed (σ.prologue + 8) pre := by
      rw [hA₁, placed_append] at hd
      simpa [hyx] using hd
    have hk' := hI₁.listed.mem_cls k y d hy₁ hd
    have hyA := hI.listed.free_mem y d (hpre y d hd').2 hdf
    rw [← hk'] at hyA
    have := List.find?_eq_none.mp (hnone k hk) y hyA
    rwa [hR'.fits_eq (by simpa [hpro] using (hpre y d hd').1), ← hR.fits_eq (hpre y d hd').2]

end Variant


/-- `mm_free(p)` right after a non-growing `p = mm_malloc(u)` restores the walk and every list but
that of `p`'s block, which it moves to the front. -/
theorem malloc_free_restores (v : Variant) {s : Client} (hs : v.program.Reachable s)
    {ext : Extender} {u p : Nat} {σ₁ : Heap} (hu : reqSize u < 2^31)
    (h : v.program.malloc ext s.heap u = some (p, σ₁)) (hgrow : σ₁.brk = s.heap.brk) :
    let σ₂ := mmFree v.program.L σ₁ p
    σ₂.brk = s.heap.brk ∧ heapWalk σ₂ = heapWalk s.heap ∧
      (∃ bs e, heapWalk σ₂ = some (bs, e) ∧ ∀ x b, (x, b) ∈ bs → σ₂.tag (x + b.size - 8) = b) ∧
      ∃ bs e B, heapWalk s.heap = some (bs, e) ∧ (p - 8, B) ∈ bs ∧ B.allocated = false ∧
        ∀ k < v.program.L.numLists,
          listFrom σ₂ σ₂.brk (σ₂.readHead (v.program.L.loc σ₂.segListHead k)) =
            if k = v.program.L.cls B.size then
              (listFrom s.heap s.heap.brk
                (s.heap.readHead (v.program.L.loc s.heap.segListHead k))).map
                fun l => (p - 8) :: l.erase (p - 8)
            else listFrom s.heap s.heap.brk (s.heap.readHead (v.program.L.loc s.heap.segListHead k)) := by
  have hG := v.good hs
  obtain ⟨A, hR, hI, -⟩ := hG.arena
  obtain ⟨-, block, σ₀, rfl, rfl, hcase⟩ := v.malloc_cases h
  obtain ⟨h32, h8, -⟩ := reqSize_spec u
  rw [adjustSize_eq u (by omega)] at hcase hgrow ⊢
  -- an extension raises the break, so `place` ran in a fit of the heap itself
  obtain ⟨hfit, rfl⟩ : v.findFit s.heap (reqSize u) = some block ∧ σ₀ = s.heap := by
    rcases hcase with hc | ⟨-, hx⟩ | ⟨-, -, hx⟩
    · exact hc
    all_goals
      have := extendHeap_brk hx
      rw [place_brk] at hgrow
      omega
  obtain ⟨pre, B, post, hA, rfl, hB, hle⟩ := v.findFit_block hR hI.toWF h32 hfit
  have hsz : total A.blocks < 2^31 := by
    have := hR.brk; have := hG.bound; have := hG.lo_le; omega
  obtain ⟨-, -, hR₂, hI₂, -⟩ := hR.place_free_place hI hA hB h32 h8 hle hsz
  intro σ₂
  have hpro : σ₂.prologue = s.heap.prologue := by simp [σ₂]
  have hW₂ : ((A.remove [s.heap.prologue + 8 + total pre]).cons (v.program.L.cls B.size)
      (s.heap.prologue + 8 + total pre)).WF v.program.L (σ₂.prologue + 8) := by
    rw [hpro]; exact hI₂.toWF
  have hx : (s.heap.prologue + 8 + total pre, B) ∈ placed (s.heap.prologue + 8) A.blocks :=
    hA ▸ mem_placed_of_eq
  have hwalk : heapWalk σ₂ = heapWalk s.heap := by
    rw [hR₂.heapWalk_eq hW₂, hR.heapWalk_eq hI.toWF, hpro]; rfl
  refine ⟨by rw [hR₂.brk, hR.brk, hpro]; rfl, hwalk,
    ⟨_, _, hR₂.heapWalk_eq hW₂, fun y d hy => (hR₂.tags y d hy).2⟩, _, _, B,
    hR.heapWalk_eq hI.toWF, by simpa using hx, hB, fun k hk => ?_⟩
  rw [hR₂.listFrom_lists hW₂ hk, hR.listFrom_lists hI.toWF hk,
    Arena.front_lists hI.toWF (hI.listed.free_mem _ _ hx hB)]
  split_ifs <;> simp

/-- In mm.c, right after `mm_init` on the empty heap at address 0, a request of 100 bytes is
served from the first chunk without growing the heap, and freeing it gives back the walk. -/
theorem malloc_free_restores_fresh :
    ∃ (s : Client) (p : Nat) (σ₁ : Heap), Variant.explicit.program.Reachable s ∧
      Variant.explicit.program.malloc (Extender.upTo s.heap.lo) s.heap 100 = some (p, σ₁) ∧
      σ₁.brk = s.heap.brk ∧
      heapWalk (mmFree Variant.explicit.program.L σ₁ p) = heapWalk s.heap := by
  have hs : Variant.explicit.program.Reachable
      ⟨initChunk { (⟨fun _ => 0, 0, 0, 0, 0, 0, []⟩ : Heap) with brk := 0 + chunkSize } 0 .global, []⟩ :=
    @Program.Reachable.init _ _ ⟨fun _ => 0, 0, 0, 0, 0, 0, []⟩ _ rfl rfl (Extender.upTo_bounded 0)
      (Explicit.init_eq rfl)
  have hR : Repr Variant.explicit.program.L
      (initChunk { (⟨fun _ => 0, 0, 0, 0, 0, 0, []⟩ : Heap) with brk := 0 + chunkSize } 0 .global)
      (initArena Explicit.lists 0) := Explicit.init_repr
  have hfits : fits (initChunk { (⟨fun _ => 0, 0, 0, 0, 0, 0, []⟩ : Heap) with brk := 0 + chunkSize }
      0 .global) (adjustSize 100) 8 = true := by
    rw [hR.fits_eq (show ((8 : Nat), (⟨chunkSize - 16, false⟩ : Block)) ∈ placed
      ((initChunk { (⟨fun _ => 0, 0, 0, 0, 0, 0, []⟩ : Heap) with brk := 0 + chunkSize } 0
        .global).prologue + 8) (initArena Explicit.lists 0).blocks by simp [initArena])]
    decide
  have hfit : Variant.explicit.findFit (initChunk { (⟨fun _ => 0, 0, 0, 0, 0, 0, []⟩ : Heap) with
      brk := 0 + chunkSize } 0 .global) (adjustSize 100) = some 8 := by
    rw [Variant.findFit_eq .explicit hR (by simpa using (initArena_inv Explicit.lists 0).toWF)
      (adjustSize_spec 100).1,
      Variant.scan, List.findSome?_cons, show (initArena Explicit.lists 0).lists 0 = [8] from rfl,
      List.find?_cons_of_pos _ hfits]
  have h : Variant.explicit.program.malloc (Extender.upTo 0) (initChunk { (⟨fun _ => 0, 0, 0, 0,
      0, 0, []⟩ : Heap) with brk := 0 + chunkSize } 0 .global) 100 = some (8 + 8, place
        Variant.explicit.program.L (initChunk { (⟨fun _ => 0, 0, 0, 0, 0, 0, []⟩ : Heap) with
          brk := 0 + chunkSize } 0 .global) 8 (adjustSize 100)) :=
    Variant.explicit.malloc_of_fit (by decide) (fun h => nomatch h) hfit
  obtain ⟨-, hw, -⟩ := malloc_free_restores .explicit hs (by decide) h (place_brk ..)
  exact ⟨_, _, _, hs, by simpa using h, place_brk .., hw⟩

/-- After `p = mm_malloc(u)` and `mm_free(p)`, the same request returns `p` again and leaves the
heap as the first call did. -/
theorem malloc_free_malloc (v : Variant) {s : Client} (hs : v.program.Reachable s)
    {ext : Extender} (hext : ext.Bounded s.heap.lo) {u p : Nat} {σ₁ : Heap}
    (hu : reqSize u < 2^31) (hfast : v = .seg → 96 < reqSize u)
    (h : v.program.malloc ext s.heap u = some (p, σ₁)) (ext' : Extender) :
    ∃ σ₃, v.program.malloc ext' (mmFree v.program.L σ₁ p) u = some (p, σ₃) ∧
      σ₃.brk = σ₁.brk ∧ heapWalk σ₃ = heapWalk σ₁ ∧
      ∀ k < v.program.L.numLists,
        listFrom σ₃ σ₃.brk (σ₃.readHead (v.program.L.loc σ₃.segListHead k)) =
          listFrom σ₁ σ₁.brk (σ₁.readHead (v.program.L.loc σ₁.segListHead k)) := by
  have hG := v.good hs
  obtain ⟨A, hR, hI, -⟩ := hG.arena
  obtain ⟨hu0, block, σ₀, rfl, rfl, hcase⟩ := v.malloc_cases h
  obtain ⟨h32, h8, -⟩ := reqSize_spec u
  have hadj := adjustSize_eq u (by omega)
  rw [hadj] at hcase ⊢
  have hsz : total A.blocks < 2^31 := by
    have := hR.brk; have := hG.bound; have := hG.lo_le; omega
  -- `place` runs in a free block `B` of a heap with the invariant, and once `B` is freed and
  -- moved to the front of its list, `find_fit` returns it again
  obtain ⟨A₀, pre, B, post, hR₀, hI₀, hA₀, hB, hle, hsz₀, rfl, hrefit⟩ :
      ∃ A₀ pre B post, Repr v.program.L σ₀ A₀ ∧ A₀.Inv v.program.L (σ₀.prologue + 8) ∧
        A₀.blocks = pre ++ B :: post ∧ B.allocated = false ∧ reqSize u ≤ B.size ∧
        total A₀.blocks < 2^31 ∧ block = σ₀.prologue + 8 + total pre ∧
        ∀ σ', Repr v.program.L σ' ((A₀.remove [block]).cons (v.program.L.cls B.size) block) →
          ((A₀.remove [block]).cons (v.program.L.cls B.size) block).WF v.program.L
            (σ'.prologue + 8) →
          σ'.prologue = σ₀.prologue → v.findFit σ' (reqSize u) = some block := by
    rcases hcase with ⟨hfit, rfl⟩ | ⟨hnone, hx⟩ | ⟨hv, h96, -⟩
    · -- a fit
      obtain ⟨pre, B, post, hA, rfl, hB, hle⟩ := v.findFit_block hR hI.toWF h32 hfit
      exact ⟨A, pre, B, post, hR, hI, hA, hB, hle, hsz, rfl, fun σ' hR' hW' hpro =>
        v.findFit_front hR hI h32 hfit (hA ▸ mem_placed_of_eq) hB hle hR' hW' hpro⟩
    · -- no fit: the heap grew by the larger of `asize` and `CHUNKSIZE`, coalesced
      have hw8 : (if reqSize u > chunkSize then reqSize u else chunkSize) / 8 * 8 =
          max (reqSize u) chunkSize := by
        unfold chunkSize; split_ifs <;> omega
      obtain ⟨A₁, pre, t, M, hR₁, hI₁, hpro₁, hA₁, hA, rfl, hM, hsz₁⟩ :=
        hR.extend_grown hI hext hG.lo_le (by rw [hw8]; unfold chunkSize; omega)
          (by rw [hw8]; unfold chunkSize; omega) hx
      have hMt : M ≤ total A₁.blocks := by rw [hA₁]; simp
      refine ⟨A₁, pre, ⟨M, false⟩, [], hR₁, hpro₁ ▸ hI₁, hA₁, rfl, by simp; omega, hsz₁,
        by rw [hpro₁], fun σ' hR' hW' hpro => ?_⟩
      exact v.findFit_grown hR hI h32 hnone hI₁ hA₁ hA (by omega) (by omega) hR' hW'
        (hpro.trans hpro₁)
    · exact absurd (hfast hv) (by omega)
  obtain ⟨hR₁, hI₁, hR₂, hI₂, hR₃⟩ := hR₀.place_free_place hI₀ hA₀ hB h32 h8 hle hsz₀
  refine ⟨_, v.malloc_of_fit hu0 (by rwa [hadj]) ?_,
    hR₁.views_eq (by rwa [hadj]) (by simpa using hI₁.toWF) (by simp)⟩
  rw [hadj]
  exact hrefit _ hR₂ (by simpa using hI₂.toWF) (by simp)

/-- In part_000, right after `mm_init`, a request of 100 bytes, freed and asked for again, gets
its payload back and leaves the walk of the first call. -/
theorem malloc_free_malloc_again :
    ∃ (s : Client) (p : Nat) (σ₁ σ₃ : Heap), Variant.seg.program.Reachable s ∧
      Variant.seg.program.malloc (Extender.upTo s.heap.lo) s.heap 100 = some (p, σ₁) ∧
      Variant.seg.program.malloc (Extender.upTo s.heap.lo)
        (mmFree Variant.seg.program.L σ₁ p) 100 = some (p, σ₃) ∧
      heapWalk σ₃ = heapWalk σ₁ := by
  obtain ⟨s, p, σ₁, hs, hb, h⟩ := Variant.seg.exists_malloc (show 100 ≠ 0 by decide) (by decide)
  obtain ⟨σ₃, h₃, -, hw, -⟩ :=
    malloc_free_malloc .seg hs hb (by decide) (fun _ => by decide) h (Extender.upTo s.heap.lo)
  exact ⟨s, p, σ₁, σ₃, hs, h, h₃, hw⟩

end MallocLab.MM
