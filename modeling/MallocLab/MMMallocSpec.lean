import MallocLab.MMMalloc

/-! What the shared parts of `mm_malloc` guarantee. Every path of `mm_malloc` that returns a
block ends in a call `place(block, asize)`; `PlaceSite` is the state at that call and `Prepared`
what the steps before it did. From them: a block of at least the requested size that was not
allocated before, every allocated block kept, and writes only outside allocated blocks. -/
namespace MallocLab.MM

/-- An extender that keeps the heap below `2^31` bytes above `lo`. -/
def Extender.Bounded (ext : Extender) (lo : Nat) : Prop :=
  ∀ brk n, ext brk n = true → brk + n < lo + 2^31

/-- The extender that grants every growth keeping the heap below `2^31` bytes above `lo`. -/
def Extender.upTo (lo : Nat) : Extender := fun brk n => decide (brk + n < lo + 2^31)

theorem Extender.upTo_bounded (lo : Nat) : (Extender.upTo lo).Bounded lo :=
  fun _ _ h => of_decide_eq_true h

/-- The state at a call `place(block, asize)`: the heap holds an arena in which the block is a
free block `c` of at least `asize` bytes, on the list of its class, with no free block right
after it and no two neighbouring free blocks elsewhere; `asize` is a block size. -/
structure PlaceSite (L : FreeLists) (σ : Heap) (A : Arena) (pre : List Block) (c : Block)
    (post : List Block) (asize : Nat) : Prop where
  repr : Repr L σ A
  wf : A.WF L (σ.prologue + 8)
  listed : A.Listed L (σ.prologue + 8)
  blocks : A.blocks = pre ++ c :: post
  free : c.allocated = false
  left : Coalesced pre
  right : Coalesced post
  next : nextFree post = false
  min : 32 ≤ asize
  align : asize % 8 = 0
  le : asize ≤ c.size
  bound : total A.blocks < 2^31

namespace PlaceSite

variable {L : FreeLists} {σ : Heap} {A : Arena} {pre post : List Block} {c : Block} {asize : Nat}

theorem of_inv (hR : Repr L σ A) (hI : A.Inv L (σ.prologue + 8)) (hA : A.blocks = pre ++ c :: post)
    (hc : c.allocated = false) (h32 : 32 ≤ asize) (h8 : asize % 8 = 0) (hle : asize ≤ c.size)
    (hsz : total A.blocks < 2^31) : PlaceSite L σ A pre c post asize := by
  have hco := hI.coalesced
  rw [hA] at hco
  obtain ⟨hpre, hpost, -, hn⟩ := hco.around_free hc
  exact ⟨hR, hI.toWF, hI.listed, hA, hc, hpre, hpost, hn, h32, h8, hle, hsz⟩

theorem spec (h : PlaceSite L σ A pre c post asize) :
    Repr L (place L σ (σ.prologue + 8 + total pre) asize)
        (Arena.place L (σ.prologue + 8) A pre c post asize) ∧
      (Arena.place L (σ.prologue + 8) A pre c post asize).Inv L (σ.prologue + 8) ∧
      σ.WritesIn (FreeCell (σ.prologue + 8) A.blocks)
        (place L σ (σ.prologue + 8 + total pre) asize) :=
  h.repr.place_spec h.wf h.listed h.blocks h.free h.left h.right h.next h.min h.align h.le h.bound

/-- `place` at a place site allocates at least `asize` bytes at the block's address and keeps
every allocated block. -/
theorem alloc (h : PlaceSite L σ A pre c post asize) :
    ∃ A', Repr L (place L σ (σ.prologue + 8 + total pre) asize) A' ∧
      A'.Inv L (σ.prologue + 8) ∧
      (∃ s, (σ.prologue + 8 + total pre, (⟨s, true⟩ : Block)) ∈ placed (σ.prologue + 8) A'.blocks ∧
        asize ≤ s) ∧
      (∀ x b, (x, b) ∈ placed (σ.prologue + 8) A.blocks → b.allocated = true →
        (x, b) ∈ placed (σ.prologue + 8) A'.blocks) ∧
      σ.WritesIn (FreeCell (σ.prologue + 8) A.blocks)
        (place L σ (σ.prologue + 8 + total pre) asize) := by
  obtain ⟨hR', hI', hF'⟩ := h.spec
  have hA₁ : A.blocks = pre ++ [c] ++ post := by simp [h.blocks]
  have hcf : ∀ d ∈ [c], d.allocated = false := by simpa using h.free
  refine ⟨_, hR', hI', ?_, fun x b hx hb => ?_, hF'⟩ <;> unfold Arena.place <;> split_ifs with hsp
  · exact ⟨asize, by simp [placed_append], le_rfl⟩
  · exact ⟨c.size, by simp [placed_append], h.le⟩
  · exact placed_keep_alloc (hA₁ ▸ hx) hb hcf (by simp; have := h.le; omega)
  · exact placed_keep_alloc (hA₁ ▸ hx) hb hcf (by simp)

end PlaceSite

/-- An allocation of at least `asize` bytes from `σ` holding `A`: `p` belongs to a new allocated
block of `σ'`, every old one stays, the invariant holds and only free words were written. -/
structure Allocates (L : FreeLists) (σ : Heap) (A : Arena) (asize p : Nat) (σ' : Heap) : Prop where
  arena : ∃ A', Repr L σ' A' ∧ A'.Inv L (σ.prologue + 8) ∧
    (∃ s, (p - 8, (⟨s, true⟩ : Block)) ∈ placed (σ.prologue + 8) A'.blocks ∧ asize ≤ s) ∧
    ∀ x b, (x, b) ∈ placed (σ.prologue + 8) A.blocks → b.allocated = true →
      (x, b) ∈ placed (σ.prologue + 8) A'.blocks
  fresh : ∀ b, (p - 8, b) ∈ placed (σ.prologue + 8) A.blocks → b.allocated = false
  payload : 8 ≤ p
  frame : σ.WritesIn (FreeCell (σ.prologue + 8) A.blocks) σ'
  prologue : σ'.prologue = σ.prologue
  lo : σ'.lo = σ.lo
  bound : σ'.brk < σ.lo + 2^31

/-- What `mm_malloc` did from `σ` before it calls `place(block, asize)` in `σ₁`: a place site
keeping every allocated block of `A`, reached writing only free words. -/
structure Prepared (L : FreeLists) (σ : Heap) (A : Arena) (asize block : Nat) (σ₁ : Heap) :
    Prop where
  site : ∃ A₁ pre c post, PlaceSite L σ₁ A₁ pre c post asize ∧
    block = σ.prologue + 8 + total pre ∧
    ∀ x b, (x, b) ∈ placed (σ.prologue + 8) A.blocks → b.allocated = true →
      (x, b) ∈ placed (σ.prologue + 8) A₁.blocks
  frame : σ.WritesIn (FreeCell (σ.prologue + 8) A.blocks) σ₁
  prologue : σ₁.prologue = σ.prologue
  lo : σ₁.lo = σ.lo
  bound : σ₁.brk < σ.lo + 2^31

namespace Prepared

variable {L : FreeLists} {σ σ₁ : Heap} {A : Arena} {asize block : Nat}

theorem allocates (h : Prepared L σ A asize block σ₁) :
    Allocates L σ A asize (block + 8) (place L σ₁ block asize) := by
  obtain ⟨A₁, pre, c, post, hs, rfl, hkeep⟩ := h.site
  have hpro := h.prologue
  obtain ⟨A', hR', hI', ⟨s, hps, hle⟩, hkeep', hF'⟩ := hs.alloc
  rw [hpro] at hR' hI' hps hkeep' hF'
  have hpos := hs.wf.sized.pos
  refine ⟨⟨A', hR', hI', ⟨s, by simpa using hps, hle⟩, fun x b hx hb => hkeep' x b
    (hkeep x b hx hb) hb⟩, fun d hd => ?_, by omega, fun a ha => ?_, by simp [hpro],
    by simp [h.lo], by simpa using h.bound⟩
  · rw [Nat.add_sub_cancel] at hd
    by_contra hda
    have hc : (σ.prologue + 8 + total pre, c) ∈ placed (σ.prologue + 8) A₁.blocks := by
      rw [hs.blocks]; exact mem_placed_of_eq
    obtain rfl := placed_unique hpos (hkeep _ d hd (by simpa using hda)) hc
    exact hda hs.free
  · rw [hF' a fun hf => ha (hf.of_keep (hs.blocks ▸ hpos) hkeep), h.frame a ha]

theorem of_fit (hR : Repr L σ A) (hI : A.Inv L (σ.prologue + 8)) (hbound : σ.brk < σ.lo + 2^31)
    (hlo : σ.lo ≤ σ.prologue) {pre post : List Block} {c : Block}
    (hA : A.blocks = pre ++ c :: post) (hc : c.allocated = false) (h32 : 32 ≤ asize)
    (h8 : asize % 8 = 0) (hle : asize ≤ c.size) :
    Prepared L σ A asize (σ.prologue + 8 + total pre) σ := by
  have hbrk := hR.brk
  exact ⟨⟨A, pre, c, post, .of_inv hR hI hA hc h32 h8 hle (by omega), rfl, fun x b hx _ => hx⟩,
    fun _ _ => rfl, rfl, rfl, hbound⟩

end Prepared

variable {L : FreeLists} {ext : Extender} {σ : Heap} {A : Arena}

/-- A granted `extend_heap` of at least `asize` bytes with coalescing prepares a `place` in the
coalesced block. -/
theorem Repr.extend_prepared (hR : Repr L σ A) (hI : A.Inv L (σ.prologue + 8))
    (hext : ext.Bounded σ.lo) (hlo : σ.lo ≤ σ.prologue) {asize words block : Nat} {σ₁ : Heap}
    (h32 : 32 ≤ asize) (h8 : asize % 8 = 0) (hw32 : 32 ≤ words * 8) (hasw : asize ≤ words * 8)
    (hw32' : words * 8 < 2^32) (hx : extendHeap L ext σ words true = some (block, σ₁)) :
    Prepared L σ A asize block σ₁ := by
  have hgrant : ext σ.brk (words * 8) = true := by
    by_contra hne
    rw [extendHeap_eq_none (.inr (by rw [Nat.mod_eq_of_lt hw32']; simpa using hne))] at hx
    exact Option.noConfusion hx
  have hgrow := hext σ.brk _ hgrant
  have hbrk := hR.brk
  obtain ⟨σ₂, hR₂, hW₂, hF₂, hpro₂, hlo₂, heq⟩ := hR.extendHeap_spec hI.toWF hw32 (by omega) hgrant
  rw [heq true, if_pos rfl, Option.some.injEq] at hx
  set A₂ := A.grow L (σ.prologue + 8) (words * 8)
  have hA₂ : A₂.blocks = A.blocks ++ [⟨words * 8, false⟩] := rfl
  have hsz₂ : total A₂.blocks < 2^31 := by
    simp only [hA₂, total_append, total_cons, total_nil]; omega
  obtain ⟨hc₁, hR₃, hI₃, hF₃⟩ := Repr.coalesce_spec
    hR₂ (by rwa [hpro₂]) (by rw [hpro₂]; exact Arena.Listed.grow hI.toWF hI.listed _)
    hA₂ rfl hI.coalesced List.chain'_nil hsz₂
  rw [hpro₂, hx] at hc₁ hR₃ hF₃
  rw [hpro₂] at hI₃
  set A₃ := (Arena.coalesce L (σ.prologue + 8) A₂ A.blocks ⟨words * 8, false⟩ []).2
  obtain ⟨pre', mid, post', hA₂', hfree, hle, hc₂, hb₃⟩ :=
    Arena.coalesce_run L (σ.prologue + 8) A₂ hA₂ rfl
  simp only at hc₁ hle
  have hpro₁ : σ₁.prologue = σ.prologue := by
    have := congrArg (fun r => r.2.prologue) hx
    simp only [coalesce_prologue] at this
    rw [← this, hpro₂]
  have hb₃' : A₃.blocks = pre' ++ ⟨total mid, false⟩ :: post' := by simp [A₃, hb₃]
  have htot₃ : total A₃.blocks < 2^31 := by
    rw [hb₃']; simp only [hA₂', total_append, total_cons, total_nil] at hsz₂ ⊢; omega
  have hkeep : ∀ x b, (x, b) ∈ placed (σ.prologue + 8) A.blocks → b.allocated = true →
      (x, b) ∈ placed (σ.prologue + 8) A₃.blocks := by
    intro x b hx hb
    have hx₂ : (x, b) ∈ placed (σ.prologue + 8) (pre' ++ mid ++ post') := by
      rw [← hA₂', hA₂, placed_append]; exact List.mem_append_left _ hx
    rw [show A₃.blocks = pre' ++ [⟨total mid, false⟩] ++ post' by simp [A₃, hb₃]]
    exact placed_keep_alloc hx₂ hb hfree (by simp)
  have hbrk₂ := hR₂.brk
  simp only [hpro₂, hA₂, total_append, total_cons, total_nil] at hbrk₂
  have hbrk₁ : σ₁.brk = σ₂.brk := by
    have := congrArg (fun r => r.2.brk) hx
    simpa only [coalesce_brk] using this.symm
  refine ⟨⟨A₃, pre', ⟨total mid, false⟩, post', ?_, by rw [hc₁, hc₂], hkeep⟩, fun a ha => ?_, hpro₁, ?_, by omega⟩
  · have hI₃' : A₃.Inv L (σ₁.prologue + 8) := by rwa [hpro₁]
    exact .of_inv hR₃ hI₃' hb₃' rfl h32 h8 (show asize ≤ total mid by omega) htot₃
  · have hfc : ∀ {a}, FreeCell (σ.prologue + 8) A₂.blocks a →
        FreeCell (σ.prologue + 8) A.blocks a := fun h => (hA₂ ▸ h).of_snoc
    rw [hF₃ a fun h => ha (hfc h), hF₂ a ha]
  · have := congrArg (fun r => r.2.lo) hx
    simp only [coalesce_lo] at this
    simp [← this, hlo₂]

/-- A granted `extend_heap(asize / 8, false)` prepares a `place` in the new block, of exactly
`asize` bytes and not coalesced. -/
theorem Repr.grow_prepared (hR : Repr L σ A) (hI : A.Inv L (σ.prologue + 8))
    (hext : ext.Bounded σ.lo) (hlo : σ.lo ≤ σ.prologue) {asize block : Nat} {σ₁ : Heap}
    (h32 : 32 ≤ asize) (h8 : asize % 8 = 0) (hlt : asize < 2^31)
    (hx : extendHeap L ext σ (asize / 8) false = some (block, σ₁)) :
    Prepared L σ A asize block σ₁ := by
  have hw : asize / 8 * 8 = asize := by omega
  have hgrant : ext σ.brk (asize / 8 * 8) = true := by
    by_contra hne
    rw [extendHeap_eq_none (.inr (by rw [Nat.mod_eq_of_lt (by omega)]; simpa using hne))] at hx
    exact Option.noConfusion hx
  have hgrow := hext σ.brk _ hgrant
  have hbrk := hR.brk
  obtain ⟨σ₂, hR₂, hW₂, hF₂, hpro₂, hlo₂, heq⟩ :=
    hR.extendHeap_spec hI.toWF (by omega) (by omega) hgrant
  rw [heq false] at hx
  simp only [Bool.false_eq_true, if_false, Option.some.injEq, Prod.mk.injEq] at hx
  obtain ⟨rfl, rfl⟩ := hx
  rw [hw] at hR₂ hW₂ hgrow
  have hA : (A.grow L (σ.prologue + 8) asize).blocks = A.blocks ++ ⟨asize, false⟩ :: [] := rfl
  refine ⟨⟨A.grow L (σ.prologue + 8) asize, A.blocks, ⟨asize, false⟩, [], ?_, rfl,
    fun x b hx _ => by simp [placed_append, hx]⟩, hF₂, hpro₂, hlo₂, ?_⟩
  · have hW₂' : (A.grow L (σ.prologue + 8) asize).WF L (σ₂.prologue + 8) := by
      rw [hpro₂]; exact hW₂
    refine ⟨hR₂, hW₂', ?_, hA, rfl, hI.coalesced, List.chain'_nil, rfl, h32, h8, le_rfl, ?_⟩
    · rw [hpro₂]; exact Arena.Listed.grow hI.toWF hI.listed _
    · simp only [hA, total_append, total_cons, total_nil]; omega
  · have := hR₂.brk
    simp only [hpro₂, Arena.grow_blocks, total_append, total_cons, total_nil] at this
    omega

/-- The shared part of `mm_malloc` prepares a `place`, in the first fit or in the coalesced
extension by the larger of `asize` and `CHUNKSIZE`. -/
theorem fitOrExtend_prepared {findFit : Heap → Nat → Option Nat} {asize p : Nat} {σ' : Heap}
    (hR : Repr L σ A) (hI : A.Inv L (σ.prologue + 8)) (hext : ext.Bounded σ.lo)
    (hlo : σ.lo ≤ σ.prologue) (hbound : σ.brk < σ.lo + 2^31) (h32 : 32 ≤ asize)
    (h8 : asize % 8 = 0) (hlt : asize < 2^32)
    (hfit : ∀ b, findFit σ asize = some b → ∃ pre c post, A.blocks = pre ++ c :: post ∧
      b = σ.prologue + 8 + total pre ∧ c.allocated = false ∧ asize ≤ c.size)
    (h : fitOrExtend L findFit ext σ asize = some (p, σ')) :
    ∃ block σ₁, p = block + 8 ∧ σ' = place L σ₁ block asize ∧ Prepared L σ A asize block σ₁ := by
  unfold fitOrExtend at h
  split at h
  · -- a fit was found
    rename_i b hb
    obtain ⟨pre, c, post, hA, rfl, hc, hle⟩ := hfit b hb
    simp only [Option.some.injEq, Prod.mk.injEq] at h
    obtain ⟨rfl, rfl⟩ := h
    exact ⟨_, σ, rfl, rfl, .of_fit hR hI hbound hlo hA hc h32 h8 hle⟩
  · -- the heap is extended by the larger of `asize` and `CHUNKSIZE`
    obtain ⟨words, hwords⟩ : ∃ w, w = (if asize > chunkSize then asize else chunkSize) / 8 :=
      ⟨_, rfl⟩
    have hw8 : words * 8 = if asize > chunkSize then asize else chunkSize := by
      simp only [hwords, chunkSize]; split_ifs <;> omega
    simp only [← hwords] at h
    cases hx : extendHeap L ext σ words true with
    | none => rw [hx] at h; exact absurd h (by simp)
    | some r =>
      obtain ⟨block, σ₁⟩ := r
      rw [hx] at h
      simp only [Option.some.injEq, Prod.mk.injEq] at h
      obtain ⟨rfl, rfl⟩ := h
      exact ⟨block, σ₁, rfl, rfl, hR.extend_prepared hI hext hlo h32 h8
        (by simp only [hw8, chunkSize]; split_ifs <;> omega)
        (by simp only [hw8, chunkSize]; split_ifs <;> omega)
        (by simp only [hw8, chunkSize]; split_ifs <;> omega) hx⟩

namespace Arena

/-- What `mm_free` does to the arena: the allocated block `b` at `start + total pre` is marked
free, pushed on the list of its class and coalesced. -/
def free (L : FreeLists) (start : Nat) (A : Arena) (pre : List Block) (b : Block)
    (post : List Block) : Arena :=
  (Arena.coalesce L start
    ((⟨pre ++ [⟨b.size, false⟩] ++ post, A.lists⟩ : Arena).cons (L.cls b.size) (start + total pre))
    pre ⟨b.size, false⟩ post).2

end Arena

namespace Repr

variable {L : FreeLists} {σ : Heap} {A : Arena}

/-- `mm_free` of the payload of an allocated block carries out `Arena.free` and keeps the
invariant; it writes only inside that block and outside the allocated blocks. -/
theorem mmFree_spec (hR : Repr L σ A) (hI : A.Inv L (σ.prologue + 8)) {pre post : List Block}
    {b : Block} (hA : A.blocks = pre ++ b :: post) (hb : b.allocated = true)
    (hsz : total A.blocks < 2^31) :
    Repr L (mmFree L σ (σ.prologue + 8 + total pre + 8)) (Arena.free L (σ.prologue + 8) A pre b post) ∧
      (Arena.free L (σ.prologue + 8) A pre b post).Inv L (σ.prologue + 8) ∧
      σ.WritesIn (fun a => FreeCell (σ.prologue + 8) A.blocks a ∨
        (σ.prologue + 8 + total pre ≤ a ∧ a < σ.prologue + 8 + total pre + b.size))
        (mmFree L σ (σ.prologue + 8 + total pre + 8)) := by
  obtain ⟨x, hxdef⟩ : ∃ x, x = σ.prologue + 8 + total pre := ⟨_, rfl⟩
  rw [← hxdef]
  have hx : (x, b) ∈ placed (σ.prologue + 8) A.blocks := hxdef ▸ hA ▸ mem_placed_of_eq
  have hbs := hR.blockSize_eq hx
  have hb32 := (hI.sized b (mem_placed_block hx)).1
  have hA₁ : A.blocks = pre ++ [b] ++ post := by simp [hA]
  have hco := hI.coalesced
  rw [hA] at hco
  have hpre : Coalesced pre := List.Chain'.left_of_append hco
  have hpost : Coalesced post := (List.Chain'.right_of_append hco).tail
  -- no list node lies in `b`, which is allocated
  have hout : ∀ k y, y ∈ A.lists k → y < x ∨ x + b.size ≤ y := by
    intro k y hy
    obtain ⟨d, hd, hdf⟩ := (hI.toWF.nodes k y hy).2
    by_contra h
    rw [hA₁] at hd
    have := mem_placed_inside hd (hI.sized.pos d (hA₁ ▸ mem_placed_block hd)) (by omega)
      (by simp; omega)
    simp only [placed_cons, placed_nil, List.mem_singleton, Prod.mk.injEq] at this
    obtain ⟨-, rfl⟩ := this
    simp [hb] at hdf
  have heq : mmFree L σ (x + 8) = (coalesce L (L.push ((σ.setAllocated x false).setAllocated
      (x + b.size - 8) false) x) x).2 := by
    simp [mmFree, getFooter, hbs]
  set σ₂ := (σ.setAllocated x false).setAllocated (x + b.size - 8) false with hσ₂
  have hw : ∀ a, σ₂.mem a ≠ σ.mem a → x ≤ a ∧ a < x + b.size := by
    intro a ha
    by_contra h
    refine ha ?_
    simp (disch := omega) only [σ₂, Heap.setAllocated_mem_of_ne]
  have hfoot := congrArg Block.size (hR.tags _ _ hx).2
  simp only [Heap.tag] at hfoot
  have htags : Tags σ₂ x [⟨b.size, false⟩] := by
    simp (disch := omega) only [tags_cons, tags_nil, and_true, σ₂, Heap.tag_setAllocated_of_ne,
      Heap.tag_setAllocated_self, Heap.blockSize_setAllocated, hbs, hfoot]
  have hR₂ : Repr L σ₂ ⟨pre ++ [⟨b.size, false⟩] ++ post, A.lists⟩ := hR.retag_run hI.toWF hA₁
    (by simp [σ₂]) (by simp [σ₂]) (by simp [σ₂]) (by simp [σ₂]) (by simp [σ₂])
    (fun a ha => by simp only [total_cons, total_nil]; have := hw a ha; omega)
    (fun k y hy => by simp only [total_cons, total_nil]; have := hout k y hy; omega)
    (by simpa [← hxdef] using htags) (by simp)
  have hW₂ : (⟨pre ++ [⟨b.size, false⟩] ++ post, A.lists⟩ : Arena).WF L (σ.prologue + 8) :=
    hI.toWF.retag_run hA₁
    (fun k y hy => by simp only [total_cons, total_nil]; have := hout k y hy; omega)
    (fun d hd => by
      simp only [List.mem_singleton] at hd
      subst hd; exact hI.sized b (mem_placed_block hx)) (by simp)
  have hxq : (x, (⟨b.size, false⟩ : Block)) ∈
      placed (σ₂.prologue + 8) (pre ++ [⟨b.size, false⟩] ++ post) := by
    simpa [σ₂, hxdef] using @mem_placed_of_eq (σ.prologue + 8) pre post ⟨b.size, false⟩
  obtain ⟨hR₃, hW₃, hF₃⟩ := hR₂.push (by simpa [σ₂] using hW₂) hxq rfl
    (fun k hk => by have := hout k x hk; omega)
  simp only [σ₂, Heap.setAllocated_prologue] at hR₃ hW₃ hF₃
  set A₁ := (⟨pre ++ [⟨b.size, false⟩] ++ post, A.lists⟩ : Arena).cons (L.cls b.size) x
  have hL₁ : A₁.Listed L (σ.prologue + 8) := by
    refine hI.listed.replace_run hI.toWF hA₁ (fun d hd => ?_) (by simp) rfl fun k y => ?_
    · simp only [List.mem_singleton] at hd
      subst hd; exact hI.sized b (mem_placed_block hx)
    · simp only [A₁, Arena.mem_cons_lists, placed_cons, placed_nil, List.mem_singleton,
        Prod.mk.injEq, ← hxdef]
      constructor
      · rintro (⟨rfl, rfl⟩ | hy)
        · exact .inl ⟨_, ⟨rfl, rfl⟩, rfl, rfl⟩
        · exact .inr ⟨hy, fun c hc => by have := hout k y hy; omega⟩
      · rintro (⟨c, ⟨rfl, rfl⟩, -, rfl⟩ | ⟨hy, -⟩)
        exacts [.inl ⟨rfl, rfl⟩, .inr hy]
  have hA₁' : A₁.blocks = pre ++ ⟨b.size, false⟩ :: post := by simp [A₁]
  have hsz₁ : total A₁.blocks < 2^31 := by simpa [A₁, hA] using hsz
  obtain ⟨-, hR₄, hI₄, hF₄⟩ := Repr.coalesce_spec (σ := L.push σ₂ x) hR₃ (by simpa using hW₃)
    (by simpa using hL₁) hA₁' rfl hpre hpost (by simpa using hsz₁)
  simp only [FreeLists.push_prologue, σ₂, Heap.setAllocated_prologue, ← hxdef] at hR₄ hI₄ hF₄
  have hfree : Arena.free L (σ.prologue + 8) A pre b post =
      (Arena.coalesce L (σ.prologue + 8) A₁ pre ⟨b.size, false⟩ post).2 := by
    simp [Arena.free, A₁, hxdef]
  rw [heq, hfree]
  refine ⟨hR₄, hI₄, fun a ha => ?_⟩
  simp only [not_or] at ha
  rw [hF₄ a fun h => ?_, hF₃ a fun h => ?_]
  · exact not_imp_comm.mp (hw a) (fun h => ha.2 h)
  · rcases (show FreeCell _ (pre ++ [⟨b.size, false⟩] ++ post) a from h).of_retag
      (show total [⟨b.size, false⟩] = total [b] by simp) with h | h
    · exact ha.1 (hA₁ ▸ h)
    · exact ha.2 (by simpa [← hxdef] using h)
  · rcases (show FreeCell _ (pre ++ [⟨b.size, false⟩] ++ post) a by simpa [A₁] using h).of_retag
      (show total [⟨b.size, false⟩] = total [b] by simp) with h | h
    · exact ha.1 (hA₁ ▸ h)
    · exact ha.2 (by simpa [← hxdef] using h)

end Repr

theorem length_placed : ∀ (a : Nat) (bs : List Block), (placed a bs).length = bs.length
  | _, [] => rfl
  | a, b :: bs => by simp [length_placed (a + b.size) bs]

theorem length_le_total : ∀ {bs : List Block}, (∀ d ∈ bs, 0 < d.size) → bs.length ≤ total bs
  | [], _ => le_rfl
  | d :: ds, h => by
    have := h d (List.mem_cons_self _ _)
    have := length_le_total fun e he => h e (List.mem_cons_of_mem _ he)
    simp only [List.length_cons, total_cons]
    omega

namespace Repr

variable {L : FreeLists} {σ : Heap} {A : Arena}

theorem length_lists_lt (hR : Repr L σ A) (hW : A.WF L (σ.prologue + 8)) (k : Nat) :
    (A.lists k).length < σ.brk := by
  have hsub : A.lists k ⊆ (placed (σ.prologue + 8) A.blocks).map Prod.fst := fun y hy => by
    obtain ⟨-, c, hc, -⟩ := hW.nodes k y hy
    exact List.mem_map.mpr ⟨(y, c), hc, rfl⟩
  have h₁ := (List.subperm_of_subset (hW.nodup k) hsub).length_le
  have h₂ := length_le_total hW.sized.pos
  rw [List.length_map, length_placed] at h₁
  have := hR.brk
  omega

theorem fitFrom_eq (hR : Repr L σ A) (hW : A.WF L (σ.prologue + 8)) {k : Nat}
    (hk : k < L.numLists) (asize : Nat) :
    fitFrom σ asize σ.brk (σ.readHead (L.loc σ.segListHead k)) =
      (A.lists k).find? (fits σ asize) := by
  obtain ⟨hhead, hchain⟩ := hR.lists k hk
  rw [hhead]
  refine fitFrom_eq_find hchain (fun y hy => ?_) (hR.length_lists_lt hW k)
  obtain ⟨-, c, hc, -⟩ := hW.nodes k y hy
  have := (mem_placed_bounds hc).1
  omega

theorem fit_block (hR : Repr L σ A) (hW : A.WF L (σ.prologue + 8)) {k y asize : Nat}
    (hy : y ∈ A.lists k) (hf : fits σ asize y = true) :
    ∃ pre c post, A.blocks = pre ++ c :: post ∧ y = σ.prologue + 8 + total pre ∧
      c.allocated = false ∧ asize ≤ c.size := by
  obtain ⟨-, c, hc, hcf⟩ := hW.nodes k y hy
  obtain ⟨pre, post, hA, rfl⟩ := mem_placed_iff.mp hc
  refine ⟨pre, c, post, hA, rfl, hcf, ?_⟩
  simp only [fits, Bool.and_eq_true, decide_eq_true_eq] at hf
  rw [← hR.blockSize_eq hc]
  exact hf.2

end Repr

end MallocLab.MM
