import MallocLab.MMCoalesce

/-! `place`, shared by both programs: allocating the front of a free block, splitting off the
rest when it is large enough to be a free block of its own. -/
namespace MallocLab.MM

/-- `place`: allocate `asize` bytes at the start of the free block `block`. A remainder of at
least `MIN_BLOCK_SIZE` becomes a new free block, pushed on its list; a smaller one stays in the
allocated block. `split_size` is a `size_t` difference, the stores truncate to 31 bits. -/
def place (L : FreeLists) (σ : Heap) (block asize : Nat) : Heap :=
  let splitSize := (σ.blockSize block + 2^64 - asize) % 2^64
  if 32 ≤ splitSize then
    let σ₁ := L.pop σ block
    let σ₂ := (σ₁.setBlockSize block asize).setAllocated block true
    let footer := getFooter σ₂ block
    let σ₃ := (σ₂.setBlockSize footer asize).setAllocated footer true
    let newBlock := block + σ₃.blockSize block
    let σ₄ := (σ₃.setBlockSize newBlock splitSize).setAllocated newBlock false
    let newFooter := getFooter σ₄ newBlock
    let σ₅ := (σ₄.setBlockSize newFooter splitSize).setAllocated newFooter false
    L.push σ₅ newBlock
  else
    let σ₁ := L.pop σ block
    let σ₂ := σ₁.setAllocated block true
    let footer := getFooter σ₂ block
    σ₂.setAllocated footer true

section Fields

variable (L : FreeLists) (σ : Heap) (b asize : Nat)

@[simp] theorem place_prologue : (place L σ b asize).prologue = σ.prologue := by
  simp only [place]; split_ifs <;> simp
@[simp] theorem place_lo : (place L σ b asize).lo = σ.lo := by
  simp only [place]; split_ifs <;> simp
@[simp] theorem place_brk : (place L σ b asize).brk = σ.brk := by
  simp only [place]; split_ifs <;> simp

end Fields

namespace Arena

/-- What `place` does to the arena: the free block `b` at `start + total pre` leaves its list
and is allocated with `asize` bytes; a remainder of at least 32 bytes becomes a free block
pushed on the list of its class, a smaller one stays in the allocated block. -/
def place (L : FreeLists) (start : Nat) (A : Arena) (pre : List Block) (b : Block)
    (post : List Block) (asize : Nat) : Arena :=
  if 32 ≤ b.size - asize then
    (⟨pre ++ [⟨asize, true⟩, ⟨b.size - asize, false⟩] ++ post,
      (A.remove [start + total pre]).lists⟩ : Arena).cons (L.cls (b.size - asize))
      (start + total pre + asize)
  else ⟨pre ++ [⟨b.size, true⟩] ++ post, (A.remove [start + total pre]).lists⟩

end Arena

namespace Repr

variable {L : FreeLists} {σ : Heap} {A : Arena}

/-- `place` on a free, listed block of at least `asize` bytes carries out `Arena.place`, keeps the
invariant and writes only inside the block and in free link words. -/
theorem place_spec (hR : Repr L σ A) (hW : A.WF L (σ.prologue + 8))
    (hL : A.Listed L (σ.prologue + 8)) {pre post : List Block} {b : Block}
    (hA : A.blocks = pre ++ b :: post) (hb : b.allocated = false) (hpre : Coalesced pre)
    (hpost : Coalesced post) (hn : nextFree post = false) {asize : Nat} (h32 : 32 ≤ asize)
    (h8 : asize % 8 = 0) (hle : asize ≤ b.size) (hsz : total A.blocks < 2^31) :
    Repr L (place L σ (σ.prologue + 8 + total pre) asize)
        (Arena.place L (σ.prologue + 8) A pre b post asize) ∧
      (Arena.place L (σ.prologue + 8) A pre b post asize).Inv L (σ.prologue + 8) ∧
      σ.WritesIn (FreeCell (σ.prologue + 8) A.blocks)
        (place L σ (σ.prologue + 8 + total pre) asize) := by
  obtain ⟨x, hxdef⟩ : ∃ x, x = σ.prologue + 8 + total pre := ⟨_, rfl⟩
  rw [← hxdef]
  have hx : (x, b) ∈ placed (σ.prologue + 8) A.blocks := hxdef ▸ hA ▸ mem_placed_of_eq
  have hbs := hR.blockSize_eq hx
  have hbl := hL.free_mem _ _ hx hb
  have hsb := (hW.sized b (mem_placed_block hx)).2
  have htot := congrArg total hA
  simp only [total_append, total_cons] at htot
  have hA₁ : A.blocks = pre ++ [b] ++ post := by simp [hA]
  obtain ⟨hR₁, hW₁, hF₁⟩ := hR.pop hW hbl hx rfl
  rw [hW.erase_eq_remove hbl] at hR₁ hW₁
  have hbs₁ : (L.pop σ x).blockSize x = b.size := hR₁.blockSize_eq (by simpa using hx)
  have hal₁ : (L.pop σ x).allocated (x + b.size - 8) = false := by
    have := congrArg Block.allocated (hR₁.tags _ _ (by simpa using hx)).2
    exact this.trans hb
  -- no node of the remaining lists lies in `b`
  have hout : ∀ k y, y ∈ (A.remove [x]).lists k → y < x ∨ x + b.size ≤ y := by
    intro k y hy
    obtain ⟨hy, hyx⟩ := Arena.mem_remove.mp hy
    obtain ⟨d, hd, -⟩ := (hW.nodes k y hy).2
    by_contra h
    rw [hA₁] at hd
    have := mem_placed_inside hd (hW.sized.pos d (hA₁ ▸ mem_placed_block hd))
      (by omega) (by simp; omega)
    simp only [placed_cons, placed_nil, List.mem_singleton, Prod.mk.injEq] at this
    exact hyx (by simp [this.1, hxdef])
  have hsplit : (σ.blockSize x + 2^64 - asize) % 2^64 = b.size - asize := by rw [hbs]; omega
  by_cases hsp : 32 ≤ b.size - asize
  · -- the rest is split off as a free block
    have heq : place L σ x asize = L.push (((((((((L.pop σ x).setBlockSize x asize).setAllocated x
        true).setBlockSize (x + asize - 8) asize).setAllocated (x + asize - 8) true).setBlockSize
        (x + asize) (b.size - asize)).setAllocated (x + asize) false).setBlockSize
        (x + asize + (b.size - asize) - 8) (b.size - asize)).setAllocated
        (x + asize + (b.size - asize) - 8) false) (x + asize) := by
      simp (disch := omega) only [place, hsplit, if_pos hsp, getFooter, Heap.blockSize_setAllocated,
        Heap.blockSize_setBlockSize_self, Heap.blockSize_setBlockSize_of_ne, Nat.mod_eq_of_lt]
    set σ₅ := ((((((((L.pop σ x).setBlockSize x asize).setAllocated x
        true).setBlockSize (x + asize - 8) asize).setAllocated (x + asize - 8) true).setBlockSize
        (x + asize) (b.size - asize)).setAllocated (x + asize) false).setBlockSize
        (x + asize + (b.size - asize) - 8) (b.size - asize)).setAllocated
        (x + asize + (b.size - asize) - 8) false with hσ₅
    have hw : ∀ a, σ₅.mem a ≠ (L.pop σ x).mem a → x ≤ a ∧ a < x + b.size := by
      intro a ha
      by_contra h
      refine ha ?_
      simp (disch := omega) only [σ₅, Heap.setAllocated_mem_of_ne, Heap.setBlockSize_mem_of_ne]
    have htags : Tags σ₅ x [⟨asize, true⟩, ⟨b.size - asize, false⟩] := by
      simp (disch := omega) only [tags_cons, tags_nil, and_true, σ₅, Heap.tag_setAllocated_of_ne,
        Heap.tag_setBlockSize_of_ne, Heap.tag_setAllocated_self, Heap.blockSize_setBlockSize_self,
        Nat.mod_eq_of_lt]
    have hR₂ : Repr L σ₅ ⟨pre ++ [⟨asize, true⟩, ⟨b.size - asize, false⟩] ++ post,
        (A.remove [x]).lists⟩ := hR₁.retag_run (by simpa using hW₁)
      (show (A.remove [x]).blocks = pre ++ [b] ++ post by simp [hA]) (by simp [σ₅]) (by simp [σ₅]) (by simp [σ₅]) (by simp [σ₅]) (by simp [σ₅])
      (fun a ha => by simp only [FreeLists.pop_prologue, total_cons, total_nil]; have := hw a ha; omega)
      (fun k y hy => by simp only [FreeLists.pop_prologue, total_cons, total_nil]; have := hout k y hy; omega)
      (by simpa [← hxdef] using htags) (by simp; omega)
    have hW₂ : (⟨pre ++ [⟨asize, true⟩, ⟨b.size - asize, false⟩] ++ post,
        (A.remove [x]).lists⟩ : Arena).WF L (σ.prologue + 8) := hW₁.retag_run
      (show (A.remove [x]).blocks = pre ++ [b] ++ post by simp [hA])
      (fun k y hy => by simp only [total_cons, total_nil]; have := hout k y hy; omega)
      (fun d hd => by
        simp only [List.mem_cons, List.mem_singleton, List.not_mem_nil, or_false] at hd
        rcases hd with rfl | rfl <;> simp <;> omega) (by simp; omega)
    simp only [FreeLists.pop_prologue] at hR₂
    have hrest : (x + asize, (⟨b.size - asize, false⟩ : Block)) ∈ placed (σ₅.prologue + 8)
        (pre ++ [⟨asize, true⟩, ⟨b.size - asize, false⟩] ++ post) := by
      have := @mem_placed_of_eq (σ.prologue + 8) (pre ++ [⟨asize, true⟩]) post
        ⟨b.size - asize, false⟩
      simpa [σ₅, hxdef, Nat.add_assoc] using this
    obtain ⟨hR₃, hW₃, hF₃⟩ := hR₂.push (by simpa [σ₅] using hW₂) hrest rfl
      (fun k hk => by have := hout k _ hk; omega)
    simp only [σ₅, Heap.setAllocated_prologue, Heap.setBlockSize_prologue,
      FreeLists.pop_prologue] at hR₃ hW₃ hF₃
    rw [heq, Arena.place, if_pos hsp, ← hxdef]
    refine ⟨hR₃, ⟨hW₃, ?_, ?_⟩, fun a ha => ?_⟩
    · refine hL.replace_run hW hA₁ (fun d hd => ?_) (by simp; omega) rfl fun k y => ?_
      · simp only [List.mem_cons, List.mem_singleton, List.not_mem_nil, or_false] at hd
        rcases hd with rfl | rfl <;> simp <;> omega
      · simp only [Arena.mem_cons_lists, Arena.mem_remove, List.mem_singleton, placed_cons,
          placed_nil, List.mem_cons, Prod.mk.injEq, List.not_mem_nil, or_false, ← hxdef]
        constructor
        · rintro (⟨rfl, rfl⟩ | ⟨hy, hyx⟩)
          · exact .inl ⟨_, .inr ⟨rfl, rfl⟩, rfl, rfl⟩
          · exact .inr ⟨hy, fun c hc => hyx hc.1⟩
        · rintro (⟨c, hyc, hc, rfl⟩ | ⟨hy, hyx⟩)
          · rcases hyc with ⟨-, rfl⟩ | ⟨rfl, rfl⟩
            · exact absurd hc (by simp)
            · exact .inl ⟨rfl, rfl⟩
          · exact .inr ⟨hy, fun e => hyx b ⟨e, rfl⟩⟩
    · have hR : Coalesced (⟨b.size - asize, false⟩ :: post) :=
        List.chain'_cons'.mpr ⟨fun y hy => .inr (nextFree_eq_false.mp hn y hy), hpost⟩
      simpa using coalesced_alloc (m := ⟨asize, true⟩) hpre hR rfl
    · have h₁ := hF₃ a fun h => ha (hA₁ ▸ (h.of_free_run (by simp; omega)
        (by simpa using hb) : FreeCell _ (pre ++ [b] ++ post) a))
      by_cases hab : x ≤ a ∧ a < x + b.size
      · exact absurd (.inr (.inr ⟨x, b, hx, hb, hab⟩)) ha
      · rw [h₁]
        exact (not_imp_comm.mp (hw a) hab).trans (hF₁ a ha)
  · -- the remainder stays in the allocated block
    have heq : place L σ x asize = ((L.pop σ x).setAllocated x true).setAllocated
        (x + b.size - 8) true := by
      simp only [place, hsplit, if_neg hsp, getFooter, Heap.blockSize_setAllocated, hbs₁]
    set σ₂ := ((L.pop σ x).setAllocated x true).setAllocated (x + b.size - 8) true with hσ₂
    have hfoot := congrArg Block.size (hR₁.tags _ _ (by simpa using hx)).2
    simp only [Heap.tag] at hfoot
    have hw : ∀ a, σ₂.mem a ≠ (L.pop σ x).mem a → x ≤ a ∧ a < x + b.size := by
      intro a ha
      by_contra h
      refine ha ?_
      simp (disch := omega) only [σ₂, Heap.setAllocated_mem_of_ne]
    have htags : Tags σ₂ x [⟨b.size, true⟩] := by
      simp (disch := omega) only [tags_cons, tags_nil, and_true, σ₂, Heap.tag_setAllocated_of_ne,
        Heap.tag_setAllocated_self, Heap.blockSize_setAllocated, hbs₁, hfoot]
    have hR₂ : Repr L σ₂ ⟨pre ++ [⟨b.size, true⟩] ++ post, (A.remove [x]).lists⟩ :=
      hR₁.retag_run (by simpa using hW₁) (show (A.remove [x]).blocks = pre ++ [b] ++ post by simp [hA]) (by simp [σ₂]) (by simp [σ₂]) (by simp [σ₂]) (by simp [σ₂]) (by simp [σ₂])
      (fun a ha => by simp only [FreeLists.pop_prologue, total_cons, total_nil]; have := hw a ha; omega)
      (fun k y hy => by simp only [FreeLists.pop_prologue, total_cons, total_nil]; have := hout k y hy; omega)
      (by simpa [← hxdef] using htags) (by simp)
    have hW₂ : (⟨pre ++ [⟨b.size, true⟩] ++ post, (A.remove [x]).lists⟩ : Arena).WF L
        (σ.prologue + 8) := hW₁.retag_run (show (A.remove [x]).blocks = pre ++ [b] ++ post by simp [hA])
      (fun k y hy => by simp only [total_cons, total_nil]; have := hout k y hy; omega)
      (fun d hd => by
        simp only [List.mem_singleton] at hd
        subst hd; exact hW.sized b (mem_placed_block hx)) (by simp)
    simp only [FreeLists.pop_prologue] at hR₂
    rw [heq, Arena.place, if_neg hsp, ← hxdef]
    refine ⟨hR₂, ⟨hW₂, ?_, coalesced_alloc hpre hpost rfl⟩, fun a ha => ?_⟩
    · refine hL.replace_run hW hA₁ (fun d hd => ?_) (by simp) rfl fun k y => ?_
      · simp only [List.mem_singleton] at hd
        subst hd; exact hW.sized b (mem_placed_block hx)
      · simp only [Arena.mem_remove, List.mem_singleton, placed_cons, placed_nil,
          List.mem_singleton, Prod.mk.injEq, ← hxdef]
        constructor
        · rintro ⟨hy, hyx⟩
          exact .inr ⟨hy, fun c hc => hyx hc.1⟩
        · rintro (⟨c, ⟨-, rfl⟩, hc, -⟩ | ⟨hy, hyx⟩)
          · simp at hc
          · exact ⟨hy, fun e => hyx b ⟨e, rfl⟩⟩
    · by_cases hab : x ≤ a ∧ a < x + b.size
      · exact absurd (.inr (.inr ⟨x, b, hx, hb, hab⟩)) ha
      · exact (not_imp_comm.mp (hw a) hab).trans (hF₁ a ha)

end Repr

end MallocLab.MM
