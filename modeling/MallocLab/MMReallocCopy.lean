import MallocLab.MMFreeOrder

/-! `mm_realloc` as the client sees it: the block it returns, the bytes its `memcpy` brings from
the old payload, the old block left inside free blocks, and every other live payload untouched. -/
namespace MallocLab.MM

theorem Arena.free_covers {L : FreeLists} {start : Nat} {A : Arena} {pre post : List Block}
    {b : Block} (hW : A.WF L start) (hA : A.blocks = pre ++ b :: post) {a : Nat}
    (h₁ : start + total pre ≤ a) (h₂ : a < start + total pre + b.size) :
    ∃ x d, (x, d) ∈ placed start (A.free L start pre b post).blocks ∧ d.allocated = false ∧
      x ≤ a ∧ a < x + d.size := by
  obtain ⟨htot, halloc⟩ := Arena.free_alloc hW hA
  have hlt : a < start + total (A.free L start pre b post).blocks := by
    rw [htot, hA, total_append, total_cons]; omega
  obtain ⟨x, d, hx, hxa⟩ := exists_placed_cover (by omega) hlt
  cases hd : d.allocated
  · exact ⟨x, d, hx, hd, hxa⟩
  · obtain ⟨hx₀, hne⟩ := (halloc x d hd).mp hx
    have hb : (start + total pre, b) ∈ placed start A.blocks := by rw [hA]; exact mem_placed_of_eq
    rcases placed_disjoint hW.sized.pos hx₀ hb hne with h | h <;> omega

theorem Allocates.byte_eq {L : FreeLists} {σ σ₁ : Heap} {A : Arena} {asize q : Nat}
    (hal : Allocates L σ A asize q σ₁) (hs : ∀ d ∈ A.blocks, 0 < d.size) {ptr i : Nat} {d : Block}
    (hx : (ptr - 8, d) ∈ placed (σ.prologue + 8) A.blocks) (hd : d.allocated = true) (h8 : 8 ≤ ptr)
    (hi : i < d.size - 16) : σ₁.byte (ptr + i) = σ.byte (ptr + i) := by
  rw [Heap.byte, Heap.byte, hal.frame _ fun hf => hf.not_alloc hs hx hd (by omega) (by omega)]

/-- `mm_realloc(p, u)` of a live payload keeps the payload of every other live block: it writes
only free words and `p`'s block. -/
theorem realloc_keeps_other_payloads (v : Variant) {s : Client} (hs : v.program.Reachable s)
    {ext : Extender} (hext : ext.Bounded s.heap.lo) {p u₀ u q : Nat} {σ' : Heap}
    (hp : (p, u₀) ∈ s.live) (hu : reqSize u < 2^31)
    (h : mmRealloc (v.program.malloc ext) v.program.L s.heap p u = some (q, σ')) :
    ∀ p' u', (p', u') ∈ s.live → p' ≠ p → ∀ a, p' ≤ a →
      a < p' - 8 + s.heap.blockSize (p' - 8) - 8 → σ'.mem a = s.heap.mem a := by
  have hG := v.good hs
  obtain ⟨A, hR, hI, hlive⟩ := hG.arena
  obtain ⟨h8, sp, hps, -⟩ := hlive.2 p u₀ hp
  obtain ⟨-, -, -, -, -, -, -, hF, -⟩ := mmRealloc_spec hG.lo_le
    (fun _ _ hm => Program.MallocSpec.allocates v.mallocSpec hR hI hext hG.lo_le hG.bound hu hm)
    (reqSize_spec u).2.2 hps rfl h8 h
  intro p' u' hp' hne a ha₁ ha₂
  obtain ⟨h8', sp', hps', -⟩ := hlive.2 p' u' hp'
  rw [hR.blockSize_eq hps'] at ha₂
  exact hF a (not_written hI.sized.pos hps' rfl hps (by omega) (show p' - 8 ≤ a by omega)
    (show a < p' - 8 + sp' by simp only at ha₂; omega))

/-- `mm_realloc(p, u)` returns a live `q` in a block of at least `A(u)` bytes that starts with the
first `min(u, sz - 16)` bytes of `p`, and frees `p`'s block. -/
theorem realloc_copies (v : Variant) {s : Client} (hs : v.program.Reachable s)
    {ext : Extender} (hext : ext.Bounded s.heap.lo) {p u₀ u q : Nat} {σ' : Heap}
    (hp : (p, u₀) ∈ s.live) (hu : reqSize u < 2^31)
    (h : mmRealloc (v.program.malloc ext) v.program.L s.heap p u = some (q, σ')) :
    let sz := s.heap.blockSize (p - 8)
    v.program.Reachable ⟨σ', (q, u) :: s.live.erase (p, u₀)⟩ ∧
      (∃ sq σ₁, σ'.tag (q - 8) = ⟨sq, true⟩ ∧ σ'.tag (q - 8 + sq - 8) = ⟨sq, true⟩ ∧
        reqSize u ≤ sq ∧ v.program.malloc ext s.heap u = some (q, σ₁) ∧
        σ' = mmFree v.program.L (memcpy σ₁ q p (min u sz)) p ∧
        (∀ a, (memcpy σ₁ q p (min u sz)).mem a ≠ σ₁.mem a → q ≤ a ∧ a + 8 ≤ q - 8 + sq - 8) ∧
        (p + min u sz ≤ q ∨ q + min u sz ≤ p)) ∧
      (∀ i < min u (sz - 16), σ'.byte (q + i) = s.heap.byte (p + i)) ∧
      (∃ bs e, heapWalk σ' = some (bs, e) ∧ ∀ a, p - 8 ≤ a → a < p - 8 + sz →
        ∃ x d, (x, d) ∈ bs ∧ d.allocated = false ∧ x ≤ a ∧ a < x + d.size) ∧
      ∀ p' u', (p', u') ∈ s.live → p' ≠ p → ∀ a, p' ≤ a →
        a < p' - 8 + s.heap.blockSize (p' - 8) - 8 → σ'.mem a = s.heap.mem a := by
  intro sz
  have hG := v.good hs
  obtain ⟨A, hR, hI, hlive⟩ := hG.arena
  obtain ⟨h8, sp, hps, -⟩ := hlive.2 p u₀ hp
  have hsz : sz = sp := hR.blockSize_eq hps
  clear_value sz
  subst hsz
  -- the malloc, and the old block in its arena
  obtain ⟨σ₁, hm, hσ'⟩ := mmRealloc_eq_some h
  have hal := Program.MallocSpec.allocates v.mallocSpec hR hI hext hG.lo_le hG.bound hu hm
  obtain ⟨A₁, hR₁, hI₁, ⟨sq, hqs, hle⟩, hkeep⟩ := hal.arena
  have hp₁ := hkeep _ _ hps rfl
  obtain ⟨pre, post, hA₁, hpre⟩ := mem_placed_iff.mp hp₁
  have hqp : q - 8 ≠ p - 8 := fun he => by have := hal.fresh _ (he ▸ hps); simp at this
  rw [hR₁.blockSize_eq (by rw [hal.prologue]; exact hp₁)] at hσ'
  subst hσ'
  have hsz₁ : total A₁.blocks < 2^31 := by
    have := hR₁.brk; have := hal.bound; have := hal.prologue; have := hG.lo_le; omega
  rw [← hal.prologue] at hI₁ hqs hpre
  have hq₃ : (q - 8, (⟨sq, true⟩ : Block)) ∈ placed (σ₁.prologue + 8)
      (Arena.free v.program.L (σ₁.prologue + 8) A₁ pre ⟨sz, true⟩ post).blocks :=
    Arena.free_keep hA₁ hI₁.sized.pos hqs rfl (by omega)
  have hs₁ : min u sz + 16 ≤ sq := by
    have := Nat.min_le_left u sz; have := (reqSize_spec u).2.2; omega
  -- the copy and the free
  obtain ⟨hwrite, hapart, hR₃, hI₃, -⟩ := hR₁.copy_free hI₁ hqs hal.payload hs₁ hA₁ rfl hpre h8
    hqp hsz₁ (Nat.min_le_right u sz)
  have happ : p + min u sz ≤ q ∨ q + min u sz ≤ p := by omega
  obtain ⟨ht₁, ht₂⟩ := hR₃.tags _ _ (by rw [mmFree_prologue, memcpy_prologue]; exact hq₃)
  refine ⟨hs.step (.realloc hext hu hp h), ⟨sq, σ₁, ht₁, ht₂, hle, hm, rfl, hwrite, happ⟩,
    fun i hi => ?_, ⟨_, _, hR₃.heapWalk_eq (by rw [mmFree_prologue, memcpy_prologue]; exact hI₃.toWF),
      fun a ha₁ ha₂ => ?_⟩, realloc_keeps_other_payloads v hs hext hp hu h⟩
  · -- the bytes at `q`: the copy brings them from `p`, where the malloc kept them
    have hisz : i < sz - 16 := lt_of_lt_of_le hi (Nat.min_le_right _ _)
    calc _ = σ₁.byte (p + i) := hR₁.copy_free_byte hI₁ hqs hal.payload hs₁ hA₁ rfl hpre h8 hqp
          hsz₁ (Nat.min_le_right u sz) (by rw [hal.prologue]; exact hG.aligned)
          (Nat.lt_min.mpr ⟨lt_of_lt_of_le hi (Nat.min_le_left _ _),
            lt_of_lt_of_le hisz (Nat.sub_le _ _)⟩)
      _ = s.heap.byte (p + i) := hal.byte_eq hI.sized.pos hps rfl h8 hisz
  · -- every byte of `p`'s block lies in a free block
    obtain ⟨x, d, hx, hd, hxa⟩ := Arena.free_covers hI₁.toWF hA₁
      (show σ₁.prologue + 8 + total pre ≤ a by omega)
      (show a < σ₁.prologue + 8 + total pre + sz by omega)
    exact ⟨x, d, by rw [mmFree_prologue, memcpy_prologue]; exact hx, hd, hxa⟩

/-- In part_000, a 100-byte payload right after `mm_init`, reallocated to 200 bytes, keeps its
bytes. -/
theorem realloc_copies_after_malloc :
    ∃ (s : Client) (p q : Nat) (σ' : Heap), Variant.seg.program.Reachable s ∧ (p, 100) ∈ s.live ∧
      mmRealloc (Variant.seg.program.malloc (Extender.upTo s.heap.lo)) Variant.seg.program.L
        s.heap p 200 = some (q, σ') ∧
      ∀ i < min 200 (s.heap.blockSize (p - 8) - 16), σ'.byte (q + i) = s.heap.byte (p + i) := by
  obtain ⟨σ, hs, -, hbrk⟩ := Variant.seg.reachable_init
  have hg : ∀ (σ' : Heap) (n : Nat), n ≤ chunkSize →
      σ'.brk ≤ 8 * Seg.totalNumList + 2 * chunkSize →
      Extender.upTo σ'.lo σ'.brk (max n chunkSize) = true := fun σ' n hn h => by
    simp only [Extender.upTo, decide_eq_true_eq]
    unfold Seg.totalNumList at h
    unfold chunkSize at hn h ⊢
    omega
  obtain ⟨⟨p, σ₁⟩, h₁⟩ := Option.isSome_iff_exists.mp
    (Variant.seg.malloc_isSome (show 100 ≠ 0 by decide) (hg σ _ (by decide) (by omega)))
  have hs₁ : Variant.seg.program.Reachable ⟨σ₁, [(p, 100)]⟩ :=
    .step hs (.malloc (Extender.upTo_bounded _) (by decide) h₁)
  have hb₁ := Variant.seg.malloc_brk_le h₁
  rw [show adjustSize 100 = 120 by decide] at hb₁
  obtain ⟨⟨q, σ₂⟩, h₂⟩ := Option.isSome_iff_exists.mp
    (Variant.seg.malloc_isSome (show 200 ≠ 0 by decide)
      (hg σ₁ _ (by decide) (by unfold chunkSize at *; omega)))
  obtain ⟨σ', hr⟩ : ∃ σ', mmRealloc (Variant.seg.program.malloc (Extender.upTo σ₁.lo))
      Variant.seg.program.L σ₁ p 200 = some (q, σ') := ⟨_, by rw [mmRealloc, h₂]⟩
  exact ⟨_, p, q, σ', hs₁, List.mem_singleton_self _, hr,
    (realloc_copies .seg hs₁ (Extender.upTo_bounded _) (List.mem_singleton_self _) (by decide)
      hr).2.2.1⟩

end MallocLab.MM
