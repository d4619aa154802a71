import MallocLab.MMMallocSpec

/-! `mm_realloc`: a fresh block from `mm_malloc`, a `memcpy` into its payload, and `mm_free` of
the old block. The copy stays inside the new block's payload, so the walk and the lists are
untouched by it. -/
namespace MallocLab.MM

namespace Repr

variable {L : FreeLists} {σ : Heap} {A : Arena}

/-- Writes strictly inside the payload of an allocated block keep the arena. -/
theorem of_payload (hR : Repr L σ A) (hW : A.WF L (σ.prologue + 8)) {x : Nat} {b : Block}
    (hx : (x, b) ∈ placed (σ.prologue + 8) A.blocks) (hb : b.allocated = true) {m : Mem}
    (hm : ∀ a, m a ≠ σ.mem a → x + 8 ≤ a ∧ a + 8 < x + b.size) :
    Repr L { σ with mem := m } A := by
  obtain ⟨pre, post, hA, rfl⟩ := mem_placed_iff.mp hx
  have hA₁ : A.blocks = pre ++ [b] ++ post := by simp [hA]
  have hkeep : ∀ a, (a = σ.prologue + 8 + total pre ∨ a = σ.prologue + 8 + total pre + b.size - 8) →
      m a = σ.mem a := fun a ha => by
    by_contra hne; have := hm a hne; omega
  have htags : Tags { σ with mem := m } (σ.prologue + 8 + total pre) [b] :=
    (tags_cons.mpr ⟨hR.tags _ _ hx, tags_nil _ _⟩).of_agree fun y d hy => by
      simp only [placed_cons, placed_nil, List.mem_singleton, Prod.mk.injEq] at hy
      obtain ⟨rfl, rfl⟩ := hy
      exact ⟨hkeep _ (.inl rfl), hkeep _ (.inr rfl)⟩
  have : Repr L { σ with mem := m } ⟨pre ++ [b] ++ post, A.lists⟩ := hR.retag_run hW hA₁ rfl rfl rfl rfl rfl
    (fun a ha => by simp only [total_cons, total_nil]; have := hm a ha; omega)
    (fun k y hy => by simp only [total_cons, total_nil]; exact hW.node_outside hx hb k y hy)
    htags rfl
  rwa [← hA₁] at this

end Repr

namespace Arena

theorem free_keep {L : FreeLists} {start : Nat} {A : Arena} {pre post : List Block} {b : Block}
    (hA : A.blocks = pre ++ b :: post) (hs : ∀ d ∈ A.blocks, 0 < d.size) {x : Nat} {d : Block}
    (hx : (x, d) ∈ placed start A.blocks) (hd : d.allocated = true) (hne : x ≠ start + total pre) :
    (x, d) ∈ placed start (A.free L start pre b post).blocks := by
  set A₁ : Arena := (⟨pre ++ [⟨b.size, false⟩] ++ post, A.lists⟩ : Arena).cons (L.cls b.size)
    (start + total pre)
  obtain ⟨pre', mid, post', h₁, hfree, -, -, h₂⟩ := Arena.coalesce_run L start A₁
    (show A₁.blocks = pre ++ ⟨b.size, false⟩ :: post by simp [A₁]) rfl
  have hA₁ : A.blocks = pre ++ [b] ++ post := by simp [hA]
  rw [hA₁] at hx hs
  have hout : x < start + total pre ∨ start + total pre + total [b] ≤ x := by
    rcases mem_placed_mid.mp hx with hx | hx | hx
    · have := mem_placed_bounds hx; have := hs d (by simp [mem_placed_block hx]); omega
    · simp only [placed_cons, placed_nil, List.mem_singleton, Prod.mk.injEq] at hx
      exact absurd hx.1 hne
    · exact .inr (mem_placed_bounds hx).1
  have hx₁ : (x, d) ∈ placed start A₁.blocks :=
    mem_placed_outside hx (hs d (mem_placed_block hx)) hout (by simp)
  rw [h₁] at hx₁
  rw [free, h₂]
  exact placed_keep_alloc hx₁ hd hfree (by simp)

end Arena

theorem not_written {start x x₀ a : Nat} {bs : List Block} {d d₀ : Block}
    (hs : ∀ e ∈ bs, 0 < e.size) (hx : (x, d) ∈ placed start bs) (hd : d.allocated = true)
    (hx₀ : (x₀, d₀) ∈ placed start bs) (hne : x ≠ x₀) (h₁ : x ≤ a) (h₂ : a < x + d.size) :
    ¬(FreeCell start bs a ∨ (x₀ ≤ a ∧ a < x₀ + d₀.size)) := by
  rintro (h | h)
  · exact h.not_alloc hs hx hd h₁ h₂
  · rcases placed_disjoint hs hx hx₀ hne with h' | h' <;> omega

variable {L : FreeLists} {σ σ' : Heap} {A : Arena}

section CopyFree

/-! `mm_realloc` once its `mm_malloc` has returned `q`: the `memcpy` of `n` bytes from `ptr` into
`q`'s allocated block of `s ≥ n + 16` bytes, then `mm_free(ptr)` of another allocated block `b`,
at most `n` bytes of which are copied. -/

variable {q s n ptr : Nat} {pre post : List Block} {b : Block}
  (hR : Repr L σ A) (hI : A.Inv L (σ.prologue + 8))
  (hq : (q - 8, (⟨s, true⟩ : Block)) ∈ placed (σ.prologue + 8) A.blocks) (hq8 : 8 ≤ q)
  (hs : n + 16 ≤ s) (hA : A.blocks = pre ++ b :: post) (hb : b.allocated = true)
  (hptr : ptr - 8 = σ.prologue + 8 + total pre) (h8 : 8 ≤ ptr) (hne : q - 8 ≠ ptr - 8)
  (hsz : total A.blocks < 2^31) (hn : n ≤ b.size)
include hR hI hq hq8 hs hA hb hptr h8 hne hsz hn

/-- The copy writes only words of `q`'s payload, its source and destination words are apart, and
the free leaves the arena of `b`'s free, writing only free words and `b`'s bytes. -/
theorem Repr.copy_free :
    (∀ a, (memcpy σ q ptr n).mem a ≠ σ.mem a → q ≤ a ∧ a + 8 ≤ q - 8 + s - 8) ∧
      (ptr + (n + 7) / 8 * 8 ≤ q ∨ q + (n + 7) / 8 * 8 ≤ ptr) ∧
      Repr L (mmFree L (memcpy σ q ptr n) ptr) (A.free L (σ.prologue + 8) pre b post) ∧
      (A.free L (σ.prologue + 8) pre b post).Inv L (σ.prologue + 8) ∧
      (memcpy σ q ptr n).WritesIn (fun a => FreeCell (σ.prologue + 8) A.blocks a ∨
        (ptr - 8 ≤ a ∧ a < ptr - 8 + b.size)) (mmFree L (memcpy σ q ptr n) ptr) := by
  have hp : (ptr - 8, b) ∈ placed (σ.prologue + 8) A.blocks := by
    rw [hA, hptr]; exact mem_placed_of_eq
  have hsq : s % 8 = 0 := (hI.sized _ (mem_placed_block hq)).2
  have hsb : b.size % 8 = 0 := (hI.sized _ (mem_placed_block hp)).2
  have hw : ∀ a, (memcpy σ q ptr n).mem a ≠ σ.mem a → q ≤ a ∧ a + 8 ≤ q - 8 + s - 8 :=
    fun a ha => by obtain ⟨j, rfl, hj⟩ := memcpy_written σ ha; omega
  have hapart : ptr + (n + 7) / 8 * 8 ≤ q ∨ q + (n + 7) / 8 * 8 ≤ ptr := by
    have := placed_disjoint hI.sized.pos hq hp hne
    simp only at this
    omega
  obtain ⟨m, hmc⟩ := memcpy_eq σ q ptr n
  have hR₂ : Repr L (memcpy σ q ptr n) A := by
    rw [hmc]
    exact hR.of_payload hI.toWF hq rfl fun a ha => show q - 8 + 8 ≤ a ∧ a + 8 < q - 8 + s by
      have := hw a (by rw [hmc]; exact ha); omega
  obtain ⟨hR₃, hI₃, hF₃⟩ := hR₂.mmFree_spec (by rw [memcpy_prologue]; exact hI) hA hb hsz
  rw [memcpy_prologue, show σ.prologue + 8 + total pre + 8 = ptr by omega] at hR₃ hF₃
  rw [memcpy_prologue] at hI₃
  rw [← hptr] at hF₃
  exact ⟨hw, hapart, hR₃, hI₃, hF₃⟩

/-- With the prologue 8-aligned, the first `n` bytes at `q` after the free are the bytes at `ptr`
before the copy. -/
theorem Repr.copy_free_byte (hal : σ.prologue % 8 = 0) {i : Nat} (hi : i < n) :
    (mmFree L (memcpy σ q ptr n) ptr).byte (q + i) = σ.byte (ptr + i) := by
  obtain ⟨-, hapart, -, -, hF⟩ := hR.copy_free hI hq hq8 hs hA hb hptr h8 hne hsz hn
  have hp : (ptr - 8, b) ∈ placed (σ.prologue + 8) A.blocks := by
    rw [hA, hptr]; exact mem_placed_of_eq
  have hqm := hI.sized.placed_mod hq
  have hpm := hI.sized.placed_mod hp
  have hqw : (mmFree L (memcpy σ q ptr n) ptr).mem (q + i - (q + i) % 8) =
      (memcpy σ q ptr n).mem (q + i - (q + i) % 8) :=
    hF _ (not_written hI.sized.pos hq rfl hp hne (show q - 8 ≤ _ by omega)
      (show _ < q - 8 + s by omega))
  calc (mmFree L (memcpy σ q ptr n) ptr).byte (q + i)
      = (memcpy σ q ptr n).byte (q + i) := by rw [Heap.byte, Heap.byte, hqw]
    _ = σ.byte (ptr + i) := memcpy_byte σ (by omega) (by omega) hapart hi

end CopyFree

/-- `mm_realloc` of a payload, when its `mm_malloc` allocates enough: the new payload's block is
new, every other allocated block stays, and the invariant holds. -/
theorem mmRealloc_spec (hlo : σ.lo ≤ σ.prologue) {malloc : Heap → Nat → Option (Nat × Heap)}
    {ptr size asize q : Nat} (hmalloc : ∀ p σ₁, malloc σ size = some (p, σ₁) → Allocates L σ A asize p σ₁)
    (hsize : size + 16 ≤ asize) {b : Block} (hp : (ptr - 8, b) ∈ placed (σ.prologue + 8) A.blocks)
    (hb : b.allocated = true) (h8 : 8 ≤ ptr) (h : mmRealloc malloc L σ ptr size = some (q, σ')) :
    ∃ A', Repr L σ' A' ∧ A'.Inv L (σ.prologue + 8) ∧
      (∃ s, (q - 8, (⟨s, true⟩ : Block)) ∈ placed (σ.prologue + 8) A'.blocks ∧ asize ≤ s) ∧
      (∀ x d, (x, d) ∈ placed (σ.prologue + 8) A.blocks → d.allocated = true → x ≠ ptr - 8 →
        (x, d) ∈ placed (σ.prologue + 8) A'.blocks) ∧
      (∀ d, (q - 8, d) ∈ placed (σ.prologue + 8) A.blocks → d.allocated = false) ∧ 8 ≤ q ∧
      σ.WritesIn (fun a => FreeCell (σ.prologue + 8) A.blocks a ∨
        (ptr - 8 ≤ a ∧ a < ptr - 8 + b.size)) σ' ∧
      σ'.prologue = σ.prologue ∧ σ'.lo = σ.lo ∧ σ'.brk < σ.lo + 2^31 := by
  obtain ⟨σ₁, hm, rfl⟩ := mmRealloc_eq_some h
  have hal := hmalloc _ _ hm
  obtain ⟨A₁, hR₁, hI₁, ⟨s, hqs, hle⟩, hkeep⟩ := hal.arena
  have hpos₁ := hI₁.sized.pos
  have hp₁ := hkeep _ _ hp hb
  obtain ⟨pre, post, hA₁, hpre⟩ := mem_placed_iff.mp hp₁
  -- the old block is not the new one
  have hqp : q - 8 ≠ ptr - 8 := fun he => by
    have := hal.fresh b (he ▸ hp); simp [hb] at this
  have hsz : total A₁.blocks < 2^31 := by
    have := hR₁.brk; have := hal.bound; have := hal.prologue; omega
  have hbs : σ₁.blockSize (ptr - 8) = b.size := hR₁.blockSize_eq (by rw [hal.prologue]; exact hp₁)
  rw [hbs]
  have hn := Nat.min_le_left size b.size
  obtain ⟨hw, -, hR₃, hI₃, hF₃⟩ := hR₁.copy_free (by rw [hal.prologue]; exact hI₁)
    (by rw [hal.prologue]; exact hqs) hal.payload (by omega) hA₁ hb (by rw [hal.prologue]; exact hpre)
    h8 hqp hsz (Nat.min_le_right size b.size)
  rw [hal.prologue] at hR₃ hI₃ hF₃
  refine ⟨_, hR₃, hI₃, ⟨s, Arena.free_keep hA₁ hpos₁ hqs rfl (by omega), hle⟩,
    fun x d hx hd hne => Arena.free_keep hA₁ hpos₁ (hkeep x d hx hd) hd (by omega), hal.fresh,
    hal.payload, fun a ha => ?_, by simp [hal.prologue], by simp [hal.lo], by simpa using hal.bound⟩
  simp only [not_or] at ha
  obtain ⟨x, d, hx, hd, hxa⟩ := FreeCell.exists_alloc ha.1
  have hx₁ := hkeep x d hx hd
  have hxq : x ≠ q - 8 := fun he => by have := hal.fresh d (he ▸ hx); simp [hd] at this
  have hqa : a < q ∨ q - 8 + s - 8 ≤ a := by
    have := placed_disjoint hpos₁ hx₁ hqs hxq
    simp only at this
    omega
  rw [hF₃ a fun h => ?_, show (memcpy σ₁ q ptr _).mem a = σ₁.mem a by
    by_contra hne; have := hw a hne; omega, hal.frame a ha.1]
  rcases h with h | h
  · exact h.not_alloc hpos₁ hx₁ hd hxa.1 hxa.2
  · exact ha.2 (by omega)

end MallocLab.MM
