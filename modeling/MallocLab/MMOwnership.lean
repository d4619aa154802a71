import MallocLab.MMFreeOrder
import MallocLab.MMMallocResults

/-! Who owns the allocated blocks. From every reachable state, the allocated blocks of the heap
are exactly the blocks of the live payloads, each holding its request with fewer than 32 bytes to
spare: `mm_malloc` allocates no block but the one it returns, `mm_free` frees its own, and no
other step marks a block allocated. Freeing every live payload therefore leaves one free block. -/
namespace MallocLab.MM

/-- The memory determines the blocks: two arenas the heap holds have the same blocks. -/
theorem Repr.blocks_unique {L : FreeLists} {σ : Heap} {A A' : Arena} (hR : Repr L σ A)
    (hW : A.WF L (σ.prologue + 8)) (hR' : Repr L σ A') (hW' : A'.WF L (σ.prologue + 8)) :
    A'.blocks = A.blocks := by
  have h := (hR'.heapWalk_eq hW').symm.trans (hR.heapWalk_eq hW)
  simp only [Option.some.injEq, Prod.mk.injEq] at h
  rw [← map_snd_placed (σ.prologue + 8) A'.blocks, h.1, map_snd_placed]

namespace Arena

variable {L : FreeLists} {start : Nat} {A : Arena} {pre post : List Block} {c : Block}

/-- `place` allocates one block: an allocated block after it was allocated before, or is the
placed block at `start + total pre`, of `asize` bytes or, unsplit, fewer than `asize + 32`. -/
theorem place_alloc (hA : A.blocks = pre ++ c :: post) {asize : Nat} (hle : asize ≤ c.size)
    {y : Nat} {d : Block} (hy : (y, d) ∈ placed start (A.place L start pre c post asize).blocks)
    (hd : d.allocated = true) :
    (y, d) ∈ placed start A.blocks ∨
      (y = start + total pre ∧ asize ≤ d.size ∧ d.size < asize + 32) := by
  rw [hA, ← List.singleton_append, ← List.append_assoc, mem_placed_mid]
  unfold Arena.place at hy
  split_ifs at hy with hsp
  · -- split: the placed block of `asize` bytes, then the free remainder
    simp only [cons_blocks, mem_placed_mid, placed_cons, placed_nil, List.mem_cons, Prod.mk.injEq,
      List.not_mem_nil, or_false, total_cons, total_nil] at hy
    rcases hy with hy | (⟨rfl, rfl⟩ | ⟨-, rfl⟩) | hy
    · exact .inl (.inl hy)
    · exact .inr ⟨rfl, le_rfl, by simp⟩
    · cases hd
    · have e : start + total pre + total [c] = start + total pre + (asize + (c.size - asize)) := by
        simp only [total_cons, total_nil]; omega
      exact .inl (.inr (.inr (by rwa [e])))
  · -- unsplit: the whole block, allocated
    simp only [mem_placed_mid, placed_cons, placed_nil, List.mem_singleton, Prod.mk.injEq,
      total_cons, total_nil] at hy
    rcases hy with hy | ⟨rfl, rfl⟩ | hy
    · exact .inl (.inl hy)
    · exact .inr ⟨rfl, hle, by simp only; omega⟩
    · exact .inl (.inr (.inr (by simpa using hy)))

end Arena

variable {L : FreeLists} {ext : Extender} {σ σ₁ : Heap} {A : Arena}

/-- `extend_heap` allocates nothing: the new block is free, and coalescing merges it only with
a free block, so every allocated block after it was one before. -/
theorem Repr.extendHeap_alloc (hR : Repr L σ A) (hI : A.Inv L (σ.prologue + 8))
    (hext : ext.Bounded σ.lo) (hlo : σ.lo ≤ σ.prologue) {words block : Nat} {c : Bool}
    (hw32 : 32 ≤ words * 8) (hw : words * 8 < 2^32)
    (hx : extendHeap L ext σ words c = some (block, σ₁)) :
    ∃ A₁, Repr L σ₁ A₁ ∧ A₁.WF L (σ.prologue + 8) ∧ σ₁.prologue = σ.prologue ∧
      ∀ x d, (x, d) ∈ placed (σ.prologue + 8) A₁.blocks → d.allocated = true →
        (x, d) ∈ placed (σ.prologue + 8) A.blocks := by
  have hgrant : ext σ.brk (words * 8) = true := by
    by_contra hne
    rw [extendHeap_eq_none (.inr (by rw [Nat.mod_eq_of_lt hw]; simpa using hne))] at hx
    exact Option.noConfusion hx
  have hgrow := hext σ.brk _ hgrant
  have hbrk := hR.brk
  obtain ⟨σ₂, hR₂, hW₂, -, hpro₂, -, heq⟩ := hR.extendHeap_spec hI.toWF hw32 (by omega) hgrant
  have hA₂ := Arena.grow_blocks L (σ.prologue + 8) A (words * 8)
  have hgrown : ∀ x d, (x, d) ∈ placed (σ.prologue + 8) (A.blocks ++ [⟨words * 8, false⟩]) →
      d.allocated = true → (x, d) ∈ placed (σ.prologue + 8) A.blocks := fun x d hx hd => by
    rw [placed_append, List.mem_append] at hx
    exact hx.resolve_right fun h => by simp at h; simp [h.2] at hd
  rw [heq c, Option.some.injEq] at hx
  cases c with
  | false =>
    obtain ⟨-, rfl⟩ := Prod.mk.inj hx
    exact ⟨_, hR₂, hW₂, hpro₂, fun x d hx hd => hgrown x d (hA₂ ▸ hx) hd⟩
  | true =>
    rw [if_pos rfl] at hx
    obtain rfl : σ₁ = (coalesce L σ₂ (σ.prologue + 8 + total A.blocks)).2 := by rw [hx]
    obtain ⟨-, hR₃, hI₃, -⟩ := Repr.coalesce_spec hR₂ (by rwa [hpro₂])
      (by rw [hpro₂]; exact Arena.Listed.grow hI.toWF hI.listed _) hA₂ rfl hI.coalesced
      List.chain'_nil (by simp only [hA₂, total_append, total_cons, total_nil]; omega)
    rw [hpro₂] at hR₃ hI₃
    obtain ⟨pre', mid, post', hsplit, -, -, -, hb₃⟩ :=
      Arena.coalesce_run L (σ.prologue + 8) _ hA₂ rfl
    refine ⟨_, hR₃, hI₃.toWF, by simp [hpro₂], fun x d hx hd => ?_⟩
    rw [hb₃] at hx
    exact hgrown x d (hA₂ ▸ hsplit ▸ placed_keep_alloc hx hd (by simp) (by simp)) hd

namespace Variant

theorem path_alloc (v : Variant) (hR : Repr v.program.L σ A)
    (hI : A.Inv v.program.L (σ.prologue + 8)) (hext : ext.Bounded σ.lo) (hlo : σ.lo ≤ σ.prologue)
    {asize block : Nat} (h32 : 32 ≤ asize) (h8 : asize % 8 = 0) (hlt : asize < 2^31)
    (hp : v.Path ext σ asize block σ₁) :
    ∃ A₁, Repr v.program.L σ₁ A₁ ∧ A₁.WF v.program.L (σ.prologue + 8) ∧
      σ₁.prologue = σ.prologue ∧ ∀ x d, (x, d) ∈ placed (σ.prologue + 8) A₁.blocks →
        d.allocated = true → (x, d) ∈ placed (σ.prologue + 8) A.blocks := by
  rcases hp with ⟨-, rfl⟩ | ⟨-, hx⟩ | ⟨-, -, hx⟩
  · exact ⟨A, hR, hI.toWF, rfl, fun x d hx _ => hx⟩
  · obtain ⟨hw32, hw⟩ : 32 ≤ (if asize > chunkSize then asize else chunkSize) / 8 * 8 ∧
        (if asize > chunkSize then asize else chunkSize) / 8 * 8 < 2^32 := by
      unfold chunkSize; split_ifs <;> omega
    exact hR.extendHeap_alloc hI hext hlo hw32 hw hx
  · exact hR.extendHeap_alloc hI hext hlo (by omega) (by omega) hx

/-- `mm_malloc` allocates one block, the one it returns: every allocated block after the call
was allocated before, or is the block of the payload `p`, with `A(u)` to `A(u) + 31` bytes. -/
theorem malloc_alloc (v : Variant) (hR : Repr v.program.L σ A)
    (hI : A.Inv v.program.L (σ.prologue + 8)) (hext : ext.Bounded σ.lo) (hlo : σ.lo ≤ σ.prologue)
    (hbound : σ.brk < σ.lo + 2^31) {u p : Nat} {σ' : Heap} (hu : reqSize u < 2^31)
    (h : v.program.malloc ext σ u = some (p, σ')) {A' : Arena} (hR' : Repr v.program.L σ' A')
    (hW' : A'.WF v.program.L (σ'.prologue + 8)) {x : Nat} {d : Block}
    (hx : (x, d) ∈ placed (σ.prologue + 8) A'.blocks) (hd : d.allocated = true) :
    (x, d) ∈ placed (σ.prologue + 8) A.blocks ∨
      (x + 8 = p ∧ reqSize u ≤ d.size ∧ d.size < reqSize u + 32) := by
  obtain ⟨h32, h8, -⟩ := reqSize_spec u
  obtain ⟨-, block, σ₁, rfl, rfl, hpath⟩ := v.malloc_cases h
  rw [adjustSize_eq u (by omega)] at hpath hR' hW'
  obtain ⟨A₁, hR₁, hW₁, hpro₁, hsub⟩ := v.path_alloc hR hI hext hlo h32 h8 hu hpath
  obtain ⟨A₂, pre, c, post, hsite, hblock, -⟩ :=
    (v.path_prepared hR hI hext hlo hbound h32 h8 hu hpath).site
  rw [← hpro₁] at hW₁ hblock
  have h₁₂ := hsite.repr.blocks_unique hsite.wf hR₁ hW₁
  obtain ⟨hR₃, hI₃, -⟩ := hsite.spec
  rw [← hblock] at hR₃
  have hW₃ : (Arena.place v.program.L (σ₁.prologue + 8) A₂ pre c post (reqSize u)).WF
      v.program.L ((place v.program.L σ₁ block (reqSize u)).prologue + 8) := by
    rw [place_prologue]; exact hI₃.toWF
  rw [hR₃.blocks_unique hW₃ hR' hW', ← hpro₁] at hx
  rcases Arena.place_alloc hsite.blocks hsite.le hx hd with hx | ⟨rfl, hd⟩
  · rw [← h₁₂, hpro₁] at hx
    exact .inl (hsub x d hx hd)
  · exact .inr ⟨by rw [hblock], hd⟩

end Variant

/-- Every allocated block of the walk `bs` from `start` belongs to a live payload: the payload
right after its header, requested with `u` bytes, for a block of `A(u)` to `A(u) + 31` bytes. -/
def Owned (start : Nat) (bs : List Block) (live : List (Nat × Nat)) : Prop :=
  ∀ x d, (x, d) ∈ placed start bs → d.allocated = true →
    ∃ u, (x + 8, u) ∈ live ∧ reqSize u ≤ d.size ∧ d.size < reqSize u + 32

namespace Owned

variable {start : Nat} {bs : List Block} {live : List (Nat × Nat)}

theorem malloc (h : Owned start bs live) {bs' : List Block} {p u : Nat}
    (halloc : ∀ x d, (x, d) ∈ placed start bs' → d.allocated = true →
      (x, d) ∈ placed start bs ∨ (x + 8 = p ∧ reqSize u ≤ d.size ∧ d.size < reqSize u + 32)) :
    Owned start bs' ((p, u) :: live) := fun x d hx hd => by
  rcases halloc x d hx hd with hx | ⟨rfl, hb⟩
  · obtain ⟨u', hu', hb⟩ := h x d hx hd
    exact ⟨u', .tail _ hu', hb⟩
  · exact ⟨u, .head _, hb⟩

theorem free {A : Arena} (h : Owned start A.blocks live) (hW : A.WF L start) {pre post : List Block}
    {b : Block} (hA : A.blocks = pre ++ b :: post) {p u : Nat} (hp : p = start + total pre + 8) :
    Owned start (A.free L start pre b post).blocks (live.erase (p, u)) := fun x d hx hd => by
  obtain ⟨hx, hne⟩ := ((Arena.free_alloc hW hA).2 x d hd).mp hx
  obtain ⟨u', hu', hb⟩ := h x d hx hd
  exact ⟨u', (List.mem_erase_of_ne fun he => hne (by simp at he; omega)).mpr hu', hb⟩

end Owned

theorem Program.Good.total_lt {P : Program} {s : Client} (hG : P.Good s) {A : Arena}
    (hR : Repr P.L s.heap A) : total A.blocks < 2^31 := by
  have := hR.brk; have := hG.bound; have := hG.lo_le; omega

namespace Variant

theorem init_repr (v : Variant) {σ₀ σ : Heap} (h : v.program.init ext σ₀ = some σ) :
    Repr v.program.L σ (initArena v.program.L σ.prologue) := by
  cases v with
  | explicit =>
    change Explicit.program.init ext σ₀ = some σ at h
    by_cases hg : ext σ₀.brk chunkSize = true
    · rw [Explicit.init_eq hg, Option.some.injEq] at h
      subst h
      rw [initChunk_prologue]
      exact Explicit.init_repr
    · simp [Explicit.program, Explicit.mmInit, memSbrk, hg] at h
  | seg => exact Seg.init_repr h

/-- Every arena the heap of `s` holds has its allocated blocks owned by the live payloads. -/
def Owns (v : Variant) (s : Client) : Prop :=
  ∀ A, Repr v.program.L s.heap A → A.WF v.program.L (s.heap.prologue + 8) →
    Owned (s.heap.prologue + 8) A.blocks s.live

namespace Owns

variable {v : Variant} {s : Client}

theorem malloc (h : v.Owns s) (hG : v.program.Good s) {u p : Nat} {σ' : Heap}
    (hext : ext.Bounded s.heap.lo) (hu : reqSize u < 2^31)
    (hm : v.program.malloc ext s.heap u = some (p, σ')) : v.Owns ⟨σ', (p, u) :: s.live⟩ := by
  intro A hR hW
  obtain ⟨A₀, hR₀, hI₀, -⟩ := hG.arena
  show Owned (σ'.prologue + 8) _ _
  rw [(Program.MallocSpec.allocates v.mallocSpec hR₀ hI₀ hext hG.lo_le hG.bound hu hm).prologue]
  exact (h A₀ hR₀ hI₀.toWF).malloc fun x d hx hd =>
    v.malloc_alloc hR₀ hI₀ hext hG.lo_le hG.bound hu hm hR hW hx hd

theorem free (h : v.Owns s) (hG : v.program.Good s) {p u : Nat} (hp : (p, u) ∈ s.live) :
    v.Owns ⟨mmFree v.program.L s.heap p, s.live.erase (p, u)⟩ := by
  intro A hR hW
  obtain ⟨A₀, hR₀, hI₀, hlive⟩ := hG.arena
  obtain ⟨h8, sz, hps, -⟩ := hlive.2 p u hp
  obtain ⟨pre, post, hA, hpre⟩ := mem_placed_iff.mp hps
  obtain ⟨hR₁, hI₁, -⟩ := hR₀.mmFree_spec hI₀ hA rfl (hG.total_lt hR₀)
  rw [show s.heap.prologue + 8 + total pre + 8 = p by omega] at hR₁
  show Owned ((mmFree _ s.heap p).prologue + 8) _ _
  have hW₁ : (A₀.free v.program.L (s.heap.prologue + 8) pre ⟨sz, true⟩ post).WF v.program.L
      ((mmFree v.program.L s.heap p).prologue + 8) := by
    rw [mmFree_prologue]; exact hI₁.toWF
  rw [hR₁.blocks_unique hW₁ hR hW, mmFree_prologue]
  exact (h A₀ hR₀ hI₀.toWF).free hI₀.toWF hA (by omega)

theorem realloc (h : v.Owns s) (hG : v.program.Good s) {p u₀ u q : Nat} {σ : Heap}
    (hext : ext.Bounded s.heap.lo) (hu : reqSize u < 2^31) (hp : (p, u₀) ∈ s.live)
    (hm : mmRealloc (v.program.malloc ext) v.program.L s.heap p u = some (q, σ)) :
    v.Owns ⟨σ, (q, u) :: s.live.erase (p, u₀)⟩ := by
  intro A hR hW
  obtain ⟨A₀, hR₀, hI₀, hlive⟩ := hG.arena
  obtain ⟨σ₁, hm₁, rfl⟩ := mmRealloc_eq_some hm
  have hal := Program.MallocSpec.allocates v.mallocSpec hR₀ hI₀ hext hG.lo_le hG.bound hu hm₁
  obtain ⟨A₁, hR₁, hI₁, ⟨sq, hqs, hle⟩, hkeep⟩ := hal.arena
  obtain ⟨h8, sz, hps, -⟩ := hlive.2 p u₀ hp
  obtain ⟨pre, post, hA₁, hpre⟩ := mem_placed_iff.mp (hkeep _ _ hps rfl)
  have hqp : q - 8 ≠ p - 8 := fun he => by have := hal.fresh _ (he ▸ hps); simp at this
  have hsz₁ : total A₁.blocks < 2^31 := by
    have := hR₁.brk; have := hal.bound; have := hal.prologue; have := hG.lo_le; omega
  have hbs : σ₁.blockSize (p - 8) = sz :=
    hR₁.blockSize_eq (by rw [hal.prologue, hA₁, hpre]; exact mem_placed_of_eq)
  -- the copy and the free, from the heap `mm_malloc` left
  have hown : Owned (s.heap.prologue + 8) A₁.blocks ((q, u) :: s.live) :=
    (h A₀ hR₀ hI₀.toWF).malloc fun x d hx hd => v.malloc_alloc hR₀ hI₀ hext hG.lo_le hG.bound hu
      hm₁ hR₁ (by rw [hal.prologue]; exact hI₁.toWF) hx hd
  rw [← hal.prologue] at hI₁ hqs hpre
  obtain ⟨-, -, hR₃, hI₃, -⟩ := hR₁.copy_free hI₁ hqs hal.payload
    (show min u (σ₁.blockSize (p - 8)) + 16 ≤ sq by
      have := (reqSize_spec u).2.2; have := Nat.min_le_left u (σ₁.blockSize (p - 8)); omega)
    hA₁ rfl hpre h8 hqp hsz₁ (by rw [hbs]; exact Nat.min_le_right u sz)
  have hpro : (mmFree v.program.L (memcpy σ₁ q p (min u (σ₁.blockSize (p - 8)))) p).prologue =
      σ₁.prologue := by simp
  show Owned (_ + 8) _ _
  rw [hR₃.blocks_unique (by rw [hpro]; exact hI₃.toWF) hR hW, hpro, hal.prologue]
  rw [hal.prologue] at hI₁ hpre
  have herase : ((q, u) :: s.live).erase (p, u₀) = (q, u) :: s.live.erase (p, u₀) :=
    List.erase_cons_tail (by simp only [beq_iff_eq, Prod.mk.injEq, not_and]; omega)
  rw [← herase]
  exact hown.free hI₁.toWF hA₁ (by omega)

end Owns

/-- In every reachable state, every allocated block of the heap belongs to a live payload, and
holds its request with fewer than 32 bytes to spare. -/
theorem owns (v : Variant) {s : Client} (hs : v.program.Reachable s) : v.Owns s := by
  induction hs with
  | init _ _ _ hinit =>
    intro A hR hW
    rw [(v.init_repr hinit).blocks_unique (initArena_inv _ _).toWF hR hW]
    intro x d hx hd
    simp only [initArena, placed_cons, placed_nil, List.mem_singleton, Prod.mk.injEq] at hx
    simp [hx.2] at hd
  | step hs₀ hstep ih =>
    have hG := v.good hs₀
    cases hstep with
    | malloc hext hu hm => exact ih.malloc hG hext hu hm
    | mallocNull => exact ih
    | free hp => exact ih.free hG hp
    | realloc hext hu hp hm => exact ih.realloc hG hext hu hp hm

end Variant

/-- A block of the walk is allocated exactly when the payload after its header is live, with `A(u)`
to `A(u) + 31` bytes for a request of `u`. -/
theorem allocated_blocks_live (v : Variant) {s : Client} (hs : v.program.Reachable s) :
    ∃ bs e, heapWalk s.heap = some (bs, e) ∧ ∀ x d, (x, d) ∈ bs →
      (d.allocated = true ↔ ∃ u, (x + 8, u) ∈ s.live) ∧
      ∀ u, (x + 8, u) ∈ s.live → reqSize u ≤ d.size ∧ d.size < reqSize u + 32 := by
  obtain ⟨A, hR, hI, hnd, hlive⟩ := (v.good hs).arena
  have hown := v.owns hs A hR hI.toWF
  have halloc : ∀ x d u, (x, d) ∈ placed (s.heap.prologue + 8) A.blocks → (x + 8, u) ∈ s.live →
      d.allocated = true := fun x d u hx hu => by
    obtain ⟨-, sz, hsz, -⟩ := hlive (x + 8) u hu
    rw [Nat.add_sub_cancel] at hsz
    rw [placed_unique hI.sized.pos hx hsz]
  refine ⟨_, _, hR.heapWalk_eq hI.toWF, fun x d hx =>
    ⟨⟨fun hd => ?_, fun ⟨u, hu⟩ => halloc x d u hx hu⟩, fun u hu => ?_⟩⟩
  · obtain ⟨u, hu, -⟩ := hown x d hx hd
    exact ⟨u, hu⟩
  · obtain ⟨u', hu', hb⟩ := hown x d hx (halloc x d u hx hu)
    obtain rfl : u' = u := (Prod.mk.inj (List.inj_on_of_nodup_map hnd hu' hu rfl)).2
    exact hb

/-- In part_000, after `mm_init` and a request of 1 byte, the allocated blocks of the walk are
those of the live payloads. -/
theorem allocated_blocks_live_first_request :
    ∃ (s : Client) (bs : List (Nat × Block)) (e : Nat), Variant.seg.program.Reachable s ∧
      s.live ≠ [] ∧ heapWalk s.heap = some (bs, e) ∧ ∀ x d, (x, d) ∈ bs →
        (d.allocated = true ↔ ∃ u, (x + 8, u) ∈ s.live) ∧
        ∀ u, (x + 8, u) ∈ s.live → reqSize u ≤ d.size ∧ d.size < reqSize u + 32 := by
  obtain ⟨s, p, σ', hs, hb, h⟩ := Variant.seg.exists_malloc Nat.one_ne_zero (by decide)
  have hs' : Variant.seg.program.Reachable ⟨σ', (p, 1) :: s.live⟩ :=
    .step hs (.malloc hb (by decide) h)
  obtain ⟨bs, e, hw, hbs⟩ := allocated_blocks_live .seg hs'
  exact ⟨_, bs, e, hs', List.cons_ne_nil _ _, hw, hbs⟩

end MallocLab.MM
