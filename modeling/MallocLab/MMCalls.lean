import MallocLab.MMInvariants

/-! The calls inside `mm_malloc` and `mm_free`: what `coalesce` does to any heap it is entered
with, what holds at the call `place(block, asize)` that ends every `mm_malloc`, and how the size
arithmetic of `mm_malloc` wraps at the top of the `size_t` range. -/
namespace MallocLab.MM

namespace Arena

variable {L : FreeLists} {start : Nat} {A : Arena} {pre post : List Block} {b : Block}

/-- `Arena.coalesce` in all four cases: the free neighbours and `b` merge into one block where the
run began, pushed on the list of its class. -/
theorem coalesce_shape (hL : A.Listed L start) (hA : A.blocks = pre ++ b :: post)
    (hb : b.allocated = false) :
    let pre' := if prevFree pre then pre.dropLast else pre
    let mid := (if prevFree pre then pre.getLast?.toList else []) ++
      b :: (if nextFree post then post.take 1 else [])
    let post' := if nextFree post then post.drop 1 else post
    A.blocks = pre' ++ mid ++ post' ∧
    (A.coalesce L start pre b post).1 = start + total pre' ∧
    (A.coalesce L start pre b post).2.blocks = pre' ++ [⟨total mid, false⟩] ++ post' ∧
    ∀ k y, y ∈ (A.coalesce L start pre b post).2.lists k ↔
      (k = L.cls (total mid) ∧ y = start + total pre') ∨
      (y ∈ A.lists k ∧ ∀ c, (y, c) ∉ placed (start + total pre') mid) := by
  intro pre' mid post'
  cases hpf : prevFree pre <;> cases hnf : nextFree post <;>
    simp only [pre', mid, post', hpf, hnf, if_true, if_false, Bool.false_eq_true, List.nil_append]
  · -- no neighbour is free: nothing changes
    have hx : (start + total pre, b) ∈ placed start A.blocks := hA ▸ mem_placed_of_eq
    have hbf : b = ⟨b.size, false⟩ := by cases b; cases hb; rfl
    refine ⟨by simp [hA], by simp [coalesce, hpf, hnf], by simp [coalesce, hpf, hnf, hA, ← hbf],
      fun k y => ?_⟩
    simp only [coalesce, hpf, hnf, total_cons, total_nil, Nat.add_zero, placed_cons, placed_nil,
      List.mem_singleton, Prod.mk.injEq, not_and]
    constructor
    · intro hy
      by_cases hyx : y = start + total pre
      · subst hyx; exact .inl ⟨hL.mem_cls k _ b hy hx, rfl⟩
      · exact .inr ⟨hy, fun _ h => absurd h hyx⟩
    · rintro (⟨rfl, rfl⟩ | ⟨hy, -⟩)
      exacts [hL.free_mem _ b hx hb, hy]
  · -- the next block is free
    refine ⟨by rw [hA, List.append_assoc, List.cons_append, List.take_append_drop], by simp [coalesce, hpf, hnf], by simp [coalesce, hpf, hnf],
      fun k y => by simp [coalesce, hpf, hnf, mem_merge_lists]⟩
  all_goals
    obtain ⟨l, p, rfl⟩ : ∃ l p, pre = l ++ [p] := by
      rcases List.eq_nil_or_concat pre with rfl | ⟨l, p, rfl⟩
      · simp [prevFree] at hpf
      · exact ⟨l, p, List.concat_eq_append _ _⟩
  · -- the previous block is free
    refine ⟨by simp [hA], by simp [coalesce, hpf, hnf], by simp [coalesce, hpf, hnf],
      fun k y => by simp [coalesce, hpf, hnf, mem_merge_lists]⟩
  · -- both neighbours are free
    refine ⟨by simp [hA]; rw [← List.drop_one, List.take_append_drop], by simp [coalesce, hpf, hnf], by simp [coalesce, hpf, hnf],
      fun k y => by simp [coalesce, hpf, hnf, mem_merge_lists]⟩

end Arena

/-- `coalesce(block)` on a heap with the invariant but for free neighbours of `b`: it merges them
into `c` and restores the invariant, writing only free memory. -/
theorem coalesce_merges {L : FreeLists} {σ : Heap} {A : Arena} (hR : Repr L σ A)
    (hW : A.WF L (σ.prologue + 8)) (hL : A.Listed L (σ.prologue + 8)) {pre post : List Block}
    {b : Block} (hA : A.blocks = pre ++ b :: post) (hb : b.allocated = false)
    (hpre : Coalesced pre) (hpost : Coalesced post) (hsz : total A.blocks < 2^31) :
    let x := σ.prologue + 8 + total pre
    let pre' := if prevFree pre then pre.dropLast else pre
    let mid := (if prevFree pre then pre.getLast?.toList else []) ++
      b :: (if nextFree post then post.take 1 else [])
    let post' := if nextFree post then post.drop 1 else post
    let c := σ.prologue + 8 + total pre'
    σ.tag (x - 8) = pre.getLast?.getD ⟨8, true⟩ ∧ (pre = [] → x - 8 = σ.prologue) ∧
    (∀ l p, pre = l ++ [p] → x - 8 - σ.blockSize (x - 8) + 8 = σ.prologue + 8 + total l) ∧
    A.blocks = pre' ++ mid ++ post' ∧ (coalesce L σ x).1 = c ∧
    ∃ A', Repr L (coalesce L σ x).2 A' ∧ A'.blocks = pre' ++ [⟨total mid, false⟩] ++ post' ∧
      (coalesce L σ x).2.tag c = ⟨total mid, false⟩ ∧
      (coalesce L σ x).2.tag (c + total mid - 8) = ⟨total mid, false⟩ ∧
      (A'.lists (L.cls (total mid))).count c = 1 ∧
      (∀ k y, y ∈ A'.lists k ↔ (k = L.cls (total mid) ∧ y = c) ∨
        (y ∈ A.lists k ∧ ∀ d, (y, d) ∉ placed c mid)) ∧
      A'.Inv L (σ.prologue + 8) ∧ σ.WritesIn (FreeCell (σ.prologue + 8) A.blocks) (coalesce L σ x).2 := by
  intro x pre' mid post' c
  obtain ⟨h₁, hR', hI', hF'⟩ := hR.coalesce_spec hW hL hA hb hpre hpost hsz
  obtain ⟨hsplit, hc, hblocks, hlists⟩ := Arena.coalesce_shape hL hA hb
  have hprev := hR.prev_tag hA
  have hcm : (c, (⟨total mid, false⟩ : Block)) ∈
      placed ((coalesce L σ x).2.prologue + 8) (A.coalesce L (σ.prologue + 8) pre b post).2.blocks := by
    rw [hblocks, coalesce_prologue, List.append_assoc, List.singleton_append]
    exact mem_placed_of_eq
  have hct := hR'.tags _ _ hcm
  have hcl : c ∈ (A.coalesce L (σ.prologue + 8) pre b post).2.lists (L.cls (total mid)) :=
    (hlists _ _).mpr (.inl ⟨rfl, rfl⟩)
  refine ⟨hprev, fun h0 => by simp [x, h0], fun l p hp => ?_, hsplit, h₁.trans hc, _, hR',
    hblocks, hct.1, by simpa using hct.2, List.count_eq_one_of_mem (hI'.nodup _) hcl, hlists, hI',
    hF'⟩
  subst hp
  have hps := congrArg Block.size hprev
  have hp32 := (hW.sized p (by simp [hA])).1
  simp only [x, Heap.tag, total_append, total_cons, total_nil, Nat.add_zero, List.getLast?_concat,
    Option.getD_some] at hps ⊢
  rw [hps]
  omega

/-- An mm.c heap of three free blocks of 32 bytes between the sentinels, listed in walk order:
the state `mm_free` of the middle block enters `coalesce` in, once its neighbours were freed. -/
def threeFreeHeap : Heap where
  mem a := match a with
    | 0 => 17 | 8 => 64 | 16 => 40 | 32 => 64
    | 40 => 64 | 48 => 72 | 56 => 8 | 64 => 64
    | 72 => 64 | 88 => 40 | 96 => 64 | 104 => 1
    | _ => 0
  lo := 0
  brk := 112
  prologue := 0
  segListHead := 0
  head := 8
  calls := []

/-- The arena of `threeFreeHeap`. -/
def threeFreeArena : Arena :=
  ⟨[⟨32, false⟩, ⟨32, false⟩, ⟨32, false⟩], fun k => if k = 0 then [8, 40, 72] else []⟩

theorem threeFreeHeap_repr : Repr Explicit.lists threeFreeHeap threeFreeArena := by
  refine ⟨by decide, ?_, by decide, rfl, fun k hk => ?_, fun _ _ _ hc => (nomatch hc),
    by simp [threeFreeHeap]⟩
  · simp only [threeFreeArena, tags_cons, tags_nil]
    decide
  · obtain rfl : k = 0 := by simpa [Explicit.lists] using hk
    exact ⟨rfl, by simp [threeFreeArena, Linked, threeFreeHeap]⟩

theorem threeFreeArena_wf :
    threeFreeArena.WF Explicit.lists 8 ∧ threeFreeArena.Listed Explicit.lists 8 := by
  refine ⟨⟨by simp [threeFreeArena, Sized], fun k => ?_, fun j k x hj hk => ?_, fun k x hx => ?_⟩,
    ⟨fun x b hx _ => ?_, fun k x b hx _ => ?_⟩⟩
  all_goals simp only [threeFreeArena, Explicit.lists, placed_cons, placed_nil] at *
  · split_ifs <;> simp
  · split_ifs at hj hk <;> simp_all
  · split_ifs at hx with h
    · subst h
      simp only [List.mem_cons, List.not_mem_nil, or_false] at hx
      rcases hx with rfl | rfl | rfl <;> simp
    · simp at hx
  · simp only [Nat.reduceAdd, List.mem_cons, Prod.mk.injEq, List.not_mem_nil, or_false] at hx
    rcases hx with ⟨rfl, rfl⟩ | ⟨rfl, rfl⟩ | ⟨rfl, rfl⟩ <;> simp
  · split_ifs at hx with h
    · exact h
    · simp at hx

/-- Freeing the middle one of three free blocks: `coalesce` returns the first block, which spans
all three. -/
theorem coalesce_merges_both_free :
    ∃ σ A, Repr Explicit.lists σ A ∧ A.blocks = [⟨32, false⟩, ⟨32, false⟩, ⟨32, false⟩] ∧
      (coalesce Explicit.lists σ (σ.prologue + 8 + 32)).1 = σ.prologue + 8 ∧
      ∃ A', Repr Explicit.lists (coalesce Explicit.lists σ (σ.prologue + 8 + 32)).2 A' ∧
        A'.blocks = [⟨96, false⟩] ∧ A'.Inv Explicit.lists (σ.prologue + 8) := by
  obtain ⟨hW, hL⟩ := threeFreeArena_wf
  obtain ⟨-, -, -, -, hc, A', hR', hb', -, -, -, -, hI', -⟩ :=
    coalesce_merges threeFreeHeap_repr hW hL
      (show threeFreeArena.blocks = [⟨32, false⟩] ++ ⟨32, false⟩ :: [⟨32, false⟩] from rfl) rfl
      (List.chain'_singleton _) (List.chain'_singleton _) (by decide)
  refine ⟨threeFreeHeap, threeFreeArena, threeFreeHeap_repr, rfl, ?_, A', hR', ?_, hI'⟩
  · simpa [prevFree, threeFreeHeap] using hc
  · simpa [prevFree, nextFree] using hb'

/-- At the `place(block, asize)` ending every `mm_malloc`, `block` is a free listed block of at
least `asize` bytes, and `place` carries out `Arena.place`. -/
theorem place_call (v : Variant) {s : Client} (hs : v.program.Reachable s) {ext : Extender}
    (hext : ext.Bounded s.heap.lo) {u p : Nat} {σ' : Heap} (hu : reqSize u < 2^31)
    (h : v.program.malloc ext s.heap u = some (p, σ')) :
    ∃ σ₁ A pre c post, σ' = place v.program.L σ₁ (p - 8) (reqSize u) ∧
      Repr v.program.L σ₁ A ∧ A.blocks = pre ++ c :: post ∧
      p - 8 = σ₁.prologue + 8 + total pre ∧ c.allocated = false ∧
      p - 8 ∈ A.lists (v.program.L.cls c.size) ∧
      32 ≤ reqSize u ∧ reqSize u % 8 = 0 ∧ reqSize u ≤ c.size ∧
      (σ₁.blockSize (p - 8) + 2^64 - reqSize u) % 2^64 = c.size - reqSize u ∧
      Repr v.program.L σ' (Arena.place v.program.L (σ₁.prologue + 8) A pre c post (reqSize u)) ∧
      (Arena.place v.program.L (σ₁.prologue + 8) A pre c post (reqSize u)).Inv v.program.L
        (σ₁.prologue + 8) ∧
      σ₁.WritesIn (FreeCell (σ₁.prologue + 8) A.blocks) σ' := by
  have hG := v.good hs
  obtain ⟨A₀, hR₀, hI₀, -⟩ := hG.arena
  obtain ⟨-, σ₁, hP, rfl⟩ := v.mallocSpec hR₀ hI₀ hext hG.lo_le hG.bound hu h
  obtain ⟨A, pre, c, post, hsite, hblock, -⟩ := hP.site
  have hx : p - 8 = σ₁.prologue + 8 + total pre := by rw [hP.prologue]; exact hblock
  have hxc : (p - 8, c) ∈ placed (σ₁.prologue + 8) A.blocks := by
    rw [hx, hsite.blocks]; exact mem_placed_of_eq
  obtain ⟨hR', hI', hF'⟩ := hsite.spec
  rw [← hx] at hR' hF'
  have hle := hsite.le
  refine ⟨σ₁, A, pre, c, post, rfl, hsite.repr, hsite.blocks, hx, hsite.free,
    hsite.listed.free_mem _ _ hxc hsite.free, hsite.min, hsite.align, hle,
    ?_, hR', hI', hF'⟩
  have := mem_placed_bounds hxc
  have := hsite.bound
  rw [hsite.repr.blockSize_eq hxc]
  omega

/-- In part_000, right after `mm_init`, a request of 1 byte reaches `place`. -/
theorem place_call_first_request :
    ∃ (s : Client) (p : Nat) (σ' : Heap), Variant.seg.program.Reachable s ∧
      (Extender.upTo s.heap.lo).Bounded s.heap.lo ∧ reqSize 1 < 2^31 ∧
      Variant.seg.program.malloc (Extender.upTo s.heap.lo) s.heap 1 = some (p, σ') ∧
      ∃ σ₁, σ' = place Variant.seg.program.L σ₁ (p - 8) (reqSize 1) := by
  obtain ⟨s, p, σ', hs, hb, h⟩ := Variant.seg.exists_malloc Nat.one_ne_zero (by decide)
  obtain ⟨σ₁, -, -, -, -, hσ', -⟩ := place_call .seg hs hb (by decide) h
  exact ⟨s, p, σ', hs, hb, by decide, h, σ₁, hσ'⟩

/-- A request of `2^32 - 16` bytes wraps to an adjusted size of 32 and is served like a request of 1
byte, with a block far smaller than asked. -/
theorem malloc_wraps_huge_request :
    (∀ (v : Variant) (ext : Extender) (σ : Heap),
      v.program.malloc ext σ (2^32 - 16) = v.program.malloc ext σ 1) ∧
    ∀ v : Variant, ∃ (s : Client) (ext : Extender) (p : Nat) (σ' : Heap),
      v.program.Reachable s ∧ ext.Bounded s.heap.lo ∧
      v.program.malloc ext s.heap (2^32 - 16) = some (p, σ') ∧
      σ'.blockSize (p - 8) < 2^32 - 16 + 16 := by
  have hadj : adjustSize (2^32 - 16) = adjustSize 1 := by decide
  have hsame : ∀ (v : Variant) (ext : Extender) (σ : Heap),
      v.program.malloc ext σ (2^32 - 16) = v.program.malloc ext σ 1 := by
    intro v ext σ
    cases v
    · simp only [Variant.program, Explicit.program, Explicit.mmMalloc, hadj, if_neg (show 2^32 - 16 ≠ 0 by decide), if_neg Nat.one_ne_zero]
    · simp only [Variant.program, Seg.program, Seg.mmMalloc, hadj, if_neg (show 2^32 - 16 ≠ 0 by decide), if_neg Nat.one_ne_zero]
  refine ⟨hsame, fun v => ?_⟩
  obtain ⟨s, p, σ', hs, hb, h⟩ := v.exists_malloc Nat.one_ne_zero (by decide)
  exact ⟨s, _, p, σ', hs, hb, (hsame v _ _).trans h,
    (Heap.blockSize_lt _ _).trans (by decide)⟩

end MallocLab.MM
