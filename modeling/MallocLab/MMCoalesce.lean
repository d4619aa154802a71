import MallocLab.MMArena

/-! Boundary-tag coalescing, shared by both programs: `coalesce` as the code computes it, what
it does to the arena, and the proof that the first carries out the second. -/
namespace MallocLab.MM

/-- Whether the block before a free block is free; the prologue counts as allocated. -/
def prevFree (pre : List Block) : Bool :=
  match pre.getLast? with
  | some p => !p.allocated
  | none => false

/-- Whether the block after a free block is free; the epilogue counts as allocated. -/
def nextFree : List Block → Bool
  | n :: _ => !n.allocated
  | [] => false

theorem prevFree_eq_false {pre : List Block} :
    prevFree pre = false ↔ ∀ p ∈ pre.getLast?, p.allocated = true := by
  unfold prevFree
  split <;> simp_all

theorem prevFree_eq (pre : List Block) : prevFree pre = !(pre.getLast?.getD ⟨8, true⟩).allocated := by
  unfold prevFree
  split <;> simp_all

theorem nextFree_eq (post : List Block) : nextFree post = !(post.head?.getD ⟨0, true⟩).allocated := by
  cases post <;> simp [nextFree]

theorem nextFree_eq_false {post : List Block} :
    nextFree post = false ↔ ∀ n ∈ post.head?, n.allocated = true := by
  cases post <;> simp [nextFree]

namespace Arena

/-- The run `mid` of free blocks after `pre` merged into one free block: its blocks leave every
list and the merged block is pushed on the list of its size class. -/
def merge (L : FreeLists) (start : Nat) (A : Arena) (pre mid post : List Block) : Arena :=
  (⟨pre ++ [⟨total mid, false⟩] ++ post,
    (A.remove ((placed (start + total pre) mid).map Prod.fst)).lists⟩ : Arena).cons
    (L.cls (total mid)) (start + total pre)

/-- What `coalesce` does to the arena for the free block `b` between `pre` and `post`, in the
four cases of the code: `b` absorbs a free block before it and a free block after it. The first
component is the address of the resulting block. -/
def coalesce (L : FreeLists) (start : Nat) (A : Arena) (pre : List Block) (b : Block)
    (post : List Block) : Nat × Arena :=
  match prevFree pre, nextFree post with
  | false, false => (start + total pre, A)
  | false, true => (start + total pre, A.merge L start pre (b :: post.take 1) (post.drop 1))
  | true, false => (start + total pre.dropLast,
      A.merge L start pre.dropLast (pre.getLast?.toList ++ [b]) post)
  | true, true => (start + total pre.dropLast,
      A.merge L start pre.dropLast (pre.getLast?.toList ++ b :: post.take 1) (post.drop 1))

@[simp] theorem merge_blocks (L : FreeLists) (start : Nat) (A : Arena) (pre mid post : List Block) :
    (A.merge L start pre mid post).blocks = pre ++ [⟨total mid, false⟩] ++ post := rfl

/-- After a merge the merged block is on the list of its class, and every other list member is
an old one that was not merged. -/
theorem mem_merge_lists {L : FreeLists} {start : Nat} {A : Arena} {pre mid post : List Block}
    {k y : Nat} : y ∈ (A.merge L start pre mid post).lists k ↔
      (k = L.cls (total mid) ∧ y = start + total pre) ∨
      (y ∈ A.lists k ∧ ∀ c, (y, c) ∉ placed (start + total pre) mid) := by
  simp only [merge, cons, Function.update_apply]
  split_ifs with hk
  · subst hk; simp [mem_remove, eq_comm]
  · simp [mem_remove, hk]

theorem Listed.merge {L : FreeLists} {start : Nat} {A : Arena} {pre mid post : List Block}
    (hW : A.WF L start) (hL : A.Listed L start) (hA : A.blocks = pre ++ mid ++ post)
    (hmid : mid ≠ []) : (A.merge L start pre mid post).Listed L start := by
  have hs := hW.sized
  rw [hA, Sized.append, Sized.append] at hs
  obtain ⟨c, cs, hc⟩ := List.exists_cons_of_ne_nil hmid
  have := (hs.1.2 c (hc ▸ List.mem_cons_self _ _)).1
  refine hL.replace_run hW hA (fun d hd => ?_) (by simp) (merge_blocks ..) fun k y => ?_
  · simp only [List.mem_singleton] at hd
    subst hd
    exact ⟨by simp only [hc, total_cons]; omega, hs.1.2.total_mod⟩
  · rw [mem_merge_lists]
    simp only [placed_cons, placed_nil, List.mem_singleton, Prod.mk.injEq]
    constructor
    · rintro (⟨rfl, rfl⟩ | h)
      exacts [.inl ⟨_, ⟨rfl, rfl⟩, rfl, rfl⟩, .inr h]
    · rintro (⟨_, ⟨rfl, rfl⟩, -, rfl⟩ | h)
      exacts [.inl ⟨rfl, rfl⟩, .inr h]

theorem Inv.merge {L : FreeLists} {start : Nat} {A : Arena} {pre mid post : List Block}
    (hW : A.WF L start) (hL : A.Listed L start) (hA : A.blocks = pre ++ mid ++ post)
    (hmid : mid ≠ []) (hW' : (A.merge L start pre mid post).WF L start) (hpre : Coalesced pre)
    (hpost : Coalesced post) (hp : prevFree pre = false) (hn : nextFree post = false) :
    (A.merge L start pre mid post).Inv L start :=
  ⟨hW', hL.merge hW hA hmid,
    coalesced_around _ hpre hpost (prevFree_eq_false.mp hp) (nextFree_eq_false.mp hn)⟩

end Arena

theorem Coalesced.prevFree_dropLast {pre : List Block} (h : Coalesced pre)
    (hp : prevFree pre = true) : prevFree pre.dropLast = false := by
  rcases List.eq_nil_or_concat pre with rfl | ⟨l, p, rfl⟩
  · simp [prevFree] at hp
  · rw [List.concat_eq_append] at h hp ⊢
    simp only [prevFree, List.getLast?_concat, Bool.not_eq_true', List.dropLast_concat] at hp ⊢
    refine prevFree_eq_false.mpr fun q hq => ?_
    have := List.chain'_append.mp h
    exact (this.2.2 q hq p rfl).resolve_right (by simp [hp])

theorem Coalesced.nextFree_drop {post : List Block} (h : Coalesced post)
    (hn : nextFree post = true) : nextFree (post.drop 1) = false := by
  rcases post with _ | ⟨n, post⟩
  · simp [nextFree] at hn
  · simp only [nextFree, Bool.not_eq_true'] at hn
    refine nextFree_eq_false.mpr fun m hm => ?_
    exact (List.Chain'.rel_head? h hm).resolve_left (by simp [hn])

/-- Around a free block of a walk without neighbouring free blocks, both sides are such walks
and both neighbours are allocated. -/
theorem Coalesced.around_free {pre post : List Block} {m : Block}
    (h : Coalesced (pre ++ m :: post)) (hm : m.allocated = false) :
    Coalesced pre ∧ Coalesced post ∧ prevFree pre = false ∧ nextFree post = false := by
  have h₁ := List.chain'_append.mp h
  have h₂ := List.chain'_cons'.mp h₁.2.1
  refine ⟨h₁.1, h₂.2, prevFree_eq_false.mpr fun p hp => ?_,
    nextFree_eq_false.mpr fun n hn => (h₂.1 n hn).resolve_left (by simp [hm])⟩
  exact (h₁.2.2 p hp m rfl).resolve_right (by simp [hm])

/-- What `Arena.coalesce` does around the free block `b`: nothing when both neighbours are
allocated, otherwise it merges the run `mid` of free blocks around `b`. -/
theorem Arena.coalesce_eq (L : FreeLists) (start : Nat) (A : Arena) {pre post : List Block}
    {b : Block} (hA : A.blocks = pre ++ b :: post) (hb : b.allocated = false) :
    ∃ pre' mid post', A.blocks = pre' ++ mid ++ post' ∧ (∀ c ∈ mid, c.allocated = false) ∧
      total pre' ≤ total pre ∧ total pre + b.size ≤ total pre' + total mid ∧
      (pre' = pre ∧ mid = [b] ∧ post' = post ∧
        Arena.coalesce L start A pre b post = (start + total pre, A) ∨
        Arena.coalesce L start A pre b post = (start + total pre', A.merge L start pre' mid post')) := by
  cases hpf : prevFree pre <;> cases hnf : nextFree post
  · exact ⟨pre, [b], post, by simp [hA], by simp [hb], le_rfl, by simp,
      .inl ⟨rfl, rfl, rfl, by simp [Arena.coalesce, hpf, hnf]⟩⟩
  · obtain ⟨n, post, rfl⟩ : ∃ n post', post = n :: post' := by
      cases post
      · simp [nextFree] at hnf
      · exact ⟨_, _, rfl⟩
    have hn : n.allocated = false := by simpa [nextFree] using hnf
    exact ⟨pre, [b, n], post, by simp [hA], by simp [hb, hn], le_rfl, by simp,
      .inr (by simp [Arena.coalesce, hpf, hnf])⟩
  all_goals
    obtain ⟨l, p, rfl⟩ : ∃ l p, pre = l ++ [p] := by
      rcases List.eq_nil_or_concat pre with rfl | ⟨l, p, rfl⟩
      · simp [prevFree] at hpf
      · exact ⟨l, p, List.concat_eq_append _ _⟩
    have hp : p.allocated = false := by simpa [prevFree] using hpf
  · exact ⟨l, [p, b], post, by simp [hA], by simp [hb, hp], by simp, by simp [Nat.add_assoc],
      .inr (by simp [Arena.coalesce, hpf, hnf])⟩
  · obtain ⟨n, post, rfl⟩ : ∃ n post', post = n :: post' := by
      cases post
      · simp [nextFree] at hnf
      · exact ⟨_, _, rfl⟩
    have hn : n.allocated = false := by simpa [nextFree] using hnf
    exact ⟨l, [p, b, n], post, by simp [hA], by simp [hb, hp, hn], by simp, by simp; omega,
      .inr (by simp [Arena.coalesce, hpf, hnf])⟩

/-- `Arena.coalesce` replaces a run of free blocks around `b` by one free block at the address
it returns. -/
theorem Arena.coalesce_run (L : FreeLists) (start : Nat) (A : Arena) {pre post : List Block}
    {b : Block} (hA : A.blocks = pre ++ b :: post) (hb : b.allocated = false) :
    ∃ pre' mid post', A.blocks = pre' ++ mid ++ post' ∧ (∀ c ∈ mid, c.allocated = false) ∧
      b.size ≤ total mid ∧ (Arena.coalesce L start A pre b post).1 = start + total pre' ∧
      (Arena.coalesce L start A pre b post).2.blocks = pre' ++ [⟨total mid, false⟩] ++ post' := by
  obtain ⟨pre', mid, post', hsplit, hfree, h₁, h₂, ⟨rfl, rfl, rfl, heq⟩ | heq⟩ :=
    Arena.coalesce_eq L start A hA hb
  · have hbf : b = ⟨b.size, false⟩ := by cases b; simp_all
    refine ⟨pre', [b], post', hsplit, hfree, by simp, by rw [heq], ?_⟩
    rw [heq, hA, hbf]
    simp
  · exact ⟨pre', mid, post', hsplit, hfree, by omega, by rw [heq], by rw [heq]; rfl⟩

/-- The block `Arena.coalesce` returns is free, covers `b`, and heads the list of its class when
`b` headed the list of its own. -/
theorem Arena.coalesce_front {L : FreeLists} {start : Nat} {A : Arena} {pre post : List Block}
    {b : Block} (hA : A.blocks = pre ++ b :: post) (hb : b.allocated = false) {r : List Nat}
    (hhead : A.lists (L.cls b.size) = (start + total pre) :: r) :
    ∃ m r', ((Arena.coalesce L start A pre b post).1, (⟨m, false⟩ : Block)) ∈
        placed start (Arena.coalesce L start A pre b post).2.blocks ∧
      (Arena.coalesce L start A pre b post).2.lists (L.cls m) =
        (Arena.coalesce L start A pre b post).1 :: r' ∧
      (Arena.coalesce L start A pre b post).1 ≤ start + total pre ∧
      start + total pre + b.size ≤ (Arena.coalesce L start A pre b post).1 + m := by
  obtain ⟨pre', mid, post', -, -, h₁, h₂, ⟨rfl, rfl, rfl, heq⟩ | heq⟩ :=
    Arena.coalesce_eq L start A hA hb
  · have hbf : b = ⟨b.size, false⟩ := by cases b; simp_all
    rw [heq]
    exact ⟨b.size, r, by rw [hA, ← hbf]; exact mem_placed_of_eq, hhead, le_rfl, le_rfl⟩
  · rw [heq]
    refine ⟨total mid, _, ?_, Function.update_same _ _ _, by simp only; omega, by simp only; omega⟩
    rw [merge_blocks, List.append_assoc, List.singleton_append]
    exact mem_placed_of_eq

/-- `coalesce`: boundary-tag coalescing of the free, listed block `block` with the block before
it (found through the footer just before its header) and the block after it, where free.
Returns the coalesced block. -/
def coalesce (L : FreeLists) (σ : Heap) (block : Nat) : Nat × Heap :=
  let prevFooter := block - 8
  let nextHeader := block + σ.blockSize block
  let prevAlloc := σ.allocated prevFooter
  let nextAlloc := σ.allocated nextHeader
  let nextBlock := nextHeader
  let prevBlock := prevFooter - σ.blockSize prevFooter + 8
  if prevAlloc && nextAlloc then (block, σ)
  else if prevAlloc && !nextAlloc then
    let σ₁ := L.pop (L.pop σ block) nextBlock
    let σ₂ := σ₁.setBlockSize block (σ₁.blockSize block + σ₁.blockSize nextHeader)
    let σ₃ := σ₂.setBlockSize (getFooter σ₂ block) (σ₂.blockSize block)
    (block, L.push σ₃ block)
  else if !prevAlloc && nextAlloc then
    let σ₁ := L.pop (L.pop σ block) prevBlock
    let σ₂ := σ₁.setBlockSize prevBlock (σ₁.blockSize prevBlock + σ₁.blockSize block)
    let σ₃ := σ₂.setBlockSize (getFooter σ₂ prevBlock) (σ₂.blockSize prevBlock)
    (prevBlock, L.push σ₃ prevBlock)
  else
    let σ₁ := L.pop (L.pop (L.pop σ prevBlock) block) nextBlock
    let prevBlock := prevFooter - σ₁.blockSize prevFooter + 8
    let σ₂ := σ₁.setBlockSize prevBlock
      (σ₁.blockSize prevBlock + (σ₁.blockSize block + σ₁.blockSize nextHeader))
    let σ₃ := σ₂.setBlockSize (getFooter σ₂ prevBlock) (σ₂.blockSize prevBlock)
    (prevBlock, L.push σ₃ prevBlock)

section Fields

variable (L : FreeLists) (σ : Heap) (b : Nat)

@[simp] theorem coalesce_prologue : (coalesce L σ b).2.prologue = σ.prologue := by
  simp only [coalesce]; split_ifs <;> simp
@[simp] theorem coalesce_lo : (coalesce L σ b).2.lo = σ.lo := by
  simp only [coalesce]; split_ifs <;> simp
@[simp] theorem coalesce_brk : (coalesce L σ b).2.brk = σ.brk := by
  simp only [coalesce]; split_ifs <;> simp

end Fields

namespace Repr

variable {L : FreeLists} {σ : Heap} {A : Arena}

/-- The word before a block's header is the footer of the block before it, or the prologue. -/
theorem prev_tag (hR : Repr L σ A) {pre post : List Block} {b : Block}
    (hA : A.blocks = pre ++ b :: post) :
    σ.tag (σ.prologue + 8 + total pre - 8) = pre.getLast?.getD ⟨8, true⟩ := by
  rcases List.eq_nil_or_concat pre with rfl | ⟨l, p, rfl⟩
  · simpa using hR.prologue
  · rw [List.concat_eq_append] at hA ⊢
    have hp : (σ.prologue + 8 + total l, p) ∈ placed (σ.prologue + 8) A.blocks := by
      rw [hA, List.append_assoc, List.singleton_append]; exact mem_placed_of_eq
    simpa [Nat.add_assoc] using (hR.tags _ _ hp).2

theorem allocated_prev (hR : Repr L σ A) {pre post : List Block} {b : Block}
    (hA : A.blocks = pre ++ b :: post) :
    σ.allocated (σ.prologue + 8 + total pre - 8) = !prevFree pre := by
  rw [prevFree_eq, Bool.not_not, ← hR.prev_tag hA]; rfl

/-- The word after a block is the header of the next block, or the epilogue. -/
theorem next_tag (hR : Repr L σ A) {pre post : List Block} {b : Block}
    (hA : A.blocks = pre ++ b :: post) :
    σ.tag (σ.prologue + 8 + total pre + b.size) = post.head?.getD ⟨0, true⟩ := by
  cases post with
  | nil => simpa [hA, Nat.add_assoc] using hR.epilogue
  | cons n post =>
    have hn : (σ.prologue + 8 + total (pre ++ [b]), n) ∈ placed (σ.prologue + 8) A.blocks := by
      rw [hA, ← List.singleton_append, ← List.append_assoc]; exact mem_placed_of_eq
    simpa [Nat.add_assoc] using (hR.tags _ _ hn).1

@[simp] theorem foldl_pop_prologue (L : FreeLists) (xs : List Nat) (σ : Heap) :
    (xs.foldl L.pop σ).prologue = σ.prologue := by
  induction xs generalizing σ <;> simp [*]

/-- Popping several blocks in turn, each from the list of its size class, takes them off the
lists and changes nothing else. -/
theorem popAll : ∀ {σ : Heap} {A : Arena} (ps : List (Nat × Block)), Repr L σ A →
    A.WF L (σ.prologue + 8) → (ps.map Prod.fst).Nodup →
    (∀ p ∈ ps, p ∈ placed (σ.prologue + 8) A.blocks ∧ p.1 ∈ A.lists (L.cls p.2.size)) →
    Repr L ((ps.map Prod.fst).foldl L.pop σ) (A.remove (ps.map Prod.fst)) ∧
      (A.remove (ps.map Prod.fst)).WF L (σ.prologue + 8) ∧
      σ.WritesIn (FreeCell (σ.prologue + 8) A.blocks) ((ps.map Prod.fst).foldl L.pop σ)
  | σ, A, [], hR, hW, _, _ => by simpa using ⟨hR, hW, fun _ _ => rfl⟩
  | σ, A, (x, b) :: ps, hR, hW, hnd, hps => by
    have hx := hps (x, b) (List.mem_cons_self _ _)
    obtain ⟨hR₁, hW₁, hF₁⟩ := hR.pop hW hx.2 hx.1 rfl
    rw [hW.erase_eq_remove hx.2] at hR₁ hW₁
    simp only [List.map_cons, List.nodup_cons, List.mem_map, not_exists, not_and] at hnd
    have ih := popAll (σ := L.pop σ x) ps hR₁ (by simpa using hW₁) hnd.2 fun p hp => by
      have hp' := hps p (List.mem_cons_of_mem _ hp)
      simpa [Arena.mem_remove, hp'.1, hp'.2] using fun e => hnd.1 p hp e
    simp only [FreeLists.pop_prologue, Arena.remove_blocks, Arena.remove_remove] at ih
    exact ⟨ih.1, ih.2.1, hF₁.trans ih.2.2⟩

theorem allocated_next (hR : Repr L σ A) {pre post : List Block} {b : Block}
    (hA : A.blocks = pre ++ b :: post) :
    σ.allocated (σ.prologue + 8 + total pre + b.size) = !nextFree post := by
  rw [nextFree_eq, Bool.not_not, ← hR.next_tag hA]; rfl

/-- Rewriting the first header and the last footer of a run of free blocks that are on no list,
and pushing its first block, merges the run into one listed free block. -/
theorem mergePush (hR : Repr L σ A) (hW : A.WF L (σ.prologue + 8)) {pre mid post : List Block}
    (hA : A.blocks = pre ++ mid ++ post) (hmid : mid ≠ []) (hfree : ∀ c ∈ mid, c.allocated = false)
    (hgone : ∀ k y, y ∈ A.lists k → ∀ c, (y, c) ∉ placed (σ.prologue + 8 + total pre) mid)
    (hs : total mid < 2^31) :
    Repr L (L.push ((σ.setBlockSize (σ.prologue + 8 + total pre) (total mid)).setBlockSize
        (σ.prologue + 8 + total pre + total mid - 8) (total mid)) (σ.prologue + 8 + total pre))
      ((⟨pre ++ [⟨total mid, false⟩] ++ post, A.lists⟩ : Arena).cons (L.cls (total mid))
        (σ.prologue + 8 + total pre)) ∧
    ((⟨pre ++ [⟨total mid, false⟩] ++ post, A.lists⟩ : Arena).cons (L.cls (total mid))
        (σ.prologue + 8 + total pre)).WF L (σ.prologue + 8) ∧
    σ.WritesIn (FreeCell (σ.prologue + 8) A.blocks)
      (L.push ((σ.setBlockSize (σ.prologue + 8 + total pre) (total mid)).setBlockSize
        (σ.prologue + 8 + total pre + total mid - 8) (total mid)) (σ.prologue + 8 + total pre)) := by
  set q := σ.prologue + 8 + total pre
  set s := total mid
  have hsz := hW.sized
  rw [hA, Sized.append, Sized.append] at hsz
  obtain ⟨c, cs, hc⟩ := List.exists_cons_of_ne_nil hmid
  obtain ⟨init, z, hz⟩ := (List.eq_nil_or_concat mid).resolve_left hmid
  rw [List.concat_eq_append] at hz
  have hcmem : c ∈ mid := hc ▸ List.mem_cons_self _ _
  have hzmem : z ∈ mid := hz ▸ List.mem_concat_self _ _
  have hc32 := (hsz.1.2 c hcmem).1
  have h32 : 32 ≤ s := by simp only [s, hc, total_cons]; omega
  have h8 : s % 8 = 0 := hsz.1.2.total_mod
  have hqz : s = total init + z.size := by simp [s, hz]
  have hz32 := (hsz.1.2 z hzmem).1
  have hfirst : (q, c) ∈ placed q mid := by rw [hc]; simp
  have hlast : (q + total init, z) ∈ placed q mid := by rw [hz]; simp [placed_append]
  have hold : ∀ {y d}, (y, d) ∈ placed q mid → (y, d) ∈ placed (σ.prologue + 8) A.blocks :=
    fun h => hA ▸ mem_placed_mid.mpr (.inr (.inl h))
  have hqa : σ.allocated q = false := (hR.allocated_eq (hold hfirst)).trans (hfree c hcmem)
  have hza : σ.allocated (q + s - 8) = false := by
    have := congrArg Block.allocated (hR.tags _ _ (hold hlast)).2
    rw [show q + total init + z.size - 8 = q + s - 8 by omega] at this
    exact this.trans (hfree z hzmem)
  set σ₂ := (σ.setBlockSize q s).setBlockSize (q + s - 8) s
  have hw₂ : ∀ a, σ₂.mem a ≠ σ.mem a → a = q ∨ a = q + s - 8 := fun a ha => by
    by_contra h
    push_neg at h
    exact ha (by rw [Heap.setBlockSize_mem_of_ne _ _ h.2, Heap.setBlockSize_mem_of_ne _ _ h.1])
  have htags : Tags σ₂ q [⟨s, false⟩] := by
    refine tags_cons.mpr ⟨⟨?_, ?_⟩, tags_nil _ _⟩
    · rw [show σ₂ = (σ.setBlockSize q s).store (q + s - 8) _ from rfl,
        Heap.tag_store_of_ne _ _ (by omega), Heap.tag_setBlockSize_self, Nat.mod_eq_of_lt hs, hqa]
    · have hne : q + s - 8 ≠ q := by omega
      simp only [σ₂, Heap.tag_setBlockSize_self, Nat.mod_eq_of_lt hs]
      simp [Heap.setBlockSize, Heap.allocated, Heap.store_mem_of_ne _ _ hne, ← hza]
  have hout : ∀ k y, y ∈ A.lists k → y < q ∨ q + s ≤ y := by
    intro k y hy
    obtain ⟨d, hd, -⟩ := (hW.nodes k y hy).2
    by_contra h
    rw [hA] at hd
    exact hgone k y hy d (mem_placed_inside hd (hW.sized.pos d (hA ▸ mem_placed_block hd))
      (by omega) (by omega))
  have hR₂ := hR.retag_run hW hA (by simp [σ₂]) (by simp [σ₂]) (by simp [σ₂]) (by simp [σ₂]) (by simp [σ₂])
    (fun a ha => by rcases hw₂ a ha with rfl | rfl <;> omega) hout htags (by simp [s])
  have hW₂ := hW.retag_run hA hout
    (show Sized [⟨s, false⟩] from fun d hd => by
      simp only [List.mem_singleton] at hd; subst hd; exact ⟨h32, h8⟩) (by simp [s])
  have hq : (q, (⟨s, false⟩ : Block)) ∈ placed (σ₂.prologue + 8) (pre ++ [⟨s, false⟩] ++ post) := by
    simpa [σ₂] using @mem_placed_of_eq (σ.prologue + 8) pre post ⟨s, false⟩
  obtain ⟨hR₃, hW₃, hF₃⟩ := hR₂.push (by simpa [σ₂] using hW₂) hq rfl
    (fun k hk => hgone k q hk c hfirst)
  simp only [σ₂, Heap.setBlockSize_prologue] at hR₃ hW₃ hF₃
  refine ⟨hR₃, hW₃, fun a ha => ?_⟩
  have hne : σ₂.mem a = σ.mem a := by
    by_contra hne
    rcases hw₂ a hne with rfl | rfl
    · exact ha (.inr (.inr ⟨q, c, hold hfirst, hfree c hcmem, le_rfl, by omega⟩))
    · exact ha (.inr (.inr ⟨_, z, hold hlast, hfree z hzmem, by omega, by omega⟩))
  exact (hF₃ a fun h => ha (hA ▸ h.of_free_run (by simp) hfree)).trans hne

/-- The merging cases of `coalesce`: pop the run's blocks in some order, rewrite its first
header and its last footer, push the merged block. The pops keep every tag. -/
theorem popMergePush (hR : Repr L σ A) (hW : A.WF L (σ.prologue + 8))
    {pre mid post : List Block} (hA : A.blocks = pre ++ mid ++ post) (hmid : mid ≠ [])
    (hfree : ∀ c ∈ mid, c.allocated = false)
    (hlisted : ∀ p ∈ placed (σ.prologue + 8 + total pre) mid, p.1 ∈ A.lists (L.cls p.2.size))
    (hs : total mid < 2^31) {ps : List (Nat × Block)}
    (hps : ps.Perm (placed (σ.prologue + 8 + total pre) mid)) :
    Tags ((ps.map Prod.fst).foldl L.pop σ) (σ.prologue + 8) A.blocks ∧
    Repr L (L.push ((((ps.map Prod.fst).foldl L.pop σ).setBlockSize (σ.prologue + 8 + total pre)
        (total mid)).setBlockSize (σ.prologue + 8 + total pre + total mid - 8) (total mid))
        (σ.prologue + 8 + total pre)) (A.merge L (σ.prologue + 8) pre mid post) ∧
    (A.merge L (σ.prologue + 8) pre mid post).WF L (σ.prologue + 8) ∧
    σ.WritesIn (FreeCell (σ.prologue + 8) A.blocks)
      (L.push ((((ps.map Prod.fst).foldl L.pop σ).setBlockSize (σ.prologue + 8 + total pre)
        (total mid)).setBlockSize (σ.prologue + 8 + total pre + total mid - 8) (total mid))
        (σ.prologue + 8 + total pre)) := by
  have hsz := hW.sized
  rw [hA, Sized.append, Sized.append] at hsz
  have hold : ∀ {y d}, (y, d) ∈ placed (σ.prologue + 8 + total pre) mid →
      (y, d) ∈ placed (σ.prologue + 8) A.blocks :=
    fun h => hA ▸ mem_placed_mid.mpr (.inr (.inl h))
  have hnd : (ps.map Prod.fst).Nodup :=
    (hps.map Prod.fst).nodup_iff.mpr (nodup_placed_addr hsz.1.2.pos)
  obtain ⟨hR₁, hW₁, hF₁⟩ := hR.popAll ps hW hnd fun p hp => by
    have hp' := hps.subset hp
    exact ⟨hold hp', hlisted p hp'⟩
  rw [A.remove_perm (hps.map Prod.fst)] at hR₁ hW₁
  have hpro := foldl_pop_prologue L (ps.map Prod.fst) σ
  have hgone : ∀ k y, y ∈ (A.remove ((placed (σ.prologue + 8 + total pre) mid).map
      Prod.fst)).lists k → ∀ c, (y, c) ∉ placed (σ.prologue + 8 + total pre) mid := by
    intro k y hy c hc
    exact (Arena.mem_remove.mp hy).2 (List.mem_map.mpr ⟨(y, c), hc, rfl⟩)
  obtain ⟨hR₂, hW₂, hF₂⟩ := hR₁.mergePush (by rwa [hpro]) (by exact hA) hmid hfree
    (by rwa [hpro]) hs
  rw [hpro] at hR₂ hW₂ hF₂
  exact ⟨by simpa [hpro] using hR₁.tags, hR₂, hW₂, hF₁.trans hF₂⟩

/-- `coalesce` on a free, listed block carries out `Arena.coalesce`, restores the invariant and
writes only outside allocated blocks. -/
theorem coalesce_spec (hR : Repr L σ A) (hW : A.WF L (σ.prologue + 8))
    (hL : A.Listed L (σ.prologue + 8)) {pre post : List Block} {b : Block}
    (hA : A.blocks = pre ++ b :: post) (hb : b.allocated = false) (hpre : Coalesced pre)
    (hpost : Coalesced post) (hsz : total A.blocks < 2^31) :
    (coalesce L σ (σ.prologue + 8 + total pre)).1 =
        (Arena.coalesce L (σ.prologue + 8) A pre b post).1 ∧
      Repr L (coalesce L σ (σ.prologue + 8 + total pre)).2
        (Arena.coalesce L (σ.prologue + 8) A pre b post).2 ∧
      (Arena.coalesce L (σ.prologue + 8) A pre b post).2.Inv L (σ.prologue + 8) ∧
      σ.WritesIn (FreeCell (σ.prologue + 8) A.blocks)
        (coalesce L σ (σ.prologue + 8 + total pre)).2 := by
  have hx : (σ.prologue + 8 + total pre, b) ∈ placed (σ.prologue + 8) A.blocks :=
    hA ▸ mem_placed_of_eq
  have hbs := hR.blockSize_eq hx
  have hpa := hR.allocated_prev hA
  have hna := hR.allocated_next hA
  have hbl := hL.free_mem _ _ hx hb
  have htot := congrArg total hA
  simp only [total_append, total_cons] at htot
  cases hpf : prevFree pre <;> cases hnf : nextFree post
  · -- neither neighbour is free: nothing changes
    have heq : coalesce L σ (σ.prologue + 8 + total pre) = (σ.prologue + 8 + total pre, σ) := by
      simp [coalesce, hbs, hpa, hna, hpf, hnf]
    have hc : Arena.coalesce L (σ.prologue + 8) A pre b post = (σ.prologue + 8 + total pre, A) := by
      simp [Arena.coalesce, hpf, hnf]
    rw [heq, hc]
    refine ⟨rfl, hR, ⟨hW, hL, ?_⟩, fun _ _ => rfl⟩
    rw [hA, ← List.singleton_append, ← List.append_assoc]
    exact coalesced_around b hpre hpost (prevFree_eq_false.mp hpf) (nextFree_eq_false.mp hnf)
  · -- the next block is free
    obtain ⟨n, post, rfl⟩ : ∃ n post', post = n :: post' := by
      cases post
      · simp [nextFree] at hnf
      · exact ⟨_, _, rfl⟩
    have hn : n.allocated = false := by simpa [nextFree] using hnf
    simp only [total_cons] at htot
    have hA' : A.blocks = pre ++ [b, n] ++ post := by simp [hA]
    have hn' : (σ.prologue + 8 + total pre + b.size, n) ∈ placed (σ.prologue + 8) A.blocks := by
      simpa [hA, Nat.add_assoc] using @mem_placed_of_eq (σ.prologue + 8) (pre ++ [b]) post n
    obtain ⟨hT, hR', hW', hF'⟩ := hR.popMergePush hW hA' (by simp) (by simp [hb, hn])
      (by simpa using ⟨hbl, hL.free_mem _ _ hn' hn⟩) (by simp; omega) (List.Perm.refl _)
    simp only [placed_cons, placed_nil, List.map_cons, List.map_nil, List.foldl_cons,
      List.foldl_nil, total_cons, total_nil, Nat.add_zero] at hT hR' hF'
    have e₁ := congrArg Block.size (hT _ _ hx).1
    have e₂ := congrArg Block.size (hT _ _ hn').1
    simp only [Heap.tag] at e₁ e₂
    have heq : coalesce L σ (σ.prologue + 8 + total pre) = (σ.prologue + 8 + total pre,
        L.push (((L.pop (L.pop σ (σ.prologue + 8 + total pre)) (σ.prologue + 8 + total pre + b.size)).setBlockSize
          (σ.prologue + 8 + total pre) (b.size + n.size)).setBlockSize
          (σ.prologue + 8 + total pre + (b.size + n.size) - 8) (b.size + n.size))
          (σ.prologue + 8 + total pre)) := by
      simp (disch := omega) [coalesce, hbs, hpa, hna, hpf, hnf, e₁, e₂, Nat.mod_eq_of_lt]
    have hc : Arena.coalesce L (σ.prologue + 8) A pre b (n :: post) =
        (σ.prologue + 8 + total pre, A.merge L (σ.prologue + 8) pre [b, n] post) := by
      simp [Arena.coalesce, hpf, hnf]
    rw [heq, hc]
    exact ⟨rfl, hR', Arena.Inv.merge hW hL hA' (by simp) hW' hpre hpost.tail hpf
      (hpost.nextFree_drop hnf), hF'⟩
  all_goals
    obtain ⟨l, p, rfl⟩ : ∃ l p, pre = l ++ [p] := by
      rcases List.eq_nil_or_concat pre with rfl | ⟨l, p, rfl⟩
      · simp [prevFree] at hpf
      · exact ⟨l, p, List.concat_eq_append _ _⟩
    have hp : p.allocated = false := by simpa [prevFree] using hpf
    have hpt := hR.prev_tag hA
    simp only [List.getLast?_concat, Option.getD_some] at hpt
    simp only [total_append, total_cons, total_nil, Nat.add_zero] at htot
    have hp' : (σ.prologue + 8 + total l, p) ∈ placed (σ.prologue + 8) A.blocks := by
      simpa [hA] using @mem_placed_of_eq (σ.prologue + 8) l (b :: post) p
    have hxe : σ.prologue + 8 + total (l ++ [p]) = σ.prologue + 8 + total l + p.size := by
      simp only [total_append, total_cons, total_nil]; omega
    have hpb : σ.prologue + 8 + total l + p.size - 8 - p.size + 8 = σ.prologue + 8 + total l := by
      omega
    simp only [hxe] at hx hbs hpa hna hbl hpt ⊢
    have hpre' : Coalesced l := List.Chain'.left_of_append hpre
    have hpf' : prevFree l = false := by simpa using hpre.prevFree_dropLast hpf
  · -- the previous block is free
    have hA' : A.blocks = l ++ [p, b] ++ post := by simp [hA]
    obtain ⟨hT, hR', hW', hF'⟩ := hR.popMergePush hW hA' (by simp) (by simp [hb, hp])
      (by simpa using ⟨hL.free_mem _ _ hp' hp, hbl⟩) (by simp; omega)
      (show List.Perm [(σ.prologue + 8 + total l + p.size, b), (σ.prologue + 8 + total l, p)] _ by
        simpa using List.Perm.swap _ _ _)
    simp only [placed_cons, placed_nil, List.map_cons, List.map_nil, List.foldl_cons,
      List.foldl_nil, total_cons, total_nil, Nat.add_zero] at hT hR' hF'
    have e₁ := congrArg Block.size (hT _ _ hx).1
    have e₂ := congrArg Block.size (hT _ _ hp').1
    simp only [Heap.tag] at e₁ e₂
    have heq : coalesce L σ (σ.prologue + 8 + total l + p.size) = (σ.prologue + 8 + total l,
        L.push (((L.pop (L.pop σ (σ.prologue + 8 + total l + p.size)) (σ.prologue + 8 + total l)).setBlockSize
          (σ.prologue + 8 + total l) (p.size + b.size)).setBlockSize
          (σ.prologue + 8 + total l + (p.size + b.size) - 8) (p.size + b.size))
          (σ.prologue + 8 + total l)) := by
      have hps := congrArg Block.size hpt
      simp only [Heap.tag] at hps
      simp (disch := omega) [coalesce, hbs, hpa, hna, hpf, hnf, hps, hpb, e₁, e₂, Nat.mod_eq_of_lt]
    have hc : Arena.coalesce L (σ.prologue + 8) A (l ++ [p]) b post =
        (σ.prologue + 8 + total l, A.merge L (σ.prologue + 8) l [p, b] post) := by
      simp [Arena.coalesce, hpf, hnf]
    rw [heq, hc]
    exact ⟨rfl, hR', Arena.Inv.merge hW hL hA' (by simp) hW' hpre' hpost hpf' hnf, hF'⟩
  · -- both neighbours are free
    obtain ⟨n, post, rfl⟩ : ∃ n post', post = n :: post' := by
      cases post
      · simp [nextFree] at hnf
      · exact ⟨_, _, rfl⟩
    have hn : n.allocated = false := by simpa [nextFree] using hnf
    simp only [total_cons] at htot
    have hA' : A.blocks = l ++ [p, b, n] ++ post := by simp [hA]
    have hn' : (σ.prologue + 8 + total l + p.size + b.size, n) ∈
        placed (σ.prologue + 8) A.blocks := by
      simpa [hA, Nat.add_assoc] using @mem_placed_of_eq (σ.prologue + 8) (l ++ [p, b]) post n
    obtain ⟨hT, hR', hW', hF'⟩ := hR.popMergePush hW hA' (by simp) (by simp [hb, hp, hn])
      (by simpa using ⟨hL.free_mem _ _ hp' hp, hbl, hL.free_mem _ _ hn' hn⟩) (by simp; omega)
      (List.Perm.refl _)
    simp only [placed_cons, placed_nil, List.map_cons, List.map_nil, List.foldl_cons,
      List.foldl_nil, total_cons, total_nil, Nat.add_zero] at hT hR' hF'
    have e₁ := congrArg Block.size (hT _ _ hx).1
    have e₂ := congrArg Block.size (hT _ _ hp').1
    have e₃ := congrArg Block.size (hT _ _ hp').2
    have e₄ := congrArg Block.size (hT _ _ hn').1
    simp only [Heap.tag] at e₁ e₂ e₃ e₄
    have heq : coalesce L σ (σ.prologue + 8 + total l + p.size) = (σ.prologue + 8 + total l,
        L.push (((L.pop (L.pop (L.pop σ (σ.prologue + 8 + total l)) (σ.prologue + 8 + total l + p.size))
          (σ.prologue + 8 + total l + p.size + b.size)).setBlockSize
          (σ.prologue + 8 + total l) (p.size + (b.size + n.size))).setBlockSize
          (σ.prologue + 8 + total l + (p.size + (b.size + n.size)) - 8) (p.size + (b.size + n.size)))
          (σ.prologue + 8 + total l)) := by
      have hps := congrArg Block.size hpt
      simp only [Heap.tag] at hps
      simp (disch := omega) [coalesce, hbs, hpa, hna, hpf, hnf, hps, hpb, e₁, e₂, e₃, e₄,
        Nat.mod_eq_of_lt]
    have hc : Arena.coalesce L (σ.prologue + 8) A (l ++ [p]) b (n :: post) =
        (σ.prologue + 8 + total l, A.merge L (σ.prologue + 8) l [p, b, n] post) := by
      simp [Arena.coalesce, hpf, hnf]
    rw [heq, hc]
    exact ⟨rfl, hR', Arena.Inv.merge hW hL hA' (by simp) hW' hpre' hpost.tail hpf'
      (hpost.nextFree_drop hnf), hF'⟩

end Repr

end MallocLab.MM
