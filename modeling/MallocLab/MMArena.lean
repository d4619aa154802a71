import MallocLab.MMFreeList

/-! The arena the two allocators maintain, seen abstractly: the blocks of the heap walk and
the free lists as sequences of block addresses. `Repr` ties a memory state to its arena;
`WF` and `Inv` are the arena invariants. A `FreeLists` describes how one program keeps its
lists, so that the routines both programs share are modelled and proved once. -/
namespace MallocLab.MM

/-- How a program keeps its free lists: how many there are, the list a free block of a given
size belongs to, where the head of each list lives (given `segListHead`), and its
`list_pop`, which must remove a block from any position of a list. -/
structure FreeLists where
  numLists : Nat
  cls : Nat → Nat
  loc : Nat → Nat → HeadLoc
  index : Nat → Int
  headAt : Heap → Int → HeadLoc
  popAt : Heap → HeadLoc → Nat → Heap
  cls_lt : ∀ s, 32 ≤ s → cls s < numLists
  loc_inj : ∀ seg j k, j < numLists → k < numLists → loc seg j = loc seg k → j = k
  headAt_index : ∀ σ s, 32 ≤ s → s < 2^31 → headAt σ (index s) = loc σ.segListHead (cls s)
  popAt_spec : ∀ {σ : Heap} {h : HeadLoc} {l₁ l₂ : List Nat} {y : Nat},
    σ.FreeList h (l₁ ++ y :: l₂) → NodesSep h (l₁ ++ y :: l₂) →
    ListEdit σ (popAt σ h y) h (l₁ ++ y :: l₂) (l₁ ++ l₂)
  popAt_lo : ∀ σ h y, (popAt σ h y).lo = σ.lo
  popAt_brk : ∀ σ h y, (popAt σ h y).brk = σ.brk
  popAt_prologue : ∀ σ h y, (popAt σ h y).prologue = σ.prologue
  popAt_segListHead : ∀ σ h y, (popAt σ h y).segListHead = σ.segListHead
  popAt_calls : ∀ σ h y, (popAt σ h y).calls = σ.calls

namespace FreeLists

variable (L : FreeLists)

/-- The head that the code's index for a block of this size names. -/
def locOf (σ : Heap) (s : Nat) : HeadLoc := L.headAt σ (L.index s)

/-- `list_push` of a free block with the index of its current size, recorded. -/
def push (σ : Heap) (b : Nat) : Heap :=
  (pushAt σ (L.locOf σ (σ.blockSize b)) b).record (σ.blockSize b) (L.index (σ.blockSize b))

/-- `list_pop` of a block with the index of its current size, recorded. -/
def pop (σ : Heap) (b : Nat) : Heap :=
  (L.popAt σ (L.locOf σ (σ.blockSize b)) b).record (σ.blockSize b) (L.index (σ.blockSize b))

@[simp] theorem push_lo (σ : Heap) (b : Nat) : (L.push σ b).lo = σ.lo := pushAt_lo ..
@[simp] theorem push_brk (σ : Heap) (b : Nat) : (L.push σ b).brk = σ.brk := pushAt_brk ..
@[simp] theorem push_prologue (σ : Heap) (b : Nat) : (L.push σ b).prologue = σ.prologue :=
  pushAt_prologue ..
@[simp] theorem push_segListHead (σ : Heap) (b : Nat) :
    (L.push σ b).segListHead = σ.segListHead := pushAt_segListHead ..
@[simp] theorem pop_lo (σ : Heap) (b : Nat) : (L.pop σ b).lo = σ.lo := L.popAt_lo ..
@[simp] theorem pop_brk (σ : Heap) (b : Nat) : (L.pop σ b).brk = σ.brk := L.popAt_brk ..
@[simp] theorem pop_prologue (σ : Heap) (b : Nat) : (L.pop σ b).prologue = σ.prologue :=
  L.popAt_prologue ..
@[simp] theorem pop_segListHead (σ : Heap) (b : Nat) :
    (L.pop σ b).segListHead = σ.segListHead := L.popAt_segListHead ..

/-- A recorded call is made with a block size (at least 32 bytes, below `2^31`) and the code's
index of that size. -/
def CallOk (e : Nat × Int) : Prop := 32 ≤ e.1 ∧ e.1 < 2^31 ∧ e.2 = L.index e.1

end FreeLists

/-- The blocks between prologue and epilogue, and the free lists by list index. -/
@[ext] structure Arena where
  blocks : List Block
  lists : Nat → List Nat

namespace Arena

/-- `x` pushed on list `k`. -/
def cons (A : Arena) (k x : Nat) : Arena :=
  { A with lists := Function.update A.lists k (x :: A.lists k) }

/-- `x` removed from list `k`. -/
def erase (A : Arena) (k x : Nat) : Arena :=
  { A with lists := Function.update A.lists k ((A.lists k).erase x) }

theorem mem_of_mem_erase {A : Arena} {k x y j : Nat} (h : y ∈ (A.erase k x).lists j) :
    y ∈ A.lists j := by
  simp only [erase, Function.update_apply] at h
  split_ifs at h with hj
  exacts [hj ▸ List.mem_of_mem_erase h, h]

/-- Every address of `gone` removed from every list. -/
def remove (A : Arena) (gone : List Nat) : Arena :=
  { A with lists := fun k => (A.lists k).filter (· ∉ gone) }

@[simp] theorem remove_blocks (A : Arena) (gone : List Nat) : (A.remove gone).blocks = A.blocks :=
  rfl

theorem mem_remove {A : Arena} {gone : List Nat} {k y : Nat} :
    y ∈ (A.remove gone).lists k ↔ y ∈ A.lists k ∧ y ∉ gone := by
  simp [remove]

@[simp] theorem remove_nil (A : Arena) : A.remove [] = A := by
  simp [remove]

theorem remove_perm (A : Arena) {g g' : List Nat} (hp : g.Perm g') : A.remove g = A.remove g' := by
  simp [remove, hp.mem_iff]

theorem remove_remove (A : Arena) (g₁ g₂ : List Nat) :
    (A.remove g₁).remove g₂ = A.remove (g₁ ++ g₂) := by
  ext1
  · rfl
  · funext k
    simp [remove, List.filter_filter, Bool.and_comm]

theorem mem_cons_lists {A : Arena} {k₀ q k y : Nat} :
    y ∈ (A.cons k₀ q).lists k ↔ (k = k₀ ∧ y = q) ∨ y ∈ A.lists k := by
  simp only [cons, Function.update_apply]
  split_ifs with hk
  · subst hk; simp
  · simp [hk]

@[simp] theorem cons_blocks (A : Arena) (k x : Nat) : (A.cons k x).blocks = A.blocks := rfl
@[simp] theorem erase_blocks (A : Arena) (k x : Nat) : (A.erase k x).blocks = A.blocks := rfl

/-- The shape kept by every state of the allocator, between calls and between the steps of
one call: sizes at least 32 and multiples of 8, and every list a duplicate-free sequence of
free blocks, no block on two lists. -/
structure WF (L : FreeLists) (start : Nat) (A : Arena) : Prop where
  sized : Sized A.blocks
  nodup : ∀ k, (A.lists k).Nodup
  disjoint : ∀ j k x, x ∈ A.lists j → x ∈ A.lists k → j = k
  nodes : ∀ k x, x ∈ A.lists k →
    k < L.numLists ∧ ∃ b, (x, b) ∈ placed start A.blocks ∧ b.allocated = false

/-- On duplicate-free lists that share no block, taking a block off its list takes it off every
list. -/
theorem WF.erase_eq_remove {L : FreeLists} {start : Nat} {A : Arena} (hW : A.WF L start)
    {k x : Nat} (hx : x ∈ A.lists k) : A.erase k x = A.remove [x] := by
  ext1
  · rfl
  · funext j
    simp only [erase, remove, Function.update_apply, List.mem_singleton]
    split_ifs with hj
    · subst hj
      rw [(hW.nodup _).erase_eq_filter]
      congr 1
      funext y
      by_cases y = x <;> simp [*]
    · refine (List.filter_eq_self.mpr fun y hy => ?_).symm
      simp only [List.mem_singleton, decide_eq_true_eq]
      rintro rfl
      exact hj (hW.disjoint _ _ y hy hx)

/-- Replacing a run of blocks that holds no list node by sized blocks of the same total
length keeps the shape. -/
theorem WF.retag_run {L : FreeLists} {start : Nat} {A : Arena} (hW : A.WF L start)
    {pre mid mid' post : List Block} (hA : A.blocks = pre ++ mid ++ post)
    (hout : ∀ k y, y ∈ A.lists k → y < start + total pre ∨ start + total pre + total mid ≤ y)
    (hs : Sized mid') (htot : total mid' = total mid) :
    (⟨pre ++ mid' ++ post, A.lists⟩ : Arena).WF L start := by
  have hs₀ := hW.sized
  rw [hA, Sized.append, Sized.append] at hs₀
  refine ⟨Sized.append.mpr ⟨Sized.append.mpr ⟨hs₀.1.1, hs⟩, hs₀.2⟩, hW.nodup, hW.disjoint,
    fun k y hy => ?_⟩
  obtain ⟨hk, c, hc, hcf⟩ := hW.nodes k y hy
  rw [hA] at hc
  exact ⟨hk, c, mem_placed_outside hc (hW.sized.pos c (hA ▸ mem_placed_block hc))
    (hout k y hy) htot, hcf⟩

/-- The lists hold exactly the free blocks, each on the list of its size class. -/
structure Listed (L : FreeLists) (start : Nat) (A : Arena) : Prop where
  free_mem : ∀ x b, (x, b) ∈ placed start A.blocks → b.allocated = false → x ∈ A.lists (L.cls b.size)
  mem_cls : ∀ k x b, x ∈ A.lists k → (x, b) ∈ placed start A.blocks → k = L.cls b.size

/-- Replacing a run by sized blocks of the same length keeps the lists exact when the new lists hold
the old members outside the run and the run's new free blocks. -/
theorem Listed.replace_run {L : FreeLists} {start : Nat} {A : Arena}
    {pre mid mid' post : List Block} (hW : A.WF L start) (hL : A.Listed L start)
    (hA : A.blocks = pre ++ mid ++ post) (hs : Sized mid') (htot : total mid' = total mid)
    {A' : Arena} (hA' : A'.blocks = pre ++ mid' ++ post)
    (hlists : ∀ k y, y ∈ A'.lists k ↔
      (∃ c, (y, c) ∈ placed (start + total pre) mid' ∧ c.allocated = false ∧ k = L.cls c.size) ∨
      (y ∈ A.lists k ∧ ∀ c, (y, c) ∉ placed (start + total pre) mid)) :
    A'.Listed L start := by
  obtain ⟨bs', lists'⟩ := A'
  simp only at hA'
  subst hA'
  have hs₀ := hW.sized
  rw [hA, Sized.append, Sized.append] at hs₀
  have hs' : Sized (pre ++ mid' ++ post) := Sized.append.mpr ⟨Sized.append.mpr ⟨hs₀.1.1, hs⟩, hs₀.2⟩
  refine ⟨fun x b hx hbf => ?_, fun k x b hx hxb => ?_⟩
  · rw [hlists]
    rcases mem_placed_mid.mp hx with hx | hx | hx
    · have := mem_placed_bounds hx
      have := (hs₀.1.1 b (mem_placed_block hx)).1
      exact .inr ⟨hL.free_mem x b (hA ▸ mem_placed_mid.mpr (.inl hx)) hbf, fun d hd => by
        have := (mem_placed_bounds hd).1; omega⟩
    · exact .inl ⟨b, hx, hbf, rfl⟩
    · rw [htot] at hx
      have := (mem_placed_bounds hx).1
      exact .inr ⟨hL.free_mem x b (hA ▸ mem_placed_mid.mpr (.inr (.inr hx))) hbf, fun d hd => by
        have := mem_placed_bounds hd
        have := (hs₀.1.2 d (mem_placed_block hd)).1
        omega⟩
  · rcases (hlists k x).mp hx with ⟨c, hc, -, rfl⟩ | ⟨hx', hout⟩
    · rw [placed_unique hs'.pos hxb (mem_placed_mid.mpr (.inr (.inl hc)))]
    · obtain ⟨d, hd, -⟩ := (hW.nodes k x hx').2
      rw [hA] at hd
      have hd0 := hW.sized.pos d (hA ▸ mem_placed_block hd)
      have hxo : x < start + total pre ∨ start + total pre + total mid' ≤ x := by
        by_contra h
        exact hout d (mem_placed_inside hd hd0 (by omega) (by omega))
      have hb0 := hs'.pos b (mem_placed_block hxb)
      exact hL.mem_cls k x b hx' (hA ▸ mem_placed_outside hxb hb0 hxo htot.symm)

/-- The invariant between calls. -/
structure Inv (L : FreeLists) (start : Nat) (A : Arena) extends A.WF L start : Prop where
  listed : A.Listed L start
  coalesced : Coalesced A.blocks

end Arena

/-- Memory holds the arena `A`: prologue, truthful tags of every block, epilogue in the heap's last
word, every list linked from its head below the prologue, and every recorded call sound. -/
structure Repr (L : FreeLists) (σ : Heap) (A : Arena) : Prop where
  prologue : σ.tag σ.prologue = ⟨8, true⟩
  tags : Tags σ (σ.prologue + 8) A.blocks
  epilogue : σ.tag (σ.prologue + 8 + total A.blocks) = ⟨0, true⟩
  brk : σ.brk = σ.prologue + 8 + total A.blocks + 8
  lists : ∀ k < L.numLists, σ.FreeList (L.loc σ.segListHead k) (A.lists k)
  slots : ∀ k < L.numLists, ∀ c, L.loc σ.segListHead k = .cell c → c < σ.prologue
  calls : ∀ e ∈ σ.calls, L.CallOk e

/-- Going from `σ` to `σ'` writes only words in `S`. -/
def Heap.WritesIn (S : Nat → Prop) (σ σ' : Heap) : Prop := ∀ a, ¬S a → σ'.mem a = σ.mem a

theorem Heap.WritesIn.trans {S : Nat → Prop} {σ₁ σ₂ σ₃ : Heap} (h₁ : σ₁.WritesIn S σ₂)
    (h₂ : σ₂.WritesIn S σ₃) : σ₁.WritesIn S σ₃ :=
  fun a ha => (h₂ a ha).trans (h₁ a ha)

theorem Heap.WritesIn.mono {S T : Nat → Prop} {σ σ' : Heap} (h : σ.WritesIn S σ')
    (hST : ∀ a, S a → T a) : σ.WritesIn T σ' :=
  fun a ha => h a fun hs => ha (hST a hs)

/-- Words outside every allocated block: below the run, past it, or inside a free block. -/
def FreeCell (start : Nat) (bs : List Block) (a : Nat) : Prop :=
  a < start ∨ start + total bs ≤ a ∨
    ∃ x b, (x, b) ∈ placed start bs ∧ b.allocated = false ∧ x ≤ a ∧ a < x + b.size

/-- Replacing a run of free blocks by blocks of the same total length keeps every free word
free. -/
theorem FreeCell.of_free_run {start a : Nat} {pre mid mid' post : List Block}
    (h : FreeCell start (pre ++ mid' ++ post) a) (htot : total mid' = total mid)
    (hfree : ∀ c ∈ mid, c.allocated = false) : FreeCell start (pre ++ mid ++ post) a := by
  rcases h with h | h | ⟨x, b, hx, hbf, h₁, h₂⟩
  · exact .inl h
  · exact .inr (.inl (by simpa [htot] using h))
  · rw [mem_placed_mid] at hx
    rcases hx with hx | hx | hx
    · exact .inr (.inr ⟨x, b, mem_placed_mid.mpr (.inl hx), hbf, h₁, h₂⟩)
    · have := mem_placed_bounds hx
      obtain ⟨y, c, hy, hya⟩ : ∃ y c, (y, c) ∈ placed (start + total pre) mid ∧ y ≤ a ∧
          a < y + c.size := exists_placed_cover (by omega) (by omega)
      exact .inr (.inr ⟨y, c, mem_placed_mid.mpr (.inr (.inl hy)), hfree c (mem_placed_block hy),
        hya⟩)
    · exact .inr (.inr ⟨x, b, mem_placed_mid.mpr (.inr (.inr (htot ▸ hx))), hbf, h₁, h₂⟩)

/-- Replacing a run of blocks by blocks of the same total length frees at most the words of the
run. -/
theorem FreeCell.of_retag {start a : Nat} {pre mid mid' post : List Block}
    (h : FreeCell start (pre ++ mid' ++ post) a) (htot : total mid' = total mid) :
    FreeCell start (pre ++ mid ++ post) a ∨
      (start + total pre ≤ a ∧ a < start + total pre + total mid) := by
  rcases h with h | h | ⟨x, b, hx, hbf, h₁, h₂⟩
  · exact .inl (.inl h)
  · exact .inl (.inr (.inl (by simpa [htot] using h)))
  · rw [mem_placed_mid] at hx
    rcases hx with hx | hx | hx
    · exact .inl (.inr (.inr ⟨x, b, mem_placed_mid.mpr (.inl hx), hbf, h₁, h₂⟩))
    · have := mem_placed_bounds hx
      exact .inr ⟨by omega, by omega⟩
    · exact .inl (.inr (.inr ⟨x, b, mem_placed_mid.mpr (.inr (.inr (htot ▸ hx))), hbf, h₁, h₂⟩))

theorem FreeCell.of_snoc {start a : Nat} {bs : List Block} {b : Block}
    (h : FreeCell start (bs ++ [b]) a) : FreeCell start bs a := by
  rcases h with h | h | ⟨x, c, hx, hcf, h₁, h₂⟩
  · exact .inl h
  · exact .inr (.inl (by simp at h; omega))
  · simp only [placed_append, List.mem_append, placed_cons, placed_nil, List.mem_singleton,
      Prod.mk.injEq] at hx
    rcases hx with hx | ⟨rfl, -⟩
    · exact .inr (.inr ⟨x, c, hx, hcf, h₁, h₂⟩)
    · exact .inr (.inl h₁)

theorem FreeCell.not_alloc {start a x : Nat} {bs : List Block} {d : Block}
    (hs : ∀ e ∈ bs, 0 < e.size) (h : FreeCell start bs a) (hx : (x, d) ∈ placed start bs)
    (hd : d.allocated = true) (h₁ : x ≤ a) (h₂ : a < x + d.size) : False := by
  have := mem_placed_bounds hx
  rcases h with h | h | ⟨y, c, hy, hcf, h₃, h₄⟩
  · omega
  · omega
  · by_cases hxy : x = y
    · subst hxy
      rw [placed_unique hs hx hy] at hd
      simp [hd] at hcf
    · rcases placed_disjoint hs hx hy hxy with h | h <;> omega

theorem FreeCell.exists_alloc {start a : Nat} {bs : List Block} (hn : ¬FreeCell start bs a) :
    ∃ x d, (x, d) ∈ placed start bs ∧ d.allocated = true ∧ x ≤ a ∧ a < x + d.size := by
  have h₁ : start ≤ a := by by_contra h'; exact hn (.inl (by omega))
  have h₂ : a < start + total bs := by by_contra h'; exact hn (.inr (.inl (by omega)))
  obtain ⟨x, d, hx, hxa⟩ := exists_placed_cover h₁ h₂
  cases hd : d.allocated
  · exact absurd (.inr (.inr ⟨x, d, hx, hd, hxa⟩)) hn
  · exact ⟨x, d, hx, hd, hxa⟩

theorem FreeCell.of_keep {start a : Nat} {bs bs' : List Block} (hs : ∀ e ∈ bs', 0 < e.size)
    (hkeep : ∀ x d, (x, d) ∈ placed start bs → d.allocated = true → (x, d) ∈ placed start bs')
    (h : FreeCell start bs' a) : FreeCell start bs a := by
  by_contra hn
  obtain ⟨x, d, hx, hd, hxa⟩ := exists_alloc hn
  exact h.not_alloc hs (hkeep x d hx hd) hd hxa.1 hxa.2

theorem Arena.WF.node_outside {L : FreeLists} {start : Nat} {A : Arena} (hW : A.WF L start)
    {x : Nat} {b : Block} (hx : (x, b) ∈ placed start A.blocks) (hb : b.allocated = true) :
    ∀ k y, y ∈ A.lists k → y < x ∨ x + b.size ≤ y := by
  intro k y hy
  obtain ⟨c, hc, hcf⟩ := (hW.nodes k y hy).2
  have hpos := hW.sized.pos
  by_cases hxy : y = x
  · subst hxy
    rw [placed_unique hpos hc hx] at hcf
    simp [hb] at hcf
  · have := hpos c (mem_placed_block hc)
    rcases placed_disjoint hpos hx hc (Ne.symm hxy) with h | h <;> omega

theorem placed_spaced {start x y : Nat} {b c : Block} {bs : List Block} (hs : Sized bs)
    (hx : (x, b) ∈ placed start bs) (hy : (y, c) ∈ placed start bs) (hne : x ≠ y) :
    x + 32 ≤ y ∨ y + 32 ≤ x := by
  have := (hs b (mem_placed_block hx)).1
  have := (hs c (mem_placed_block hy)).1
  rcases placed_disjoint hs.pos hx hy hne with h | h <;> omega

/-- Distinct block addresses of a walk, with the head kept below it, are what the list code
needs. -/
theorem nodesSep_of_placed {start : Nat} {bs : List Block} {h : HeadLoc} {ns : List Nat}
    (hs : Sized bs) (h0 : 0 < start) (hh : ∀ c, h = .cell c → c < start) (hnd : ns.Nodup)
    (hns : ∀ x ∈ ns, ∃ b, (x, b) ∈ placed start bs) : NodesSep h ns := by
  refine ⟨fun x hx => ?_, hnd, fun x hx y hy hne => ?_, fun x hx => ?_⟩
  · obtain ⟨b, hb⟩ := hns x hx
    have := (mem_placed_bounds hb).1
    omega
  · obtain ⟨b, hb⟩ := hns x hx
    obtain ⟨c, hc⟩ := hns y hy
    rcases placed_spaced hs hb hc hne with h | h <;> omega
  · obtain ⟨b, hb⟩ := hns x hx
    have := (mem_placed_bounds hb).1
    constructor <;> rintro rfl <;> have := hh _ rfl <;> omega

namespace Repr

variable {L : FreeLists} {σ σ' : Heap} {A : Arena}

theorem blockSize_eq (hR : Repr L σ A) {x : Nat} {b : Block}
    (hx : (x, b) ∈ placed (σ.prologue + 8) A.blocks) : σ.blockSize x = b.size :=
  congrArg Block.size ((hR.tags x b hx).1)

theorem allocated_eq (hR : Repr L σ A) {x : Nat} {b : Block}
    (hx : (x, b) ∈ placed (σ.prologue + 8) A.blocks) : σ.allocated x = b.allocated :=
  congrArg Block.allocated ((hR.tags x b hx).1)

/-- Writes confined to link words of blocks and to words below the prologue keep the walk;
with the lists re-established, the arena with new lists is represented. -/
theorem relist (hR : Repr L σ A) (hs : Sized A.blocks) (hpro : σ'.prologue = σ.prologue)
    (hbrk : σ'.brk = σ.brk) (hseg : σ'.segListHead = σ.segListHead) (hcalls : σ'.calls = σ.calls)
    (hw : ∀ a, σ'.mem a ≠ σ.mem a → a < σ.prologue ∨
      ∃ x b, (x, b) ∈ placed (σ.prologue + 8) A.blocks ∧ (a = x + 8 ∨ a = x + 16))
    (lists' : Nat → List Nat)
    (hl : ∀ k < L.numLists, σ'.FreeList (L.loc σ.segListHead k) (lists' k)) :
    Repr L σ' ⟨A.blocks, lists'⟩ := by
  have keep : ∀ a, σ.prologue ≤ a → (∀ x b, (x, b) ∈ placed (σ.prologue + 8) A.blocks →
      a ≠ x + 8 ∧ a ≠ x + 16) → σ'.mem a = σ.mem a := by
    intro a ha hx
    by_contra hne
    rcases hw a hne with h | ⟨x, b, hxb, h | h⟩
    · omega
    · exact (hx x b hxb).1 h
    · exact (hx x b hxb).2 h
  have tag_keep : ∀ a, σ.prologue ≤ a → (∀ x b, (x, b) ∈ placed (σ.prologue + 8) A.blocks →
      a ≠ x + 8 ∧ a ≠ x + 16) → σ'.tag a = σ.tag a := fun a ha hx => by
    simp only [Heap.tag, Heap.blockSize, Heap.allocated, keep a ha hx]
  refine ⟨?_, ?_, ?_, by rw [hbrk, hpro]; exact hR.brk, by rwa [hseg], ?_, by rw [hcalls]; exact hR.calls⟩
  · rw [hpro, tag_keep _ le_rfl fun x b hx => by have := (mem_placed_bounds hx).1; omega]
    exact hR.prologue
  · rw [hpro]
    refine hR.tags.of_agree fun y c hy => ?_
    have := (mem_placed_bounds hy).1
    have := (hs c (mem_placed_block hy)).1
    exact ⟨keep _ (by omega) fun x b hx => (link_ne_tag hs hx hy).1,
      keep _ (by omega) fun x b hx => (link_ne_tag hs hx hy).2⟩
  · show σ'.tag (σ'.prologue + 8 + total A.blocks) = _
    rw [hpro, tag_keep _ (by omega) fun x b hx => ?_]
    · exact hR.epilogue
    · have := (mem_placed_bounds hx).2
      have := (hs b (mem_placed_block hx)).1
      omega
  · intro k hk c hc
    rw [hpro]
    exact hR.slots k hk c (by rwa [hseg] at hc)

/-- Rewriting only the words of a run holding no list node into new blocks of the same length with
truthful tags is represented by the arena with the run replaced. -/
theorem retag_run (hR : Repr L σ A) (hW : A.WF L (σ.prologue + 8))
    {pre mid mid' post : List Block} (hA : A.blocks = pre ++ mid ++ post)
    (hpro : σ'.prologue = σ.prologue) (hbrk : σ'.brk = σ.brk)
    (hseg : σ'.segListHead = σ.segListHead) (hhead : σ'.head = σ.head) (hcalls : σ'.calls = σ.calls)
    (hw : ∀ a, σ'.mem a ≠ σ.mem a →
      σ.prologue + 8 + total pre ≤ a ∧ a < σ.prologue + 8 + total pre + total mid)
    (hout : ∀ k y, y ∈ A.lists k →
      y < σ.prologue + 8 + total pre ∨ σ.prologue + 8 + total pre + total mid ≤ y)
    (htags : Tags σ' (σ.prologue + 8 + total pre) mid') (htot : total mid' = total mid) :
    Repr L σ' ⟨pre ++ mid' ++ post, A.lists⟩ := by
  have keep : ∀ a, a < σ.prologue + 8 + total pre ∨
      σ.prologue + 8 + total pre + total mid ≤ a → σ'.mem a = σ.mem a := fun a ha => by
    by_contra hne; have := hw a hne; omega
  have tag_keep : ∀ a, a < σ.prologue + 8 + total pre ∨
      σ.prologue + 8 + total pre + total mid ≤ a → σ'.tag a = σ.tag a := fun a ha => by
    simp only [Heap.tag, Heap.blockSize, Heap.allocated, keep a ha]
  have hs := hW.sized
  rw [hA, Sized.append, Sized.append] at hs
  have hT := hR.tags
  rw [hA, tags_append, tags_append, total_append, ← Nat.add_assoc] at hT
  have htotal : total (pre ++ mid' ++ post) = total A.blocks := by simp [hA, htot]
  refine ⟨?_, ?_, ?_, ?_, fun k hk => ?_, fun k hk c hc => ?_, by rw [hcalls]; exact hR.calls⟩
  · rw [hpro, tag_keep _ (.inl (by omega))]; exact hR.prologue
  · show Tags σ' (σ'.prologue + 8) (pre ++ mid' ++ post)
    rw [hpro, tags_append, tags_append, total_append, ← Nat.add_assoc, htot]
    refine ⟨⟨hT.1.1.of_agree fun x b hx => ?_, htags⟩, hT.2.of_agree fun x b hx => ?_⟩
    · have := (mem_placed_bounds hx).2
      have := (hs.1.1 b (mem_placed_block hx)).1
      exact ⟨keep _ (.inl (by omega)), keep _ (.inl (by omega))⟩
    · have := (mem_placed_bounds hx).1
      have := (hs.2 b (mem_placed_block hx)).1
      exact ⟨keep _ (.inr (by omega)), keep _ (.inr (by omega))⟩
  · show σ'.tag (σ'.prologue + 8 + total (pre ++ mid' ++ post)) = _
    rw [hpro, htotal, tag_keep _ (.inr (by simp only [hA, total_append]; omega))]
    exact hR.epilogue
  · show σ'.brk = σ'.prologue + 8 + total (pre ++ mid' ++ post) + 8
    rw [hpro, hbrk, htotal]; exact hR.brk
  · rw [hseg]
    refine (hR.lists k hk).of_agree ?_ fun x hx => ?_
    · cases hc : L.loc σ.segListHead k with
      | cell c => exact keep c (.inl (by have := hR.slots k hk c hc; omega))
      | global => exact hhead
    · obtain ⟨-, c, hc, -⟩ := hW.nodes k x hx
      have := (hW.sized c (mem_placed_block hc)).1
      rcases hout k x hx with h | h
      · rw [hA, List.append_assoc] at hc
        have := placed_end_le hc h
        exact ⟨keep _ (.inl (by omega)), keep _ (.inl (by omega))⟩
      · exact ⟨keep _ (.inr (by omega)), keep _ (.inr (by omega))⟩
  · rw [hpro]; exact hR.slots k hk c (by rwa [hseg] at hc)

/-- An edit of list `k` that touches only free blocks on no other list keeps every other list
and the walk, and writes only inside free blocks or below the walk. -/
theorem edit (hR : Repr L σ A) (hW : A.WF L (σ.prologue + 8)) {k : Nat} (hk : k < L.numLists)
    {ns l' : List Nat} (he : ListEdit σ σ' (L.loc σ.segListHead k) ns l')
    (hns : ∀ y ∈ ns, ∃ b, (y, b) ∈ placed (σ.prologue + 8) A.blocks ∧ b.allocated = false)
    (hother : ∀ j, j ≠ k → ∀ y ∈ ns, y ∉ A.lists j) (hpro : σ'.prologue = σ.prologue)
    (hbrk : σ'.brk = σ.brk) (hseg : σ'.segListHead = σ.segListHead) (hcalls : σ'.calls = σ.calls) :
    Repr L σ' ⟨A.blocks, Function.update A.lists k l'⟩ ∧
      σ.WritesIn (FreeCell (σ.prologue + 8) A.blocks) σ' := by
  have hslot : ∀ j < L.numLists, ∀ c, L.loc σ.segListHead j = .cell c → c < σ.prologue :=
    hR.slots
  have hw : ∀ a, σ'.mem a ≠ σ.mem a → a < σ.prologue ∨
      ∃ x b, (x, b) ∈ placed (σ.prologue + 8) A.blocks ∧ b.allocated = false ∧
        (a = x + 8 ∨ a = x + 16) := by
    intro a ha
    rcases he.written ha with hc | ⟨y, hy, hya⟩
    · exact .inl (hslot k hk a hc)
    · obtain ⟨b, hb, hbf⟩ := hns y hy
      exact .inr ⟨y, b, hb, hbf, hya⟩
  refine ⟨hR.relist hW.sized hpro hbrk hseg hcalls
    (fun a ha => (hw a ha).imp_right fun ⟨x, b, hb, _, hx⟩ => ⟨x, b, hb, hx⟩) _ fun j hj => ?_,
    fun a ha => ?_⟩
  · by_cases hjk : j = k
    · subst hjk
      simpa using he.list
    · rw [Function.update_noteq hjk]
      have hne : L.loc σ.segListHead j ≠ L.loc σ.segListHead k :=
        fun e => hjk (L.loc_inj _ j k hj hk e)
      refine he.other (hR.lists j hj) hne (fun c hc y hy => ?_) (fun y hy x hx => ?_)
        (fun y hy => ?_)
      · have := hslot j hj c hc
        obtain ⟨b, hb, -⟩ := hns y hy
        have := (mem_placed_bounds hb).1
        omega
      · obtain ⟨b, hb, -⟩ := hns x hx
        obtain ⟨c, hc, -⟩ := (hW.nodes j y hy).2
        have hxy : y ≠ x := fun e => hother j hjk x hx (e ▸ hy)
        rcases placed_spaced hW.sized hc hb hxy with h | h <;> omega
      · obtain ⟨c, hc, -⟩ := (hW.nodes j y hy).2
        have := (mem_placed_bounds hc).1
        constructor <;> intro e <;> have := hslot k hk _ e <;> omega
  · by_contra hne
    rcases hw a hne with h | ⟨x, b, hb, hbf, hx⟩
    · exact ha (.inl (by omega))
    · have := (hW.sized b (mem_placed_block hb)).1
      exact ha (.inr (.inr ⟨x, b, hb, hbf, by omega, by omega⟩))

theorem record (hR : Repr L σ A) {s : Nat} {i : Int} (h : L.CallOk (s, i)) :
    Repr L (σ.record s i) A := by
  refine ⟨hR.prologue, hR.tags, hR.epilogue, hR.brk, hR.lists, hR.slots, fun e he => ?_⟩
  rcases List.mem_cons.mp he with rfl | he
  exacts [h, hR.calls e he]

/-- The code's index of a block of the arena names the head of the list of its class. -/
theorem locOf_eq (hR : Repr L σ A) (hs : Sized A.blocks) {x : Nat} {b : Block}
    (hx : (x, b) ∈ placed (σ.prologue + 8) A.blocks) :
    L.locOf σ (σ.blockSize x) = L.loc σ.segListHead (L.cls b.size) ∧
      L.CallOk (σ.blockSize x, L.index (σ.blockSize x)) := by
  have hsz := hR.blockSize_eq hx
  have h32 : 32 ≤ b.size := (hs b (mem_placed_block hx)).1
  have hlt : b.size < 2^31 := hsz ▸ σ.blockSize_lt x
  rw [hsz]
  exact ⟨L.headAt_index σ _ h32 hlt, h32, hlt, rfl⟩

/-- `push` puts a free block that is on no list in front of the list of its size class. -/
theorem push (hR : Repr L σ A) (hW : A.WF L (σ.prologue + 8)) {x : Nat} {b : Block}
    (hx : (x, b) ∈ placed (σ.prologue + 8) A.blocks) (hb : b.allocated = false)
    (hn : ∀ k, x ∉ A.lists k) :
    Repr L (L.push σ x) (A.cons (L.cls b.size) x) ∧ (A.cons (L.cls b.size) x).WF L (σ.prologue + 8) ∧
      σ.WritesIn (FreeCell (σ.prologue + 8) A.blocks) (L.push σ x) := by
  have hk : L.cls b.size < L.numLists := L.cls_lt _ (hW.sized b (mem_placed_block hx)).1
  have hns : ∀ y ∈ x :: A.lists (L.cls b.size),
      ∃ c, (y, c) ∈ placed (σ.prologue + 8) A.blocks ∧ c.allocated = false := by
    rintro y (_ | ⟨_, hy⟩)
    exacts [⟨b, hx, hb⟩, (hW.nodes _ y hy).2]
  have hsep : NodesSep (L.loc σ.segListHead (L.cls b.size)) (x :: A.lists (L.cls b.size)) :=
    nodesSep_of_placed hW.sized (by omega) (fun c hc => by have := hR.slots _ hk c hc; omega)
      (List.nodup_cons.mpr ⟨hn _, hW.nodup _⟩) fun y hy => (hns y hy).imp fun _ h => h.1
  have he := pushAt_spec (hR.lists _ hk) hsep
  obtain ⟨hloc, hok⟩ := hR.locOf_eq hW.sized hx
  rw [FreeLists.push, hloc]
  obtain ⟨hR', hF⟩ := hR.edit hW hk he hns (fun j hj y hy => by
    rcases List.mem_cons.mp hy with rfl | hy
    · exact hn j
    · exact fun hj' => hj (hW.disjoint _ _ y hj' hy)) (by simp) (by simp) (by simp) (by simp)
  refine ⟨hR'.record hok, ⟨hW.sized, fun j => ?_, fun i j y hi hj => ?_, fun j y hy => ?_⟩, hF⟩
  · by_cases hj : j = L.cls b.size
    · subst hj; simpa [Arena.cons] using List.nodup_cons.mpr ⟨hn _, hW.nodup _⟩
    · simpa [Arena.cons, hj] using hW.nodup j
  · simp only [Arena.cons, Function.update_apply] at hi hj
    by_cases h₁ : i = L.cls b.size <;> by_cases h₂ : j = L.cls b.size <;>
      simp only [h₁, h₂, if_true, if_false] at hi hj
    · exact h₁.trans h₂.symm
    · rcases List.mem_cons.mp hi with rfl | hi
      · exact absurd hj (hn j)
      · exact absurd (hW.disjoint _ _ y hi hj).symm h₂
    · rcases List.mem_cons.mp hj with rfl | hj
      · exact absurd hi (hn i)
      · exact absurd (hW.disjoint _ _ y hi hj) h₁
    · exact hW.disjoint _ _ y hi hj
  · simp only [Arena.cons, Function.update_apply] at hy
    split_ifs at hy with h
    · subst h
      rcases List.mem_cons.mp hy with rfl | hy
      exacts [⟨hk, b, hx, hb⟩, hW.nodes _ y hy]
    · exact hW.nodes j y hy

/-- `pop` removes a block from the list of its size class, wherever it stands in it. -/
theorem pop (hR : Repr L σ A) (hW : A.WF L (σ.prologue + 8)) {k x : Nat} {b : Block}
    (hxk : x ∈ A.lists k) (hx : (x, b) ∈ placed (σ.prologue + 8) A.blocks) (hk : L.cls b.size = k) :
    Repr L (L.pop σ x) (A.erase k x) ∧ (A.erase k x).WF L (σ.prologue + 8) ∧
      σ.WritesIn (FreeCell (σ.prologue + 8) A.blocks) (L.pop σ x) := by
  subst hk
  have hkn := (hW.nodes _ x hxk).1
  obtain ⟨l₁, l₂, hsplit⟩ := List.append_of_mem hxk
  have hnd := hW.nodup (L.cls b.size)
  rw [hsplit] at hnd
  have hns : ∀ y ∈ l₁ ++ x :: l₂,
      ∃ c, (y, c) ∈ placed (σ.prologue + 8) A.blocks ∧ c.allocated = false :=
    fun y hy => (hW.nodes _ y (hsplit ▸ hy)).2
  have hsep := nodesSep_of_placed (h := L.loc σ.segListHead (L.cls b.size)) hW.sized (by omega)
    (fun c hc => by have := hR.slots _ hkn c hc; omega) hnd
    fun y hy => (hns y hy).imp fun _ h => h.1
  have he := L.popAt_spec (hsplit ▸ hR.lists _ hkn) hsep
  have herase : (A.lists (L.cls b.size)).erase x = l₁ ++ l₂ := by
    rw [hsplit, List.erase_append_right _ (nodup_mid hnd).1, List.erase_cons_head]
  obtain ⟨hloc, hok⟩ := hR.locOf_eq hW.sized hx
  rw [FreeLists.pop, hloc]
  obtain ⟨hR', hF⟩ := hR.edit hW hkn he hns
    (fun j hj y hy hy' => hj (hW.disjoint _ _ y hy' (hsplit ▸ hy)))
    (L.popAt_prologue _ _ _) (L.popAt_brk _ _ _) (L.popAt_segListHead _ _ _) (L.popAt_calls _ _ _)
  refine ⟨?_, ⟨hW.sized, fun j => ?_, fun i j y hi hj => ?_, fun j y hy => ?_⟩, hF⟩
  · show Repr L _ ⟨A.blocks, Function.update A.lists _ ((A.lists _).erase x)⟩
    rw [herase]
    exact hR'.record hok
  · simp only [Arena.erase, Function.update_apply]
    split_ifs with h
    · subst h; exact (hW.nodup _).erase x
    · exact hW.nodup j
  · exact hW.disjoint _ _ y (Arena.mem_of_mem_erase hi) (Arena.mem_of_mem_erase hj)
  · exact hW.nodes j y (Arena.mem_of_mem_erase hy)

end Repr

end MallocLab.MM
