import MallocLab.MMVariant
import Mathlib.Algebra.Order.Ring.Nat

/-! What holds in every state a run of either program reaches, read off the heap itself: the
heap walk and `mm_checkheap`, the free lists read from their heads, the live payloads, and no
two neighbouring free blocks. All of it follows from the invariant `Good`. -/
namespace MallocLab.MM

theorem total_eq_sum : ∀ bs : List Block, total bs = (bs.map Block.size).sum
  | [] => rfl
  | b :: bs => by simp [total_eq_sum bs]

theorem sum_placed_size (a : Nat) (bs : List Block) :
    ((placed a bs).map fun x => x.2.size).sum = total bs := by
  have h := congrArg (List.map Block.size) (map_snd_placed a bs)
  rw [List.map_map] at h
  rw [total_eq_sum, ← h]
  rfl

/-- The heap walk runs from the prologue to the epilogue over sized blocks whose footers repeat
their headers, filling the heap; `mm_checkheap` is silent. -/
theorem heap_walk_sound (v : Variant) {s : Client} (hs : v.program.Reachable s) :
    s.heap.tag s.heap.prologue = ⟨8, true⟩ ∧
    ∃ bs, heapWalk s.heap = some (bs, s.heap.brk - 8) ∧
      s.heap.tag (s.heap.brk - 8) = ⟨0, true⟩ ∧
      (∀ x b, (x, b) ∈ bs →
        32 ≤ b.size ∧ b.size % 8 = 0 ∧ s.heap.tag x = b ∧ s.heap.tag (x + b.size - 8) = b) ∧
      (bs.map fun x => x.2.size).sum + 16 = s.heap.brk - s.heap.lo - v.program.base ∧
      mmCheckheap s.heap = some [] := by
  have hG := v.good hs
  obtain ⟨A, hR, hI, -⟩ := hG.arena
  have hbrk := hR.brk
  have hbase := hG.base
  refine ⟨hR.prologue, _, by rw [hR.heapWalk_eq hI.toWF]; congr 2; omega, ?_,
    fun x b hx => ⟨(hI.sized b (mem_placed_block hx)).1, (hI.sized b (mem_placed_block hx)).2,
      hR.tags x b hx⟩, by rw [sum_placed_size]; omega, hR.mmCheckheap_eq hI.toWF hG.aligned⟩
  rw [show s.heap.brk - 8 = s.heap.prologue + 8 + total A.blocks by omega]
  exact hR.epilogue

/-- `mm_checkheap(1)` on a reachable heap prints the heading, one `printblock` line per block of the
walk, `EOL`, and no diagnostic. -/
theorem checkheap_verbose_dump (v : Variant) {s : Client} (hs : v.program.Reachable s) :
    ∃ bs, heapWalk s.heap = some (bs, s.heap.brk - 8) ∧
      mmCheckheapOut s.heap true = some (Line.heading s.heap.prologue ::
        bs.map (fun x => Line.block x.1 x.2.size x.2.allocated x.2.size x.2.allocated) ++
          [Line.eol (s.heap.brk - 8)]) := by
  have hG := v.good hs
  obtain ⟨A, hR, hI, -⟩ := hG.arena
  have hbrk := hR.brk
  have hbase := hG.base
  rw [show s.heap.brk - 8 = s.heap.prologue + 8 + total A.blocks by omega]
  exact ⟨_, hR.heapWalk_eq hI.toWF, hR.mmCheckheapOut_true hI.toWF hG.aligned⟩

/-- After one `mm_malloc(1)` of part_000, the verbose dump lists the walk's blocks. -/
theorem checkheap_verbose_first_request :
    ∃ (s : Client) (bs : List (Nat × Block)), Variant.seg.program.Reachable s ∧
      heapWalk s.heap = some (bs, s.heap.brk - 8) ∧
      mmCheckheapOut s.heap true = some (Line.heading s.heap.prologue ::
        bs.map (fun x => Line.block x.1 x.2.size x.2.allocated x.2.size x.2.allocated) ++
          [Line.eol (s.heap.brk - 8)]) := by
  obtain ⟨s, p, σ', hs, hb, h⟩ := Variant.seg.exists_malloc Nat.one_ne_zero (by decide)
  have hs' : Variant.seg.program.Reachable ⟨σ', (p, 1) :: s.live⟩ :=
    .step hs (.malloc hb (by decide) h)
  obtain ⟨bs, hw, ho⟩ := checkheap_verbose_dump .seg hs'
  exact ⟨_, bs, hs', hw, ho⟩

/-- Right after `mm_init` of part_000, `mm_checkheap` prints nothing. -/
theorem checkheap_silent_after_init :
    ∃ s, Variant.seg.program.Reachable s ∧ mmCheckheap s.heap = some [] := by
  obtain ⟨σ, hs, -⟩ := Variant.seg.reachable_init
  obtain ⟨-, -, -, -, -, -, hc⟩ := heap_walk_sound .seg hs
  exact ⟨_, hs, hc⟩

/-- A block size below `2^31` has a list of part_000: its `segListIndex`. -/
theorem seg_class {sz : Nat} (h32 : 32 ≤ sz) (hsz : sz < 2^31) :
    0 ≤ Seg.segListIndex sz ∧ Seg.segListIndex sz ≤ 10 ∧
      (Seg.lists.cls sz : Int) = Seg.segListIndex sz := by
  have h0 := Seg.segListIndex_nonneg h32 (by omega)
  have h10 := Seg.segListIndex_le sz
  simp only [Seg.totalNumList] at h10
  exact ⟨h0, by omega, by simp [Seg.lists, h0]⟩

/-- The free lists are well-formed chains holding exactly the free blocks of their class; in
part_000 every block, recorded list call and `find_fit` search uses an index in `0..10`. -/
theorem free_lists_sound :
    (∀ (v : Variant) {s : Client}, v.program.Reachable s →
      ∃ bs e, heapWalk s.heap = some (bs, e) ∧ ∀ k < v.program.L.numLists, ∃ l,
        listFrom s.heap s.heap.brk (s.heap.readHead (v.program.L.loc s.heap.segListHead k)) =
          some l ∧ l.Nodup ∧ (0 :: l ++ [0]).Chain' (Linked s.heap.mem) ∧
        ∀ x, x ∈ l ↔ ∃ b, (x, b) ∈ bs ∧ b.allocated = false ∧ v.program.L.cls b.size = k) ∧
    (∀ {s : Client}, Variant.seg.program.Reachable s → ∃ bs e, heapWalk s.heap = some (bs, e) ∧
      ∀ x b, (x, b) ∈ bs → 0 ≤ Seg.segListIndex b.size ∧ Seg.segListIndex b.size ≤ 10 ∧
        (Seg.lists.cls b.size : Int) = Seg.segListIndex b.size) ∧
    (∀ {s : Client}, Variant.seg.program.Reachable s → ∀ e ∈ s.heap.calls,
      32 ≤ e.1 ∧ e.1 < 2^31 ∧ e.2 = Seg.segListIndex e.1 ∧ 0 ≤ e.2 ∧ e.2 ≤ 10) ∧
    ∀ u, (Seg.fitIndices (adjustSize u)).head? = some (Seg.segListIndex (adjustSize u)) ∧
      ∀ i ∈ Seg.fitIndices (adjustSize u), 0 ≤ i ∧ i ≤ 10 := by
  refine ⟨fun v s hs => ?_, fun {s} hs => ?_, fun {s} hs e he => ?_, fun u => ?_⟩
  · obtain ⟨A, hR, hI, -⟩ := (v.good hs).arena
    refine ⟨_, _, hR.heapWalk_eq hI.toWF, fun k hk => ⟨A.lists k, hR.listFrom_lists hI.toWF hk,
      hI.nodup k, (hR.lists k hk).2, fun x => ⟨fun hx => ?_, ?_⟩⟩⟩
    · obtain ⟨-, b, hb, hbf⟩ := hI.nodes k x hx
      exact ⟨b, hb, hbf, (hI.listed.mem_cls k x b hx hb).symm⟩
    · rintro ⟨b, hb, hbf, rfl⟩
      exact hI.listed.free_mem x b hb hbf
  · have hG := Variant.seg.good hs
    obtain ⟨A, hR, hI, -⟩ := hG.arena
    refine ⟨_, _, hR.heapWalk_eq hI.toWF, fun x b hx => ?_⟩
    have hb := mem_placed_bounds hx
    have := hR.brk
    have := hG.lo_le
    have := hG.bound
    exact seg_class (hI.sized b (mem_placed_block hx)).1 (by omega)
  · obtain ⟨A, hR, -⟩ := (Variant.seg.good hs).arena
    obtain ⟨h32, hlt, hi⟩ := hR.calls e he
    obtain ⟨h0, h10, -⟩ := seg_class h32 hlt
    exact ⟨h32, hlt, hi, hi ▸ h0, hi ▸ h10⟩
  · obtain ⟨h32, -, hlt⟩ := adjustSize_spec u
    obtain ⟨hhead, hmem⟩ := Seg.fitIndices_spec h32 hlt
    exact ⟨hhead, fun i hi => by
      obtain ⟨-, h0, h10⟩ := hmem i hi
      simp only [Seg.totalNumList] at h10
      omega⟩

/-- No two neighbouring blocks of the heap walk are both free. -/
theorem no_adjacent_free (v : Variant) {s : Client} (hs : v.program.Reachable s) :
    ∃ bs e, heapWalk s.heap = some (bs, e) ∧
      (bs.map Prod.snd).Chain' fun b c => b.allocated = true ∨ c.allocated = true := by
  obtain ⟨A, hR, hI, -⟩ := (v.good hs).arena
  exact ⟨_, _, hR.heapWalk_eq hI.toWF, by rw [map_snd_placed]; exact hI.coalesced⟩

/-- Right after `mm_init` of part_000, the walk has no two neighbouring free blocks. -/
theorem walk_coalesced_after_init :
    ∃ s bs e, Variant.seg.program.Reachable s ∧ heapWalk s.heap = some (bs, e) ∧
      (bs.map Prod.snd).Chain' fun b c => b.allocated = true ∨ c.allocated = true := by
  obtain ⟨σ, hs, -⟩ := Variant.seg.reachable_init
  obtain ⟨bs, e, hw, hc⟩ := no_adjacent_free .seg hs
  exact ⟨_, bs, e, hs, hw, hc⟩

/-- Live payloads are aligned, inside their own allocated blocks and pairwise apart, and no call
changes a payload that stays live. -/
theorem live_payloads_safe (v : Variant) {s : Client} (hs : v.program.Reachable s) :
    ∃ bs e, heapWalk s.heap = some (bs, e) ∧
      (∀ p u, (p, u) ∈ s.live → p % 8 = 0 ∧
        ∃ x sz, (x, (⟨sz, true⟩ : Block)) ∈ bs ∧ s.heap.prologue < x ∧ x + sz ≤ e ∧
          x + 8 = p ∧ p + u + 8 ≤ x + sz ∧
          (∀ y c, (y, c) ∈ bs → y ≠ x → p + u ≤ y ∨ y + c.size ≤ p) ∧
          ∀ k < v.program.L.numLists, ∀ c, v.program.L.loc s.heap.segListHead k = .cell c →
            c + 8 ≤ p) ∧
      (∀ p u q w, (p, u) ∈ s.live → (q, w) ∈ s.live → p ≠ q → p + u ≤ q ∨ q + w ≤ p) ∧
      ∀ s', v.program.Step s s' → ∀ p u, (p, u) ∈ s.live → (p, u) ∈ s'.live →
        ∀ a, p ≤ a → a < p + u → s'.heap.mem a = s.heap.mem a := by
  have hG := v.good hs
  obtain ⟨A, hR, hI, hlive⟩ := hG.arena
  have hpos := hI.sized.pos
  refine ⟨_, _, hR.heapWalk_eq hI.toWF, fun p u hp => ?_, fun p u q w hp hq hne => ?_,
    fun s' hs' p u hp hp' a h₁ h₂ => hG.step_frame (v.mallocSpec) hs' hp hp' h₁ h₂⟩
  · obtain ⟨h8, sz, hx, hu⟩ := hlive.2 p u hp
    have hb := mem_placed_bounds hx
    have hmod := hI.sized.placed_mod hx
    have := hG.aligned
    refine ⟨by omega, p - 8, sz, hx, by omega, hb.2, by omega, by omega,
      fun y c hy hne => ?_, fun k hk c hc => by have := hR.slots k hk c hc; omega⟩
    have := placed_disjoint hpos hy hx hne
    simp only at this
    omega
  · obtain ⟨hp8, sp, hxp, hup⟩ := hlive.2 p u hp
    obtain ⟨hq8, sq, hxq, huq⟩ := hlive.2 q w hq
    have := placed_disjoint hpos hxp hxq (by omega)
    simp only at this
    omega

/-- In part_000, the payload of a first request of 1 byte is live and 8-aligned. -/
theorem first_payload_aligned :
    ∃ s p, Variant.seg.program.Reachable s ∧ (p, 1) ∈ s.live ∧ p % 8 = 0 := by
  obtain ⟨s, p, σ', hs, hb, h⟩ := Variant.seg.exists_malloc Nat.one_ne_zero (by decide)
  have hs' : Variant.seg.program.Reachable ⟨σ', (p, 1) :: s.live⟩ := .step hs (.malloc hb (by decide) h)
  obtain ⟨bs, e, -, hp, -⟩ := live_payloads_safe .seg hs'
  exact ⟨_, p, hs', List.mem_cons_self _ _, (hp p 1 (List.mem_cons_self _ _)).1⟩

end MallocLab.MM
