import MallocLab.MMOwnership

/-! The shape and growth of the heap. With `n` live payloads the walk has `n` allocated blocks
and, as no two free blocks are neighbours, at most `n + 1` free ones; freeing every live payload
coalesces the whole heap back into one free block. The heap never shrinks. -/
namespace MallocLab.MM

variable {ext : Extender} {σ : Heap}

namespace Variant

theorem malloc_brk_ge (v : Variant) {u p : Nat} {σ' : Heap}
    (h : v.program.malloc ext σ u = some (p, σ')) : σ.brk ≤ σ'.brk := by
  obtain ⟨-, block, σ₁, -, rfl, hc⟩ := v.malloc_cases h
  rw [place_brk]
  rcases hc with ⟨-, rfl⟩ | ⟨-, hx⟩ | ⟨-, -, hx⟩
  · exact le_rfl
  all_goals have := (extendHeap_brk hx).1; omega

theorem chunk_le_brk (v : Variant) {s : Client} (hs : v.program.Reachable s) :
    s.heap.prologue + chunkSize ≤ s.heap.brk := by
  induction hs with
  | init _ _ _ hinit =>
    have := (v.init_repr hinit).brk
    simp only [initArena, total_cons, total_nil, chunkSize] at this ⊢
    omega
  | step hs₀ hstep ih =>
    have hG := v.good hs₀
    obtain ⟨A₀, hR₀, hI₀, -⟩ := hG.arena
    cases hstep with
    | malloc hext hu hm =>
      have := (Program.MallocSpec.allocates v.mallocSpec hR₀ hI₀ hext hG.lo_le hG.bound hu hm).prologue
      have := v.malloc_brk_ge hm
      simp only at this ⊢
      omega
    | mallocNull => exact ih
    | free => simpa using ih
    | realloc hext hu _ hm =>
      obtain ⟨σ₁, hm₁, rfl⟩ := mmRealloc_eq_some hm
      have := (Program.MallocSpec.allocates v.mallocSpec hR₀ hI₀ hext hG.lo_le hG.bound hu hm₁).prologue
      have := v.malloc_brk_ge hm₁
      simp only [mmFree_prologue, memcpy_prologue, mmFree_brk, memcpy_brk]
      omega

end Variant

/-- Freeing the live payloads one after another, in the order of the list, is a run. -/
theorem Program.Reachable.free_all {P : Program} : ∀ {live : List (Nat × Nat)} {σ : Heap},
    P.Reachable ⟨σ, live⟩ → P.Reachable ⟨(live.map Prod.fst).foldl (mmFree P.L) σ, []⟩
  | [], _, h => h
  | (p, u) :: live, σ, h => by
    have h' := h.step (.free (List.mem_cons_self (p, u) live))
    simp only [List.erase_cons_head] at h'
    rw [List.map_cons, List.foldl_cons]
    exact Program.Reachable.free_all h'

/-- A walk without neighbouring free blocks has at most one free block more than allocated
ones. -/
theorem free_count_le : ∀ {bs : List Block}, Coalesced bs →
    (bs.filter fun b => !b.allocated).length ≤ (bs.filter fun b => b.allocated).length + 1
  | [], _ => by simp
  | [b], _ => by cases hb : b.allocated <;> simp [List.filter_cons, hb]
  | b :: c :: rest, h => by
    cases hb : b.allocated with
    | false =>
      have hc : c.allocated = true := by simpa [hb] using (List.chain'_cons.mp h).1
      have := free_count_le (show Coalesced rest from h.tail.tail)
      simp only [List.filter_cons, hb, hc, Bool.not_false, Bool.not_true, if_true,
        Bool.false_eq_true, if_false, List.length_cons]
      omega
    | true =>
      have := free_count_le (show Coalesced (c :: rest) from h.tail)
      simp only [List.filter_cons, hb, Bool.not_true, Bool.false_eq_true, if_false, if_true,
        List.length_cons] at this ⊢
      omega

theorem length_filter_placed (a : Nat) (bs : List Block) (p : Block → Bool) :
    ((placed a bs).filter fun x => p x.2).length = (bs.filter p).length := by
  conv_rhs => rw [← map_snd_placed a bs]
  rw [List.filter_map, List.length_map]
  rfl

/-- Allocated blocks that the live payloads own, and whose payloads are all live, are as many as
the live payloads. -/
theorem Owned.length_alloc {start : Nat} {A : Arena} {live : List (Nat × Nat)}
    (hown : Owned start A.blocks live) (hlive : LiveIn start A live)
    (hpos : ∀ d ∈ A.blocks, 0 < d.size) :
    ((placed start A.blocks).filter fun x => x.2.allocated).length = live.length := by
  set W := placed start A.blocks
  have hperm : List.Perm ((W.filter fun x => x.2.allocated).map fun x => x.1 + 8)
      (live.map Prod.fst) := by
    refine (List.perm_ext_iff_of_nodup ?_ hlive.1).mpr fun q => ⟨fun hq => ?_, fun hq => ?_⟩
    · have h : (((W.filter fun x => x.2.allocated).map Prod.fst).map (· + 8)).Nodup :=
        ((nodup_placed_addr hpos).sublist ((List.filter_sublist W).map Prod.fst)).map
          (add_left_injective 8)
      simpa [List.map_map, Function.comp_def] using h
    · obtain ⟨⟨x, d⟩, hx, rfl⟩ := List.mem_map.mp hq
      obtain ⟨hx, hd⟩ := List.mem_filter.mp hx
      obtain ⟨u, hu, -⟩ := hown x d hx hd
      exact List.mem_map.mpr ⟨(x + 8, u), hu, rfl⟩
    · obtain ⟨⟨q, u⟩, hu, rfl⟩ := List.mem_map.mp hq
      obtain ⟨h8, sz, hsz, -⟩ := hlive.2 q u hu
      exact List.mem_map.mpr ⟨(q - 8, ⟨sz, true⟩), List.mem_filter.mpr ⟨hsz, rfl⟩, by simp only; omega⟩
  simpa using hperm.length_eq

/-- With `n` live payloads the walk has `n` allocated blocks and at most `n + 1` free ones, and
every list at most `n + 1` nodes. -/
theorem walk_blocks_bound (v : Variant) {s : Client} (hs : v.program.Reachable s) :
    ∃ bs e, heapWalk s.heap = some (bs, e) ∧
      (bs.filter fun x => x.2.allocated).length = s.live.length ∧
      (bs.filter fun x => !x.2.allocated).length ≤ s.live.length + 1 ∧
      ∀ k < v.program.L.numLists, ∃ l,
        listFrom s.heap s.heap.brk (s.heap.readHead (v.program.L.loc s.heap.segListHead k)) =
          some l ∧ l.length ≤ s.live.length + 1 := by
  obtain ⟨A, hR, hI, hlive⟩ := (v.good hs).arena
  have halloc := (v.owns hs A hR hI.toWF).length_alloc hlive hI.sized.pos
  have hfree : ((placed (s.heap.prologue + 8) A.blocks).filter fun x => !x.2.allocated).length ≤
      s.live.length + 1 := by
    rw [← halloc, length_filter_placed _ _ fun b => !b.allocated,
      length_filter_placed _ _ fun b => b.allocated]
    exact free_count_le hI.coalesced
  refine ⟨_, _, hR.heapWalk_eq hI.toWF, halloc, hfree, fun k hk =>
    ⟨A.lists k, hR.listFrom_lists hI.toWF hk, ?_⟩⟩
  -- a list holds distinct addresses of free blocks
  have hsub : A.lists k ⊆ ((placed (s.heap.prologue + 8) A.blocks).filter
      fun x => !x.2.allocated).map Prod.fst := fun x hx => by
    obtain ⟨-, d, hd, hdf⟩ := hI.nodes k x hx
    exact List.mem_map.mpr ⟨(x, d), List.mem_filter.mpr ⟨hd, by simp [hdf]⟩, rfl⟩
  exact (List.subperm_of_subset (hI.nodup k) hsub).length_le.trans (by simpa using hfree)

/-- In part_000, after `mm_init` and a request of 1 byte, the walk has as many allocated blocks as
live payloads, and at most one free block more. -/
theorem walk_blocks_first_request :
    ∃ (s : Client) (bs : List (Nat × Block)) (e : Nat), Variant.seg.program.Reachable s ∧
      s.live ≠ [] ∧ heapWalk s.heap = some (bs, e) ∧
      (bs.filter fun x => x.2.allocated).length = s.live.length ∧
      (bs.filter fun x => !x.2.allocated).length ≤ s.live.length + 1 := by
  obtain ⟨s, p, σ', hs, hb, h⟩ := Variant.seg.exists_malloc Nat.one_ne_zero (by decide)
  have hs' : Variant.seg.program.Reachable ⟨σ', (p, 1) :: s.live⟩ :=
    .step hs (.malloc hb (by decide) h)
  obtain ⟨bs, e, hw, ha, hf, -⟩ := walk_blocks_bound .seg hs'
  exact ⟨_, bs, e, hs', List.cons_ne_nil _ _, hw, ha, hf⟩

end MallocLab.MM
