import MallocLab.MMCalls

/-! The paths through `mm_malloc` in either program: `find_fit` as a search of the arena's lists
in a fixed order of classes, the three ways `mm_malloc` obtains the block it places, and the
arena that the coalescing extension leaves. -/
namespace MallocLab.MM

section Search

/-- A search over the lists that returns `x` returns `x` again when each list now gives the
answer it gave before or `x`. -/
theorem findSome_of_agree {f g : Nat → Option Nat} {x : Nat} :
    ∀ {l : List Nat}, (∀ k ∈ l, g k = f k ∨ g k = some x) → l.findSome? f = some x →
      l.findSome? g = some x
  | [], _, h => by simp at h
  | k :: l, hg, h => by
    rw [List.findSome?_cons] at h ⊢
    rcases hg k (List.mem_cons_self _ _) with hk | hk <;> rw [hk]
    revert h
    cases f k
    · exact findSome_of_agree fun j hj => hg j (List.mem_cons_of_mem _ hj)
    · exact id

/-- A search over the lists returns `x` when some list gives `x` and every list gives `x` or
nothing. -/
theorem findSome_of_only {g : Nat → Option Nat} {x : Nat} {l : List Nat}
    (hg : ∀ k ∈ l, g k = none ∨ g k = some x) (hx : ∃ k ∈ l, g k = some x) :
    l.findSome? g = some x := by
  cases h : l.findSome? g with
  | none =>
    obtain ⟨k, hk, hgk⟩ := hx
    rw [List.findSome?_eq_none_iff.mp h k hk] at hgk
    cases hgk
  | some y =>
    obtain ⟨k, hk, hgk⟩ := List.exists_of_findSome?_eq_some h
    rcases hg k hk with h' | h' <;> rw [h'] at hgk
    · cases hgk
    · exact hgk.symm

theorem findSome_congr {α β : Type} {f g : α → Option β} :
    ∀ {l : List α}, (∀ k ∈ l, f k = g k) → l.findSome? f = l.findSome? g
  | [], _ => rfl
  | k :: l, h => by
    rw [List.findSome?_cons, List.findSome?_cons, h k (List.mem_cons_self _ _),
      findSome_congr fun j hj => h j (List.mem_cons_of_mem _ hj)]

theorem find_congr {p q : Nat → Bool} :
    ∀ {l : List Nat}, (∀ y ∈ l, p y = q y) → l.find? p = l.find? q
  | [], _ => rfl
  | y :: l, h => by
    rw [List.find?_cons, List.find?_cons, h y (List.mem_cons_self _ _),
      find_congr fun z hz => h z (List.mem_cons_of_mem _ hz)]

end Search

namespace Repr

variable {L : FreeLists} {σ σ' : Heap} {A : Arena}

theorem fits_eq (hR : Repr L σ A) {y : Nat} {d : Block}
    (hy : (y, d) ∈ placed (σ.prologue + 8) A.blocks) (asize : Nat) :
    fits σ asize y = (!d.allocated && decide (asize ≤ d.size)) := by
  rw [fits, hR.allocated_eq hy, hR.blockSize_eq hy]

end Repr

/-- A granted coalescing `extend_heap` leaves an arena ending in the coalesced new block, after the
old blocks but a free last one. -/
theorem Repr.extend_grown {L : FreeLists} {ext : Extender} {σ : Heap} {A : Arena}
    (hR : Repr L σ A) (hI : A.Inv L (σ.prologue + 8)) (hext : ext.Bounded σ.lo)
    (hlo : σ.lo ≤ σ.prologue) {words block : Nat} {σ₁ : Heap} (hw32 : 32 ≤ words * 8)
    (hw32' : words * 8 < 2^32) (hx : extendHeap L ext σ words true = some (block, σ₁)) :
    ∃ A₁ pre t M, Repr L σ₁ A₁ ∧ A₁.Inv L (σ.prologue + 8) ∧ σ₁.prologue = σ.prologue ∧
      A₁.blocks = pre ++ [⟨M, false⟩] ∧ A.blocks = pre ++ t ∧
      block = σ.prologue + 8 + total pre ∧ words * 8 ≤ M ∧ total A₁.blocks < 2^31 := by
  have hgrant : ext σ.brk (words * 8) = true := by
    by_contra hne
    rw [extendHeap_eq_none (.inr (by rw [Nat.mod_eq_of_lt hw32']; simpa using hne))] at hx
    exact Option.noConfusion hx
  have hgrow := hext σ.brk _ hgrant
  have hbrk := hR.brk
  obtain ⟨σ₂, hR₂, hW₂, -, hpro₂, -, heq⟩ := hR.extendHeap_spec hI.toWF hw32 (by omega) hgrant
  rw [heq true, if_pos rfl, Option.some.injEq] at hx
  have hA₂ : (A.grow L (σ.prologue + 8) (words * 8)).blocks =
      A.blocks ++ ⟨words * 8, false⟩ :: [] := rfl
  have hL₂ := Arena.Listed.grow hI.toWF hI.listed (words * 8)
  have hsz₂ : total (A.grow L (σ.prologue + 8) (words * 8)).blocks < 2^31 := by
    simp only [hA₂, total_append, total_cons, total_nil]; omega
  obtain ⟨hc₁, hR₃, hI₃, -⟩ := Repr.coalesce_spec hR₂ (by rwa [hpro₂]) (by rwa [hpro₂]) hA₂ rfl
    hI.coalesced List.chain'_nil hsz₂
  obtain ⟨hsplit, hc, hblocks, -⟩ := Arena.coalesce_shape hL₂ hA₂ rfl
  rw [hpro₂, hx] at hc₁ hR₃
  rw [hpro₂] at hI₃
  simp only [nextFree, Bool.false_eq_true, if_false, List.append_nil] at hsplit hblocks hc
  generalize (if prevFree A.blocks then A.blocks.dropLast else A.blocks) = pre at hsplit hblocks hc
  generalize (if prevFree A.blocks then A.blocks.getLast?.toList else []) = t at hsplit hblocks hc
  rw [hA₂, ← List.append_assoc] at hsplit
  refine ⟨_, pre, t, _, hR₃, hI₃, by simpa [hpro₂] using (congrArg (fun r => r.2.prologue) hx).symm,
    hblocks, List.append_cancel_right hsplit, hc₁.trans hc, by simp, ?_⟩
  rw [hblocks]
  have := congrArg total hsplit
  simp only [total_append, total_cons, total_nil] at this hsz₂ ⊢
  omega

namespace Variant

/-- `find_fit` of each program. -/
def findFit : Variant → Heap → Nat → Option Nat
  | explicit => Explicit.findFit
  | seg => Seg.findFit

/-- The lists `find_fit` searches for a block of `asize` bytes, in its order: mm.c's one list;
part_000's lists from `segListIndex(asize)` to the last. -/
def scan : Variant → Nat → List Nat
  | explicit, _ => [0]
  | seg, asize => List.range' (Seg.lists.cls asize) (Seg.totalNumList - Seg.lists.cls asize)

variable {σ : Heap} {A : Arena}

theorem lt_of_mem_scan (v : Variant) {asize k : Nat} (hk : k ∈ v.scan asize) :
    k < v.program.L.numLists := by
  cases v with
  | explicit => simp_all [scan, program, Explicit.program, Explicit.lists]
  | seg => simp only [scan, List.mem_range'_1] at hk; simp only [program, Seg.program, Seg.lists]; omega

/-- `find_fit` returns the first fit of the first list of its search that has one. -/
theorem findFit_eq (v : Variant) (hR : Repr v.program.L σ A)
    (hW : A.WF v.program.L (σ.prologue + 8)) {asize : Nat} (h32 : 32 ≤ asize) :
    v.findFit σ asize = (v.scan asize).findSome? fun k => (A.lists k).find? (fits σ asize) := by
  cases v with
  | explicit =>
    rw [findFit, Explicit.findFit_eq hR hW, scan, List.findSome?_cons]
    cases (A.lists 0).find? (fits σ asize) <;> rfl
  | seg =>
    rcases Nat.lt_or_ge asize (2^31) with hlt | hge
    · rw [findFit, Seg.findFit_eq_range' σ h32 (by omega)]
      exact findSome_congr fun i hi => hR.fitFrom_eq hW (Variant.seg.lt_of_mem_scan hi) asize
    · rw [findFit, Seg.findFit_of_large σ hge, eq_comm, List.findSome?_eq_none_iff]
      refine fun k _ => List.find?_eq_none.mpr fun y _ => ?_
      simp only [fits, Bool.and_eq_true, decide_eq_true_eq, not_and, not_le]
      exact fun _ => lt_of_lt_of_le (σ.blockSize_lt y) hge

/-- A block of at least `asize` bytes is on a list the search for `asize` bytes visits. -/
theorem cls_mem_scan (v : Variant) {asize s : Nat} (h32 : 32 ≤ asize) (hle : asize ≤ s)
    (hs : s < 2^32) : v.program.L.cls s ∈ v.scan asize := by
  cases v with
  | explicit => simp [scan, program, Explicit.program, Explicit.lists]
  | seg =>
    have hmono := Seg.segListIndex_mono (by omega) hle hs
    have hlt := Seg.lists.cls_lt s (by omega)
    simp only [scan, List.mem_range'_1, program, Seg.program]
    simp only [Seg.lists] at hlt ⊢
    omega

/-- The three ways `mm_malloc` returns a block: `place` in the first fit, in the coalesced extension
when nothing fits, or in part_000's fast path. -/
theorem malloc_cases (v : Variant) {ext : Extender} {σ σ' : Heap} {u p : Nat}
    (h : v.program.malloc ext σ u = some (p, σ')) :
    u ≠ 0 ∧ ∃ block σ₁, p = block + 8 ∧ σ' = place v.program.L σ₁ block (adjustSize u) ∧
      ((v.findFit σ (adjustSize u) = some block ∧ σ₁ = σ) ∨
        (v.findFit σ (adjustSize u) = none ∧ extendHeap v.program.L ext σ
          ((if adjustSize u > chunkSize then adjustSize u else chunkSize) / 8) true =
            some (block, σ₁)) ∨
        (v = seg ∧ adjustSize u ≤ 96 ∧
          extendHeap v.program.L ext σ (adjustSize u / 8) false = some (block, σ₁))) := by
  have hu : u ≠ 0 := by
    rintro rfl
    cases v <;> simp [program, Explicit.program, Seg.program, Explicit.mmMalloc, Seg.mmMalloc] at h
  have hfit : fitOrExtend v.program.L v.findFit ext σ (adjustSize u) = some (p, σ') →
      ∃ block σ₁, p = block + 8 ∧ σ' = place v.program.L σ₁ block (adjustSize u) ∧
        ((v.findFit σ (adjustSize u) = some block ∧ σ₁ = σ) ∨
          (v.findFit σ (adjustSize u) = none ∧ extendHeap v.program.L ext σ
            ((if adjustSize u > chunkSize then adjustSize u else chunkSize) / 8) true =
              some (block, σ₁))) := fun h' => by
    obtain ⟨block, rfl, ⟨hf, rfl⟩ | ⟨hf, σ₁, hx, rfl⟩⟩ := fitOrExtend_cases h'
    exacts [⟨block, σ, rfl, rfl, .inl ⟨hf, rfl⟩⟩, ⟨block, σ₁, rfl, rfl, .inr ⟨hf, hx⟩⟩]
  refine ⟨hu, ?_⟩
  cases v with
  | explicit =>
    obtain ⟨block, σ₁, h₁, h₂, h₃⟩ := hfit (by simpa [program, Explicit.program,
      Explicit.mmMalloc, hu] using h)
    exact ⟨block, σ₁, h₁, h₂, h₃.imp_right .inl⟩
  | seg =>
    simp only [program, Seg.program, Seg.mmMalloc, if_neg hu] at h
    split at h
    · rename_i block σ₁ hfast
      split_ifs at hfast with h96
      simp only [Option.some.injEq, Prod.mk.injEq] at h
      exact ⟨block, σ₁, h.1.symm, h.2.symm, .inr (.inr ⟨rfl, h96, hfast⟩)⟩
    · obtain ⟨block, σ₁, h₁, h₂, h₃⟩ := hfit h
      exact ⟨block, σ₁, h₁, h₂, h₃.imp_right .inl⟩

/-- A request whose adjusted size `find_fit` fits, off part_000's fast path, is served by
`place` in that fit. -/
theorem malloc_of_fit (v : Variant) {ext : Extender} {σ : Heap} {u b : Nat} (hu : u ≠ 0)
    (hfast : v = seg → 96 < adjustSize u) (h : v.findFit σ (adjustSize u) = some b) :
    v.program.malloc ext σ u = some (b + 8, place v.program.L σ b (adjustSize u)) := by
  cases v with
  | explicit =>
    simp only [program, Explicit.program, Explicit.mmMalloc, if_neg hu, fitOrExtend]
    rw [show Explicit.findFit σ (adjustSize u) = some b from h]
  | seg =>
    have h96 : ¬adjustSize u ≤ 96 := by have := hfast rfl; omega
    simp only [program, Seg.program, Seg.mmMalloc, if_neg hu, h96, if_false, fitOrExtend]
    rw [show Seg.findFit σ (adjustSize u) = some b from h]

theorem findFit_block (v : Variant) (hR : Repr v.program.L σ A)
    (hW : A.WF v.program.L (σ.prologue + 8)) {asize b : Nat} (h32 : 32 ≤ asize)
    (h : v.findFit σ asize = some b) :
    ∃ pre c post, A.blocks = pre ++ c :: post ∧ b = σ.prologue + 8 + total pre ∧
      c.allocated = false ∧ asize ≤ c.size := by
  cases v
  exacts [Explicit.findFit_block hR hW h, Seg.findFit_block hR hW h32 h]

theorem malloc_brk_le (v : Variant) {ext : Extender} {σ σ' : Heap} {u p : Nat}
    (h : v.program.malloc ext σ u = some (p, σ')) :
    σ'.brk ≤ σ.brk + max (adjustSize u) chunkSize := by
  obtain ⟨-, block, σ₁, -, rfl, hc⟩ := v.malloc_cases h
  rw [place_brk]
  rcases hc with ⟨-, rfl⟩ | ⟨-, hx⟩ | ⟨-, -, hx⟩
  · omega
  · have := (extendHeap_brk hx).1
    have : (if adjustSize u > chunkSize then adjustSize u else chunkSize) / 8 * 8 % 2^32 ≤
        max (adjustSize u) chunkSize := by
      unfold chunkSize; split_ifs <;> omega
    omega
  · have := (extendHeap_brk hx).1
    have : adjustSize u / 8 * 8 % 2^32 ≤ adjustSize u :=
      (Nat.mod_le _ _).trans (Nat.div_mul_le_self _ 8)
    omega

end Variant

end MallocLab.MM
