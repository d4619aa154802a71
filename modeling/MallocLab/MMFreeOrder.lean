import MallocLab.MMLaws

/-! The order of a run of frees does not matter: the walk a run of `mm_free` calls leaves is
determined by its length and its allocated blocks, and the lists by the walk, up to the order of
their members. -/
namespace MallocLab.MM

namespace Arena

variable {L : FreeLists} {start : Nat} {A : Arena} {pre post : List Block} {b : Block}

/-- The blocks of a heap with the invariant and their lists determine each other: a list holds
exactly the free blocks of its class. -/
theorem Inv.mem_lists_iff (hI : A.Inv L start) {k x : Nat} :
    x ∈ A.lists k ↔ ∃ d, (x, d) ∈ placed start A.blocks ∧ d.allocated = false ∧ L.cls d.size = k := by
  constructor
  · intro hx
    obtain ⟨-, d, hd, hdf⟩ := hI.nodes k x hx
    exact ⟨d, hd, hdf, (hI.listed.mem_cls k x d hx hd).symm⟩
  · rintro ⟨d, hd, hdf, rfl⟩
    exact hI.listed.free_mem x d hd hdf

theorem free_alloc (hW : A.WF L start) (hA : A.blocks = pre ++ b :: post) :
    total (A.free L start pre b post).blocks = total A.blocks ∧
      ∀ y d, d.allocated = true → ((y, d) ∈ placed start (A.free L start pre b post).blocks ↔
        (y, d) ∈ placed start A.blocks ∧ y ≠ start + total pre) := by
  have hA₁ : ((⟨pre ++ [⟨b.size, false⟩] ++ post, A.lists⟩ : Arena).cons (L.cls b.size)
      (start + total pre)).blocks = pre ++ ⟨b.size, false⟩ :: post := by simp
  obtain ⟨pre', mid, post', hsplit, hfree, -, -, hblocks⟩ := coalesce_run L start _ hA₁ rfl
  have hpos := hW.sized.pos
  rw [hA] at hpos
  have htot : total (pre ++ ⟨b.size, false⟩ :: post) = total A.blocks := by simp [hA]
  have hA' : A.blocks = pre ++ [b] ++ post := by simp [hA]
  refine ⟨?_, fun y d hd => ?_⟩
  · rw [free, hblocks, ← htot, ← hA₁, hsplit]
    simp
  · rw [free, hblocks]
    constructor
    · intro hy
      have hy' := placed_keep_alloc hy hd (by simp) (show total mid = total [⟨total mid, false⟩] by simp)
      rw [← hsplit, hA₁, ← List.singleton_append, ← List.append_assoc] at hy'
      rcases mem_placed_mid.mp hy' with h | h | h
      · have := mem_placed_bounds h
        have := hpos d (by simp [mem_placed_block h])
        exact ⟨hA' ▸ mem_placed_mid.mpr (.inl h), by omega⟩
      · simp at h; simp [h.2] at hd
      · have := mem_placed_bounds h
        simp only [total_cons, total_nil] at this
        have := hpos b (by simp)
        refine ⟨?_, by omega⟩
        rw [hA']
        exact mem_placed_mid.mpr (.inr (.inr (by simpa using h)))
    · rintro ⟨hy, hne⟩
      rw [hA'] at hy
      refine placed_keep_alloc ?_ hd hfree (by simp)
      rw [← hsplit, hA₁, ← List.singleton_append, ← List.append_assoc]
      rcases mem_placed_mid.mp hy with h | h | h
      · exact mem_placed_mid.mpr (.inl h)
      · simp at h; exact absurd h.1 hne
      · exact mem_placed_mid.mpr (.inr (.inr (by simpa using h)))

end Arena

/-- Of two coalesced walks of one length, both starting free, the second keeping every allocated
block of the first, the second starts no larger. -/
theorem free_head_le {a : Nat} {b c : Block} {bs cs : List Block}
    (hbs : ∀ d ∈ b :: bs, 0 < d.size) (hcs : ∀ d ∈ c :: cs, 0 < d.size)
    (hco : Coalesced (b :: bs)) (hb : b.allocated = false) (htot : total (b :: bs) = total (c :: cs))
    (hsub : ∀ x d, d.allocated = true → (x, d) ∈ placed a (b :: bs) → (x, d) ∈ placed a (c :: cs)) :
    c.size ≤ b.size := by
  by_contra hlt
  cases bs with
  | nil => simp at htot; omega
  | cons d ds =>
    have hd : d.allocated = true := by simpa [hb] using (List.chain'_cons.mp hco).1
    have hx := hsub (a + b.size) d hd (by simp)
    have := placed_disjoint hcs hx (show (a, c) ∈ placed a (c :: cs) by simp)
      (by have := hbs b (by simp); omega)
    have := hbs d (by simp)
    omega

/-- A walk without neighbouring free blocks is determined by its length and its allocated
blocks. -/
theorem eq_of_alloc : ∀ {a : Nat} {bs cs : List Block}, (∀ d ∈ bs, 0 < d.size) →
    (∀ d ∈ cs, 0 < d.size) → Coalesced bs → Coalesced cs → total bs = total cs →
    (∀ x d, d.allocated = true → ((x, d) ∈ placed a bs ↔ (x, d) ∈ placed a cs)) → bs = cs
  | _, [], [], _, _, _, _, _, _ => rfl
  | _, [], c :: _, _, hcs, _, _, htot, _ => by have := hcs c (by simp); simp at htot; omega
  | _, b :: _, [], hbs, _, _, _, htot, _ => by have := hbs b (by simp); simp at htot; omega
  | a, b :: bs, c :: cs, hbs, hcs, hcb, hcc, htot, halloc => by
    have hbc : b = c := by
      cases hb : b.allocated
      · cases hc : c.allocated
        · have h₁ := free_head_le hbs hcs hcb hb htot fun x d hd h => (halloc x d hd).mp h
          have h₂ := free_head_le hcs hbs hcc hc htot.symm fun x d hd h => (halloc x d hd).mpr h
          cases b; cases c
          simp only [Block.mk.injEq] at *
          exact ⟨by omega, hb.trans hc.symm⟩
        · exact (placed_unique hbs ((halloc a c hc).mpr (by simp)) (by simp)).symm
      · exact placed_unique hcs ((halloc a b hb).mp (by simp)) (by simp)
    subst hbc
    have hpos := hbs b (by simp)
    have htail : ∀ x d, d.allocated = true →
        ((x, d) ∈ placed (a + b.size) bs ↔ (x, d) ∈ placed (a + b.size) cs) := fun x d hd => by
      have h := halloc x d hd
      simp only [placed_cons, List.mem_cons, Prod.mk.injEq] at h
      constructor
      · intro hx
        have := (mem_placed_bounds hx).1
        exact (h.mp (.inr hx)).resolve_left fun e => by omega
      · intro hx
        have := (mem_placed_bounds hx).1
        exact (h.mpr (.inr hx)).resolve_left fun e => by omega
    rw [eq_of_alloc (fun d hd => hbs d (by simp [hd])) (fun d hd => hcs d (by simp [hd]))
      (show Coalesced bs from hcb.tail) (show Coalesced cs from hcc.tail) (by simpa using htot) htail]

@[simp] theorem foldl_mmFree_prologue (L : FreeLists) :
    ∀ (ps : List Nat) (σ : Heap), (ps.foldl (mmFree L) σ).prologue = σ.prologue
  | [], _ => rfl
  | p :: ps, σ => by simp [foldl_mmFree_prologue L ps]

/-- Freeing distinct payloads of allocated blocks one after another keeps the invariant and the
length of the walk, and frees exactly their blocks: the allocated blocks left are the others. -/
theorem Repr.free_all {L : FreeLists} : ∀ {σ : Heap} {A : Arena} {ps : List Nat},
    Repr L σ A → A.Inv L (σ.prologue + 8) → total A.blocks < 2^31 → ps.Nodup →
    (∀ p ∈ ps, 8 ≤ p ∧ ∃ d, (p - 8, d) ∈ placed (σ.prologue + 8) A.blocks ∧ d.allocated = true) →
    ∃ A', Repr L (ps.foldl (mmFree L) σ) A' ∧ A'.Inv L (σ.prologue + 8) ∧
      total A'.blocks = total A.blocks ∧ ∀ x d, d.allocated = true →
        ((x, d) ∈ placed (σ.prologue + 8) A'.blocks ↔
          (x, d) ∈ placed (σ.prologue + 8) A.blocks ∧ x + 8 ∉ ps)
  | _, A, [], hR, hI, _, _, _ => ⟨A, hR, hI, rfl, fun _ _ _ => by simp⟩
  | σ, A, p :: ps, hR, hI, hsz, hnd, hps => by
    obtain ⟨h8, d, hd, hda⟩ := hps p (List.mem_cons_self _ _)
    obtain ⟨pre, post, hA, hx⟩ := mem_placed_iff.mp hd
    obtain ⟨hR₁, hI₁, -⟩ := hR.mmFree_spec hI hA hda hsz
    obtain ⟨htot, halloc⟩ := Arena.free_alloc hI.toWF hA
    rw [show σ.prologue + 8 + total pre + 8 = p by omega] at hR₁
    obtain ⟨hnp, hnd'⟩ := List.nodup_cons.mp hnd
    obtain ⟨A', hR', hI', htot', halloc'⟩ := Repr.free_all hR₁ (by simpa using hI₁)
      (by rwa [htot]) hnd' fun q hq => by
        obtain ⟨h8q, e, he, hea⟩ := hps q (List.mem_cons_of_mem _ hq)
        have hqp : q ≠ p := fun h => hnp (h ▸ hq)
        exact ⟨h8q, e, by simpa using (halloc _ e hea).mpr ⟨he, by omega⟩, hea⟩
    simp only [mmFree_prologue] at hI' halloc'
    refine ⟨A', hR', hI', htot'.trans htot, fun x e he => ?_⟩
    rw [halloc' x e he, halloc x e he, List.mem_cons]
    constructor
    · rintro ⟨⟨hx', hne⟩, hn⟩
      exact ⟨hx', not_or.mpr ⟨by omega, hn⟩⟩
    · rintro ⟨hx', hn⟩
      obtain ⟨hn₁, hn₂⟩ := not_or.mp hn
      exact ⟨⟨hx', by omega⟩, hn₂⟩

/-- Freeing a set of live payloads in any two orders gives the same walk and the same list contents. -/
theorem free_order_irrelevant (v : Variant) {s : Client} (hs : v.program.Reachable s)
    {ps qs : List Nat} (hperm : ps.Perm qs) (hnd : ps.Nodup)
    (hlive : ∀ p ∈ ps, ∃ u, (p, u) ∈ s.live) :
    let σ₁ := ps.foldl (mmFree v.program.L) s.heap
    let σ₂ := qs.foldl (mmFree v.program.L) s.heap
    σ₁.brk = σ₂.brk ∧ heapWalk σ₁ = heapWalk σ₂ ∧
      ∀ k < v.program.L.numLists, ∃ l₁ l₂,
        listFrom σ₁ σ₁.brk (σ₁.readHead (v.program.L.loc σ₁.segListHead k)) = some l₁ ∧
        listFrom σ₂ σ₂.brk (σ₂.readHead (v.program.L.loc σ₂.segListHead k)) = some l₂ ∧
        l₁.Perm l₂ := by
  intro σ₁ σ₂
  have hG := v.good hs
  obtain ⟨A, hR, hI, hlive'⟩ := hG.arena
  have hsz : total A.blocks < 2^31 := by
    have := hR.brk; have := hG.bound; have := hG.lo_le; omega
  have hps : ∀ p ∈ ps, 8 ≤ p ∧
      ∃ d, (p - 8, d) ∈ placed (s.heap.prologue + 8) A.blocks ∧ d.allocated = true := by
    intro p hp
    obtain ⟨u, hu⟩ := hlive p hp
    obtain ⟨h8, sz, hsz, -⟩ := hlive'.2 p u hu
    exact ⟨h8, _, hsz, rfl⟩
  obtain ⟨A₁, hR₁, hI₁, htot₁, hal₁⟩ := hR.free_all hI hsz hnd hps
  obtain ⟨A₂, hR₂, hI₂, htot₂, hal₂⟩ := hR.free_all hI hsz (hperm.nodup_iff.mp hnd)
    fun p hp => hps p (hperm.mem_iff.mpr hp)
  have hblocks : A₁.blocks = A₂.blocks :=
    eq_of_alloc hI₁.sized.pos hI₂.sized.pos hI₁.coalesced hI₂.coalesced (htot₁.trans htot₂.symm)
      fun x d hd => by rw [hal₁ x d hd, hal₂ x d hd, hperm.mem_iff]
  have hpro₁ : σ₁.prologue = s.heap.prologue := foldl_mmFree_prologue ..
  have hpro₂ : σ₂.prologue = s.heap.prologue := foldl_mmFree_prologue ..
  have hW₁ : A₁.WF v.program.L (σ₁.prologue + 8) := by rw [hpro₁]; exact hI₁.toWF
  have hW₂ : A₂.WF v.program.L (σ₂.prologue + 8) := by rw [hpro₂]; exact hI₂.toWF
  refine ⟨by rw [hR₁.brk, hR₂.brk, hpro₁, hpro₂, hblocks],
    by rw [hR₁.heapWalk_eq hW₁, hR₂.heapWalk_eq hW₂, hpro₁, hpro₂, hblocks],
    fun k hk => ⟨_, _, hR₁.listFrom_lists hW₁ hk, hR₂.listFrom_lists hW₂ hk, ?_⟩⟩
  refine (List.perm_ext_iff_of_nodup (hI₁.nodup k) (hI₂.nodup k)).mpr fun x => ?_
  rw [hI₁.mem_lists_iff, hI₂.mem_lists_iff, hblocks]

/-- In part_000, two requests of 100 bytes right after `mm_init` give two live payloads, and
freeing them in either order leaves the same walk. -/
theorem free_order_two_payloads :
    ∃ (s : Client) (p q : Nat), Variant.seg.program.Reachable s ∧ p ≠ q ∧
      (p, 100) ∈ s.live ∧ (q, 100) ∈ s.live ∧
      heapWalk ([p, q].foldl (mmFree Variant.seg.program.L) s.heap) =
        heapWalk ([q, p].foldl (mmFree Variant.seg.program.L) s.heap) := by
  obtain ⟨σ, hs, -, hbrk⟩ := Variant.seg.reachable_init
  have had : adjustSize 100 = 120 := by decide
  have hg : ∀ σ' : Heap, σ'.brk ≤ 8 * Seg.totalNumList + 2 * chunkSize →
      Extender.upTo σ'.lo σ'.brk (max (adjustSize 100) chunkSize) = true := fun σ' h => by
    simp only [Extender.upTo, decide_eq_true_eq, had]
    unfold Seg.totalNumList at h
    unfold chunkSize at h ⊢
    omega
  obtain ⟨⟨p, σ₁⟩, h₁⟩ := Option.isSome_iff_exists.mp
    (Variant.seg.malloc_isSome (show 100 ≠ 0 by decide) (hg σ (by omega)))
  have hs₁ : Variant.seg.program.Reachable ⟨σ₁, [(p, 100)]⟩ :=
    .step hs (.malloc (Extender.upTo_bounded _) (by decide) h₁)
  have hb₁ := Variant.seg.malloc_brk_le h₁
  rw [had] at hb₁
  obtain ⟨⟨q, σ₂⟩, h₂⟩ := Option.isSome_iff_exists.mp
    (Variant.seg.malloc_isSome (show 100 ≠ 0 by decide) (hg σ₁ (by unfold chunkSize at *; omega)))
  have hs₂ : Variant.seg.program.Reachable ⟨σ₂, [(q, 100), (p, 100)]⟩ :=
    .step hs₁ (.malloc (Extender.upTo_bounded _) (by decide) h₂)
  have hpq : p ≠ q := by
    obtain ⟨A, -, -, hlive⟩ := (Variant.seg.good hs₂).arena
    have := hlive.1
    simp only [List.map_cons, List.map_nil, List.nodup_cons, List.mem_cons, List.mem_singleton,
      List.not_mem_nil, or_false] at this
    exact Ne.symm this.1
  obtain ⟨-, hw, -⟩ := free_order_irrelevant .seg hs₂ (List.Perm.swap q p []) (by simp [hpq])
    fun x hx => ⟨100, by rcases List.mem_pair.mp hx with rfl | rfl <;> simp⟩
  exact ⟨_, p, q, hs₂, hpq, by simp, by simp, hw⟩

end MallocLab.MM
