import MallocLab.MMCalls

/-! `list_push` and `list_pop` of both programs over a whole family of free lists. A pop takes
a block out of its list, keeps every other list, and writes only the head and link words of
the block and of its two neighbours; a push puts a block that is on no list in front of one. -/
namespace MallocLab.MM

/-- Two chains over the same blocks agree on the `next` word of every block but the last and
on the `prev` word of every block but the first. -/
theorem chain_agree {m m' : Mem} : ∀ {c : List Nat}, c.Chain' (Linked m) →
    c.Chain' (Linked m') →
    (∀ a ∈ c.dropLast, a ≠ 0 → m' (a + 8) = m (a + 8)) ∧
      ∀ b ∈ c.tail, b ≠ 0 → m' (b + 16) = m (b + 16)
  | [], _, _ => by simp
  | [_], _, _ => by simp
  | a :: b :: c, h, h' => by
    rw [List.chain'_cons] at h h'
    obtain ⟨ih₁, ih₂⟩ := chain_agree h.2 h'.2
    refine ⟨fun x hx hx0 => ?_, fun y hy hy0 => ?_⟩
    · rw [List.dropLast_cons₂, List.mem_cons] at hx
      rcases hx with rfl | hx
      · rw [h'.1.1 hx0, h.1.1 hx0]
      · exact ih₁ x hx hx0
    · rw [List.tail_cons, List.mem_cons] at hy
      rcases hy with rfl | hy
      · rw [h'.1.2 hy0, h.1.2 hy0]
      · exact ih₂ y hy hy0

theorem mem_dropLast_or_getLast {l : List Nat} {w : Nat} (hw : w ∈ l) :
    w ∈ l.dropLast ∨ w ∈ l.getLast? := by
  rcases l.eq_nil_or_concat with rfl | ⟨l, x, rfl⟩
  · simp at hw
  · simp only [List.concat_eq_append, List.mem_append, List.mem_singleton] at hw
    simp only [List.concat_eq_append, List.dropLast_concat, List.getLast?_concat,
      Option.mem_def, Option.some.injEq]
    exact hw.imp id Eq.symm

/-- Taking `y` out of a list writes, besides the head and `y`'s own link words, only the `next`
word of the block before `y` and the `prev` word of the block after it. -/
theorem ListEdit.pop_frame {σ σ' : Heap} {h : HeadLoc} {l₁ l₂ : List Nat} {y : Nat}
    (hl : σ.FreeList h (l₁ ++ y :: l₂)) (hs : NodesSep h (l₁ ++ y :: l₂))
    (he : ListEdit σ σ' h (l₁ ++ y :: l₂) (l₁ ++ l₂)) {a : Nat} (ha : σ'.mem a ≠ σ.mem a) :
    h = .cell a ∨ a = y + 8 ∨ a = y + 16 ∨ (∃ x ∈ l₁.getLast?, a = x + 8) ∨
      ∃ z ∈ l₂.head?, a = z + 16 := by
  have hc := hl.2
  have hc' := he.list.2
  rw [show 0 :: (l₁ ++ y :: l₂) ++ [0] = (0 :: l₁) ++ (y :: (l₂ ++ [0])) by simp,
    List.chain'_append] at hc
  rw [show 0 :: (l₁ ++ l₂) ++ [0] = (0 :: l₁) ++ (l₂ ++ [0]) by simp, List.chain'_append] at hc'
  obtain ⟨n₁, p₁⟩ := chain_agree hc.1 hc'.1
  obtain ⟨n₂, p₂⟩ := chain_agree hc.2.1.tail hc'.2.1
  rcases he.written ha with hh | ⟨w, hw, haw⟩
  · exact .inl hh
  have hw0 := hs.ne_zero w hw
  rw [List.mem_append, List.mem_cons] at hw
  rcases hw with hw | rfl | hw
  · rcases haw with rfl | rfl
    · rcases mem_dropLast_or_getLast hw with hd | hd
      · have hd' : w ∈ (0 :: l₁).dropLast := by
          rw [List.dropLast_cons_of_ne_nil (List.ne_nil_of_mem hw)]
          exact List.mem_cons_of_mem _ hd
        exact absurd (n₁ w hd' hw0) ha
      · exact .inr (.inr (.inr (.inl ⟨w, hd, rfl⟩)))
    · exact absurd (p₁ w hw hw0) ha
  · rcases haw with rfl | rfl
    · exact .inr (.inl rfl)
    · exact .inr (.inr (.inl rfl))
  · rcases haw with rfl | rfl
    · exact absurd (n₂ w (by simp [hw]) hw0) ha
    · rcases l₂ with _ | ⟨z, l₂⟩
      · simp at hw
      · rcases List.mem_cons.mp hw with rfl | hw
        · exact .inr (.inr (.inr (.inr ⟨w, rfl, rfl⟩)))
        · exact absurd (p₂ w (by simp [hw]) hw0) ha

/-- The blocks of a family of lists, one list at each head `L.loc seg k` for
`k < L.numLists`: non-NULL, each on one list once, at least 16 bytes apart (each a block of its
own), and holding no head in their link words. -/
structure Separated (L : FreeLists) (seg : Nat) (lists : Nat → List Nat) : Prop where
  ne_zero : ∀ k < L.numLists, ∀ x ∈ lists k, x ≠ 0
  nodup : ∀ k < L.numLists, (lists k).Nodup
  disjoint : ∀ j < L.numLists, ∀ k < L.numLists, ∀ x ∈ lists j, x ∈ lists k → j = k
  spaced : ∀ j < L.numLists, ∀ k < L.numLists, ∀ x ∈ lists j, ∀ y ∈ lists k, x ≠ y →
    x + 16 ≤ y ∨ y + 16 ≤ x
  clear : ∀ j < L.numLists, ∀ k < L.numLists, ∀ x ∈ lists k,
    L.loc seg j ≠ .cell (x + 8) ∧ L.loc seg j ≠ .cell (x + 16)

/-- A well-formed family of free lists: separated blocks, and every list linked from its head
and NULL-terminated both ways. -/
structure ListFamily (L : FreeLists) (σ : Heap) (lists : Nat → List Nat)
    extends Separated L σ.segListHead lists : Prop where
  list : ∀ k < L.numLists, σ.FreeList (L.loc σ.segListHead k) (lists k)

/-- A block that may join a family: non-NULL, on no list, at least 16 bytes from every listed
block, and holding no head in its link words. -/
structure Joinable (L : FreeLists) (seg : Nat) (lists : Nat → List Nat) (b : Nat) : Prop where
  ne_zero : b ≠ 0
  not_mem : ∀ k < L.numLists, b ∉ lists k
  spaced : ∀ k < L.numLists, ∀ x ∈ lists k, b + 16 ≤ x ∨ x + 16 ≤ b
  clear : ∀ k < L.numLists, L.loc seg k ≠ .cell (b + 8) ∧ L.loc seg k ≠ .cell (b + 16)

namespace Separated

variable {L : FreeLists} {seg : Nat} {lists : Nat → List Nat}

theorem nodesSep (hS : Separated L seg lists) {k : Nat} (hk : k < L.numLists) :
    NodesSep (L.loc seg k) (lists k) :=
  ⟨hS.ne_zero k hk, hS.nodup k hk, fun x hx y hy => hS.spaced k hk k hk x hx y hy,
    hS.clear k hk k hk⟩

/-- An edit of list `k` that writes only its head and link words of its own blocks keeps every
other list. -/
theorem other (hS : Separated L seg lists) {σ σ' : Heap} {j k : Nat} (hj : j < L.numLists)
    (hk : k < L.numLists) (hjk : j ≠ k) {l' : List Nat}
    (he : ListEdit σ σ' (L.loc seg k) (lists k) l') (hl : σ.FreeList (L.loc seg j) (lists j)) :
    σ'.FreeList (L.loc seg j) (lists j) := by
  refine he.other hl (fun e => hjk (L.loc_inj seg j k hj hk e)) (fun c hc x hx => ?_)
    (fun y hy x hx => ?_) (fun y hy => hS.clear k hk j hj y hy)
  · simpa [hc] using hS.clear j hj k hk x hx
  · have hxy : y ≠ x := fun e => hjk (hS.disjoint j hj k hk y hy (e ▸ hx))
    rcases hS.spaced j hj k hk y hy x hx hxy with h | h <;> omega

theorem sublist (hS : Separated L seg lists) {lists' : Nat → List Nat}
    (hsub : ∀ k < L.numLists, (lists' k).Sublist (lists k)) : Separated L seg lists' :=
  ⟨fun k hk x hx => hS.ne_zero k hk x ((hsub k hk).subset hx),
    fun k hk => (hsub k hk).nodup (hS.nodup k hk),
    fun j hj k hk x hx hx' => hS.disjoint j hj k hk x ((hsub j hj).subset hx)
      ((hsub k hk).subset hx'),
    fun j hj k hk x hx y hy => hS.spaced j hj k hk x ((hsub j hj).subset hx) y
      ((hsub k hk).subset hy),
    fun j hj k hk x hx => hS.clear j hj k hk x ((hsub k hk).subset hx)⟩

theorem mem_update_cons {k b j x : Nat} :
    x ∈ Function.update lists k (b :: lists k) j ↔ (j = k ∧ x = b) ∨ x ∈ lists j := by
  by_cases hjk : j = k
  · subst hjk; simp
  · simp [Function.update_noteq hjk, hjk]

theorem join (hS : Separated L seg lists) {b k : Nat} (hb : Joinable L seg lists b)
    (hk : k < L.numLists) : Separated L seg (Function.update lists k (b :: lists k)) := by
  refine ⟨fun j hj x hx => ?_, fun j hj => ?_, fun i hi j hj x hx hx' => ?_,
    fun i hi j hj x hx y hy hxy => ?_, fun i hi j hj x hx => ?_⟩
  · rcases mem_update_cons.mp hx with ⟨-, rfl⟩ | hx
    exacts [hb.ne_zero, hS.ne_zero j hj x hx]
  · by_cases hjk : j = k
    · subst hjk
      simpa using ⟨hb.not_mem j hj, hS.nodup j hj⟩
    · simpa [Function.update_noteq hjk] using hS.nodup j hj
  · rcases mem_update_cons.mp hx with ⟨hik, hxb⟩ | hx <;>
      rcases mem_update_cons.mp hx' with ⟨hjk, hxb'⟩ | hx'
    · exact hik.trans hjk.symm
    · exact absurd (hxb ▸ hx') (hb.not_mem j hj)
    · exact absurd (hxb' ▸ hx) (hb.not_mem i hi)
    · exact hS.disjoint i hi j hj x hx hx'
  · rcases mem_update_cons.mp hx with ⟨-, hxb⟩ | hx <;>
      rcases mem_update_cons.mp hy with ⟨-, hyb⟩ | hy
    · exact absurd (hxb.trans hyb.symm) hxy
    · rw [hxb]; exact hb.spaced j hj y hy
    · rw [hyb]; exact (hb.spaced i hi x hx).symm
    · exact hS.spaced i hi j hj x hx y hy hxy
  · rcases mem_update_cons.mp hx with ⟨-, rfl⟩ | hx
    exacts [hb.clear i hi, hS.clear i hi j hj x hx]

end Separated

namespace ListFamily

variable {L : FreeLists} {σ : Heap} {lists : Nat → List Nat}

/-- `list_pop` on list `k` of a well-formed family removes `y`, keeps the other lists and the
family's form, and writes only the head and the links around `y`. -/
theorem pop_spec (hF : ListFamily L σ lists) {k : Nat} (hk : k < L.numLists)
    {l₁ l₂ : List Nat} {y : Nat} (hy : lists k = l₁ ++ y :: l₂) :
    let σ' := L.popAt σ (L.loc σ.segListHead k) y
    σ'.FreeList (L.loc σ.segListHead k) (l₁ ++ l₂) ∧
      (∀ j < L.numLists, j ≠ k → σ'.FreeList (L.loc σ.segListHead j) (lists j)) ∧
      ListFamily L σ' (Function.update lists k (l₁ ++ l₂)) ∧
      (∀ a, σ'.mem a ≠ σ.mem a → L.loc σ.segListHead k = .cell a ∨ a = y + 8 ∨ a = y + 16 ∨
        (∃ x ∈ l₁.getLast?, a = x + 8) ∨ ∃ z ∈ l₂.head?, a = z + 16) ∧
      (σ'.head ≠ σ.head → L.loc σ.segListHead k = .global) := by
  intro σ'
  have hs : NodesSep (L.loc σ.segListHead k) (l₁ ++ y :: l₂) := hy ▸ hF.nodesSep hk
  have hl : σ.FreeList (L.loc σ.segListHead k) (l₁ ++ y :: l₂) := hy ▸ hF.list k hk
  have he := L.popAt_spec hl hs
  have hother : ∀ j < L.numLists, j ≠ k → σ'.FreeList (L.loc σ.segListHead j) (lists j) :=
    fun j hj hjk => hF.other hj hk hjk (by rw [hy]; exact he) (hF.list j hj)
  have hseg : σ'.segListHead = σ.segListHead := L.popAt_segListHead ..
  refine ⟨he.list, hother, ⟨?_, fun j hj => ?_⟩, fun a ha => ListEdit.pop_frame hl hs he ha,
    fun hne => by_contra fun hg => hne (he.head hg)⟩
  · rw [hseg]
    refine hF.sublist fun j _ => ?_
    by_cases hjk : j = k
    · subst hjk
      simp [hy]
    · simp [Function.update_noteq hjk]
  · rw [hseg]
    by_cases hjk : j = k
    · subst hjk
      simpa using he.list
    · simpa [Function.update_noteq hjk] using hother j hj hjk

/-- `list_push` on list `k` of a well-formed family, of a block that may join it: the block is
in front of its old list, every other list stays, and the family stays well-formed. -/
theorem push_spec (hF : ListFamily L σ lists) {k : Nat} (hk : k < L.numLists) {b : Nat}
    (hb : Joinable L σ.segListHead lists b) :
    let σ' := pushAt σ (L.loc σ.segListHead k) b
    σ'.FreeList (L.loc σ.segListHead k) (b :: lists k) ∧
      (∀ j < L.numLists, j ≠ k → σ'.FreeList (L.loc σ.segListHead j) (lists j)) ∧
      ListFamily L σ' (Function.update lists k (b :: lists k)) := by
  intro σ'
  have hS := hF.join hb hk
  have he : ListEdit σ σ' (L.loc σ.segListHead k) (Function.update lists k (b :: lists k) k)
      (b :: lists k) := by
    rw [Function.update_same]
    exact pushAt_spec (hF.list k hk) (by simpa using hS.nodesSep hk)
  have hother : ∀ j < L.numLists, j ≠ k → σ'.FreeList (L.loc σ.segListHead j) (lists j) :=
    fun j hj hjk => by
      simpa [Function.update_noteq hjk] using
        hS.other hj hk hjk he (by simpa [Function.update_noteq hjk] using hF.list j hj)
  have hseg : σ'.segListHead = σ.segListHead := pushAt_segListHead ..
  refine ⟨he.list, hother, ⟨by rw [hseg]; exact hS, fun j hj => ?_⟩⟩
  rw [hseg]
  by_cases hjk : j = k
  · subst hjk
    simpa using he.list
  · simpa [Function.update_noteq hjk] using hother j hj hjk

end ListFamily

theorem Repr.listFamily {L : FreeLists} {σ : Heap} {A : Arena} (hR : Repr L σ A)
    (hW : A.WF L (σ.prologue + 8)) : ListFamily L σ A.lists := by
  have hnode : ∀ k x, x ∈ A.lists k → ∃ b, (x, b) ∈ placed (σ.prologue + 8) A.blocks :=
    fun k x hx => (hW.nodes k x hx).2.imp fun _ h => h.1
  refine ⟨⟨fun k _ x hx => ?_, fun k _ => hW.nodup k, fun j _ k _ x hx hx' =>
    hW.disjoint j k x hx hx', fun j _ k _ x hx y hy hxy => ?_, fun j hj k _ x hx => ?_⟩, hR.lists⟩
  · obtain ⟨b, hb⟩ := hnode k x hx
    have := (mem_placed_bounds hb).1
    omega
  · obtain ⟨b, hb⟩ := hnode j x hx
    obtain ⟨c, hc⟩ := hnode k y hy
    rcases placed_spaced hW.sized hb hc hxy with h | h <;> omega
  · obtain ⟨b, hb⟩ := hnode k x hx
    have := (mem_placed_bounds hb).1
    constructor <;> intro e <;> have := hR.slots j hj _ e <;> omega

/-- `list_pop` and `list_push` of either program on a well-formed family of free lists: what each
does to its list, to the others and to memory. -/
theorem list_pop_push (v : Variant) {σ : Heap} {lists : Nat → List Nat}
    (hF : ListFamily v.program.L σ lists) {k : Nat} (hk : k < v.program.L.numLists) :
    (∀ l₁ y l₂, lists k = l₁ ++ y :: l₂ →
      let σ' := v.program.L.popAt σ (v.program.L.loc σ.segListHead k) y
      σ'.FreeList (v.program.L.loc σ.segListHead k) (l₁ ++ l₂) ∧
        (∀ j < v.program.L.numLists, j ≠ k →
          σ'.FreeList (v.program.L.loc σ.segListHead j) (lists j)) ∧
        ListFamily v.program.L σ' (Function.update lists k (l₁ ++ l₂)) ∧
        (∀ a, σ'.mem a ≠ σ.mem a → v.program.L.loc σ.segListHead k = .cell a ∨ a = y + 8 ∨
          a = y + 16 ∨ (∃ x ∈ l₁.getLast?, a = x + 8) ∨ ∃ z ∈ l₂.head?, a = z + 16) ∧
        (σ'.head ≠ σ.head → v.program.L.loc σ.segListHead k = .global)) ∧
    ∀ b, Joinable v.program.L σ.segListHead lists b →
      let σ' := pushAt σ (v.program.L.loc σ.segListHead k) b
      σ'.FreeList (v.program.L.loc σ.segListHead k) (b :: lists k) ∧
        (∀ j < v.program.L.numLists, j ≠ k →
          σ'.FreeList (v.program.L.loc σ.segListHead j) (lists j)) ∧
        ListFamily v.program.L σ' (Function.update lists k (b :: lists k)) :=
  ⟨fun _ _ _ hy => hF.pop_spec hk hy, fun _ hb => hF.push_spec hk hb⟩

/-- On mm.c's list of three blocks, `list_pop` of the middle one leaves the outer two, and
`list_push` of it then puts it in front of them. -/
theorem list_pop_push_middle :
    ∃ σ lists, ListFamily Variant.explicit.program.L σ lists ∧ lists 0 = [8, 40, 72] ∧
      let σ' := Variant.explicit.program.L.popAt σ
        (Variant.explicit.program.L.loc σ.segListHead 0) 40
      σ'.FreeList (Variant.explicit.program.L.loc σ.segListHead 0) [8, 72] ∧
        (pushAt σ' (Variant.explicit.program.L.loc σ'.segListHead 0) 40).FreeList
          (Variant.explicit.program.L.loc σ'.segListHead 0) [40, 8, 72] := by
  have hF : ListFamily Variant.explicit.program.L threeFreeHeap threeFreeArena.lists :=
    threeFreeHeap_repr.listFamily threeFreeArena_wf.1
  obtain ⟨hpop, -, hF', -⟩ := (@list_pop_push .explicit _ _ hF 0 (by decide)).1 [8] 40 [72] rfl
  have hj : Joinable Variant.explicit.program.L threeFreeHeap.segListHead
      (Function.update threeFreeArena.lists 0 [8, 72]) 40 := by
    refine ⟨by decide, fun k hk => ?_, fun k hk => ?_,
      fun k _ => by simp [Variant.program, Explicit.program, Explicit.lists]⟩
    all_goals
      obtain rfl : k = 0 := by simpa [Variant.program, Explicit.program, Explicit.lists] using hk
      simp
  exact ⟨_, _, hF, rfl, hpop, ((@list_pop_push .explicit _ _ hF' 0 (by decide)).2 40 hj).1⟩

end MallocLab.MM
