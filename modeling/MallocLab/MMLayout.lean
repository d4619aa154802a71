import MallocLab.MMWord
import Mathlib.Data.List.Chain

/-! The heap walk: the blocks between prologue and epilogue, each at the address where the
previous one ends, with a truthful header and footer. -/
namespace MallocLab.MM

/-- Total length of a run of blocks. -/
def total : List Block → Nat
  | [] => 0
  | b :: bs => b.size + total bs

@[simp] theorem total_nil : total [] = 0 := rfl

@[simp] theorem total_cons (b : Block) (bs : List Block) : total (b :: bs) = b.size + total bs :=
  rfl

@[simp] theorem total_append (l₁ l₂ : List Block) : total (l₁ ++ l₂) = total l₁ + total l₂ := by
  induction l₁ with
  | nil => simp
  | cons b l ih => simp [ih, Nat.add_assoc]

/-- Each block of a run starting at `a`, paired with its address. -/
def placed : Nat → List Block → List (Nat × Block)
  | _, [] => []
  | a, b :: bs => (a, b) :: placed (a + b.size) bs

@[simp] theorem placed_nil (a : Nat) : placed a [] = [] := rfl

@[simp] theorem placed_cons (a : Nat) (b : Block) (bs : List Block) :
    placed a (b :: bs) = (a, b) :: placed (a + b.size) bs := rfl

theorem placed_append (a : Nat) (l₁ l₂ : List Block) :
    placed a (l₁ ++ l₂) = placed a l₁ ++ placed (a + total l₁) l₂ := by
  induction l₁ generalizing a with
  | nil => simp
  | cons b l ih => simp [ih, Nat.add_assoc]

theorem mem_placed_mid {a y : Nat} {c : Block} {pre mid post : List Block} :
    (y, c) ∈ placed a (pre ++ mid ++ post) ↔ (y, c) ∈ placed a pre ∨
      (y, c) ∈ placed (a + total pre) mid ∨ (y, c) ∈ placed (a + total pre + total mid) post := by
  simp only [placed_append, List.mem_append, total_append, Nat.add_assoc, or_assoc]

/-- No two neighbouring blocks are both free. -/
def Coalesced (bs : List Block) : Prop := bs.Chain' fun b c => b.allocated ∨ c.allocated

/-- Block sizes of a reachable heap: at least `MIN_BLOCK_SIZE` and a multiple of 8. -/
def Sized (bs : List Block) : Prop := ∀ b ∈ bs, 32 ≤ b.size ∧ b.size % 8 = 0

theorem mem_placed_bounds {a x : Nat} {b : Block} :
    ∀ {bs : List Block}, (x, b) ∈ placed a bs → a ≤ x ∧ x + b.size ≤ a + total bs
  | [], h => by simp at h
  | d :: ds, h => by
    rcases List.mem_cons.mp h with h | h
    · cases h; simp
    · have := mem_placed_bounds h
      simp only [total_cons]
      omega

theorem placed_end_le {a y : Nat} {c : Block} {l₁ l₂ : List Block}
    (hy : (y, c) ∈ placed a (l₁ ++ l₂)) (hlt : y < a + total l₁) : y + c.size ≤ a + total l₁ := by
  rw [placed_append, List.mem_append] at hy
  rcases hy with hy | hy
  · exact (mem_placed_bounds hy).2
  · have := (mem_placed_bounds hy).1; omega

theorem mem_placed_block {a x : Nat} {b : Block} {bs : List Block} (h : (x, b) ∈ placed a bs) :
    b ∈ bs := by
  induction bs generalizing a with
  | nil => simp at h
  | cons d ds ih =>
    rcases List.mem_cons.mp h with h | h
    · cases h; exact List.mem_cons_self _ _
    · exact List.mem_cons_of_mem _ (ih h)

theorem mem_placed_iff {a x : Nat} {b : Block} {bs : List Block} :
    (x, b) ∈ placed a bs ↔ ∃ pre post, bs = pre ++ b :: post ∧ x = a + total pre := by
  constructor
  · intro h
    induction bs generalizing a with
    | nil => simp at h
    | cons d ds ih =>
      rcases List.mem_cons.mp h with h | h
      · cases h; exact ⟨[], ds, rfl, rfl⟩
      · obtain ⟨pre, post, rfl, rfl⟩ := ih h
        exact ⟨d :: pre, post, rfl, by simp [Nat.add_assoc]⟩
  · rintro ⟨pre, post, rfl, rfl⟩
    simp [placed_append]

theorem mem_placed_of_eq {a : Nat} {pre post : List Block} {b : Block} :
    (a + total pre, b) ∈ placed a (pre ++ b :: post) :=
  mem_placed_iff.mpr ⟨pre, post, rfl, rfl⟩

/-- Blocks of positive size never overlap. -/
theorem placed_disjoint {a x y : Nat} {b c : Block} :
    ∀ {bs : List Block}, (∀ d ∈ bs, 0 < d.size) → (x, b) ∈ placed a bs → (y, c) ∈ placed a bs →
      x ≠ y → x + b.size ≤ y ∨ y + c.size ≤ x
  | [], _, hx, _, _ => by simp at hx
  | d :: ds, hs, hx, hy, hne => by
    have hs' : ∀ e ∈ ds, 0 < e.size := fun e he => hs e (List.mem_cons_of_mem _ he)
    rcases List.mem_cons.mp hx with hx | hx <;> rcases List.mem_cons.mp hy with hy | hy
    · cases hx; cases hy; exact absurd rfl hne
    · cases hx; have := (mem_placed_bounds hy).1; omega
    · cases hy; have := (mem_placed_bounds hx).1; omega
    · exact placed_disjoint hs' hx hy hne

/-- An address names at most one block. -/
theorem placed_unique {a x : Nat} {b c : Block} :
    ∀ {bs : List Block}, (∀ d ∈ bs, 0 < d.size) → (x, b) ∈ placed a bs → (x, c) ∈ placed a bs →
      b = c
  | [], _, hx, _ => by simp at hx
  | d :: ds, hs, hx, hy => by
    have hd := hs d (List.mem_cons_self _ _)
    have hs' : ∀ e ∈ ds, 0 < e.size := fun e he => hs e (List.mem_cons_of_mem _ he)
    rcases List.mem_cons.mp hx with hx | hx <;> rcases List.mem_cons.mp hy with hy | hy
    · cases hx; cases hy; rfl
    · cases hx; have := (mem_placed_bounds hy).1; omega
    · cases hy; have := (mem_placed_bounds hx).1; omega
    · exact placed_unique hs' hx hy

theorem Sized.total_mod {bs : List Block} (h : Sized bs) : total bs % 8 = 0 := by
  induction bs with
  | nil => rfl
  | cons b bs ih =>
    have := (h b (List.mem_cons_self _ _)).2
    have := ih fun c hc => h c (List.mem_cons_of_mem _ hc)
    simp only [total_cons]
    omega

theorem Sized.placed_mod {a x : Nat} {b : Block} : ∀ {bs : List Block}, Sized bs →
    (x, b) ∈ placed a bs → x % 8 = a % 8
  | [], _, h => by simp at h
  | d :: ds, hs, h => by
    rcases List.mem_cons.mp h with h | h
    · cases h; rfl
    · have := Sized.placed_mod (fun c hc => hs c (List.mem_cons_of_mem _ hc)) h
      have := (hs d (List.mem_cons_self _ _)).2
      omega

theorem map_snd_placed : ∀ (a : Nat) (bs : List Block), (placed a bs).map Prod.snd = bs
  | _, [] => rfl
  | a, b :: bs => by simp [map_snd_placed (a + b.size) bs]

theorem Sized.pos {bs : List Block} (h : Sized bs) : ∀ d ∈ bs, 0 < d.size :=
  fun d hd => by have := (h d hd).1; omega

theorem Sized.append {l₁ l₂ : List Block} : Sized (l₁ ++ l₂) ↔ Sized l₁ ∧ Sized l₂ :=
  ⟨fun h => ⟨fun b hb => h b (List.mem_append_left _ hb), fun b hb => h b (List.mem_append_right _ hb)⟩,
    fun h b hb => (List.mem_append.mp hb).elim (h.1 b) (h.2 b)⟩

theorem Sized.cons {b : Block} {bs : List Block} :
    Sized (b :: bs) ↔ (32 ≤ b.size ∧ b.size % 8 = 0) ∧ Sized bs := by
  simp [Sized]

/-- Every block of the run at `a` has its header at its address and its footer in its last
word, both telling its size and allocated bit. -/
def Tags (σ : Heap) (a : Nat) (bs : List Block) : Prop :=
  ∀ x b, (x, b) ∈ placed a bs → σ.tag x = b ∧ σ.tag (x + b.size - 8) = b

@[simp] theorem tags_nil (σ : Heap) (a : Nat) : Tags σ a [] := by simp [Tags]

theorem tags_append {σ : Heap} {a : Nat} {l₁ l₂ : List Block} :
    Tags σ a (l₁ ++ l₂) ↔ Tags σ a l₁ ∧ Tags σ (a + total l₁) l₂ := by
  simp only [Tags, placed_append, List.mem_append]
  exact ⟨fun h => ⟨fun x b hx => h x b (.inl hx), fun x b hx => h x b (.inr hx)⟩,
    fun h x b hx => hx.elim (h.1 x b) (h.2 x b)⟩

theorem tags_cons {σ : Heap} {a : Nat} {b : Block} {bs : List Block} :
    Tags σ a (b :: bs) ↔ (σ.tag a = b ∧ σ.tag (a + b.size - 8) = b) ∧ Tags σ (a + b.size) bs := by
  simp only [Tags, placed_cons, List.mem_cons, Prod.mk.injEq]
  constructor
  · intro h
    exact ⟨h a b (.inl ⟨rfl, rfl⟩), fun x c hx => h x c (.inr hx)⟩
  · rintro ⟨h₁, h₂⟩ x c (⟨rfl, rfl⟩ | hx)
    exacts [h₁, h₂ x c hx]

/-- Replacing the middle of a run by blocks of the same total length keeps every block
outside it at its address. -/
theorem mem_placed_outside {a y : Nat} {c : Block} {pre mid mid' post : List Block}
    (hy : (y, c) ∈ placed a (pre ++ mid ++ post)) (hc : 0 < c.size)
    (hout : y < a + total pre ∨ a + total pre + total mid ≤ y) (htot : total mid' = total mid) :
    (y, c) ∈ placed a (pre ++ mid' ++ post) := by
  rw [mem_placed_mid] at hy ⊢
  rcases hy with hy | hy | hy
  · exact .inl hy
  · have := mem_placed_bounds hy; omega
  · exact .inr (.inr (htot ▸ hy))

theorem mem_placed_inside {a y : Nat} {c : Block} {pre mid post : List Block}
    (hy : (y, c) ∈ placed a (pre ++ mid ++ post)) (hc : 0 < c.size) (hlo : a + total pre ≤ y)
    (hhi : y < a + total pre + total mid) : (y, c) ∈ placed (a + total pre) mid := by
  rw [mem_placed_mid] at hy
  rcases hy with hy | hy | hy
  · have := mem_placed_bounds hy; omega
  · exact hy
  · have := mem_placed_bounds hy; omega

theorem exists_placed_cover {w : Nat} :
    ∀ {a : Nat} {bs : List Block}, a ≤ w → w < a + total bs → ∃ x b, (x, b) ∈ placed a bs ∧ x ≤ w ∧ w < x + b.size
  | _, [], _, h => by simp at h; omega
  | a, d :: ds, h₁, h₂ => by
    by_cases hw : w < a + d.size
    · exact ⟨a, d, by simp, h₁, hw⟩
    · have h₃ : w < a + d.size + total ds := by simp only [total_cons] at h₂; omega
      obtain ⟨x, b, hx, hxw⟩ := exists_placed_cover (Nat.le_of_not_lt hw) h₃
      exact ⟨x, b, List.mem_cons_of_mem _ hx, hxw⟩

theorem nodup_placed_addr : ∀ {a : Nat} {bs : List Block}, (∀ d ∈ bs, 0 < d.size) →
    ((placed a bs).map Prod.fst).Nodup
  | _, [], _ => List.nodup_nil
  | a, d :: ds, hs => by
    have hd := hs d (List.mem_cons_self _ _)
    refine List.nodup_cons.mpr ⟨fun h => ?_, nodup_placed_addr fun e he => hs e (List.mem_cons_of_mem _ he)⟩
    obtain ⟨⟨y, c⟩, hy, rfl⟩ := List.mem_map.mp h
    have := (mem_placed_bounds hy).1
    omega

/-- No two neighbouring blocks are both free, when those around `m` are allocated. -/
theorem coalesced_around {pre post : List Block} (m : Block) (hpre : Coalesced pre)
    (hpost : Coalesced post) (hp : ∀ p ∈ pre.getLast?, p.allocated = true)
    (hn : ∀ n ∈ post.head?, n.allocated = true) : Coalesced (pre ++ [m] ++ post) := by
  refine List.chain'_append.mpr ⟨List.chain'_append.mpr ⟨hpre, List.chain'_singleton _, ?_⟩,
    hpost, ?_⟩
  · exact fun p hp' _ _ => .inl (hp p hp')
  · intro p hp' n hn'
    exact .inr (hn n hn')

theorem coalesced_alloc {pre post : List Block} {m : Block} (hpre : Coalesced pre)
    (hpost : Coalesced post) (hm : m.allocated = true) : Coalesced (pre ++ [m] ++ post) :=
  List.chain'_append.mpr ⟨List.chain'_append.mpr ⟨hpre, List.chain'_singleton _,
    fun _ _ _ h => by simp_all⟩, hpost, fun _ h _ _ => by simp_all⟩

/-- Replacing a run of free blocks by blocks of the same total length keeps every allocated
block at its address. -/
theorem placed_keep_alloc {a x : Nat} {d : Block} {pre mid mid' post : List Block}
    (hx : (x, d) ∈ placed a (pre ++ mid ++ post)) (hd : d.allocated = true)
    (hfree : ∀ c ∈ mid, c.allocated = false) (htot : total mid' = total mid) :
    (x, d) ∈ placed a (pre ++ mid' ++ post) := by
  rw [mem_placed_mid] at hx ⊢
  rcases hx with hx | hx | hx
  · exact .inl hx
  · simp [hfree d (mem_placed_block hx)] at hd
  · exact .inr (.inr (htot ▸ hx))

/-- Tags read only the header and footer words. -/
theorem Tags.of_agree {σ σ' : Heap} {a : Nat} {bs : List Block} (h : Tags σ a bs)
    (hag : ∀ x b, (x, b) ∈ placed a bs → σ'.mem x = σ.mem x ∧
      σ'.mem (x + b.size - 8) = σ.mem (x + b.size - 8)) : Tags σ' a bs := by
  intro x b hx
  obtain ⟨h₁, h₂⟩ := hag x b hx
  simpa only [Heap.tag, Heap.blockSize, Heap.allocated, h₁, h₂] using h x b hx

/-- A word strictly inside a block, past its header and before its footer, is no block's
header or footer. -/
theorem interior_ne_tag {a y d : Nat} {c : Block} {bs : List Block} (hs : Sized bs)
    (hy : (y, c) ∈ placed a bs) (hd : 0 < d) (hdc : d + 8 < c.size) :
    ∀ x b, (x, b) ∈ placed a bs → y + d ≠ x ∧ y + d ≠ x + b.size - 8 := by
  intro x b hx
  have hb := (hs b (mem_placed_block hx)).1
  by_cases hxy : x = y
  · subst hxy
    have := placed_unique hs.pos hx hy
    subst this
    omega
  · rcases placed_disjoint hs.pos hx hy hxy with h | h <;> omega

/-- The link words of a block (`next` at +8, `prev` at +16) are no block's header or footer. -/
theorem link_ne_tag {a x y : Nat} {b c : Block} {bs : List Block} (hs : Sized bs)
    (hx : (x, b) ∈ placed a bs) (hy : (y, c) ∈ placed a bs) :
    (y ≠ x + 8 ∧ y ≠ x + 16) ∧ (y + c.size - 8 ≠ x + 8 ∧ y + c.size - 8 ≠ x + 16) := by
  have hb := (hs b (mem_placed_block hx)).1
  have h8 := interior_ne_tag hs hx (d := 8) (by omega) (by omega) y c hy
  have h16 := interior_ne_tag hs hx (d := 16) (by omega) (by omega) y c hy
  exact ⟨⟨h8.1.symm, h16.1.symm⟩, h8.2.symm, h16.2.symm⟩

end MallocLab.MM
