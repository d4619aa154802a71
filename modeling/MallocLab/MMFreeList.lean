import MallocLab.MMLayout
import Mathlib.Data.List.Nodup

/-! The explicit free lists: `list_push` and the two `list_pop`s, and the NULL-terminated doubly
linked list they maintain through the `next` and `prev` words of free blocks. -/
namespace MallocLab.MM

namespace Heap

@[simp] theorem writeHead_lo (σ : Heap) (h : HeadLoc) (v : Nat) : (σ.writeHead h v).lo = σ.lo := by
  cases h <;> rfl
@[simp] theorem writeHead_brk (σ : Heap) (h : HeadLoc) (v : Nat) :
    (σ.writeHead h v).brk = σ.brk := by
  cases h <;> rfl
@[simp] theorem writeHead_prologue (σ : Heap) (h : HeadLoc) (v : Nat) :
    (σ.writeHead h v).prologue = σ.prologue := by
  cases h <;> rfl
@[simp] theorem writeHead_segListHead (σ : Heap) (h : HeadLoc) (v : Nat) :
    (σ.writeHead h v).segListHead = σ.segListHead := by
  cases h <;> rfl

theorem writeHead_mem_of_ne (σ : Heap) {h : HeadLoc} {a : Nat} (v : Nat) (hne : h ≠ .cell a) :
    (σ.writeHead h v).mem a = σ.mem a := by
  cases h with
  | cell c => exact σ.store_mem_of_ne v fun e => hne (e ▸ rfl)
  | global => rfl

theorem writeHead_head_of_ne (σ : Heap) {h : HeadLoc} (v : Nat) (hne : h ≠ .global) :
    (σ.writeHead h v).head = σ.head := by
  cases h with
  | cell c => rfl
  | global => exact absurd rfl hne

@[simp] theorem readHead_writeHead (σ : Heap) (h : HeadLoc) (v : Nat) :
    (σ.writeHead h v).readHead h = v := by
  cases h <;> simp [readHead, writeHead]

theorem readHead_store_of_ne (σ : Heap) {h : HeadLoc} {a : Nat} (v : Nat) (hne : h ≠ .cell a) :
    (σ.store a v).readHead h = σ.readHead h := by
  cases h with
  | cell c => exact σ.store_mem_of_ne v fun e => hne (e ▸ rfl)
  | global => rfl

theorem readHead_writeHead_of_ne (σ : Heap) {h h' : HeadLoc} (v : Nat) (hne : h' ≠ h)
    (hg : h' = .global → h ≠ .global) : (σ.writeHead h v).readHead h' = σ.readHead h' := by
  cases h' with
  | cell c => exact σ.writeHead_mem_of_ne v fun e => hne e.symm
  | global => exact σ.writeHead_head_of_ne v (hg rfl)

end Heap

/-- `list_push` of both programs: `newblock` becomes the first block of the list at `h`. -/
def pushAt (σ : Heap) (h : HeadLoc) (newblock : Nat) : Heap :=
  if σ.readHead h = 0 then
    ((σ.writeHead h newblock).setPrev newblock 0).setNext newblock 0
  else
    let σ₁ := (σ.setNext newblock (σ.readHead h)).setPrev newblock 0
    (σ₁.setPrev (σ₁.readHead h) newblock).writeHead h newblock

/-- part_000's `list_pop`. The four cases are told apart by `removeblock`'s own links and the
head; the removed block's links are left as they were. -/
def popSeg (σ : Heap) (h : HeadLoc) (removeblock : Nat) : Heap :=
  if σ.prev removeblock = 0 ∧ σ.next removeblock = 0 then σ.writeHead h 0
  else if σ.readHead h = removeblock then
    let σ₁ := σ.writeHead h (σ.next removeblock)
    σ₁.setPrev (σ₁.next removeblock) 0
  else if σ.next removeblock = 0 then σ.setNext (σ.prev removeblock) 0
  else
    let σ₁ := σ.setPrev (σ.next removeblock) (σ.prev removeblock)
    σ₁.setNext (σ₁.prev removeblock) (σ₁.next removeblock)

/-- mm.c's `list_pop`: the same four cases, and the removed block's links are cleared
afterwards (its `prev` in every case, its `next` when it was alone or in the middle). -/
def popExplicit (σ : Heap) (h : HeadLoc) (removeblock : Nat) : Heap :=
  if σ.prev removeblock = 0 ∧ σ.next removeblock = 0 then
    ((σ.writeHead h 0).setNext removeblock 0).setPrev removeblock 0
  else if σ.readHead h = removeblock then
    let σ₁ := σ.writeHead h (σ.next removeblock)
    (σ₁.setPrev (σ₁.next removeblock) 0).setPrev removeblock 0
  else if σ.next removeblock = 0 then
    (σ.setNext (σ.prev removeblock) 0).setPrev removeblock 0
  else
    let σ₁ := σ.setPrev (σ.next removeblock) (σ.prev removeblock)
    let σ₂ := σ₁.setNext (σ₁.prev removeblock) (σ₁.next removeblock)
    (σ₂.setNext removeblock 0).setPrev removeblock 0

section Fields

variable (σ : Heap) (h : HeadLoc) (b : Nat)

@[simp] theorem pushAt_lo : (pushAt σ h b).lo = σ.lo := by
  unfold pushAt; split <;> simp [Heap.setNext, Heap.setPrev]
@[simp] theorem pushAt_brk : (pushAt σ h b).brk = σ.brk := by
  unfold pushAt; split <;> simp [Heap.setNext, Heap.setPrev]
@[simp] theorem pushAt_prologue : (pushAt σ h b).prologue = σ.prologue := by
  unfold pushAt; split <;> simp [Heap.setNext, Heap.setPrev]
@[simp] theorem pushAt_segListHead : (pushAt σ h b).segListHead = σ.segListHead := by
  unfold pushAt; split <;> simp [Heap.setNext, Heap.setPrev]
@[simp] theorem pushAt_calls : (pushAt σ h b).calls = σ.calls := by
  unfold pushAt; split <;> simp [Heap.setNext, Heap.setPrev]

@[simp] theorem popSeg_lo : (popSeg σ h b).lo = σ.lo := by
  unfold popSeg; split_ifs <;> simp [Heap.setNext, Heap.setPrev]
@[simp] theorem popSeg_brk : (popSeg σ h b).brk = σ.brk := by
  unfold popSeg; split_ifs <;> simp [Heap.setNext, Heap.setPrev]
@[simp] theorem popSeg_prologue : (popSeg σ h b).prologue = σ.prologue := by
  unfold popSeg; split_ifs <;> simp [Heap.setNext, Heap.setPrev]
@[simp] theorem popSeg_segListHead : (popSeg σ h b).segListHead = σ.segListHead := by
  unfold popSeg; split_ifs <;> simp [Heap.setNext, Heap.setPrev]
@[simp] theorem popSeg_calls : (popSeg σ h b).calls = σ.calls := by
  unfold popSeg; split_ifs <;> simp [Heap.setNext, Heap.setPrev]

@[simp] theorem popExplicit_lo : (popExplicit σ h b).lo = σ.lo := by
  unfold popExplicit; split_ifs <;> simp [Heap.setNext, Heap.setPrev]
@[simp] theorem popExplicit_brk : (popExplicit σ h b).brk = σ.brk := by
  unfold popExplicit; split_ifs <;> simp [Heap.setNext, Heap.setPrev]
@[simp] theorem popExplicit_prologue : (popExplicit σ h b).prologue = σ.prologue := by
  unfold popExplicit; split_ifs <;> simp [Heap.setNext, Heap.setPrev]
@[simp] theorem popExplicit_segListHead : (popExplicit σ h b).segListHead = σ.segListHead := by
  unfold popExplicit; split_ifs <;> simp [Heap.setNext, Heap.setPrev]
@[simp] theorem popExplicit_calls : (popExplicit σ h b).calls = σ.calls := by
  unfold popExplicit; split_ifs <;> simp [Heap.setNext, Heap.setPrev]

end Fields

/-- `x` links forward to `y` and `y` back to `x`; NULL ends the list on either side. -/
def Linked (m : Mem) (x y : Nat) : Prop := (x ≠ 0 → m (x + 8) = y) ∧ (y ≠ 0 → m (y + 16) = x)

/-- The list at `h` holds the blocks `l` in order, NULL-terminated both ways. -/
def Heap.FreeList (σ : Heap) (h : HeadLoc) (l : List Nat) : Prop :=
  σ.readHead h = l.headD 0 ∧ (0 :: l ++ [0]).Chain' (Linked σ.mem)

/-- What the list code relies on: the blocks are non-NULL, distinct, at least 16 bytes apart,
and the head is kept in none of their link words. -/
structure NodesSep (h : HeadLoc) (l : List Nat) : Prop where
  ne_zero : ∀ x ∈ l, x ≠ 0
  nodup : l.Nodup
  spaced : ∀ x ∈ l, ∀ y ∈ l, x ≠ y → x + 16 ≤ y ∨ y + 16 ≤ x
  clear : ∀ x ∈ l, h ≠ .cell (x + 8) ∧ h ≠ .cell (x + 16)

/-- `σ'` holds the list `l'` at `h` and differs from `σ` at most in the head and in link words
of the blocks `ns`. -/
structure ListEdit (σ σ' : Heap) (h : HeadLoc) (ns l' : List Nat) : Prop where
  list : σ'.FreeList h l'
  mem : ∀ a, (∀ x ∈ ns, a ≠ x + 8 ∧ a ≠ x + 16) → h ≠ .cell a → σ'.mem a = σ.mem a
  head : h ≠ .global → σ'.head = σ.head

theorem getLast?_cons_concat {α : Type} (a x : α) (l : List α) :
    (a :: (l ++ [x])).getLast? = some x := by
  rw [← List.cons_append, List.getLast?_concat]

/-- A chain `p :: l ++ [q]` reads the `next` words of `p` and `l` and the `prev` words of `l`
and `q`, nothing else. -/
theorem chain_transport {m m' : Mem} {q : Nat} :
    ∀ {p : Nat} {l : List Nat}, (p :: l ++ [q]).Chain' (Linked m) →
      (∀ a, (a = p ∨ a ∈ l) → a ≠ 0 → m' (a + 8) = m (a + 8)) →
      (∀ b, (b ∈ l ∨ b = q) → b ≠ 0 → m' (b + 16) = m (b + 16)) →
      (p :: l ++ [q]).Chain' (Linked m')
  | p, [], h, hn, hp => by
    simp only [List.cons_append, List.nil_append, List.chain'_cons, List.chain'_singleton,
      and_true] at h ⊢
    exact ⟨fun hp0 => (hn p (.inl rfl) hp0).trans (h.1 hp0),
      fun hq0 => (hp q (.inr rfl) hq0).trans (h.2 hq0)⟩
  | p, a :: l, h, hn, hp => by
    simp only [List.cons_append, List.chain'_cons] at h ⊢
    refine ⟨⟨fun hp0 => (hn p (.inl rfl) hp0).trans (h.1.1 hp0),
      fun ha0 => (hp a (.inl (List.mem_cons_self _ _)) ha0).trans (h.1.2 ha0)⟩, ?_⟩
    have := chain_transport (p := a) (l := l) (by simpa using h.2)
      (fun b hb => hn b (.inr (hb.elim (· ▸ List.mem_cons_self _ _) (List.mem_cons_of_mem _))))
      (fun b hb => hp b (hb.imp_left (List.mem_cons_of_mem _)))
    simpa using this

theorem Heap.FreeList.of_agree {σ σ' : Heap} {h : HeadLoc} {l : List Nat} (hl : σ.FreeList h l)
    (hh : σ'.readHead h = σ.readHead h)
    (hm : ∀ x ∈ l, σ'.mem (x + 8) = σ.mem (x + 8) ∧ σ'.mem (x + 16) = σ.mem (x + 16)) :
    σ'.FreeList h l :=
  ⟨hh.trans hl.1, chain_transport hl.2
    (fun a ha ha0 => (hm a (ha.resolve_left ha0)).1)
    (fun b hb hb0 => (hm b (hb.resolve_right hb0)).2)⟩

theorem NodesSep.next_ne_prev {h : HeadLoc} {l : List Nat} (hs : NodesSep h l) {x y : Nat}
    (hx : x ∈ l) (hy : y ∈ l) : x + 8 ≠ y + 16 := by
  by_cases hxy : x = y
  · omega
  · rcases hs.spaced x hx y hy hxy with h | h <;> omega

/-- `list_push` puts `nb` in front and writes only the head, `nb`'s links and the old first
block's `prev`. -/
theorem pushAt_spec {σ : Heap} {h : HeadLoc} {l : List Nat} {nb : Nat} (hl : σ.FreeList h l)
    (hs : NodesSep h (nb :: l)) : ListEdit σ (pushAt σ h nb) h (nb :: l) (nb :: l) := by
  have hnb : nb ≠ 0 := hs.ne_zero nb (List.mem_cons_self _ _)
  obtain ⟨hc8, hc16⟩ := hs.clear nb (List.mem_cons_self _ _)
  rcases l with _ | ⟨z, l⟩
  · have h0 : σ.readHead h = 0 := hl.1
    simp only [pushAt, h0, if_true]
    refine ⟨⟨?_, ?_⟩, fun a ha hha => ?_, fun hg => ?_⟩
    · simp (disch := first | assumption | omega) only [Heap.setNext, Heap.setPrev,
        Heap.readHead_store_of_ne, Heap.readHead_writeHead, List.headD_cons]
    · simp (disch := first | assumption | omega) only [Heap.setNext, Heap.setPrev, List.cons_append,
        List.nil_append, List.chain'_cons, List.chain'_singleton, Linked, Heap.store_mem_self,
        Heap.store_mem_of_ne]
      simp
    · have := ha nb (List.mem_cons_self _ _)
      simp (disch := first | assumption | omega) only [Heap.setNext, Heap.setPrev,
        Heap.store_mem_of_ne, Heap.writeHead_mem_of_ne]
    · simp only [Heap.setNext, Heap.setPrev, Heap.store_head, Heap.writeHead_head_of_ne _ _ hg]
  · have hz : σ.readHead h = z := hl.1
    have hz0 : z ≠ 0 := hs.ne_zero z (by simp)
    obtain ⟨hz8, hz16⟩ := hs.clear z (by simp)
    have hnd := hs.nodup
    simp only [List.nodup_cons, List.mem_cons, not_or] at hnd
    have h1 := hs.next_ne_prev (List.mem_cons_self _ _) (by simp : z ∈ nb :: z :: l)
    have h2 := hs.next_ne_prev (by simp : z ∈ nb :: z :: l) (List.mem_cons_self _ _)
    simp only [pushAt, hz, hz0, if_false]
    refine ⟨⟨by simp, ?_⟩, fun a ha hha => ?_, fun hg => ?_⟩
    · have hc := hl.2
      simp only [List.cons_append, List.chain'_cons] at hc ⊢
      refine ⟨?_, ?_, ?_⟩
      · simp (disch := first | assumption | omega) only [Linked, Heap.setNext, Heap.setPrev,
          Heap.readHead_store_of_ne, hz, Heap.writeHead_mem_of_ne, Heap.store_mem_of_ne,
          Heap.store_mem_self]
        simp
      · simp (disch := first | assumption | omega) only [Linked, Heap.setNext, Heap.setPrev,
          Heap.readHead_store_of_ne, hz, Heap.writeHead_mem_of_ne, Heap.store_mem_of_ne,
          Heap.store_mem_self]
        simp
      · rw [← List.cons_append]
        refine chain_transport (by simpa using hc.2) (fun a ha _ => ?_) (fun b hb hb0 => ?_)
        · have ham : a ∈ nb :: z :: l := by rcases ha with rfl | ha <;> simp [*]
          have h3 := hs.next_ne_prev ham (List.mem_cons_self _ _)
          have h4 := hs.next_ne_prev ham (by simp : z ∈ nb :: z :: l)
          have h5 := (hs.clear a ham).1
          have hane : a ≠ nb := by rintro rfl; rcases ha with rfl | ha <;> simp_all
          simp (disch := first | assumption | omega) only [Heap.setNext, Heap.setPrev,
            Heap.readHead_store_of_ne, hz, Heap.writeHead_mem_of_ne, Heap.store_mem_of_ne]
        · have hb' : b ∈ l := hb.resolve_right hb0
          have hbm : b ∈ nb :: z :: l := by simp [hb']
          have h3 := hs.next_ne_prev (List.mem_cons_self _ _) hbm
          have h5 := (hs.clear b hbm).2
          have hbz : b ≠ z := fun e => hnd.2.1 (e ▸ hb')
          have hbn : b ≠ nb := fun e => hnd.1.2 (e ▸ hb')
          simp (disch := first | assumption | omega) only [Heap.setNext, Heap.setPrev,
            Heap.readHead_store_of_ne, hz, Heap.writeHead_mem_of_ne, Heap.store_mem_of_ne]
    · have := ha nb (List.mem_cons_self _ _)
      have := ha z (by simp)
      simp (disch := first | assumption | omega) only [Heap.setNext, Heap.setPrev,
        Heap.readHead_store_of_ne, hz, Heap.writeHead_mem_of_ne, Heap.store_mem_of_ne]
    · simp only [Heap.setNext, Heap.setPrev, Heap.store_head, Heap.writeHead_head_of_ne _ _ hg]


theorem chain_split_mid (m : Mem) (l₁ l₂ : List Nat) (x y : Nat) :
    ((0 :: (l₁ ++ [x] ++ y :: l₂)) ++ [0]).Chain' (Linked m) ↔
      ((0 :: l₁) ++ [x]).Chain' (Linked m) ∧ Linked m x y ∧ ((y :: l₂) ++ [0]).Chain' (Linked m) := by
  have e : (0 :: (l₁ ++ [x] ++ y :: l₂)) ++ [0] = ((0 :: l₁) ++ [x]) ++ ((y :: l₂) ++ [0]) := by simp
  rw [e, List.chain'_append]
  simp only [List.cons_append, getLast?_cons_concat, List.head?_cons, Option.mem_def,
    Option.some.injEq, forall_eq']
  tauto

theorem headD_concat_append (l₁ t : List Nat) (x : Nat) :
    (l₁ ++ [x] ++ t).headD 0 = (l₁ ++ [x]).headD 0 ∧ (l₁ ++ [x]).headD 0 ∈ l₁ ++ [x] := by
  cases l₁ <;> simp

theorem nodup_mid {l₁ l₂ : List Nat} {y : Nat} (h : (l₁ ++ y :: l₂).Nodup) :
    y ∉ l₁ ∧ y ∉ l₂ ∧ (∀ a ∈ l₁, a ∉ l₂) ∧ l₁.Nodup ∧ l₂.Nodup := by
  rw [List.nodup_middle, List.nodup_cons, List.nodup_append] at h
  simp only [List.mem_append, not_or] at h
  exact ⟨h.1.1, h.1.2, fun a ha hb => h.2.2.2 ha hb, h.2.1, h.2.2.1⟩

theorem popSeg_mid {σ : Heap} {h : HeadLoc} {l₁ l₂ : List Nat} {x y z : Nat}
    (hl : σ.FreeList h (l₁ ++ [x] ++ y :: z :: l₂)) (hs : NodesSep h (l₁ ++ [x] ++ y :: z :: l₂)) :
    ListEdit σ (popSeg σ h y) h (l₁ ++ [x] ++ y :: z :: l₂) (l₁ ++ [x] ++ z :: l₂) := by
  obtain ⟨hh, hc⟩ := hl
  rw [chain_split_mid] at hc
  obtain ⟨hc₁, ⟨hxy, hyx⟩, hc₂⟩ := hc
  simp only [List.cons_append, List.chain'_cons] at hc₂
  obtain ⟨⟨hyz, hzy⟩, hc₂⟩ := hc₂
  have hxm : x ∈ l₁ ++ [x] ++ y :: z :: l₂ := by simp
  have hym : y ∈ l₁ ++ [x] ++ y :: z :: l₂ := by simp
  have hzm : z ∈ l₁ ++ [x] ++ y :: z :: l₂ := by simp
  have hx0 := hs.ne_zero x hxm
  have hy0 := hs.ne_zero y hym
  have hz0 := hs.ne_zero z hzm
  obtain ⟨hy₁, hy₂, hd, hn₁, hn₂⟩ := nodup_mid hs.nodup
  have hyz' : y ≠ z := fun e => hy₂ (e ▸ List.mem_cons_self _ _)
  have hxz : x ≠ z := fun e => hd x (by simp) (e ▸ List.mem_cons_self _ _)
  obtain ⟨hhd, hhm⟩ := headD_concat_append l₁ (y :: z :: l₂) x
  have hhy : σ.readHead h ≠ y := fun e => hy₁ (by rw [← e, hh, hhd]; exact hhm)
  obtain ⟨hcx8, hcx16⟩ := hs.clear x hxm
  obtain ⟨hcy8, hcy16⟩ := hs.clear y hym
  obtain ⟨hcz8, hcz16⟩ := hs.clear z hzm
  have h1 := hs.next_ne_prev hym hzm
  have h2 := hs.next_ne_prev hxm hzm
  have e : popSeg σ h y = (σ.setPrev z x).setNext x z := by
    simp (disch := first | assumption | omega) only [popSeg, Heap.prev, Heap.next, hyx hy0,
      hyz hy0, hx0, hz0, hhy, false_and, and_false, if_false, Heap.setPrev, Heap.store_mem_of_ne]
  rw [e]
  have hxl : x ∉ l₁ := fun hx => (List.nodup_append.mp hn₁).2.2 hx (List.mem_singleton_self x)
  have hzl : z ∉ l₂ := (List.nodup_cons.mp hn₂).1
  refine ⟨⟨?_, ?_⟩, fun a ha hha => ?_, fun _ => rfl⟩
  · simp (disch := first | assumption | omega) only [Heap.setNext, Heap.setPrev,
      Heap.readHead_store_of_ne, hh, hhd, (headD_concat_append l₁ (z :: l₂) x).1]
  · rw [chain_split_mid]
    refine ⟨chain_transport hc₁ (fun a ha ha0 => ?_) (fun b hb hb0 => ?_), ⟨fun _ => ?_, fun _ => ?_⟩,
      chain_transport (by simpa using hc₂) (fun a ha ha0 => ?_) (fun b hb hb0 => ?_)⟩
    · have ha' : a ∈ l₁ := ha.resolve_left ha0
      have := hs.next_ne_prev (x := a) (List.mem_append_left _ (List.mem_append_left _ ha')) hzm
      have : a ≠ x := fun e => hxl (e ▸ ha')
      simp (disch := first | assumption | omega) only [Heap.setNext, Heap.setPrev,
        Heap.store_mem_of_ne]
    · have hbm : b ∈ l₁ ++ [x] := by rcases hb with hb | rfl <;> simp [*]
      have := hs.next_ne_prev hxm (List.mem_append_left _ hbm)
      have : b ≠ z := fun e => hd b hbm (e ▸ List.mem_cons_self _ _)
      simp (disch := first | assumption | omega) only [Heap.setNext, Heap.setPrev,
        Heap.store_mem_of_ne]
    · simp [Heap.setNext]
    · simp (disch := first | assumption | omega) only [Heap.setNext, Heap.setPrev,
        Heap.store_mem_of_ne, Heap.store_mem_self]
    · have ham : a ∈ z :: l₂ := by rcases ha with rfl | ha <;> simp [*]
      have := hs.next_ne_prev (x := a) (List.mem_append_right _ (List.mem_cons_of_mem y ham)) hzm
      have : a ≠ x := fun e => hd x (by simp) (e ▸ ham)
      simp (disch := first | assumption | omega) only [Heap.setNext, Heap.setPrev,
        Heap.store_mem_of_ne]
    · have hb' : b ∈ l₂ := hb.resolve_right hb0
      have := hs.next_ne_prev hxm
        (List.mem_append_right _ (List.mem_cons_of_mem y (List.mem_cons_of_mem z hb')))
      have : b ≠ z := fun e => hzl (e ▸ hb')
      simp (disch := first | assumption | omega) only [Heap.setNext, Heap.setPrev,
        Heap.store_mem_of_ne]
  · have := ha x hxm
    have := ha z hzm
    simp (disch := first | assumption | omega) only [Heap.setNext, Heap.setPrev,
      Heap.store_mem_of_ne]

theorem chain_split_last (m : Mem) (l₁ : List Nat) (x : Nat) :
    ((0 :: (l₁ ++ [x])) ++ [0]).Chain' (Linked m) ↔
      ((0 :: l₁) ++ [x]).Chain' (Linked m) ∧ Linked m x 0 := by
  rw [List.chain'_append]
  simp [getLast?_cons_concat]

theorem popSeg_sole {σ : Heap} {h : HeadLoc} {y : Nat} (hl : σ.FreeList h [y])
    (hs : NodesSep h [y]) : ListEdit σ (popSeg σ h y) h [y] [] := by
  obtain ⟨-, hc⟩ := hl
  simp only [List.cons_append, List.nil_append, List.chain'_cons, List.chain'_singleton, and_true,
    Linked] at hc
  have hy0 := hs.ne_zero y (List.mem_singleton_self y)
  have e : popSeg σ h y = σ.writeHead h 0 := by
    simp [popSeg, Heap.prev, Heap.next, hc.1.2 hy0, hc.2.1 hy0]
  rw [e]
  exact ⟨⟨by simp, by simp [Linked]⟩, fun a _ hha => σ.writeHead_mem_of_ne 0 hha,
    fun hg => σ.writeHead_head_of_ne 0 hg⟩

theorem popSeg_first {σ : Heap} {h : HeadLoc} {l₂ : List Nat} {y z : Nat}
    (hl : σ.FreeList h (y :: z :: l₂)) (hs : NodesSep h (y :: z :: l₂)) :
    ListEdit σ (popSeg σ h y) h (y :: z :: l₂) (z :: l₂) := by
  obtain ⟨hh, hc⟩ := hl
  simp only [List.cons_append, List.chain'_cons] at hc
  obtain ⟨-, ⟨hyz, -⟩, hc⟩ := hc
  have hym : y ∈ y :: z :: l₂ := List.mem_cons_self _ _
  have hzm : z ∈ y :: z :: l₂ := by simp
  have hy0 := hs.ne_zero y hym
  have hz0 := hs.ne_zero z hzm
  obtain ⟨hcy8, -⟩ := hs.clear y hym
  obtain ⟨hcz8, hcz16⟩ := hs.clear z hzm
  have hn := hs.nodup
  simp only [List.nodup_cons, List.mem_cons, not_or] at hn
  have e : popSeg σ h y = (σ.writeHead h z).setPrev z 0 := by
    simp (disch := first | assumption | omega) only [popSeg, Heap.prev, Heap.next, hyz hy0, hz0,
      and_false, if_false, hh, List.headD_cons, if_true, Heap.writeHead_mem_of_ne]
  rw [e]
  refine ⟨⟨?_, ?_⟩, fun a ha hha => ?_, fun hg => ?_⟩
  · simp (disch := first | assumption | omega) only [Heap.setPrev, Heap.readHead_store_of_ne,
      Heap.readHead_writeHead, List.headD_cons]
  · simp only [List.cons_append, List.chain'_cons]
    refine ⟨by simp [Linked, Heap.setPrev], ?_⟩
    rw [← List.cons_append]
    refine chain_transport (by simpa using hc) (fun a ha _ => ?_) (fun b hb hb0 => ?_)
    · have ham : a ∈ y :: z :: l₂ := by rcases ha with rfl | ha <;> simp [*]
      have := hs.next_ne_prev ham hzm
      have := (hs.clear a ham).1
      simp (disch := first | assumption | omega) only [Heap.setPrev, Heap.store_mem_of_ne,
        Heap.writeHead_mem_of_ne]
    · have hb' : b ∈ l₂ := hb.resolve_right hb0
      have hbm : b ∈ y :: z :: l₂ := by simp [hb']
      have := (hs.clear b hbm).2
      have : b ≠ z := fun e => hn.2.1 (e ▸ hb')
      simp (disch := first | assumption | omega) only [Heap.setPrev, Heap.store_mem_of_ne,
        Heap.writeHead_mem_of_ne]
  · have := ha z hzm
    simp (disch := first | assumption | omega) only [Heap.setPrev, Heap.store_mem_of_ne,
      Heap.writeHead_mem_of_ne]
  · simp only [Heap.setPrev, Heap.store_head, Heap.writeHead_head_of_ne _ _ hg]

theorem popSeg_last {σ : Heap} {h : HeadLoc} {l₁ : List Nat} {x y : Nat}
    (hl : σ.FreeList h (l₁ ++ [x] ++ [y])) (hs : NodesSep h (l₁ ++ [x] ++ [y])) :
    ListEdit σ (popSeg σ h y) h (l₁ ++ [x] ++ [y]) (l₁ ++ [x]) := by
  obtain ⟨hh, hc⟩ := hl
  rw [chain_split_mid] at hc
  obtain ⟨hc₁, ⟨-, hyx⟩, hc₂⟩ := hc
  simp only [List.cons_append, List.nil_append, List.chain'_cons, List.chain'_singleton,
    and_true] at hc₂
  have hxm : x ∈ l₁ ++ [x] ++ [y] := by simp
  have hym : y ∈ l₁ ++ [x] ++ [y] := by simp
  have hx0 := hs.ne_zero x hxm
  have hy0 := hs.ne_zero y hym
  obtain ⟨hy₁, -, -, hn₁, -⟩ := nodup_mid hs.nodup
  obtain ⟨hhd, hhm⟩ := headD_concat_append l₁ [y] x
  have hhy : σ.readHead h ≠ y := fun e => hy₁ (by rw [← e, hh, hhd]; exact hhm)
  obtain ⟨hcx8, -⟩ := hs.clear x hxm
  have e : popSeg σ h y = σ.setNext x 0 := by
    simp only [popSeg, Heap.prev, Heap.next, hyx hy0, hc₂.1 hy0, hx0, hhy, false_and, if_false,
      if_true]
  rw [e]
  have hxl : x ∉ l₁ := fun hx => (List.nodup_append.mp hn₁).2.2 hx (List.mem_singleton_self x)
  refine ⟨⟨?_, ?_⟩, fun a ha hha => ?_, fun _ => rfl⟩
  · simp (disch := first | assumption | omega) only [Heap.setNext, Heap.readHead_store_of_ne, hh,
      hhd]
  · rw [chain_split_last]
    refine ⟨chain_transport hc₁ (fun a ha ha0 => ?_) (fun b hb hb0 => ?_), by simp [Linked, Heap.setNext]⟩
    · have ha' : a ∈ l₁ := ha.resolve_left ha0
      have : a ≠ x := fun e => hxl (e ▸ ha')
      simp (disch := omega) only [Heap.setNext, Heap.store_mem_of_ne]
    · have hbm : b ∈ l₁ ++ [x] := by rcases hb with hb | rfl <;> simp [*]
      have := hs.next_ne_prev hxm (List.mem_append_left _ hbm)
      simp (disch := omega) only [Heap.setNext, Heap.store_mem_of_ne]
  · have := ha x hxm
    simp (disch := omega) only [Heap.setNext, Heap.store_mem_of_ne]

/-- part_000's `list_pop` removes `y` from wherever it stands in the list. -/
theorem popSeg_spec {σ : Heap} {h : HeadLoc} {l₁ l₂ : List Nat} {y : Nat}
    (hl : σ.FreeList h (l₁ ++ y :: l₂)) (hs : NodesSep h (l₁ ++ y :: l₂)) :
    ListEdit σ (popSeg σ h y) h (l₁ ++ y :: l₂) (l₁ ++ l₂) := by
  rcases l₁.eq_nil_or_concat with rfl | ⟨l₁, x, rfl⟩ <;> rcases l₂ with _ | ⟨z, l₂⟩
  · exact popSeg_sole hl hs
  · exact popSeg_first hl hs
  · simp only [List.concat_eq_append, List.append_nil] at hl hs ⊢
    exact popSeg_last hl hs
  · simp only [List.concat_eq_append] at hl hs ⊢
    exact popSeg_mid hl hs

theorem ListEdit.store_own {σ σ' : Heap} {h : HeadLoc} {ns l' : List Nat} {y w : Nat}
    (he : ListEdit σ σ' h ns l') (hs : NodesSep h ns) (hy : y ∈ ns) (hyl : y ∉ l')
    (hl' : ∀ x ∈ l', x ∈ ns) (hw : w = y + 8 ∨ w = y + 16) (v : Nat) :
    ListEdit σ (σ'.store w v) h ns l' := by
  have hc := hs.clear y hy
  have hhw : h ≠ .cell w := by rcases hw with rfl | rfl <;> simp [hc]
  refine ⟨he.list.of_agree (σ'.readHead_store_of_ne v hhw) fun x hx => ?_, fun a ha hha => ?_,
    fun hg => he.head hg⟩
  · have hxy : x ≠ y := fun e => hyl (e ▸ hx)
    have h1 := hs.next_ne_prev (hl' x hx) hy
    have h2 := hs.next_ne_prev hy (hl' x hx)
    exact ⟨σ'.store_mem_of_ne v (by omega), σ'.store_mem_of_ne v (by omega)⟩
  · have := ha y hy
    rw [σ'.store_mem_of_ne v (by omega), he.mem a ha hha]

theorem popExplicit_eq (σ : Heap) (h : HeadLoc) (y : Nat) :
    popExplicit σ h y =
      if σ.prev y = 0 ∧ σ.next y = 0 then ((popSeg σ h y).setNext y 0).setPrev y 0
      else if σ.readHead h = y then (popSeg σ h y).setPrev y 0
      else if σ.next y = 0 then (popSeg σ h y).setPrev y 0
      else ((popSeg σ h y).setNext y 0).setPrev y 0 := by
  unfold popExplicit popSeg
  split_ifs <;> rfl

/-- mm.c's `list_pop` removes `y` just as part_000's does; clearing `y`'s own links touches no
other list word. -/
theorem popExplicit_spec {σ : Heap} {h : HeadLoc} {l₁ l₂ : List Nat} {y : Nat}
    (hl : σ.FreeList h (l₁ ++ y :: l₂)) (hs : NodesSep h (l₁ ++ y :: l₂)) :
    ListEdit σ (popExplicit σ h y) h (l₁ ++ y :: l₂) (l₁ ++ l₂) := by
  have he := popSeg_spec hl hs
  have hy : y ∈ l₁ ++ y :: l₂ := by simp
  have hyl : y ∉ l₁ ++ l₂ := by
    obtain ⟨h₁, h₂, -⟩ := nodup_mid hs.nodup
    simp [h₁, h₂]
  have hsub : ∀ x ∈ l₁ ++ l₂, x ∈ l₁ ++ y :: l₂ := by simp +contextual [or_imp]
  rw [popExplicit_eq]
  split_ifs
  all_goals first
    | exact ((he.store_own hs hy hyl hsub (.inl rfl) 0).store_own hs hy hyl hsub (.inr rfl) 0)
    | exact he.store_own hs hy hyl hsub (.inr rfl) 0

theorem ListEdit.written {σ σ' : Heap} {h : HeadLoc} {ns l' : List Nat} (he : ListEdit σ σ' h ns l')
    {a : Nat} (ha : σ'.mem a ≠ σ.mem a) : h = .cell a ∨ ∃ y ∈ ns, a = y + 8 ∨ a = y + 16 := by
  by_contra hc
  simp only [not_or, not_exists, not_and] at hc
  exact ha (he.mem a (fun y hy => hc.2 y hy) hc.1)

/-- An edit of the list at `h` keeps a list at another head whose blocks and head word it
does not share. -/
theorem ListEdit.other {σ σ' : Heap} {h h' : HeadLoc} {ns l' m : List Nat}
    (he : ListEdit σ σ' h ns l') (hm : σ.FreeList h' m) (hhh : h' ≠ h)
    (hcell : ∀ c, h' = .cell c → ∀ x ∈ ns, c ≠ x + 8 ∧ c ≠ x + 16)
    (hsep : ∀ y ∈ m, ∀ x ∈ ns, y + 8 ≠ x + 8 ∧ y + 8 ≠ x + 16 ∧ y + 16 ≠ x + 8 ∧ y + 16 ≠ x + 16)
    (hcl : ∀ y ∈ m, h ≠ .cell (y + 8) ∧ h ≠ .cell (y + 16)) : σ'.FreeList h' m := by
  refine hm.of_agree ?_ fun y hy => ?_
  · cases h' with
    | cell c =>
      exact he.mem c (fun x hx => hcell c rfl x hx) fun e => hhh e.symm
    | global =>
      exact he.head fun e => hhh e.symm
  · have := hsep y hy
    exact ⟨he.mem _ (fun x hx => ⟨(this x hx).1, (this x hx).2.1⟩) (hcl y hy).1,
      he.mem _ (fun x hx => ⟨(this x hx).2.2.1, (this x hx).2.2.2⟩) (hcl y hy).2⟩

end MallocLab.MM
