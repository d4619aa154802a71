import MallocLab.MMRun

/-! The part of `mm_init` both programs share: the first `CHUNKSIZE` bytes of the heap become
the prologue, one free block with NULL links, alone on its list, and the epilogue. -/
namespace MallocLab.MM

namespace Heap

theorem blockSize_store_of_ne (σ : Heap) {a b : Nat} (v : Nat) (h : b ≠ a) :
    (σ.store a v).blockSize b = σ.blockSize b := by
  simp [blockSize, σ.store_mem_of_ne v h]

theorem blockSize_writeHead_of_ne (σ : Heap) {h : HeadLoc} {a : Nat} (v : Nat)
    (hne : h ≠ .cell a) : (σ.writeHead h v).blockSize a = σ.blockSize a := by
  simp [blockSize, σ.writeHead_mem_of_ne v hne]

theorem tag_writeHead_of_ne (σ : Heap) {h : HeadLoc} {a : Nat} (v : Nat) (hne : h ≠ .cell a) :
    (σ.writeHead h v).tag a = σ.tag a := by
  simp [tag, blockSize, allocated, σ.writeHead_mem_of_ne v hne]

theorem readHead_setAllocated_of_ne (σ : Heap) {h : HeadLoc} {a : Nat} (v : Bool)
    (hne : h ≠ .cell a) : (σ.setAllocated a v).readHead h = σ.readHead h :=
  σ.readHead_store_of_ne _ hne

theorem readHead_setBlockSize_of_ne (σ : Heap) {h : HeadLoc} {a : Nat} (s : Nat)
    (hne : h ≠ .cell a) : (σ.setBlockSize a s).readHead h = σ.readHead h :=
  σ.readHead_store_of_ne _ hne

end Heap

/-- What both `mm_init`s do with the `CHUNKSIZE` bytes at `prologue`: the prologue, one free block
with NULL links at the head of the list at `h`, and the epilogue. The record of calls starts here. -/
def initChunk (σ : Heap) (prologue : Nat) (h : HeadLoc) : Heap :=
  let σ₁ := { σ with prologue := prologue, calls := [] }
  let σ₂ := (σ₁.setAllocated prologue true).setBlockSize prologue 8
  let initBlock := prologue + 8
  let σ₃ := (σ₂.setAllocated initBlock false).setBlockSize initBlock (chunkSize - 16)
  let σ₄ := (σ₃.setNext initBlock 0).setPrev initBlock 0
  let initFooter := getFooter σ₄ initBlock
  let σ₅ := (σ₄.setAllocated initFooter false).setBlockSize initFooter (σ₄.blockSize initBlock)
  let σ₆ := σ₅.writeHead h initBlock
  let epilogue := initBlock + σ₆.blockSize initBlock
  (σ₆.setAllocated epilogue true).setBlockSize epilogue 0

/-- The arena after `mm_init`: one free block of `CHUNKSIZE - OVERHEAD` bytes, alone on the list
of its class. -/
def initArena (L : FreeLists) (prologue : Nat) : Arena :=
  ⟨[⟨chunkSize - 16, false⟩], fun k => if k = L.cls (chunkSize - 16) then [prologue + 8] else []⟩

theorem initArena_inv (L : FreeLists) (prologue : Nat) :
    (initArena L prologue).Inv L (prologue + 8) := by
  have hk := L.cls_lt (chunkSize - 16) (by simp [chunkSize])
  refine ⟨⟨fun b hb => ?_, fun k => ?_, fun j k x hj hk => ?_, fun k x hx => ?_⟩,
    ⟨fun x b hx hb => ?_, fun k x b hx hxb => ?_⟩, List.chain'_singleton _⟩
  all_goals simp only [initArena, List.mem_singleton, placed_cons, placed_nil,
    Prod.mk.injEq] at *
  · subst hb; simp [chunkSize]
  · split_ifs <;> simp
  · split_ifs at hj hk <;> simp_all
  · split_ifs at hx with h
    · subst h; exact ⟨hk, _, ⟨List.mem_singleton.mp hx, rfl⟩, rfl⟩
    · simp at hx
  · obtain ⟨rfl, rfl⟩ := hx; simp
  · split_ifs at hx with h
    · obtain ⟨-, rfl⟩ := hxb; exact h
    · simp at hx

section Fields

variable (σ : Heap) (P : Nat) (h : HeadLoc)

@[simp] theorem initChunk_prologue : (initChunk σ P h).prologue = P := by simp [initChunk, Heap.setNext, Heap.setPrev]
@[simp] theorem initChunk_lo : (initChunk σ P h).lo = σ.lo := by simp [initChunk, Heap.setNext, Heap.setPrev]
@[simp] theorem initChunk_brk : (initChunk σ P h).brk = σ.brk := by simp [initChunk, Heap.setNext, Heap.setPrev]
@[simp] theorem initChunk_segListHead : (initChunk σ P h).segListHead = σ.segListHead := by
  simp [initChunk, Heap.setNext, Heap.setPrev]
@[simp] theorem initChunk_calls : (initChunk σ P h).calls = [] := by
  simp [initChunk, Heap.setNext, Heap.setPrev]

end Fields

/-- The words `initChunk` writes, with a list head kept below the chunk: the prologue, the free
block's header, links and footer, the epilogue and the head; every other head is kept. -/
theorem initChunk_spec (σ : Heap) (P : Nat) {h : HeadLoc} (hne : ∀ a, P ≤ a → h ≠ .cell a) :
    (initChunk σ P h).tag P = ⟨8, true⟩ ∧
      (initChunk σ P h).tag (P + 8) = ⟨chunkSize - 16, false⟩ ∧
      (initChunk σ P h).tag (P + 8 + (chunkSize - 16) - 8) = ⟨chunkSize - 16, false⟩ ∧
      (initChunk σ P h).tag (P + 8 + (chunkSize - 16)) = ⟨0, true⟩ ∧
      (initChunk σ P h).mem (P + 8 + 8) = 0 ∧ (initChunk σ P h).mem (P + 8 + 16) = 0 ∧
      (initChunk σ P h).readHead h = P + 8 ∧
      ∀ h', h' ≠ h → (∀ a, h' = .cell a → a < P) →
        (initChunk σ P h).readHead h' = σ.readHead h' := by
  refine ⟨?_, ?_, ?_, ?_, ?_, ?_, ?_, fun h' hh' hlt => ?_⟩
  rotate_left 7
  · cases h' with
    | cell c =>
      have := hlt c rfl
      simp (disch := first | omega | exact hh'.symm)
        only [Heap.readHead, initChunk, getFooter, chunkSize, Heap.setNext, Heap.setPrev,
          Heap.blockSize_store_of_ne, Heap.blockSize_setAllocated, Heap.blockSize_setBlockSize_self,
          Heap.blockSize_setBlockSize_of_ne, Heap.blockSize_writeHead_of_ne, Nat.reduceMod,
          Nat.reducePow, Nat.reduceSub, Heap.setAllocated_mem_of_ne, Heap.setBlockSize_mem_of_ne,
          Heap.writeHead_mem_of_ne, Heap.store_mem_of_ne]
    | global =>
      simp (disch := exact hh'.symm) only [Heap.readHead, initChunk, Heap.setNext, Heap.setPrev,
        Heap.store_head, Heap.setBlockSize_head, Heap.setAllocated_head, Heap.writeHead_head_of_ne]
  all_goals simp (disch := first | omega | (apply hne; omega))
    only [initChunk, getFooter, chunkSize, Heap.setNext, Heap.setPrev, Heap.blockSize_store_of_ne,
      Heap.blockSize_setAllocated, Heap.blockSize_setBlockSize_self, Heap.blockSize_setBlockSize_of_ne,
      Heap.blockSize_writeHead_of_ne, Nat.reduceMod, Nat.reducePow, Nat.reduceSub, Nat.reduceAdd,
      Heap.tag_setBlockSize_of_ne, Heap.tag_setAllocated_of_ne, Heap.tag_writeHead_of_ne,
      Heap.tag_store_of_ne, Heap.tag_setBlockSize_self, Heap.allocated_setAllocated_self,
      Heap.allocated_setBlockSize, Heap.setAllocated_mem_of_ne, Heap.setBlockSize_mem_of_ne,
      Heap.writeHead_mem_of_ne, Heap.store_mem_self, Heap.store_mem_of_ne,
      Heap.readHead_setBlockSize_of_ne, Heap.readHead_setAllocated_of_ne, Heap.readHead_writeHead]

/-- On the `CHUNKSIZE` bytes at the top of a heap whose lists are all empty and kept below them,
the shared part of `mm_init` builds `initArena`. -/
theorem initChunk_repr {L : FreeLists} {σ : Heap} {P : Nat} (hbrk : σ.brk = P + chunkSize)
    (hempty : ∀ k < L.numLists, k ≠ L.cls (chunkSize - 16) →
      σ.readHead (L.loc σ.segListHead k) = 0)
    (hslots : ∀ k < L.numLists, ∀ c, L.loc σ.segListHead k = .cell c → c < P) :
    Repr L (initChunk σ P (L.loc σ.segListHead (L.cls (chunkSize - 16)))) (initArena L P) := by
  have hk := L.cls_lt (chunkSize - 16) (by simp [chunkSize])
  obtain ⟨hpro, hhdr, hftr, hepi, hnext, hprev, hhead, hkeep⟩ :=
    initChunk_spec σ P fun a ha e => by have := hslots _ hk a e; omega
  refine ⟨by simpa using hpro, ?_, by simpa [initArena] using hepi, ?_, fun k hk' => ?_,
    fun k hk' c hc => by simpa using hslots k hk' c (by simpa using hc), by simp⟩
  · simpa [initArena, tags_cons] using ⟨hhdr, hftr⟩
  · simp only [initChunk_brk, initChunk_prologue, hbrk, initArena, total_cons, total_nil]
    unfold chunkSize
    omega
  · rw [initChunk_segListHead]
    by_cases hkc : k = L.cls (chunkSize - 16)
    · subst hkc
      rw [show (initArena L P).lists (L.cls (chunkSize - 16)) = [P + 8] from if_pos rfl]
      exact ⟨hhead, by simp [Linked, hnext, hprev]⟩
    · rw [show (initArena L P).lists k = [] from if_neg hkc]
      refine ⟨?_, by simp [Linked]⟩
      rw [hkeep _ (fun e => hkc (L.loc_inj _ _ _ hk' hk e)) (hslots k hk')]
      exact hempty k hk' hkc

/-- After the shared part of `mm_init`, on a heap whose lists other than the new block's are
empty and kept below the prologue, a run has its invariant with no live payload. -/
theorem initChunk_good {P : Program} {σ : Heap} {prologue : Nat}
    (hbrk : σ.brk = prologue + chunkSize) (hbase : prologue = σ.lo + P.base)
    (h8 : prologue % 8 = 0) (hb : P.base < 2^30)
    (hempty : ∀ k < P.L.numLists, k ≠ P.L.cls (chunkSize - 16) →
      σ.readHead (P.L.loc σ.segListHead k) = 0)
    (hslots : ∀ k < P.L.numLists, ∀ c, P.L.loc σ.segListHead k = .cell c → c < prologue) :
    P.Good ⟨initChunk σ prologue (P.L.loc σ.segListHead (P.L.cls (chunkSize - 16))), []⟩ := by
  refine ⟨⟨initArena P.L prologue, initChunk_repr hbrk hempty hslots, ?_,
    List.nodup_nil, by simp⟩, by simpa using hbase, by simpa using h8, ?_⟩
  · simpa using initArena_inv P.L prologue
  · simp only [initChunk_brk, initChunk_lo, hbrk, chunkSize]
    omega

end MallocLab.MM
