import Mathlib.Logic.Function.Basic
import Mathlib.Algebra.Group.Nat.Basic

/-! Memory, the boundary-tag word and the heap extender, shared by `mm.c` and `part_000`.

Memory keeps one cell per 8-aligned address, the value of the 64-bit word there. A header or
footer word is `header_t`: `allocated` in bit 0, `block_size` in bits 1 to 31, the high half
unused. A free block keeps its `next` and `prev` links in the two words after its header. -/
namespace MallocLab.MM

/-- The value of the word at each 8-aligned address. -/
abbrev Mem := Nat → Nat

/-- The `allocated : 1` bit-field of a header word. -/
def hdrAllocated (w : Nat) : Bool := w % 2 == 1

/-- The `block_size : 31` bit-field of a header word. -/
def hdrBlockSize (w : Nat) : Nat := w / 2 % 2^31

/-- A store into `allocated` keeps the other bits. -/
def setHdrAllocated (w : Nat) (a : Bool) : Nat := w / 2 * 2 + a.toNat

/-- A store into `block_size` truncates to 31 bits and keeps the other bits. -/
def setHdrBlockSize (w s : Nat) : Nat := w / 2^32 * 2^32 + s % 2^31 * 2 + w % 2

@[simp] theorem hdrAllocated_setHdrAllocated (w : Nat) (a : Bool) :
    hdrAllocated (setHdrAllocated w a) = a := by
  cases a <;> simp [hdrAllocated, setHdrAllocated]
  omega

@[simp] theorem hdrBlockSize_setHdrAllocated (w : Nat) (a : Bool) :
    hdrBlockSize (setHdrAllocated w a) = hdrBlockSize w := by
  cases a <;> simp [hdrBlockSize, setHdrAllocated]
  omega

@[simp] theorem hdrAllocated_setHdrBlockSize (w s : Nat) :
    hdrAllocated (setHdrBlockSize w s) = hdrAllocated w := by
  simp only [hdrAllocated, setHdrBlockSize]
  congr 1
  omega

@[simp] theorem hdrBlockSize_setHdrBlockSize (w s : Nat) :
    hdrBlockSize (setHdrBlockSize w s) = s % 2^31 := by
  simp only [hdrBlockSize, setHdrBlockSize]
  omega

/-- What a header or footer says about its block. -/
structure Block where
  size : Nat
  allocated : Bool
deriving DecidableEq, Repr

/-- The allocator's state: memory, memlib's bounds, the programs' globals and, as ghost state no
code reads, the block size and index of every `list_push` and `list_pop`, the latest first. -/
structure Heap where
  mem : Mem
  lo : Nat
  brk : Nat
  prologue : Nat
  segListHead : Nat
  head : Nat
  calls : List (Nat × Int)

namespace Heap

/-- Write one word. -/
def store (σ : Heap) (a v : Nat) : Heap := { σ with mem := Function.update σ.mem a v }

/-- `block->allocated`. -/
def allocated (σ : Heap) (a : Nat) : Bool := hdrAllocated (σ.mem a)

/-- `block->block_size`. -/
def blockSize (σ : Heap) (a : Nat) : Nat := hdrBlockSize (σ.mem a)

/-- `block_size` is a 31-bit field. -/
theorem blockSize_lt (σ : Heap) (a : Nat) : σ.blockSize a < 2^31 := Nat.mod_lt _ (by decide)

/-- The header or footer word at `a`, read as a block tag. -/
def tag (σ : Heap) (a : Nat) : Block := ⟨σ.blockSize a, σ.allocated a⟩

def setAllocated (σ : Heap) (a : Nat) (v : Bool) : Heap := σ.store a (setHdrAllocated (σ.mem a) v)

def setBlockSize (σ : Heap) (a s : Nat) : Heap := σ.store a (setHdrBlockSize (σ.mem a) s)

/-- `block->body.next`. -/
def next (σ : Heap) (b : Nat) : Nat := σ.mem (b + 8)

/-- `block->body.prev`. -/
def prev (σ : Heap) (b : Nat) : Nat := σ.mem (b + 16)

def setNext (σ : Heap) (b p : Nat) : Heap := σ.store (b + 8) p

def setPrev (σ : Heap) (b p : Nat) : Heap := σ.store (b + 16) p

@[simp] theorem store_lo (σ : Heap) (a v : Nat) : (σ.store a v).lo = σ.lo := rfl
@[simp] theorem store_brk (σ : Heap) (a v : Nat) : (σ.store a v).brk = σ.brk := rfl
@[simp] theorem store_prologue (σ : Heap) (a v : Nat) : (σ.store a v).prologue = σ.prologue := rfl
@[simp] theorem store_segListHead (σ : Heap) (a v : Nat) :
    (σ.store a v).segListHead = σ.segListHead := rfl
@[simp] theorem store_head (σ : Heap) (a v : Nat) : (σ.store a v).head = σ.head := rfl
@[simp] theorem store_calls (σ : Heap) (a v : Nat) : (σ.store a v).calls = σ.calls := rfl

@[simp] theorem setBlockSize_lo (σ : Heap) (a s : Nat) : (σ.setBlockSize a s).lo = σ.lo := rfl
@[simp] theorem setBlockSize_brk (σ : Heap) (a s : Nat) : (σ.setBlockSize a s).brk = σ.brk := rfl
@[simp] theorem setBlockSize_prologue (σ : Heap) (a s : Nat) :
    (σ.setBlockSize a s).prologue = σ.prologue := rfl
@[simp] theorem setBlockSize_segListHead (σ : Heap) (a s : Nat) :
    (σ.setBlockSize a s).segListHead = σ.segListHead := rfl
@[simp] theorem setBlockSize_head (σ : Heap) (a s : Nat) : (σ.setBlockSize a s).head = σ.head :=
  rfl
@[simp] theorem setBlockSize_calls (σ : Heap) (a s : Nat) :
    (σ.setBlockSize a s).calls = σ.calls := rfl
@[simp] theorem setAllocated_lo (σ : Heap) (a : Nat) (v : Bool) : (σ.setAllocated a v).lo = σ.lo :=
  rfl
@[simp] theorem setAllocated_brk (σ : Heap) (a : Nat) (v : Bool) :
    (σ.setAllocated a v).brk = σ.brk := rfl
@[simp] theorem setAllocated_prologue (σ : Heap) (a : Nat) (v : Bool) :
    (σ.setAllocated a v).prologue = σ.prologue := rfl
@[simp] theorem setAllocated_segListHead (σ : Heap) (a : Nat) (v : Bool) :
    (σ.setAllocated a v).segListHead = σ.segListHead := rfl
@[simp] theorem setAllocated_head (σ : Heap) (a : Nat) (v : Bool) :
    (σ.setAllocated a v).head = σ.head := rfl
@[simp] theorem setAllocated_calls (σ : Heap) (a : Nat) (v : Bool) :
    (σ.setAllocated a v).calls = σ.calls := rfl

@[simp] theorem store_mem_self (σ : Heap) (a v : Nat) : (σ.store a v).mem a = v := by
  simp [store]

theorem store_mem_of_ne (σ : Heap) {a b : Nat} (v : Nat) (h : b ≠ a) :
    (σ.store a v).mem b = σ.mem b := by
  simp [store, h]

theorem store_mem (σ : Heap) (a v b : Nat) :
    (σ.store a v).mem b = if b = a then v else σ.mem b := by
  by_cases h : b = a
  · subst h; simp
  · simp [h, store_mem_of_ne]

theorem tag_store_of_ne (σ : Heap) {a b : Nat} (v : Nat) (h : b ≠ a) :
    (σ.store a v).tag b = σ.tag b := by
  simp [tag, blockSize, allocated, store_mem_of_ne σ v h]

@[simp] theorem blockSize_setBlockSize_self (σ : Heap) (a s : Nat) :
    (σ.setBlockSize a s).blockSize a = s % 2^31 := by
  simp [setBlockSize, blockSize]

@[simp] theorem allocated_setAllocated_self (σ : Heap) (a : Nat) (v : Bool) :
    (σ.setAllocated a v).allocated a = v := by
  simp [setAllocated, allocated]

@[simp] theorem blockSize_setAllocated (σ : Heap) (a b : Nat) (v : Bool) :
    (σ.setAllocated a v).blockSize b = σ.blockSize b := by
  by_cases h : b = a
  · subst h; simp [setAllocated, blockSize]
  · simp [setAllocated, blockSize, store_mem_of_ne σ _ h]

@[simp] theorem allocated_setBlockSize (σ : Heap) (a b s : Nat) :
    (σ.setBlockSize a s).allocated b = σ.allocated b := by
  by_cases h : b = a
  · subst h; simp [setBlockSize, allocated]
  · simp [setBlockSize, allocated, store_mem_of_ne σ _ h]

theorem setBlockSize_mem_of_ne (σ : Heap) {a b : Nat} (s : Nat) (h : b ≠ a) :
    (σ.setBlockSize a s).mem b = σ.mem b := store_mem_of_ne σ _ h

theorem setAllocated_mem_of_ne (σ : Heap) {a b : Nat} (v : Bool) (h : b ≠ a) :
    (σ.setAllocated a v).mem b = σ.mem b := store_mem_of_ne σ _ h

theorem tag_setBlockSize_of_ne (σ : Heap) {a b : Nat} (s : Nat) (h : b ≠ a) :
    (σ.setBlockSize a s).tag b = σ.tag b := tag_store_of_ne σ _ h

theorem tag_setAllocated_of_ne (σ : Heap) {a b : Nat} (v : Bool) (h : b ≠ a) :
    (σ.setAllocated a v).tag b = σ.tag b := tag_store_of_ne σ _ h

theorem blockSize_setBlockSize_of_ne (σ : Heap) {a b : Nat} (s : Nat) (h : b ≠ a) :
    (σ.setBlockSize a s).blockSize b = σ.blockSize b := by
  simp [blockSize, setBlockSize_mem_of_ne σ s h]

@[simp] theorem tag_setAllocated_self (σ : Heap) (a : Nat) (v : Bool) :
    (σ.setAllocated a v).tag a = ⟨σ.blockSize a, v⟩ := by
  simp [setAllocated, tag, blockSize, allocated]

@[simp] theorem tag_setBlockSize_self (σ : Heap) (a s : Nat) :
    (σ.setBlockSize a s).tag a = ⟨s % 2^31, σ.allocated a⟩ := by
  simp [setBlockSize, tag, blockSize, allocated]

end Heap

/-- `get_footer`: the last word of the block, found from the size in its header. -/
def getFooter (σ : Heap) (block : Nat) : Nat := block + σ.blockSize block - 8

@[simp] theorem getFooter_setBlockSize_self (σ : Heap) (a s : Nat) :
    getFooter (σ.setBlockSize a s) a = a + s % 2^31 - 8 := by
  simp [getFooter]

/-- Where the head pointer of a free list lives: a memory cell (`segListHead[index]` of
part_000) or mm.c's global `head`. -/
inductive HeadLoc
  | cell (a : Nat)
  | global
deriving DecidableEq

namespace Heap

def readHead (σ : Heap) : HeadLoc → Nat
  | .cell a => σ.mem a
  | .global => σ.head

def writeHead (σ : Heap) : HeadLoc → Nat → Heap
  | .cell a, v => σ.store a v
  | .global, v => { σ with head := v }

@[simp] theorem writeHead_calls (σ : Heap) (h : HeadLoc) (v : Nat) :
    (σ.writeHead h v).calls = σ.calls := by
  cases h <;> rfl

/-- Record a call of `list_push` or `list_pop` on a block of `size` bytes with list `index`. -/
def record (σ : Heap) (size : Nat) (index : Int) : Heap :=
  { σ with calls := (size, index) :: σ.calls }

@[simp] theorem record_mem (σ : Heap) (s : Nat) (i : Int) : (σ.record s i).mem = σ.mem := rfl
@[simp] theorem record_lo (σ : Heap) (s : Nat) (i : Int) : (σ.record s i).lo = σ.lo := rfl
@[simp] theorem record_brk (σ : Heap) (s : Nat) (i : Int) : (σ.record s i).brk = σ.brk := rfl
@[simp] theorem record_prologue (σ : Heap) (s : Nat) (i : Int) :
    (σ.record s i).prologue = σ.prologue := rfl
@[simp] theorem record_segListHead (σ : Heap) (s : Nat) (i : Int) :
    (σ.record s i).segListHead = σ.segListHead := rfl
@[simp] theorem record_head (σ : Heap) (s : Nat) (i : Int) : (σ.record s i).head = σ.head := rfl
@[simp] theorem record_calls (σ : Heap) (s : Nat) (i : Int) :
    (σ.record s i).calls = (s, i) :: σ.calls := rfl

end Heap

/-- The heap extender's answer to a request for `n` bytes when the break is at `brk`. -/
def Extender := Nat → Nat → Bool

/-- memlib's `mem_sbrk`: on a grant the break moves up by `incr` and the old break is the
base of the new region; a refusal (`(void *)-1`) changes nothing. -/
def memSbrk (ext : Extender) (σ : Heap) (incr : Nat) : Option (Nat × Heap) :=
  if ext σ.brk incr then some (σ.brk, { σ with brk := σ.brk + incr }) else none

theorem memSbrk_eq_some {ext : Extender} {σ : Heap} {incr b : Nat} {σ' : Heap}
    (h : memSbrk ext σ incr = some (b, σ')) :
    ext σ.brk incr = true ∧ b = σ.brk ∧ σ' = { σ with brk := σ.brk + incr } := by
  unfold memSbrk at h
  split_ifs at h with hg
  cases h
  exact ⟨hg, rfl, rfl⟩

end MallocLab.MM
