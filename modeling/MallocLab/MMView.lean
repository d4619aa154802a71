import MallocLab.MMRun

/-! What a client or `mm_checkheap` can read off the heap: the heap walk from the prologue by
`address + block_size`, each free list followed from its head along `next`, and the
diagnostics of `mm_checkheap`. In a heap that holds an arena, each view reads the arena back. -/
namespace MallocLab.MM

/-- The heap walk from `block` by `address + block_size` while the size is positive: the blocks
it visits and the block it stops at, within `fuel` steps. -/
def walkFrom (σ : Heap) : Nat → Nat → Option (List (Nat × Block) × Nat)
  | 0, _ => none
  | fuel + 1, block =>
    if 0 < σ.blockSize block then
      (walkFrom σ fuel (block + σ.blockSize block)).map fun r => ((block, σ.tag block) :: r.1, r.2)
    else some ([], block)

/-- The walk of `mm_checkheap`, from the block after the prologue, in at most `brk` steps. -/
def heapWalk (σ : Heap) : Option (List (Nat × Block) × Nat) :=
  walkFrom σ σ.brk (σ.prologue + σ.blockSize σ.prologue)

/-- A free list read from `b` along the `next` links up to NULL, within `fuel` steps. -/
def listFrom (σ : Heap) : Nat → Nat → Option (List Nat)
  | 0, _ => none
  | fuel + 1, b => if b = 0 then some [] else (listFrom σ fuel (σ.next b)).map (b :: ·)

/-- What `mm_checkheap` prints. -/
inductive Diagnostic
  | badPrologue
  | notAligned (block : Nat)
  | headerFooter
  | badEpilogue
deriving DecidableEq

/-- The text of a diagnostic; `%p` is the block's address. -/
def Diagnostic.text : Diagnostic → String
  | badPrologue => "Bad prologue header\n"
  | notAligned _ => "Error: payload for block at %p is not aligned\n"
  | headerFooter => "Error: header does not match footer\n"
  | badEpilogue => "Bad epilogue header\n"

/-- `checkblock`: the payload must be 8-aligned and the footer must tell the header's size. -/
def checkblock (σ : Heap) (block : Nat) : List Diagnostic :=
  (if (block + 8) % 8 ≠ 0 then [.notAligned block] else []) ++
    (if σ.blockSize block ≠ σ.blockSize (getFooter σ block) then [.headerFooter] else [])

/-- `mm_checkheap` without `verbose`: the prologue, every block of the walk and the block the
walk stops at are checked; `none` when the walk does not stop within `brk` steps. -/
def mmCheckheap (σ : Heap) : Option (List Diagnostic) :=
  let d₁ := if σ.blockSize σ.prologue ≠ 8 ∨ σ.allocated σ.prologue = false then
    [Diagnostic.badPrologue] else []
  (heapWalk σ).map fun r =>
    d₁ ++ checkblock σ σ.prologue ++ r.1.flatMap (fun x => checkblock σ x.1) ++
      (if σ.blockSize r.2 ≠ 0 ∨ σ.allocated r.2 = false then [.badEpilogue] else [])

/-- A line `mm_checkheap` prints: a diagnostic, or in verbose mode the heading with the
prologue's address, or a line of `printblock`. -/
inductive Line
  | heading (prologue : Nat)
  | diag (d : Diagnostic)
  | eol (block : Nat)
  | block (block hsize : Nat) (halloc : Bool) (fsize : Nat) (falloc : Bool)
deriving DecidableEq

/-- `printblock`: `EOL` for a header of size 0, else the size and bit of the header and of the
footer the header's size points to. -/
def printblock (σ : Heap) (block : Nat) : Line :=
  if σ.blockSize block = 0 then .eol block
  else .block block (σ.blockSize block) (σ.allocated block) (σ.blockSize (getFooter σ block))
    (σ.allocated (getFooter σ block))

/-- The text of a line; `%p` is the address. -/
def Line.text : Line → String
  | heading _ => "Heap (%p):\n"
  | diag d => d.text
  | eol _ => "%p: EOL\n"
  | block _ hsize halloc fsize falloc =>
    "%p: header: [" ++ toString hsize ++ ":" ++ (if halloc then "a" else "f") ++ "] footer: [" ++
      toString fsize ++ ":" ++ (if falloc then "a" else "f") ++ "]\n"

/-- `mm_checkheap(verbose)`: what it prints, in order. With `verbose`, the heading comes first and
`printblock` runs on every block of the walk before `checkblock`, and on the block the walk stops
at; `none` when the walk does not stop within `brk` steps. -/
def mmCheckheapOut (σ : Heap) (verbose : Bool) : Option (List Line) :=
  let d₁ := if σ.blockSize σ.prologue ≠ 8 ∨ σ.allocated σ.prologue = false then
    [Line.diag .badPrologue] else []
  let v : List Line → List Line := fun l => if verbose then l else []
  (heapWalk σ).map fun r =>
    v [.heading σ.prologue] ++ d₁ ++ (checkblock σ σ.prologue).map .diag ++
      r.1.flatMap (fun x => v [printblock σ x.1] ++ (checkblock σ x.1).map .diag) ++
      v [printblock σ r.2] ++
      (if σ.blockSize r.2 ≠ 0 ∨ σ.allocated r.2 = false then [.diag .badEpilogue] else [])

/-- Without `verbose`, `mm_checkheap` prints its diagnostics only. -/
theorem mmCheckheapOut_false (σ : Heap) :
    mmCheckheapOut σ false = (mmCheckheap σ).map (List.map .diag) := by
  simp only [mmCheckheapOut, mmCheckheap, Option.map_map]
  congr 1
  funext r
  simp only [Function.comp, Bool.false_eq_true, if_false, List.nil_append, List.append_nil,
    List.map_append, List.map_flatMap]
  split_ifs <;> simp

/-- A run of blocks with truthful headers, followed by a header of size 0, is walked in as
many steps as it has blocks. -/
theorem walkFrom_tags {σ : Heap} : ∀ {bs : List Block} {a fuel : Nat}, Tags σ a bs →
    (∀ d ∈ bs, 0 < d.size) → σ.blockSize (a + total bs) = 0 → bs.length < fuel →
    walkFrom σ fuel a = some (placed a bs, a + total bs)
  | [], a, fuel + 1, _, _, h0, _ => by
    simp only [total_nil, Nat.add_zero] at h0
    simp [walkFrom, h0]
  | b :: bs, a, fuel + 1, ht, hpos, h0, hlen => by
    obtain ⟨⟨hb, -⟩, ht'⟩ := tags_cons.mp ht
    have hbs : σ.blockSize a = b.size := congrArg Block.size hb
    have ih : walkFrom σ fuel (a + b.size) = some (placed (a + b.size) bs, a + b.size + total bs) :=
      walkFrom_tags ht' (fun d hd => hpos d (List.mem_cons_of_mem _ hd))
      (by simpa [Nat.add_assoc] using h0) (by simp at hlen; omega)
    have hb0 := hpos b (List.mem_cons_self _ _)
    simp [walkFrom, hbs, hb0, ih, hb, Nat.add_assoc]

theorem listFrom_eq {σ : Heap} : ∀ {l : List Nat} {p fuel : Nat},
    (p :: l ++ [0]).Chain' (Linked σ.mem) → (∀ y ∈ l, y ≠ 0) → l.length < fuel →
    listFrom σ fuel (l.headD 0) = some l
  | [], _, fuel + 1, _, _, _ => by simp [listFrom]
  | y :: l, p, fuel + 1, hc, h0, hlen => by
    have hy := h0 y (List.mem_cons_self _ _)
    have hc' : (y :: l ++ [0]).Chain' (Linked σ.mem) := (List.chain'_cons'.mp hc).2
    have hnext : σ.next y = l.headD 0 :=
      ((List.chain'_cons'.mp hc').1 (l.headD 0) (by cases l <;> simp)).1 hy
    have ih := listFrom_eq hc' (fun z hz => h0 z (List.mem_cons_of_mem _ hz))
      (show l.length < fuel by simp at hlen; omega)
    simp only [listFrom, List.headD_cons, hy, if_false, hnext, ih, Option.map_some']

namespace Repr

variable {L : FreeLists} {σ : Heap} {A : Arena}

/-- The heap walk reads the arena's blocks and stops at the epilogue. -/
theorem heapWalk_eq (hR : Repr L σ A) (hW : A.WF L (σ.prologue + 8)) :
    heapWalk σ = some (placed (σ.prologue + 8) A.blocks, σ.prologue + 8 + total A.blocks) := by
  have hp : σ.blockSize σ.prologue = 8 := congrArg Block.size hR.prologue
  have hlen := length_le_total hW.sized.pos
  have hbrk := hR.brk
  rw [heapWalk, hp]
  exact walkFrom_tags hR.tags hW.sized.pos (congrArg Block.size hR.epilogue) (by omega)

theorem listFrom_lists (hR : Repr L σ A) (hW : A.WF L (σ.prologue + 8)) {k : Nat}
    (hk : k < L.numLists) :
    listFrom σ σ.brk (σ.readHead (L.loc σ.segListHead k)) = some (A.lists k) := by
  obtain ⟨hhead, hchain⟩ := hR.lists k hk
  rw [hhead]
  refine listFrom_eq hchain (fun y hy => ?_) (hR.length_lists_lt hW k)
  obtain ⟨-, c, hc, -⟩ := hW.nodes k y hy
  have := (mem_placed_bounds hc).1
  omega

theorem checkblock_eq_nil (hR : Repr L σ A) (hW : A.WF L (σ.prologue + 8))
    (h8 : σ.prologue % 8 = 0) {x : Nat} {b : Block} (hx : (x, b) ∈ placed (σ.prologue + 8) A.blocks) :
    checkblock σ x = [] := by
  obtain ⟨pre, post, hA, rfl⟩ := mem_placed_iff.mp hx
  have hmod := hW.sized.total_mod
  rw [hA, total_append, total_cons] at hmod
  have hpre : total pre % 8 = 0 := by
    have := (hW.sized b (mem_placed_block hx)).2
    have : total post % 8 = 0 := Sized.total_mod fun d hd => hW.sized d (by simp [hA, hd])
    omega
  have ht := hR.tags _ _ hx
  have hbs : σ.blockSize (σ.prologue + 8 + total pre) = b.size := congrArg Block.size ht.1
  have hfoot : σ.blockSize (getFooter σ (σ.prologue + 8 + total pre)) = b.size := by
    rw [getFooter, hbs]; exact congrArg Block.size ht.2
  simp only [checkblock, hfoot, hbs, ne_eq, not_true_eq_false, if_false, List.append_nil]
  rw [if_neg (by omega)]

/-- In a heap that holds an arena, with an 8-aligned prologue, `mm_checkheap` stops and prints
nothing. -/
theorem mmCheckheap_eq (hR : Repr L σ A) (hW : A.WF L (σ.prologue + 8))
    (h8 : σ.prologue % 8 = 0) : mmCheckheap σ = some [] := by
  have hp := hR.prologue
  have he := hR.epilogue
  simp only [Heap.tag, Block.mk.injEq] at hp he
  have hpro : checkblock σ σ.prologue = [] := by
    simp [checkblock, getFooter, hp.1, h8]
  simp [mmCheckheap, hR.heapWalk_eq hW, hp, he, hpro,
    List.flatMap_eq_nil_iff.mpr fun x hx => hR.checkblock_eq_nil hW h8 hx]

/-- On a heap that holds an arena, `mm_checkheap(1)` prints the heading, one line per block of the
walk, `EOL`, and no diagnostic. -/
theorem mmCheckheapOut_true (hR : Repr L σ A) (hW : A.WF L (σ.prologue + 8))
    (h8 : σ.prologue % 8 = 0) :
    mmCheckheapOut σ true = some (Line.heading σ.prologue ::
      (placed (σ.prologue + 8) A.blocks).map (fun x => Line.block x.1 x.2.size x.2.allocated
        x.2.size x.2.allocated) ++ [Line.eol (σ.prologue + 8 + total A.blocks)]) := by
  have hp := hR.prologue
  have he := hR.epilogue
  simp only [Heap.tag, Block.mk.injEq] at hp he
  have hpro : checkblock σ σ.prologue = [] := by
    simp [checkblock, getFooter, hp.1, h8]
  have hline : ∀ x ∈ placed (σ.prologue + 8) A.blocks,
      [printblock σ x.1] ++ (checkblock σ x.1).map .diag =
        [Line.block x.1 x.2.size x.2.allocated x.2.size x.2.allocated] := by
    rintro ⟨x, b⟩ hx
    have ht := hR.tags _ _ hx
    have h₁ : σ.blockSize x = b.size := congrArg Block.size ht.1
    have hf : getFooter σ x = x + b.size - 8 := by rw [getFooter, h₁]
    have h₂ : σ.allocated x = b.allocated := congrArg Block.allocated ht.1
    have h₃ : σ.blockSize (x + b.size - 8) = b.size := congrArg Block.size ht.2
    have h₄ : σ.allocated (x + b.size - 8) = b.allocated := congrArg Block.allocated ht.2
    have hpos := hW.sized.pos b (mem_placed_block hx)
    simp [printblock, h₁, h₂, hf, h₃, h₄, hR.checkblock_eq_nil hW h8 hx,
      Nat.pos_iff_ne_zero.mp hpos]
  have hepi : printblock σ (σ.prologue + 8 + total A.blocks) =
      .eol (σ.prologue + 8 + total A.blocks) := by simp [printblock, he.1]
  simp only [mmCheckheapOut, hR.heapWalk_eq hW, hp, he, hpro, hepi, Option.map_some', if_true,
    ne_eq, not_true_eq_false, Bool.true_eq_false, or_self, if_false, List.map_nil,
    List.append_nil, List.flatMap_congr hline, ← List.map_eq_flatMap]
  rfl

end Repr

end MallocLab.MM
