import MallocLab.MMRealloc

/-! Runs of a client against a program of the repository. A client holds the heap and its live
payloads; a step is one call of `mm_malloc`, `mm_free` or `mm_realloc` on live payloads; the
reachable states are those a run from `mm_init` reaches. `Good` is the invariant every
reachable state keeps, given what a program's `mm_init` and `mm_malloc` guarantee
(`InitSpec`, `MallocSpec`). -/
namespace MallocLab.MM

/-- A program of the repository: how it keeps its free lists, how many bytes it keeps below the
prologue, its `mm_init` and its `mm_malloc`; `mm_free` and `mm_realloc` are shared. -/
structure Program where
  L : FreeLists
  base : Nat
  init : Extender → Heap → Option Heap
  malloc : Extender → Heap → Nat → Option (Nat × Heap)

/-- A client's state: the heap and the live payloads with the sizes they were requested with. -/
structure Client where
  heap : Heap
  live : List (Nat × Nat)

/-- The live payloads in the arena at `start`: distinct, each the payload of an allocated block
with room for its request and both tags. -/
def LiveIn (start : Nat) (A : Arena) (live : List (Nat × Nat)) : Prop :=
  (live.map Prod.fst).Nodup ∧ ∀ p u, (p, u) ∈ live →
    8 ≤ p ∧ ∃ s, (p - 8, (⟨s, true⟩ : Block)) ∈ placed start A.blocks ∧ u + 16 ≤ s

namespace LiveIn

variable {start : Nat} {A A' : Arena} {live : List (Nat × Nat)}

theorem keep (h : LiveIn start A live)
    (hkeep : ∀ p u, (p, u) ∈ live → ∀ d, (p - 8, d) ∈ placed start A.blocks →
      d.allocated = true → (p - 8, d) ∈ placed start A'.blocks) : LiveIn start A' live :=
  ⟨h.1, fun p u hp => let ⟨h8, s, hs, hu⟩ := h.2 p u hp; ⟨h8, s, hkeep p u hp _ hs rfl, hu⟩⟩

theorem cons (h : LiveIn start A live) {p u s : Nat} (h8 : 8 ≤ p)
    (hs : (p - 8, (⟨s, true⟩ : Block)) ∈ placed start A.blocks) (hu : u + 16 ≤ s)
    (hfresh : ∀ q v, (q, v) ∈ live → q ≠ p) : LiveIn start A ((p, u) :: live) := by
  refine ⟨List.nodup_cons.mpr ⟨fun hp => ?_, h.1⟩, fun q v hq => ?_⟩
  · obtain ⟨⟨q, v⟩, hq, rfl⟩ := List.mem_map.mp hp
    exact hfresh q v hq rfl
  · rcases List.mem_cons.mp hq with hq | hq
    · cases hq; exact ⟨h8, s, hs, hu⟩
    · exact h.2 q v hq

theorem erase (h : LiveIn start A live) {p u : Nat} (hp : (p, u) ∈ live) :
    LiveIn start A (live.erase (p, u)) ∧ ∀ q v, (q, v) ∈ live.erase (p, u) → q ≠ p := by
  obtain ⟨l₁, l₂, -, rfl, he⟩ := List.exists_erase_eq hp
  rw [he]
  have hnd := h.1
  rw [List.map_append, List.map_cons, List.nodup_middle, List.nodup_cons, ← List.map_append]
    at hnd
  refine ⟨⟨hnd.2, fun q v hq => h.2 q v ?_⟩, fun q v hq hqp => hnd.1 ?_⟩
  · exact List.mem_append.mpr ((List.mem_append.mp hq).imp id (List.mem_cons_of_mem _))
  · subst hqp; exact List.mem_map.mpr ⟨(q, v), hq, rfl⟩

end LiveIn

namespace Program

variable (P : Program)

/-- One call of the client on live payloads, with block sizes below `2^31` and an extender that
keeps the heap below `2^31` bytes. A failed `mm_realloc` exits the program and has no step. -/
inductive Step : Client → Client → Prop
  | malloc {s : Client} {ext : Extender} {u p : Nat} {σ : Heap} : ext.Bounded s.heap.lo →
      reqSize u < 2^31 → P.malloc ext s.heap u = some (p, σ) → Step s ⟨σ, (p, u) :: s.live⟩
  | mallocNull {s : Client} {ext : Extender} {u : Nat} : ext.Bounded s.heap.lo →
      reqSize u < 2^31 → P.malloc ext s.heap u = none → Step s s
  | free {s : Client} {p u : Nat} : (p, u) ∈ s.live →
      Step s ⟨mmFree P.L s.heap p, s.live.erase (p, u)⟩
  | realloc {s : Client} {ext : Extender} {p u₀ u q : Nat} {σ : Heap} : ext.Bounded s.heap.lo →
      reqSize u < 2^31 → (p, u₀) ∈ s.live → mmRealloc (P.malloc ext) P.L s.heap p u = some (q, σ) →
      Step s ⟨σ, (q, u) :: s.live.erase (p, u₀)⟩

/-- The states of a run: `mm_init` on an empty heap whose `mem_heap_lo` is 8-aligned, then any
steps. -/
inductive Reachable : Client → Prop
  | init {ext : Extender} {σ₀ σ : Heap} : σ₀.brk = σ₀.lo → σ₀.lo % 8 = 0 → ext.Bounded σ₀.lo →
      P.init ext σ₀ = some σ → Reachable ⟨σ, []⟩
  | step {s s' : Client} : Reachable s → P.Step s s' → Reachable s'

/-- The invariant of a run: the heap holds an arena with the invariant in which the live
payloads are, the prologue is `base` bytes above the 8-aligned `mem_heap_lo`, and the heap is
below `2^31` bytes. -/
structure Good (s : Client) : Prop where
  arena : ∃ A, Repr P.L s.heap A ∧ A.Inv P.L (s.heap.prologue + 8) ∧
    LiveIn (s.heap.prologue + 8) A s.live
  base : s.heap.prologue = s.heap.lo + P.base
  aligned : s.heap.prologue % 8 = 0
  bound : s.heap.brk < s.heap.lo + 2^31

/-- What `mm_init` must do: from an empty heap, reach the invariant with no live payload. -/
def InitSpec : Prop :=
  ∀ {ext : Extender} {σ₀ σ : Heap}, σ₀.brk = σ₀.lo → σ₀.lo % 8 = 0 → ext.Bounded σ₀.lo →
    P.init ext σ₀ = some σ → P.Good ⟨σ, []⟩

/-- What `mm_malloc` must do: every block it returns comes from a call `place(block, asize)`
with `asize = reqSize u`, prepared from the heap as `Prepared` says. -/
def MallocSpec : Prop :=
  ∀ {ext : Extender} {σ : Heap} {A : Arena} {u p : Nat} {σ' : Heap}, Repr P.L σ A →
    A.Inv P.L (σ.prologue + 8) → ext.Bounded σ.lo → σ.lo ≤ σ.prologue → σ.brk < σ.lo + 2^31 →
    reqSize u < 2^31 → P.malloc ext σ u = some (p, σ') →
    8 ≤ p ∧ ∃ σ₁, Prepared P.L σ A (reqSize u) (p - 8) σ₁ ∧ σ' = place P.L σ₁ (p - 8) (reqSize u)

variable {P}

theorem MallocSpec.allocates (hM : P.MallocSpec) {ext : Extender} {σ : Heap} {A : Arena}
    {u p : Nat} {σ' : Heap} (hR : Repr P.L σ A) (hI : A.Inv P.L (σ.prologue + 8))
    (hext : ext.Bounded σ.lo) (hlo : σ.lo ≤ σ.prologue) (hbound : σ.brk < σ.lo + 2^31)
    (hu : reqSize u < 2^31) (h : P.malloc ext σ u = some (p, σ')) :
    Allocates P.L σ A (reqSize u) p σ' := by
  obtain ⟨h8, σ₁, hP, rfl⟩ := hM hR hI hext hlo hbound hu h
  have := hP.allocates
  rwa [Nat.sub_add_cancel h8] at this

namespace Good

variable {s : Client}

theorem lo_le (hG : P.Good s) : s.heap.lo ≤ s.heap.prologue := by rw [hG.base]; omega

theorem malloc (hM : P.MallocSpec) (hG : P.Good s) {ext : Extender} {u p : Nat} {σ : Heap}
    (hext : ext.Bounded s.heap.lo) (hu : reqSize u < 2^31)
    (h : P.malloc ext s.heap u = some (p, σ)) : P.Good ⟨σ, (p, u) :: s.live⟩ := by
  obtain ⟨A, hR, hI, hlive⟩ := hG.arena
  have hal := hM.allocates hR hI hext hG.lo_le hG.bound hu h
  obtain ⟨A', hR', hI', ⟨sz, hps, hle⟩, hkeep⟩ := hal.arena
  have hpro := hal.prologue
  refine ⟨⟨A', hR', by rwa [hpro], ?_⟩, by simp [hpro, hal.lo, hG.base],
    by simpa [hpro] using hG.aligned, by simpa [hal.lo] using hal.bound⟩
  show LiveIn (σ.prologue + 8) A' ((p, u) :: s.live)
  rw [hpro]
  refine (hlive.keep fun q v _ d hd hda => hkeep _ d hd hda).cons hal.payload hps
    (by have := (reqSize_spec u).2.2; omega) fun q v hq hqp => ?_
  obtain ⟨-, sq, hsq, -⟩ := hlive.2 q v hq
  subst hqp
  simpa using hal.fresh _ hsq

theorem free (hG : P.Good s) {p u : Nat} (hp : (p, u) ∈ s.live) :
    P.Good ⟨mmFree P.L s.heap p, s.live.erase (p, u)⟩ := by
  obtain ⟨A, hR, hI, hlive⟩ := hG.arena
  obtain ⟨h8, sz, hps, -⟩ := hlive.2 p u hp
  obtain ⟨pre, post, hA, hpre⟩ := mem_placed_iff.mp hps
  have hbrk := hR.brk
  have hsz : total A.blocks < 2^31 := by have := hG.bound; have := hG.base; omega
  obtain ⟨hR', hI', -⟩ := hR.mmFree_spec hI hA rfl hsz
  rw [show s.heap.prologue + 8 + total pre + 8 = p by omega] at hR'
  obtain ⟨hl, hne⟩ := hlive.erase hp
  refine ⟨⟨_, hR', by simpa using hI', ?_⟩, by simp [hG.base], by simpa using hG.aligned,
    by simpa using hG.bound⟩
  show LiveIn ((mmFree P.L s.heap p).prologue + 8) _ _
  rw [mmFree_prologue]
  exact hl.keep fun q v hq d hd hda => Arena.free_keep hA hI.sized.pos hd hda
    (by have := hne q v hq; have := (hl.2 q v hq).1; omega)

theorem realloc (hM : P.MallocSpec) (hG : P.Good s) {ext : Extender} {p u₀ u q : Nat} {σ : Heap}
    (hext : ext.Bounded s.heap.lo) (hu : reqSize u < 2^31) (hp : (p, u₀) ∈ s.live)
    (h : mmRealloc (P.malloc ext) P.L s.heap p u = some (q, σ)) :
    P.Good ⟨σ, (q, u) :: s.live.erase (p, u₀)⟩ := by
  obtain ⟨A, hR, hI, hlive⟩ := hG.arena
  obtain ⟨h8, sz, hps, -⟩ := hlive.2 p u₀ hp
  obtain ⟨A', hR', hI', ⟨sq, hqs, hle⟩, hkeep, hfresh, hq8, -, hpro, hlo', hbound⟩ :=
    mmRealloc_spec hG.lo_le (fun _ _ hm => hM.allocates hR hI hext hG.lo_le hG.bound hu hm)
      (reqSize_spec u).2.2 hps rfl h8 h
  obtain ⟨hl, hne⟩ := hlive.erase hp
  refine ⟨⟨A', hR', by rwa [hpro], ?_⟩, by rw [hpro, hlo', hG.base], by rw [hpro]; exact hG.aligned,
    by rwa [hlo']⟩
  show LiveIn (σ.prologue + 8) A' _
  rw [hpro]
  refine (hl.keep fun q' v hq d hd hda => hkeep _ d hd hda
    (by have := hne q' v hq; have := (hl.2 q' v hq).1; omega)).cons hq8 hqs
    (by have := (reqSize_spec u).2.2; omega)
    fun q' v hq' hqq => ?_
  subst hqq
  obtain ⟨-, sq', hsq', -⟩ := hl.2 q' v hq'
  simpa using hfresh _ hsq'

/-- Every step keeps the invariant. -/
theorem step (hM : P.MallocSpec) (hG : P.Good s) {s' : Client} (hs : P.Step s s') : P.Good s' := by
  cases hs with
  | malloc hext hu h => exact hG.malloc hM hext hu h
  | mallocNull => exact hG
  | free hp => exact hG.free hp
  | realloc hext hu hp h => exact hG.realloc hM hext hu hp h

/-- No step changes a word of the payload of a payload that is live before and after it. -/
theorem step_frame (hM : P.MallocSpec) (hG : P.Good s) {s' : Client} (hs : P.Step s s')
    {p u : Nat} (hp : (p, u) ∈ s.live) (hp' : (p, u) ∈ s'.live) {a : Nat} (h₁ : p ≤ a)
    (h₂ : a < p + u) : s'.heap.mem a = s.heap.mem a := by
  obtain ⟨A, hR, hI, hlive⟩ := hG.arena
  obtain ⟨h8, sz, hps, hsz⟩ := hlive.2 p u hp
  have hpos := hI.sized.pos
  cases hs with
  | malloc hext hu h =>
    exact (hM.allocates hR hI hext hG.lo_le hG.bound hu h).frame a fun hf =>
      hf.not_alloc hpos hps rfl (by omega) (by simp only; omega)
  | mallocNull => rfl
  | free hp₀ =>
    rename_i p₀ u₀
    obtain ⟨-, sz₀, hps₀, -⟩ := hlive.2 p₀ u₀ hp₀
    obtain ⟨pre, post, hA, hpre⟩ := mem_placed_iff.mp hps₀
    have hbrk := hR.brk
    have hb : total A.blocks < 2^31 := by have := hG.bound; have := hG.base; omega
    have hne := (hlive.erase hp₀).2 p u hp'
    have hF := (hR.mmFree_spec hI hA rfl hb).2.2
    rw [show s.heap.prologue + 8 + total pre + 8 = p₀ by omega] at hF
    exact hF a (not_written hpos hps rfl (hpre ▸ hps₀) (by omega) (by omega) (by simp only; omega))
  | realloc hext hu hp₀ h =>
    rename_i p₀ u₀ u' q σ
    obtain ⟨h8₀, sz₀, hps₀, -⟩ := hlive.2 p₀ u₀ hp₀
    obtain ⟨-, -, -, -, -, hfresh, -, hF, -⟩ :=
      mmRealloc_spec hG.lo_le (fun _ _ hm => hM.allocates hR hI hext hG.lo_le hG.bound hu hm)
        (reqSize_spec u').2.2 hps₀ rfl h8₀ h
    rcases List.mem_cons.mp hp' with hq | hp'
    · cases hq
      simpa using hfresh _ hps
    · have hne := (hlive.erase hp₀).2 p u hp'
      exact hF a (not_written hpos hps rfl hps₀ (by omega) (by omega) (by simp only; omega))

end Good

/-- Every reachable state has the invariant. -/
theorem Reachable.good (hI : P.InitSpec) (hM : P.MallocSpec) {s : Client} (h : P.Reachable s) :
    P.Good s := by
  induction h with
  | init h₀ h8 hext hinit => exact hI h₀ h8 hext hinit
  | step _ hs ih => exact ih.step hM hs

end Program

end MallocLab.MM
