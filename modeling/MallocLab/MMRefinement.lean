import MallocLab.MMReallocCopy

/-! The allocator as its clients see it, and the code's runs as runs of it. A `Store` is the list
of live payloads with their request sizes and the byte at every address; `Store.Step` says what
each call may do to it: `malloc` hands out a new 8-aligned payload apart from every live one,
`free` takes one back, `realloc` moves one with its bytes, and no call changes a byte of a payload
that stays live. Every step of either program, read through `Client.store`, is a step of `Store`
or leaves the view as it was, so every run of either program is a run of `Store`. -/
namespace MallocLab.MM

/-- What a client sees of the allocator: the live payloads with their request sizes, and the byte
at every address. -/
structure Store where
  live : List (Nat × Nat)
  byte : Nat → Nat

namespace Store

/-- `[p, p + u)` is apart from every payload of `live`. -/
def Apart (live : List (Nat × Nat)) (p u : Nat) : Prop :=
  ∀ q w, (q, w) ∈ live → p + u ≤ q ∨ q + w ≤ p

/-- Every payload of `live` holds the same bytes under `b` and under `b'`. -/
def Keeps (live : List (Nat × Nat)) (b b' : Nat → Nat) : Prop :=
  ∀ q w, (q, w) ∈ live → ∀ i < w, b' (q + i) = b (q + i)

/-- The calls: `malloc(u)` gives a new aligned payload apart from the live ones, `free(p)` takes
`p` back, `realloc(p, u)` does both and keeps `p`'s first bytes; live payloads keep theirs. -/
inductive Step : Store → Store → Prop
  | malloc {S : Store} {p u : Nat} {b : Nat → Nat} : 0 < u → p % 8 = 0 → Apart S.live p u →
      Keeps S.live S.byte b → Step S ⟨(p, u) :: S.live, b⟩
  | free {S : Store} {p u : Nat} {b : Nat → Nat} : (p, u) ∈ S.live →
      Keeps (S.live.erase (p, u)) S.byte b → Step S ⟨S.live.erase (p, u), b⟩
  | realloc {S : Store} {p u₀ q u : Nat} {b : Nat → Nat} : (p, u₀) ∈ S.live → 0 < u →
      q % 8 = 0 → Apart S.live q u → (∀ i < min u u₀, b (q + i) = S.byte (p + i)) →
      Keeps (S.live.erase (p, u₀)) S.byte b → Step S ⟨(q, u) :: S.live.erase (p, u₀), b⟩

/-- The runs: no live payload at the start, any bytes. -/
inductive Reachable : Store → Prop
  | init (b : Nat → Nat) : Reachable ⟨[], b⟩
  | step {S S' : Store} : Reachable S → Step S S' → Reachable S'

/-- What a client may rely on: every live payload is nonempty and 8-aligned, and any two are
apart. -/
structure WF (S : Store) : Prop where
  pos : ∀ p u, (p, u) ∈ S.live → 0 < u
  aligned : ∀ p u, (p, u) ∈ S.live → p % 8 = 0
  apart : S.live.Pairwise fun x y => x.1 + x.2 ≤ y.1 ∨ y.1 + y.2 ≤ x.1

theorem WF.erase {S : Store} (hw : S.WF) (x : Nat × Nat) (b : Nat → Nat) :
    WF ⟨S.live.erase x, b⟩ :=
  ⟨fun p u h => hw.pos p u (List.mem_of_mem_erase h),
    fun p u h => hw.aligned p u (List.mem_of_mem_erase h), hw.apart.sublist (List.erase_sublist _ _)⟩

theorem WF.cons {live : List (Nat × Nat)} {b : Nat → Nat} (hw : WF ⟨live, b⟩) {p u : Nat}
    (hu : 0 < u) (h8 : p % 8 = 0) (ha : Apart live p u) (b' : Nat → Nat) :
    WF ⟨(p, u) :: live, b'⟩ := by
  refine ⟨fun q w h => ?_, fun q w h => ?_, List.pairwise_cons.mpr
    ⟨fun y hy => ha y.1 y.2 hy, hw.apart⟩⟩
  · rcases List.mem_cons.mp h with h | h
    · cases h; exact hu
    · exact hw.pos q w h
  · rcases List.mem_cons.mp h with h | h
    · cases h; exact h8
    · exact hw.aligned q w h

theorem Step.wf {S S' : Store} (hw : S.WF) : Step S S' → S'.WF
  | .malloc hu h8 ha _ => WF.cons hw hu h8 ha _
  | .free _ _ => hw.erase _ _
  | .realloc _ hu h8 ha _ _ => WF.cons (hw.erase _ S.byte) hu h8
      (fun q w h => ha q w (List.mem_of_mem_erase h)) _

theorem Reachable.wf {S : Store} (h : Reachable S) : S.WF := by
  induction h with
  | init b => exact ⟨by simp, by simp, List.Pairwise.nil⟩
  | step _ hs ih => exact hs.wf ih

end Store

/-- A client's view of a state of the program. -/
def Client.store (s : Client) : Store := ⟨s.live, s.heap.byte⟩

/-- The payload `mm_malloc` hands out is apart from every payload live before it, the block it
came from being no allocated block before. -/
theorem Allocates.apart {L : FreeLists} {σ σ₁ : Heap} {A : Arena} {asize q : Nat}
    (hal : Allocates L σ A asize q σ₁) {live : List (Nat × Nat)}
    (hlive : LiveIn (σ.prologue + 8) A live) {u : Nat} (hu : u + 16 ≤ asize) :
    Store.Apart live q u := by
  obtain ⟨A₁, -, hI₁, ⟨sq, hqs, hle⟩, hkeep⟩ := hal.arena
  intro q' w hq'
  obtain ⟨h8, s', hs', hw⟩ := hlive.2 q' w hq'
  have hne : q' - 8 ≠ q - 8 := fun he => by have := hal.fresh _ (he ▸ hs'); simp at this
  have hq8 := hal.payload
  have := placed_disjoint hI₁.sized.pos (hkeep _ _ hs' rfl) hqs hne
  simp only at this
  omega

namespace Program.Good

variable {P : Program} {s s' : Client}

theorem live_aligned (hG : P.Good s) {p u : Nat} (hp : (p, u) ∈ s.live) : p % 8 = 0 := by
  obtain ⟨A, -, hI, hlive⟩ := hG.arena
  obtain ⟨h8, sz, hx, -⟩ := hlive.2 p u hp
  have := hI.sized.placed_mod hx
  have := hG.aligned
  omega

theorem keeps (hM : P.MallocSpec) (hG : P.Good s) (hs : P.Step s s') (live : List (Nat × Nat))
    (hold : ∀ x ∈ live, x ∈ s.live) (hnew : ∀ x ∈ live, x ∈ s'.live) :
    Store.Keeps live s.heap.byte s'.heap.byte := by
  intro q w hq i hi
  have h8 := hG.live_aligned (hold _ hq)
  rw [Heap.byte, Heap.byte,
    hG.step_frame hM hs (hold _ hq) (hnew _ hq) (a := q + i - (q + i) % 8) (by omega) (by omega)]

end Program.Good

namespace Variant

theorem malloc_zero (v : Variant) (ext : Extender) (σ : Heap) : v.program.malloc ext σ 0 = none := by
  cases v <;> rfl

theorem malloc_pos (v : Variant) {ext : Extender} {σ : Heap} {u : Nat} {r : Nat × Heap}
    (h : v.program.malloc ext σ u = some r) : 0 < u :=
  Nat.pos_of_ne_zero fun hu => by rw [hu, malloc_zero] at h; cases h

/-- `mm_realloc(p, u)` of a live payload hands out a payload apart from every live one, `p`'s
included, that starts with the first `min(u, u₀)` bytes of `p`. -/
theorem realloc_store (v : Variant) {s : Client} (hG : v.program.Good s) {ext : Extender}
    (hext : ext.Bounded s.heap.lo) {p u₀ u q : Nat} {σ' : Heap} (hp : (p, u₀) ∈ s.live)
    (hu : reqSize u < 2^31) (h : mmRealloc (v.program.malloc ext) v.program.L s.heap p u = some (q, σ')) :
    Store.Apart s.live q u ∧ ∀ i < min u u₀, σ'.byte (q + i) = s.heap.byte (p + i) := by
  obtain ⟨A, hR, hI, hlive⟩ := hG.arena
  obtain ⟨h8, sp, hps, hu₀⟩ := hlive.2 p u₀ hp
  obtain ⟨σ₁, hm, rfl⟩ := mmRealloc_eq_some h
  have hal := Program.MallocSpec.allocates v.mallocSpec hR hI hext hG.lo_le hG.bound hu hm
  refine ⟨hal.apart hlive (reqSize_spec u).2.2, fun i hi => ?_⟩
  obtain ⟨A₁, hR₁, hI₁, ⟨sq, hqs, hle⟩, hkeep⟩ := hal.arena
  have hp₁ := hkeep _ _ hps rfl
  obtain ⟨pre, post, hA₁, hpre⟩ := mem_placed_iff.mp hp₁
  have hqp : q - 8 ≠ p - 8 := fun he => by have := hal.fresh _ (he ▸ hps); simp at this
  have hsz₁ : total A₁.blocks < 2^31 := by
    have := hR₁.brk; have := hal.bound; have := hal.prologue; have := hG.lo_le; omega
  rw [hR₁.blockSize_eq (by rw [hal.prologue]; exact hp₁)]
  rw [← hal.prologue] at hI₁ hqs hpre
  have hs₁ : min u sp + 16 ≤ sq := by
    have := Nat.min_le_left u sp; have := (reqSize_spec u).2.2; omega
  calc _ = σ₁.byte (p + i) := hR₁.copy_free_byte hI₁ hqs hal.payload hs₁ hA₁ rfl hpre h8 hqp
          hsz₁ (Nat.min_le_right u sp) (by rw [hal.prologue]; exact hG.aligned)
          (show i < min u sp by omega)
    _ = s.heap.byte (p + i) := hal.byte_eq hI.sized.pos hps rfl h8 (show i < sp - 16 by omega)

theorem step_store (v : Variant) {s s' : Client} (hs : v.program.Reachable s)
    (h : v.program.Step s s') : s'.store = s.store ∨ Store.Step s.store s'.store := by
  have hG := v.good hs
  have hG' := hG.step v.mallocSpec h
  have hkeep := hG.keeps v.mallocSpec h
  cases h with
  | malloc hext hu hm =>
    obtain ⟨A, hR, hI, hlive⟩ := hG.arena
    have hal := Program.MallocSpec.allocates v.mallocSpec hR hI hext hG.lo_le hG.bound hu hm
    exact .inr (.malloc (v.malloc_pos hm) (hG'.live_aligned (List.mem_cons_self _ _))
      (hal.apart hlive (reqSize_spec _).2.2) (hkeep _ (fun _ => id) fun _ => List.mem_cons_of_mem _))
  | mallocNull => exact .inl rfl
  | free hp =>
    exact .inr (.free hp (hkeep _ (fun _ => List.mem_of_mem_erase) fun _ => id))
  | realloc hext hu hp hr =>
    obtain ⟨σ₁, hm, -⟩ := mmRealloc_eq_some hr
    obtain ⟨ha, hb⟩ := v.realloc_store hG hext hp hu hr
    exact .inr (.realloc hp (v.malloc_pos hm) (hG'.live_aligned (List.mem_cons_self _ _)) ha hb
      (hkeep _ (fun _ => List.mem_of_mem_erase) fun _ => List.mem_cons_of_mem _))

end Variant

/-- Every run refines the abstract `Store`: its live payloads and bytes are a reachable `Store`, and
each call is a `Store` step or changes nothing. -/
theorem store_refinement (v : Variant) {s : Client} (hs : v.program.Reachable s) :
    Store.Reachable s.store ∧
      ∀ s', v.program.Step s s' → s'.store = s.store ∨ Store.Step s.store s'.store := by
  refine ⟨?_, fun _ => v.step_store hs⟩
  induction hs with
  | init => exact .init _
  | step hs h ih =>
    rcases v.step_store hs h with he | hst
    · rwa [he]
    · exact ih.step hst

/-- In part_000, the state after a first `mm_malloc(1)` is a reachable `Store`. -/
theorem store_refinement_first_request :
    ∃ s : Client, Variant.seg.program.Reachable s ∧ s.live ≠ [] ∧ Store.Reachable s.store ∧
      ∀ s', Variant.seg.program.Step s s' → s'.store = s.store ∨ Store.Step s.store s'.store := by
  obtain ⟨s, p, σ', hs, hb, h⟩ := Variant.seg.exists_malloc Nat.one_ne_zero (by decide)
  have hs' : Variant.seg.program.Reachable ⟨σ', (p, 1) :: s.live⟩ :=
    .step hs (.malloc hb (by decide) h)
  exact ⟨_, hs', List.cons_ne_nil _ _, store_refinement .seg hs'⟩

end MallocLab.MM
