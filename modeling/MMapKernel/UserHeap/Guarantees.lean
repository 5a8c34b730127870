import MMapKernel.UserHeap.Runs

/-!
# What the heap of user programs guarantees

Three results about the runs of a program, each with a call that breaks it in another run.
-/

open BoundaryTag Transition
namespace MMapKernel.UserHeap
open Heap (WellFormed)

/-- In every run of acts that reach none of the defects, each further one of them returns: every
index that it reads or writes lies in the array. -/
theorem accesses_in_range (base : ℕ) {s : Session}
    (hs : Reachable ((sessions base).restrict Session.Sound) s) {a : Act} (ha : s.Allowed a)
    (hsound : s.Sound a) : ∃ t, s.step a = .ok t := by
  obtain ⟨bs, fl, hi⟩ := hs.invariant (sessions_inductive base)
  obtain ⟨t, hstep, -⟩ := step_inv hi ha hsound
  exact ⟨t, hstep⟩

theorem oneBlock_live : ∃ s, soundRun 0x1000 [.malloc 8] = some s ∧ 0x100C ∈ s.live ∧
    0x100C ≠ s.heap.base := by
  have hrun : (soundRun 0x1000 [.malloc 8]).any (fun s =>
      decide (0x100C ∈ s.live ∧ 0x100C ≠ s.heap.base)) = true := by decide +kernel
  obtain ⟨s, hs, hlive⟩ := (Option.any_eq_true _ _).mp hrun
  exact ⟨s, hs, of_decide_eq_true hlive⟩

theorem one_block_grows : ∃ s t, soundRun 0x1000 [.malloc 8] = some s ∧
    s.step (.realloc 0x100C 16) = .ok t := by
  obtain ⟨s, hs, hp, hpb⟩ := oneBlock_live
  obtain ⟨t, ht⟩ := accesses_in_range 0x1000 (soundRun_reachable hs) (a := .realloc 0x100C 16)
    (.inr (.inl hp)) (.inr ⟨hp, by decide, fun he => absurd he hpb⟩)
  exact ⟨s, t, hs, ht⟩

/-- The result of `malloc(0)` is the address of the array, whose block would begin before it. -/
theorem empty_block_grows : ¬ ∀ (base : ℕ) (s : Session), Reachable (sessions base) s →
    ∀ a, s.Allowed a → ∃ t, s.step a = .ok t := by
  intro hall
  have hrun : (allowedRun 0x1000 [.malloc 0]).any (fun s =>
      decide (0x1000 ∈ s.live) && (tryStep s (.realloc 0x1000 1)).isNone) = true := by decide +kernel
  obtain ⟨s, hs, hfail⟩ := (Option.any_eq_true _ _).mp hrun
  rw [Bool.and_eq_true, decide_eq_true_eq] at hfail
  obtain ⟨t, ht⟩ := hall 0x1000 s (allowedRun_reachable hs) (.realloc 0x1000 1) (.inr (.inl hfail.1))
  simp [tryStep, ht, Except.toOption] at hfail

/-- In every state that such a run comes to, `realloc` of a live block to at most `4 * INTS` bytes
stays in the array, and if it returns a block, the bytes have moved to it, it has room for the new
size, the words of the old one lie in a free block, every other block has its bytes, and the heap is
as well formed as before. -/
theorem realloc_preserves (base : ℕ) {s : Session}
    (hs : Reachable ((sessions base).restrict Session.Sound) s) {p : ℕ} (hp : p ∈ s.live)
    (hpb : p ≠ s.heap.base) {n : UInt32} (hn : n ≠ 0) (hle : n.toNat ≤ 4 * ints) :
    ∃ q h, realloc s.heap p n = .ok (q, h) ∧ (q ≠ 0 → Moves s p n q h) := by
  obtain ⟨bs, fl, hi⟩ := hs.invariant (sessions_inductive base)
  have hr : n.toNat ≤ 0xFFFFFFFC := hle.trans (by decide)
  rcases realloc_inv hi hp hpb hn hr with ⟨h, hres, -⟩ | ⟨q, h, hres, -, hmove, -⟩
  · exact ⟨0, h, hres, fun hq => absurd rfl hq⟩
  · exact ⟨q, h, hres, fun _ => hmove⟩

theorem one_block_moves : ∃ s q h, soundRun 0x1000 [.malloc 8] = some s ∧
    realloc s.heap 0x100C 16 = .ok (q, h) ∧ (q ≠ 0 → Moves s 0x100C 16 q h) := by
  obtain ⟨s, hs, hp, hpb⟩ := oneBlock_live
  obtain ⟨q, h, hres, hmove⟩ := realloc_preserves 0x1000 (soundRun_reachable hs) hp hpb (n := 16)
    (by decide) (by decide)
  exact ⟨s, q, h, hs, hres, hmove⟩

theorem not_wellFormed {h : Heap} {bs : List Block} {fl : List ℤ} {x y : ℤ} (hx : x ≠ 0) (hy : y ≠ 0)
    (havail : h.avail = x) (hnext : h.array (x + 1) = y) (htag : h.array y < 0) : ¬WellFormed h bs fl := by
  intro hw
  have hhead := hw.head
  have hlinked := hw.linked
  cases fl with
  | nil => exact hx (havail.symm.trans hhead)
  | cons x' rest =>
    obtain rfl : x = x' := havail.symm.trans hhead
    obtain ⟨-, hrest, -⟩ := hlinked
    cases rest with
    | nil => exact hy (hnext.symm.trans hrest)
    | cons y' rest =>
      obtain rfl : y = y' := hnext.symm.trans hrest
      obtain ⟨c, hc, hcf, hcy⟩ := hw.nodes y (by simp)
      have hav := hw.isAvail_start hc
      rw [hcf, hcy, Heap.isAvail, decide_eq_true_eq] at hav
      omega

/-- A size for which `bytes + 3` wraps gets the smallest block, and all words of the old one are
copied over its footer and the header behind it. -/
theorem wrapped_size_overruns : ¬ ∀ (base : ℕ) (s : Session), Reachable (sessions base) s →
    ∀ p ∈ s.live, p ≠ s.heap.base → ∀ n : UInt32, n ≠ 0 → n.toNat ≤ 4 * ints →
      ∃ q h, realloc s.heap p n = .ok (q, h) ∧ (q ≠ 0 → Moves s p n q h) := by
  intro hall
  have hrun : (allowedRun 0x1000 [.malloc 8, .realloc 0x100C 0xFFFFFFFF]).any (fun s =>
      decide (0x101C ∈ s.live ∧ 0x101C ≠ s.heap.base) && (realloc s.heap 0x101C 8).toOption.any fun r =>
        decide (r.1 ≠ 0 ∧ r.2.avail = 6 ∧ r.2.array 7 = 10 ∧ r.2.array 10 < 0)) = true := by
    decide +kernel
  obtain ⟨s, hs, hwords⟩ := (Option.any_eq_true _ _).mp hrun
  rw [Bool.and_eq_true, decide_eq_true_eq] at hwords
  obtain ⟨⟨hp, hpb⟩, hwords⟩ := hwords
  obtain ⟨q, h, hres, hmove⟩ := hall 0x1000 s (allowedRun_reachable hs) 0x101C hp hpb 8 (by decide)
    (by decide)
  rw [hres] at hwords
  obtain ⟨hq, havail, hnext, htag⟩ := of_decide_eq_true hwords
  obtain ⟨bs, fl, hw, -⟩ := (hmove hq).wellFormed
  exact not_wellFormed (by decide) (by decide) havail hnext htag hw

theorem release_ne {base : ℕ} {S : Heap.Session} {L R : List Block} {b : Block} {len : ℤ} {fl : List ℤ}
    (hi : S.Inv base len (L ++ b :: R) fl) (hbf : b.free = false) :
    S.heap.release b.start ≠ S.heap := by
  intro hsame
  obtain ⟨bs', fl', hi', ht, -⟩ := hi.release hbf
  obtain ⟨f, hf, hff, hlo, hhi⟩ := release_covered hi hi' ht
  have hw' : WellFormed S.heap bs' fl' := by
    have hwf := hi'.wf
    dsimp only at hwf
    rwa [hsame] at hwf
  have hlist : fl' = fl := hw'.freeList_eq.symm.trans hi.wf.freeList_eq
  have hmem : f.start ∈ fl := hlist ▸ hw'.mem_list hf hff
  obtain ⟨c, hc, hcf, hstart, hsize⟩ := hi.wf.listed hmem
  have hcs : f.size = c.size := (hw'.size_start hf).symm.trans hsize
  have h4 := (hi.wf.layout.mem b (by simp)).2.1
  simp only [Block.stop] at hhi
  rcases hi.wf.layout.apart b (by simp) c hc with he | hlt | hlt
  · exact absurd he (Heap.ne_of_taken hbf hcf)
  · simp only [Block.stop] at hlt
    omega
  · simp only [Block.stop] at hlt
    omega

theorem realloc_result {h : Heap} {bs : List Block} {fl : List ℤ} {b : Block} {n : UInt32}
    (hw : WellFormed h bs fl) (hb : b ∈ bs) (hbf : b.free = false) (hn : n ≠ 0) {r : ℕ × Heap}
    (hm : malloc h n = .ok r) {q : ℕ} {g : Heap} (hres : realloc h (h.pointer b) n = .ok (q, g)) :
    q = r.1 := by
  rw [realloc_block hw hb hbf hn, hm, ok_bind] at hres
  obtain ⟨copy, -, hres⟩ := bind_eq_ok hres
  obtain ⟨rest, -, hres⟩ := bind_eq_ok hres
  cases hres
  rfl

/-- In every state that such a run comes to, for a live block and a size other than 0: no `realloc`
returns 0 over a heap that has changed exactly if a free block has room. Where none has, the block is
released all the same. -/
theorem failed_realloc_keeps_iff (base : ℕ) {s : Session}
    (hs : Reachable ((sessions base).restrict Session.Sound) s) {p : ℕ} (hp : p ∈ s.live)
    (hpb : p ≠ s.heap.base) {n : UInt32} (hn : n ≠ 0) :
    (∀ h, realloc s.heap p n = .ok (0, h) → h = s.heap) ↔
      ∃ y ∈ s.heap.freeList, Heap.intsOf n ≤ s.heap.size y := by
  obtain ⟨bs, fl, hi⟩ := hs.invariant (sessions_inductive base)
  have hw : WellFormed s.heap bs fl := hi.wf
  obtain ⟨b, hb, hbf, rfl⟩ := block_of_live hi hp hpb
  rw [hw.freeList_eq]
  rcases malloc_cases hw hn with ⟨hfull, hm⟩ | ⟨L, c, R, rfl, hcf, hfit, hm⟩
  · have hnone : ¬∃ y ∈ fl, Heap.intsOf n ≤ s.heap.size y := by
      rintro ⟨y, hy, hle⟩
      exact absurd (hfull y hy) (by omega)
    obtain ⟨L, R, rfl⟩ := List.append_of_mem hb
    have hres : realloc s.heap (s.heap.pointer b) n = .ok (0, s.heap.release b.start) := by
      rw [realloc_block hw hb hbf hn, hm, ok_bind, if_neg (by simp), ok_bind, free_block hw hbf]
      rfl
    exact iff_of_false (fun hkeep => release_ne hi hbf (hkeep _ hres)) hnone
  · have hc : c ∈ L ++ c :: R := by simp
    have hroom : ∃ y ∈ fl, Heap.intsOf n ≤ s.heap.size y :=
      ⟨c.start, hw.mem_list hc hcf, by rwa [hw.size_start hc]⟩
    refine iff_of_true (fun h hres => ?_) hroom
    have hpos := (index_pointer hw hc).2
    have hq := realloc_result hw hb hbf hn hm hres
    dsimp only at hq
    omega

theorem one_block_has_room : ∃ s, soundRun 0x1000 [.malloc 8] = some s ∧
    ((∀ h, realloc s.heap 0x100C 16 = .ok (0, h) → h = s.heap) ↔
      ∃ y ∈ s.heap.freeList, Heap.intsOf 16 ≤ s.heap.size y) := by
  obtain ⟨s, hs, hp, hpb⟩ := oneBlock_live
  exact ⟨s, hs, failed_realloc_keeps_iff 0x1000 (soundRun_reachable hs) hp hpb (n := 16) (by decide)⟩

/-- A request for the whole array is refused, and the header of the block says that it is free. -/
theorem refused_block_released : ¬ ∀ (base : ℕ) (s : Session), Reachable (sessions base) s →
    ∀ p ∈ s.live, p ≠ s.heap.base → ∀ n : UInt32, n ≠ 0 →
      ∀ h, realloc s.heap p n = .ok (0, h) → h = s.heap := by
  intro hall
  have hrun : (allowedRun 0x1000 [.malloc 8]).any (fun s =>
      decide (0x100C ∈ s.live ∧ 0x100C ≠ s.heap.base ∧ s.heap.array 2 < 0) &&
        (realloc s.heap 0x100C 0x400000).toOption.any fun r =>
          decide (r.1 = 0 ∧ 0 < r.2.array 2)) = true := by
    decide +kernel
  obtain ⟨s, hs, hwords⟩ := (Option.any_eq_true _ _).mp hrun
  rw [Bool.and_eq_true, decide_eq_true_eq] at hwords
  obtain ⟨⟨hp, hpb, htaken⟩, hwords⟩ := hwords
  obtain ⟨⟨q, h⟩, hres, hfree⟩ := (Option.any_eq_true _ _).mp hwords
  obtain ⟨rfl, hfree⟩ := of_decide_eq_true hfree
  have hcall : realloc s.heap 0x100C 0x400000 = .ok (0, h) := toOption_some hres
  rw [hall 0x1000 s (allowedRun_reachable hs) 0x100C hp hpb 0x400000 (by decide) h hcall] at hfree
  exact absurd htaken hfree.not_gt

end MMapKernel.UserHeap
