import MMapKernel.Heap.Requests

/-!
# Freeing a pointer twice

`free` recognises a free block by the sign of the word before the pointer. A history
keeps, beside the session, the pointers that were released and whose payload no later
block has taken over. The word before such a pointer stays as `release` left it, or gets
the non-negative words of a free block, unless a later block ends there.
-/

open BoundaryTag Transition
namespace MMapKernel.Heap

structure Freed where
  ptr : ℕ
  size : ℤ
deriving DecidableEq, Repr

def TakesOver (h : Heap) (p : ℕ) (f : Freed) : Prop :=
  h.indexOf p < h.indexOf f.ptr + f.size - 1 ∧
    h.indexOf f.ptr + 1 < h.indexOf p + h.size (h.indexOf p)

instance decidableTakesOver (h : Heap) (p : ℕ) (f : Freed) : Decidable (h.TakesOver p f) :=
  inferInstanceAs (Decidable (_ ∧ _))

structure History where
  session : Session
  freed : List Freed

namespace History

def remember (h : History) : Act → List Freed
  | .call (.malloc bytes) =>
    match h.session.heap.malloc bytes with
    | .error _ => h.freed
    | .ok (p, heap) =>
      if bytes = 0 ∨ p = 0 then h.freed else h.freed.filter fun f => ¬heap.TakesOver p f
  | .call (.free p) =>
    if p ∈ h.session.live then
      ⟨p, h.session.heap.size (h.session.heap.indexOf p)⟩ :: h.freed
    else h.freed
  | .write _ _ _ => h.freed

def step (h : History) (a : Act) : Option History :=
  if h.session.Permitted a then
    match h.session.act a with
    | .error _ => none
    | .ok s => some ⟨s, h.remember a⟩
  else none

def start (base : ℕ) (bytes : UInt32) (memory : ℤ → ℤ) : History :=
  ⟨⟨makeBlocks base bytes memory, []⟩, []⟩

def Detects (h : History) : Prop :=
  ∀ f ∈ h.freed, h.session.heap.free f.ptr =
    .error (.freeingFreeBlock f.ptr (h.session.heap.indexOf f.ptr))

/-- A release does not merge to the left, and an allocation does not end on the header word
of a released pointer. -/
def Leaves (h : History) : Act → Prop
  | .call (.malloc bytes) => ∀ p heap, h.session.heap.malloc bytes = .ok (p, heap) →
      bytes ≠ 0 → p ≠ 0 → ∀ f ∈ h.freed,
      heap.indexOf p + heap.size (heap.indexOf p) ≠ heap.indexOf f.ptr + 1
  | .call (.free p) => p ∈ h.session.live →
      h.session.heap.isAvail (h.session.heap.left (h.session.heap.indexOf p)) = false
  | .write _ _ _ => True

end History

section Nonneg
variable {h : Heap} {bs L R : List Block} {fl : List ℤ} {s e : ℤ} {k : ℤ}

theorem update_nonneg {a : ℤ → ℤ} {i v : ℤ} (hv : 0 ≤ v) (hk : 0 ≤ a k) :
    0 ≤ Function.update a i v k := by
  by_cases hi : k = i
  · rw [hi, Function.update_self]
    exact hv
  · rwa [Function.update_of_ne hi]

theorem headD_nonneg {l : List ℤ} (hl : ∀ y ∈ l, 0 < y) : 0 ≤ l.headD 0 := by
  by_cases hn : l = []
  · simp [hn]
  · exact (hl _ (headD_mem hn)).le

theorem getLastD_nonneg {l : List ℤ} (hl : ∀ y ∈ l, 0 < y) : 0 ≤ l.getLastD 0 := by
  by_cases hn : l = []
  · simp [hn]
  · exact (hl _ (getLastD_mem hn)).le

theorem remove_nonneg (ha : AvailList h fl) (hpos : ∀ y ∈ fl, 0 < y) {x : ℤ} (hx : x ∈ fl)
    (hk : 0 ≤ h.array k) : 0 ≤ (h.remove x).array k := by
  obtain ⟨l, r, rfl⟩ := List.append_of_mem hx
  have hl := getLastD_nonneg fun y hy => hpos y (List.mem_append_left _ hy)
  have hr := headD_nonneg fun y hy => hpos y (List.mem_append_right _ (List.mem_cons_of_mem _ hy))
  rw [(remove_eq ha hpos).2]
  by_cases h₁ : l = [] <;> by_cases h₂ : r = [] <;> simp only [h₁, h₂, ↓reduceIte]
  · exact hk
  · exact update_nonneg (by simp) hk
  · exact update_nonneg (by simp) hk
  · exact update_nonneg hl (update_nonneg hr hk)

theorem nodeWords_nonneg {i ints : ℤ} (hints : 0 ≤ ints) (ha : 0 ≤ h.avail)
    (hk : 0 ≤ h.array k ∨ k = i) : 0 ≤ h.nodeWords i ints k := by
  unfold nodeWords
  refine update_nonneg le_rfl (update_nonneg ha (update_nonneg hints ?_))
  rcases hk with hk | rfl
  · exact update_nonneg hints hk
  · rw [Function.update_self]
    exact hints

theorem makeAvail_nonneg {i ints : ℤ} (hints : 0 ≤ ints) (hi : 0 ≤ i) (ha : 0 ≤ h.avail)
    (hk : 0 ≤ h.array k ∨ k = i) : 0 ≤ (h.makeAvail i ints).array k := by
  rw [makeAvail_array hints]
  split
  · exact nodeWords_nonneg hints ha hk
  · exact update_nonneg hi (nodeWords_nonneg hints ha hk)

theorem Pending.avail_nonneg (hp : Pending h L R fl s e) : 0 ≤ h.avail := by
  rw [hp.head]
  exact headD_nonneg (hp.nodes.pos hp.toTagging)

theorem Pending.remove_nonneg (hp : Pending h L R fl s e) {x : ℤ} (hx : x ∈ fl)
    (hk : 0 ≤ h.array k) : 0 ≤ (h.remove x).array k :=
  Heap.remove_nonneg hp.toAvailList (hp.nodes.pos hp.toTagging) hx hk

theorem Pending.mergeLeft_nonneg (hp : Pending h L R fl s e) (sz : ℤ) (hk : 0 ≤ h.array k) :
    0 ≤ (h.mergeLeft s sz (h.left s)).1.array k := by
  unfold mergeLeft
  split
  · rename_i hav
    rcases hp.left_eq with ⟨-, -, hf⟩ | ⟨L', c, rfl, hl, hf⟩
    · exact absurd (hf.symm.trans hav) (by decide)
    · rw [hl]
      exact hp.remove_nonneg (hp.mem_list (by simp) (hf.symm.trans hav)) hk
  · exact hk

theorem Pending.mergeRight_nonneg (hp : Pending h L R fl s e) (sz : ℤ) (hk : 0 ≤ h.array k) :
    0 ≤ (h.mergeRight sz e).1.array k := by
  unfold mergeRight
  split
  · rename_i hav
    rcases hp.right_eq with ⟨-, hf⟩ | ⟨R', c, rfl, rfl, hf⟩
    · exact absurd (hf.symm.trans hav) (by decide)
    · exact hp.remove_nonneg (hp.mem_list (by simp) (hf.symm.trans hav)) hk
  · exact hk

end Nonneg

section Release
variable {h : Heap} {L R : List Block} {fl : List ℤ} {b : Block} {s e : ℤ} {k : ℤ}

/-- Releasing a block leaves no word negative that was not. The header it writes is not
negative either, and stands at the block itself when the left neighbour is taken. -/
theorem WellFormed.release_nonneg (hw : WellFormed h (L ++ b :: R) fl) (hb : b.free = false)
    (hk : 0 ≤ h.array k ∨ k = b.start ∧ h.isAvail (h.left b.start) = false) :
    0 ≤ (h.release b.start).array k := by
  obtain ⟨hp, hsL, hsR⟩ := hw.opened hb
  have hsz : b.size = b.stop - b.start := by simp only [Block.stop]; omega
  obtain ⟨L', fl₁, hp₁, hsz₁, -, -⟩ := mergeLeft_spec hp hsL b.size hsz
  obtain ⟨R', fl₂, e', hp₂, hsz₂, -, -⟩ := mergeRight_spec hp₁ hsR hsz₁
  have hstart := tiles_le hp₁.before
  have hgap := hp₂.gap
  rw [hw.release_eq]
  apply makeAvail_nonneg (by omega) (by omega) hp₂.avail_nonneg
  rcases hk with hk | ⟨rfl, hleft⟩
  · exact Or.inl (hp₁.mergeRight_nonneg _ (hp.mergeLeft_nonneg _ hk))
  · exact Or.inr (by simp [mergeLeft, hleft])

theorem Pending.inside_ne_link (hp : Pending h L R fl s e) (hs : s ≤ k) (he : k < e) :
    ∀ y ∈ fl, k ≠ y + 1 ∧ k ≠ y + 2 := by
  intro y hy
  have := hp.sep y hy
  omega

theorem Pending.remove_inside (hp : Pending h L R fl s e) {x : ℤ} (hx : x ∈ fl) (hs : s ≤ k)
    (he : k < e) : (h.remove x).array k = h.array k :=
  (remove_spec hp.toTagging hp.toAvailList hp.nodes hp.nodup hx).2.2 k (hp.inside_ne_link hs he)

theorem Pending.mergeRight_inside (hp : Pending h L R fl s e) (sz : ℤ) (hs : s ≤ k) (he : k < e) :
    (h.mergeRight sz e).1.array k = h.array k := by
  unfold mergeRight
  split
  · rename_i hav
    rcases hp.right_eq with ⟨-, hf⟩ | ⟨R', c, rfl, rfl, hf⟩
    · exact absurd (hf.symm.trans hav) (by decide)
    · exact hp.remove_inside (hp.mem_list (by simp) (hf.symm.trans hav)) hs he
  · rfl

theorem WellFormed.release_stale (hw : WellFormed h (L ++ b :: R) fl) (hb : b.free = false)
    (hleft : h.isAvail (h.left b.start) = true) :
    (h.release b.start).array b.start = -b.size := by
  obtain ⟨hp, hsL, hsR⟩ := hw.opened hb
  have h4 : 4 ≤ b.size := (tiles_mem hw.tiles (b := b) (by simp)).2.1
  have hword : h.array b.start = -b.size := by
    rw [(hw.tagged b (by simp)).1, Block.tag, if_neg (by simp [hb])]
  rcases hp.left_eq with ⟨-, -, hf⟩ | ⟨L', c, rfl, hl, hf⟩
  · exact absurd (hf.symm.trans hleft) (by decide)
  · have hcf : c.free = true := hf.symm.trans hleft
    have hc4 := (hp.layout.mem c (by simp)).2.1
    have hcs : c.stop = b.start := (tiles_middle.mp hp.before).2.2
    have hstop : b.start < b.stop := by simp only [Block.stop]; omega
    have hcb : c.start + 4 ≤ b.start := by rw [← hcs, Block.stop]; omega
    have hmerge : h.mergeLeft b.start b.size (h.left b.start) =
        (h.remove c.start, c.start, b.size + (h.remove c.start).size c.start) := by
      unfold mergeLeft
      rw [if_pos hleft, hl]
    have hp₁ := hp.absorb_left hcf
    have hsize : b.size + (h.remove c.start).size c.start = b.stop - c.start := by
      rw [hp.size_after_remove (by simp) hcf]
      simp only [Block.stop] at hcs ⊢
      omega
    obtain ⟨R', fl₂, e', hp₂, hsz₂, he', -⟩ := mergeRight_spec hp₁ hsR hsize
    rw [hw.release_eq, hmerge]
    dsimp only
    rw [hsz₂, makeAvail_frame (by omega) hp₂.toAvailList (by omega) (by omega) (by omega)
      (by simp only [Block.stop] at *; omega)
      fun y hy => (hp₂.inside_ne_link (by omega) (by omega) y hy).2,
      hp₁.mergeRight_inside _ (by omega) hstop,
      hp.remove_inside (hp.mem_list (by simp) hcf) le_rfl hstop, hword]

theorem WellFormed.carve_nonneg (hw : WellFormed h (L ++ b :: R) fl) (hb : b.free = true)
    {ints : ℤ} (h4 : 4 ≤ ints) (hfit : ints ≤ b.size)
    (hout : k < b.start ∨ b.start + carvedSize b ints ≤ k) (hk : 0 ≤ h.array k) :
    0 ≤ (h.carve ints b.size b.start).array k := by
  have hmem : b.start ∈ fl := hw.mem_list (by simp) hb
  have hremove : 0 ≤ (h.remove b.start).array k := hw.open_at.remove_nonneg hmem hk
  have havail : 0 ≤ (h.remove b.start).avail := (hw.open_at.absorb_right hb).avail_nonneg
  have hb2 := (tiles_mem hw.tiles (b := b) (by simp)).1
  unfold carve
  unfold carvedSize at hout
  by_cases hsplit : 4 ≤ b.size - ints
  · simp only [hsplit, ↓reduceIte, ge_iff_le] at hout ⊢
    refine makeAvail_nonneg (by omega) (by omega) havail (Or.inl ?_)
    rwa [makeTaken_frame (by omega) (by omega) (by omega)]
  · simp only [hsplit, ↓reduceIte, ge_iff_le] at hout ⊢
    rwa [makeTaken_frame (by omega) (by omega) (by omega)]

end Release

structure Rests (s : Session) (f : Freed) : Prop where
  above : s.heap.base < f.ptr
  size : 4 ≤ f.size
  low : 2 ≤ s.heap.indexOf f.ptr
  high : s.heap.indexOf f.ptr + f.size ≤ s.heap.len - 2
  apart : ∀ q ∈ s.live, s.heap.indexOf q + s.heap.size (s.heap.indexOf q) ≤ s.heap.indexOf f.ptr ∨
    s.heap.indexOf f.ptr + f.size ≤ s.heap.indexOf q
  word : 0 ≤ s.heap.array (s.heap.indexOf f.ptr)

structure History.Inv (base : ℕ) (len : ℤ) (h : History) (bs : List Block) (fl : List ℤ) :
    Prop where
  session : h.session.Inv base len bs fl
  rests : ∀ f ∈ h.freed, Rests h.session f

section Facts
variable {base : ℕ} {len : ℤ} {s t : Session} {bs bs' : List Block} {fl fl' : List ℤ}

theorem Session.Inv.live_nodup (hi : s.Inv base len bs fl) : s.live.Nodup := by
  have hstarts := (spread_startsOf hi.wf.tiles false).nodup
  have hmap : (takenBlocks bs).map s.heap.pointer =
      (startsOf false bs).map fun x => s.heap.addressOf (x + 1) := by
    simp [takenBlocks, startsOf, pointer]
  rw [hi.live.nodup_iff, hmap]
  refine hstarts.map_on fun x hx y hy hxy => ?_
  obtain ⟨b, hb, -, rfl⟩ := mem_startsOf.mp hx
  obtain ⟨c, hc, -, rfl⟩ := mem_startsOf.mp hy
  have hb0 := hi.start_nonneg hb
  have hc0 := hi.start_nonneg hc
  simp only [addressOf] at hxy
  omega

theorem Session.Inv.index_eq (hi : s.Inv base len bs fl) (hi' : t.Inv base len bs' fl') (p : ℕ) :
    t.heap.indexOf p = s.heap.indexOf p := by
  rw [indexOf_congr (hi'.base_eq.trans hi.base_eq.symm)]

theorem Session.Inv.size_kept (hi : s.Inv base len bs fl) (hi' : t.Inv base len bs' fl')
    (hkeep : ∀ b ∈ takenBlocks bs, s.heap.pointer b ∈ t.live → b ∈ takenBlocks bs') {q : ℕ}
    (hq : q ∈ s.live) (hq' : q ∈ t.live) :
    t.heap.size (t.heap.indexOf q) = s.heap.size (s.heap.indexOf q) := by
  obtain ⟨b, hb, hbf, rfl, hidx, hsize⟩ := hi.block_of_live hq
  have hb' := (mem_takenBlocks.mp (hkeep b (mem_takenBlocks.mpr ⟨hb, hbf⟩) hq')).1
  rw [hsize, hi.index_eq hi', hidx, hi'.wf.size_start hb']

theorem Rests.keep {f : Freed} (hf : Rests s f) (hi : s.Inv base len bs fl)
    (hi' : t.Inv base len bs' fl')
    (hkeep : ∀ b ∈ takenBlocks bs, s.heap.pointer b ∈ t.live → b ∈ takenBlocks bs')
    (hlive : ∀ q ∈ t.live, q ∈ s.live ∨
      s.heap.indexOf q + t.heap.size (t.heap.indexOf q) ≤ s.heap.indexOf f.ptr ∨
      s.heap.indexOf f.ptr + f.size ≤ s.heap.indexOf q)
    (hword : 0 ≤ t.heap.array (s.heap.indexOf f.ptr)) : Rests t f := by
  have hidx := hi.index_eq hi'
  refine ⟨?_, hf.size, ?_, ?_, fun q hq => ?_, ?_⟩
  · rw [hi'.base_eq, ← hi.base_eq]
    exact hf.above
  · rw [hidx]
    exact hf.low
  · rw [hidx, hi'.len_eq, ← hi.len_eq]
    exact hf.high
  · rw [hidx f.ptr]
    rcases hlive q hq with hs | hnew
    · rw [hi.size_kept hi' hkeep hs hq, hidx q]
      exact hf.apart q hs
    · rw [← hidx q] at hnew
      exact hnew
  · rw [hidx]
    exact hword

theorem Rests.covered {f : Freed} (hf : Rests s f) (hi : s.Inv base len bs fl) :
    ∃ b ∈ bs, b.free = true ∧ b.start ≤ s.heap.indexOf f.ptr ∧
      s.heap.indexOf f.ptr + f.size ≤ b.stop := by
  have h4 := hf.size
  refine settled_covers hi.wf.tiles hi.wf.settled hf.low (by omega) hf.high fun c hc => ?_
  have hcm := (mem_takenBlocks.mp hc).1
  have hlive : s.heap.pointer c ∈ s.live :=
    hi.live.mem_iff.mpr (List.mem_map.mpr ⟨c, hc, rfl⟩)
  have := hf.apart _ hlive
  rwa [indexOf_pointer s.heap (hi.start_nonneg hcm), hi.wf.size_start hcm] at this

theorem Rests.carve {f : Freed} {L R : List Block} {b : Block} (hf : Rests s f)
    (hi : s.Inv base len (L ++ b :: R) fl) (hbf : b.free = true) {bytes : UInt32}
    (hfit : intsOf bytes ≤ b.size)
    (hout : b.start + carvedSize b (intsOf bytes) ≤ s.heap.indexOf f.ptr ∨
      s.heap.indexOf f.ptr + f.size ≤ b.start) :
    Rests ⟨s.heap.carve (intsOf bytes) b.size b.start, s.heap.pointer b :: s.live⟩ f := by
  obtain ⟨hi', hkeep⟩ := hi.carve hbf (four_le_intsOf bytes) hfit
  obtain ⟨-, hsize, -⟩ := hi.carve_apart hbf hfit
  have hindex := hi.index_eq hi'
  refine hf.keep hi hi' (fun c hc _ => (hkeep c hc).1) (fun q hq => ?_) ?_
  · rcases List.mem_cons.mp hq with rfl | hq
    · rw [hindex, indexOf_pointer s.heap (hi.start_nonneg (by simp)), hsize]
      exact Or.inr hout
    · exact Or.inl hq
  · have h4 := hf.size
    exact hi.wf.carve_nonneg hbf (four_le_intsOf bytes) hfit (by omega) hf.word

theorem Rests.apart_of_carved {f : Freed} {L R : List Block} {b : Block} (hf : Rests s f)
    (hi : s.Inv base len (L ++ b :: R) fl) {ints : ℤ} (hfit : ints ≤ b.size)
    (hend : b.start + carvedSize b ints ≠ s.heap.indexOf f.ptr + 1)
    (hover : ¬(b.start < s.heap.indexOf f.ptr + f.size - 1 ∧
      s.heap.indexOf f.ptr + 1 < b.start + carvedSize b ints)) :
    b.start + carvedSize b ints ≤ s.heap.indexOf f.ptr ∨ s.heap.indexOf f.ptr + f.size ≤ b.start := by
  by_cases hbefore : b.start + carvedSize b ints ≤ s.heap.indexOf f.ptr
  · exact Or.inl hbefore
  · obtain ⟨c, hc, -, hlo, hhi⟩ := hf.covered hi
    have h4 := hf.size
    have hcarved := carvedSize_le hfit
    have hstop : b.stop = b.start + b.size := rfl
    rcases hi.wf.layout.apart b (by simp) c hc with rfl | hlt | hlt <;> omega

theorem Session.Inv.live_of_erased (hi : s.Inv base len bs fl) {p q : ℕ} (hq : q ∈ s.live.erase p) :
    q ∈ s.live ∧ q ≠ p :=
  ⟨List.mem_of_mem_erase hq, (hi.live_nodup.mem_erase_iff.mp hq).1⟩

theorem Rests.release {f : Freed} {L R : List Block} {b : Block} (hf : Rests s f)
    (hi : s.Inv base len (L ++ b :: R) fl) (hbf : b.free = false) :
    Rests ⟨s.heap.release b.start, s.live.erase (s.heap.pointer b)⟩ f := by
  obtain ⟨bs', fl', hi', -, hkeep⟩ := hi.release hbf
  refine hf.keep hi hi' (fun c hc hq => (hkeep c hc fun he => ?_).1)
    (fun q hq => Or.inl (hi.live_of_erased hq).1) (hi.wf.release_nonneg hbf (Or.inl hf.word))
  exact (hi.live_of_erased hq).2 (by rw [he])

theorem Rests.released {L R : List Block} {b : Block} (hi : s.Inv base len (L ++ b :: R) fl)
    (hbf : b.free = false) (hleft : s.heap.isAvail (s.heap.left b.start) = false) :
    Rests ⟨s.heap.release b.start, s.live.erase (s.heap.pointer b)⟩ ⟨s.heap.pointer b, b.size⟩ := by
  obtain ⟨bs', fl', hi', -, hkeep⟩ := hi.release hbf
  have hb : b ∈ L ++ b :: R := by simp
  have hin := hi.wf.layout.mem b hb
  have hidx := (hi.index_eq hi' (s.heap.pointer b)).trans (indexOf_pointer s.heap (hi.start_nonneg hb))
  refine ⟨?_, hin.2.1, ?_, ?_, fun q hq => ?_, ?_⟩
  · rw [hi'.base_eq, ← hi.base_eq]
    exact pointer_pos s.heap (hi.start_nonneg hb)
  · rw [hidx]
    exact hin.1
  · rw [hidx, hi'.len_eq, ← hi.len_eq]
    exact hin.2.2
  · obtain ⟨hlive, hqb⟩ := hi.live_of_erased hq
    have hkept := hi.size_kept hi' (fun c hc hq => (hkeep c hc fun he =>
      (hi.live_of_erased hq).2 (by rw [he])).1) hlive hq
    obtain ⟨c, hc, hcf, rfl, hcidx, hcsize⟩ := hi.block_of_live hlive
    rw [hidx, hkept, hcsize, hi.index_eq hi', hcidx]
    rcases hi.wf.layout.apart c hc b hb with rfl | hlt | hlt
    · exact absurd rfl hqb
    · exact Or.inl hlt
    · exact Or.inr hlt
  · rw [hidx]
    exact hi.wf.release_nonneg hbf (Or.inr ⟨rfl, hleft⟩)

theorem Rests.detected {f : Freed} (hf : Rests s f) : s.heap.free f.ptr =
    .error (.freeingFreeBlock f.ptr (s.heap.indexOf f.ptr)) := by
  have hpos := hf.above
  have htaken : s.heap.isTaken (s.heap.indexOf f.ptr) = false := by
    have := hf.word
    simp only [isTaken, decide_eq_false_iff_not]
    omega
  have hidx : sanity (((f.ptr - s.heap.base) / 4 : ℕ) - 1 : ℤ) = s.heap.indexOf f.ptr := rfl
  simp only [Heap.free, hidx, htaken, show f.ptr ≠ 0 by omega, show f.ptr ≠ s.heap.base by omega,
    ↓reduceIte, Bool.not_false]

end Facts

namespace History
variable {base : ℕ} {len : ℤ} {h t : History} {bs : List Block} {fl : List ℤ}

theorem step_cases {a : Act} (hstep : h.step a = some t) :
    h.session.Permitted a ∧ h.session.act a = .ok t.session ∧ t.freed = h.remember a := by
  unfold step at hstep
  split at hstep
  · rename_i ha
    split at hstep
    · exact absurd hstep (by simp)
    · rename_i s hs
      cases hstep
      exact ⟨ha, hs, rfl⟩
  · exact absurd hstep (by simp)

theorem Inv.stay (hi : h.Inv base len bs fl) (hs : t.session = h.session)
    (hf : t.freed = h.freed) : t.Inv base len bs fl :=
  ⟨hs ▸ hi.session, fun f hfm => hs ▸ hi.rests f (hf ▸ hfm)⟩

theorem Inv.malloc (hi : h.Inv base len bs fl) (hle : len ≤ 0x7FFFFFFF) {bytes : UInt32}
    (hact : h.session.step (.malloc bytes) = .ok t.session)
    (hfreed : t.freed = h.remember (.call (.malloc bytes)))
    (hg : h.Leaves (.call (.malloc bytes))) : ∃ bs' fl', t.Inv base len bs' fl' := by
  have his := hi.session
  by_cases hz : bytes = 0
  · subst hz
    have hm : h.session.heap.malloc 0 = .ok (h.session.heap.base, h.session.heap) := by
      simp [Heap.malloc]
    simp only [Session.step, hm, true_or, ↓reduceIte, Except.ok.injEq] at hact
    simp only [remember, hm, true_or, ↓reduceIte] at hfreed
    exact ⟨bs, fl, hi.stay hact.symm hfreed⟩
  rcases his.wf.malloc_cases (his.len_eq ▸ hle) hz with ⟨-, hm⟩ | ⟨L, b, R, rfl, hbf, hfit, -, hm⟩
  · simp only [Session.step, hm, or_true, ↓reduceIte, Except.ok.injEq] at hact
    simp only [remember, hm, or_true, ↓reduceIte] at hfreed
    exact ⟨bs, fl, hi.stay hact.symm hfreed⟩
  · have hp0 : h.session.heap.pointer b ≠ 0 := by
      have := pointer_pos h.session.heap (his.start_nonneg (b := b) (by simp))
      omega
    obtain ⟨hidx, hsize, -⟩ := his.carve_apart hbf hfit
    simp only [Session.step, hm, hz, hp0, or_self, ↓reduceIte, Except.ok.injEq] at hact
    simp only [remember, hm, hz, hp0, or_self, ↓reduceIte] at hfreed
    refine ⟨_, _, hact ▸ (his.carve hbf (four_le_intsOf bytes) hfit).1, fun f hf => ?_⟩
    rw [hfreed, List.mem_filter, decide_eq_true_eq] at hf
    obtain ⟨hf, hover⟩ := hf
    have hrest := hi.rests f hf
    have hend := hg _ _ hm hz hp0 f hf
    have hindex : (h.session.heap.carve (intsOf bytes) b.size b.start).indexOf =
        h.session.heap.indexOf := indexOf_congr (carve_base ..)
    rw [TakesOver, hidx, hsize, hindex] at hover
    rw [hidx, hsize, hindex] at hend
    rw [← hact]
    exact hrest.carve his hbf hfit (hrest.apart_of_carved his hfit hend hover)

theorem Inv.free (hi : h.Inv base len bs fl) {p : ℕ} (hallowed : h.session.Allowed (.free p))
    (hact : h.session.step (.free p) = .ok t.session)
    (hfreed : t.freed = h.remember (.call (.free p)))
    (hg : h.Leaves (.call (.free p))) : ∃ bs' fl', t.Inv base len bs' fl' := by
  have his := hi.session
  by_cases hp : p ∈ h.session.live
  · simp only [remember, hp, ↓reduceIte] at hfreed
    obtain ⟨b, hb, hbf, rfl, hidx, hsize⟩ := his.block_of_live hp
    have hsess := his.step_free hb hbf
    rw [hact, Except.ok.injEq] at hsess
    have hleft := hg hp
    rw [hidx] at hleft
    obtain ⟨L, R, rfl⟩ := List.append_of_mem hb
    obtain ⟨bs', fl', hi', -⟩ := his.release hbf
    refine ⟨bs', fl', hsess ▸ hi', fun f hf => ?_⟩
    rw [hsess]
    rw [hfreed, hsize] at hf
    rcases List.mem_cons.mp hf with rfl | hf
    · exact Rests.released his hbf hleft
    · exact (hi.rests f hf).release his hbf
  · simp only [remember, hp, ↓reduceIte] at hfreed
    have hstay := his.step_null (hallowed.resolve_left hp)
    rw [hact, Except.ok.injEq] at hstay
    exact ⟨bs, fl, hi.stay hstay hfreed⟩

theorem Inv.write (hi : h.Inv base len bs fl) {p : ℕ} {k x : ℤ}
    (hp : h.session.Permitted (.write p k x))
    (hact : t.session = { h.session with heap := h.session.heap.store k x })
    (hfreed : t.freed = h.freed) : t.Inv base len bs fl := by
  have his := hi.session
  have hi' : t.session.Inv base len bs fl := hact ▸ his.write hp.1 hp.2 x
  refine ⟨hi', fun f hf => ?_⟩
  have hrest := hi.rests f (hfreed ▸ hf)
  refine hrest.keep his hi' (fun b hb _ => hb) (fun q hq => Or.inl ?_) ?_
  · rw [hact] at hq
    exact hq
  · obtain ⟨hk₁, hk₂⟩ := hp.2
    have hne : h.session.heap.indexOf f.ptr ≠ k := by
      have := hrest.apart p hp.1
      have := hrest.size
      omega
    rw [hact]
    change 0 ≤ Function.update h.session.heap.array k x _
    rw [Function.update_of_ne hne]
    exact hrest.word

theorem Inv.next (hi : h.Inv base len bs fl) (hle : len ≤ 0x7FFFFFFF) {a : Act}
    (hstep : h.step a = some t) (hg : h.Leaves a) : ∃ bs' fl', t.Inv base len bs' fl' := by
  obtain ⟨hp, hact, hfreed⟩ := step_cases hstep
  cases a with
  | call c =>
    cases c with
    | malloc bytes => exact hi.malloc hle hact hfreed hg
    | free p => exact hi.free hp hact hfreed hg
  | write p k x =>
    exact ⟨bs, fl, hi.write hp (Except.ok.inj hact).symm hfreed⟩

theorem Inv.detects (hi : h.Inv base len bs fl) : h.Detects := fun f hf =>
  (hi.rests f hf).detected

theorem Detects.word (hd : t.Detects) {f : Freed} (hf : f ∈ t.freed)
    (hpos : t.session.heap.base < f.ptr) :
    0 ≤ t.session.heap.array (t.session.heap.indexOf f.ptr) := by
  by_contra hneg
  have htaken : t.session.heap.isTaken (t.session.heap.indexOf f.ptr) = true := by
    simp only [isTaken, decide_eq_true_eq]
    omega
  have hidx : sanity (((f.ptr - t.session.heap.base) / 4 : ℕ) - 1 : ℤ) =
      t.session.heap.indexOf f.ptr := rfl
  have hfree := hd f hf
  simp only [Heap.free, hidx, htaken, show f.ptr ≠ 0 by omega,
    show f.ptr ≠ t.session.heap.base by omega, ↓reduceIte, Bool.not_true, Bool.false_eq_true,
    reduceCtorEq] at hfree

theorem Inv.breaks (hi : h.Inv base len bs fl) (hle : len ≤ 0x7FFFFFFF) {a : Act}
    (hstep : h.step a = some t) (hd : t.Detects) : h.Leaves a := by
  obtain ⟨hp, hact, hfreed⟩ := step_cases hstep
  have his := hi.session
  match a with
  | .write p k x => exact trivial
  | .call (.free p) =>
    intro hlive
    simp only [remember, hlive, ↓reduceIte] at hfreed
    obtain ⟨b, hb, hbf, rfl, hidx, hsize⟩ := his.block_of_live hlive
    have hsess := his.step_free hb hbf
    have hact : h.session.step (.free _) = .ok t.session := hact
    rw [hact, Except.ok.injEq] at hsess
    have hbase : t.session.heap.base = h.session.heap.base := by rw [hsess]; exact release_base ..
    have hidx' : t.session.heap.indexOf (h.session.heap.pointer b) = b.start := by
      rw [indexOf_congr hbase, hidx]
    have hpos := pointer_pos h.session.heap (his.start_nonneg hb)
    have hword := hd.word (f := ⟨h.session.heap.pointer b, _⟩) (by rw [hfreed]; exact List.mem_cons_self)
      (by rw [hbase]; exact hpos)
    have h4 := (tiles_mem his.wf.tiles hb).2.1
    obtain ⟨L, R, rfl⟩ := List.append_of_mem hb
    rw [hidx, ← Bool.not_eq_true]
    intro hleft
    rw [hidx', hsess, his.wf.release_stale hbf hleft] at hword
    omega
  | .call (.malloc bytes) =>
    intro p heap hm hz hp0 f hf hend
    rcases his.wf.malloc_cases (his.len_eq ▸ hle) hz with ⟨-, hm'⟩ | ⟨L, b, R, rfl, hbf, hfit, -, hm'⟩
    · rw [hm, Except.ok.injEq, Prod.mk.injEq] at hm'
      exact hp0 hm'.1
    · rw [hm, Except.ok.injEq, Prod.mk.injEq] at hm'
      obtain ⟨rfl, rfl⟩ := hm'
      have hb : b ∈ L ++ b :: R := by simp
      obtain ⟨hidx, hsize, -⟩ := his.carve_apart hbf hfit
      have hact : h.session.step (.malloc bytes) = .ok t.session := hact
      simp only [Session.step, hm, hz, hp0, or_self, ↓reduceIte, Except.ok.injEq] at hact
      simp only [remember, hm, hz, hp0, or_self, ↓reduceIte] at hfreed
      have hrest := hi.rests f hf
      have h4 := (four_le_intsOf bytes).trans (le_carvedSize hfit)
      -- the block ends on the header word, so it takes over no payload word
      have hmem : f ∈ t.freed := by
        rw [hfreed, List.mem_filter, decide_eq_true_eq]
        refine ⟨hf, fun hover => ?_⟩
        have := hover.2
        omega
      have hbase : t.session.heap.base = h.session.heap.base := by rw [← hact]; exact carve_base ..
      have hword := hd.word hmem (by rw [hbase]; exact hrest.above)
      have hw' := (carve_spec his.wf hbf (four_le_intsOf bytes) hfit).1
      have hfoot := (hw'.tagged _ (carved_start_mem L R b (intsOf bytes))).2
      rw [hidx, hsize] at hend
      rw [← hact] at hword
      dsimp only at hword
      simp only [Block.stop, Block.tag, Bool.false_eq_true, ↓reduceIte] at hfoot
      rw [hend, add_sub_cancel_right] at hfoot
      omega

end History

/-- In a run of calls and writes, a second `free` of a released pointer whose payload was
not handed out again panics in every state, exactly when no release in the run merges with
a free left neighbour and no allocation ends on the header word of such a pointer. -/
theorem double_free_detected_iff (base : ℕ) (bytes : UInt32) (memory : ℤ → ℤ)
    (hlen : 8 ≤ (bytes / 4).toNat) (acts : List Act) :
    Always History.step History.Detects (History.start base bytes memory) acts ↔
      Throughout History.step History.Leaves (History.start base bytes memory) acts := by
  have hle : ((bytes / 4).toNat : ℤ) ≤ 0x7FFFFFFF := by
    have := bytes.toNat_lt
    simp only [UInt32.toNat_div, UInt32.reduceToNat]
    omega
  refine always_iff_throughout
    (I := fun h => ∃ bs fl, h.Inv base ((bytes / 4).toNat : ℤ) bs fl) ?_ ?_ ?_ ?_ acts
  · rintro h ⟨bs, fl, hi⟩
    exact hi.detects
  · rintro h a t ⟨bs, fl, hi⟩ hstep hg
    exact hi.next hle hstep hg
  · rintro h a t ⟨bs, fl, hi⟩ hstep hd
    exact hi.breaks hle hstep hd
  · obtain ⟨bs, fl, hi⟩ := (clients_inductive base bytes memory hlen).init _ rfl
    exact ⟨bs, fl, hi, by simp [History.start]⟩

theorem double_free_detected_iff_merged : ∃ h,
    run History.step (fun _ _ => true) (History.start 0x100000 256 fun _ => 0)
        [.call (.malloc 32), .call (.malloc 8), .call (.malloc 8), .call (.malloc 8),
          .call (.free 0x100044), .call (.free 0x100034)] = some h ∧
      h.freed = [⟨0x100034, 4⟩, ⟨0x100044, 4⟩] ∧
      (Always History.step History.Detects (History.start 0x100000 256 fun _ => 0)
        [.call (.malloc 32), .call (.malloc 8), .call (.malloc 8), .call (.malloc 8),
          .call (.free 0x100044), .call (.free 0x100034)] ↔
        Throughout History.step History.Leaves (History.start 0x100000 256 fun _ => 0)
          [.call (.malloc 32), .call (.malloc 8), .call (.malloc 8), .call (.malloc 8),
            .call (.free 0x100044), .call (.free 0x100034)]) :=
  ⟨_, rfl, by decide, double_free_detected_iff 0x100000 256 (fun _ => 0) (by decide) _⟩

/-- After `heapInit` two neighbouring blocks are released from left to right. The second release
merges to the left, and releasing the second pointer once more goes through. -/
theorem double_free_missed : ∃ lock h₀, heapInit 0x100000 256 (fun _ => 0) = .ok (lock, h₀) ∧ ∃ h,
    run History.step (fun _ _ => true) ⟨⟨h₀, [lock]⟩, []⟩
        [.call (.malloc 8), .call (.malloc 8), .call (.free 0x100034), .call (.free 0x100044)] =
          some h ∧
      ⟨0x100044, 4⟩ ∈ h.freed ∧ ∃ heap, h.session.heap.free 0x100044 = .ok heap :=
  ⟨_, _, rfl, _, rfl, by decide, _, rfl⟩

end MMapKernel.Heap
