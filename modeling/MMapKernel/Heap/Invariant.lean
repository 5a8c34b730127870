import MMapKernel.Heap.Model

/-!
# The structural invariant of the kernel heap

`Tagging` says that the blocks lie apart between the two sentinels and carry their
signed sizes, `AvailList` that `avail` heads a doubly linked list, and `WellFormed`
ties the two together: the blocks fill the heap, the list holds exactly the free
ones and no two neighbours are free. Each primitive of the allocator gets one lemma about the
list it leaves and one about the words it does not touch.
-/

open BoundaryTag
namespace MMapKernel.Heap

structure Tagging (h : Heap) (bs : List Block) : Prop where
  front : h.array 0 = -2 ∧ h.array 1 = -2
  back : h.array (h.len - 2) = -2 ∧ h.array (h.len - 1) = -2
  layout : Layout 2 (h.len - 2) bs
  tagged : ∀ b ∈ bs, b.Tagged h.array

structure AvailList (h : Heap) (fl : List ℤ) : Prop where
  head : h.avail = fl.headD 0
  linked : LinkedTo h.array 0 fl 0

def Settled (bs : List Block) : Prop := bs.IsChain fun b c => ¬(b.free = true ∧ c.free = true)

structure WellFormed (h : Heap) (bs : List Block) (fl : List ℤ) : Prop extends
    Tagging h bs, AvailList h fl where
  tiles : Tiles 2 (h.len - 2) bs
  exactly : fl.Perm (startsOf true bs)
  settled : Settled bs

theorem size_eq_of_tag {h : Heap} {i z : ℤ} (hz : 0 ≤ z) (ht : h.array i = z ∨ h.array i = -z) :
    h.size i = z := by
  unfold size abs
  rcases ht with ht | ht <;> rw [ht] <;> split <;> omega

theorem tag_cases (b : Block) : b.tag = b.size ∨ b.tag = -b.size := by
  unfold Block.tag
  split
  · exact Or.inl rfl
  · exact Or.inr rfl

namespace Tagging
variable {h : Heap} {bs : List Block} {b : Block}

theorem size_start (ht : Tagging h bs) (hb : b ∈ bs) : h.size b.start = b.size := by
  have h4 := (ht.layout.mem b hb).2.1
  apply size_eq_of_tag (by omega)
  rw [(ht.tagged b hb).1]
  exact tag_cases b

theorem size_last (ht : Tagging h bs) (hb : b ∈ bs) : h.size (b.stop - 1) = b.size := by
  have h4 := (ht.layout.mem b hb).2.1
  apply size_eq_of_tag (by omega)
  rw [(ht.tagged b hb).2]
  exact tag_cases b

theorem isAvail_start (ht : Tagging h bs) (hb : b ∈ bs) : h.isAvail b.start = b.free := by
  have h4 := (ht.layout.mem b hb).2.1
  unfold isAvail
  rw [(ht.tagged b hb).1, Block.tag]
  cases b.free <;> simp <;> omega

theorem isTaken_start (ht : Tagging h bs) (hb : b ∈ bs) : h.isTaken b.start = !b.free := by
  have h4 := (ht.layout.mem b hb).2.1
  unfold isTaken
  rw [(ht.tagged b hb).1, Block.tag]
  cases b.free <;> simp <;> omega

theorem congr {h' : Heap} (ht : Tagging h bs) (hlen : h'.len = h.len) {xs : List ℤ}
    (hxs : ∀ x ∈ xs, ∃ c ∈ bs, c.start = x)
    (hframe : ∀ k, (∀ x ∈ xs, k ≠ x + 1 ∧ k ≠ x + 2) → h'.array k = h.array k) :
    Tagging h' bs := by
  have hout : ∀ k, k < 2 ∨ h.len - 2 ≤ k → h'.array k = h.array k := by
    intro k hk
    refine hframe k fun x hx => ?_
    obtain ⟨c, hc, rfl⟩ := hxs x hx
    have := ht.layout.mem c hc
    simp only [Block.stop] at this
    omega
  have htag : ∀ b ∈ bs, ∀ k, k = b.start ∨ k = b.stop - 1 → h'.array k = h.array k := by
    intro b hb k hk
    refine hframe k fun x hx => ?_
    obtain ⟨c, hc, rfl⟩ := hxs x hx
    have h₁ := ht.layout.link_ne_tag hb hc (Or.inl rfl)
    have h₂ := ht.layout.link_ne_tag hb hc (Or.inr rfl)
    omega
  refine ⟨?_, ?_, hlen ▸ ht.layout, fun b hb => ?_⟩
  · rw [hout 0 (by omega), hout 1 (by omega)]
    exact ht.front
  · rw [hlen, hout _ (by omega), hout _ (by omega)]
    exact ht.back
  · exact (ht.tagged b hb).congr (htag b hb _ (Or.inl rfl)) (htag b hb _ (Or.inr rfl))

end Tagging

section Remove
variable {h : Heap} {l r : List ℤ} {x : ℤ}

theorem AvailList.prev_eq (ha : AvailList h (l ++ x :: r)) : h.prev x = l.getLastD 0 :=
  (linkedTo_append.mp ha.linked).2.1

theorem AvailList.next_eq (ha : AvailList h (l ++ x :: r)) : h.next x = r.headD 0 :=
  (linkedTo_append.mp ha.linked).2.2.1

@[simp] theorem remove_len (h : Heap) (i : ℤ) : (h.remove i).len = h.len := by
  unfold remove
  dsimp only
  split <;> split <;> rfl

@[simp] theorem remove_base (h : Heap) (i : ℤ) : (h.remove i).base = h.base := by
  unfold remove
  dsimp only
  split <;> split <;> rfl

theorem getLastD_eq_zero_iff {l : List ℤ} (hpos : ∀ y ∈ l, 0 < y) : l.getLastD 0 = 0 ↔ l = [] := by
  cases l with
  | nil => simp
  | cons y ys =>
    have hm : (y :: ys).getLastD 0 ∈ y :: ys := by
      rw [List.getLastD_cons]
      exact List.getLastD_mem_cons
    have := hpos _ hm
    simp only [reduceCtorEq, iff_false]
    omega

theorem headD_eq_zero_iff {l : List ℤ} (hpos : ∀ y ∈ l, 0 < y) : l.headD 0 = 0 ↔ l = [] := by
  cases l with
  | nil => simp
  | cons y ys =>
    have := hpos y List.mem_cons_self
    simp only [List.headD_cons, reduceCtorEq, iff_false]
    omega

theorem remove_eq (ha : AvailList h (l ++ x :: r)) (hpos : ∀ y ∈ l ++ x :: r, 0 < y) :
    (h.remove x).avail = (if l = [] then r.headD 0 else h.avail) ∧
    (h.remove x).array =
      (let a := if l = [] then h.array else Function.update h.array (l.getLastD 0 + 1) (r.headD 0)
       if r = [] then a else Function.update a (r.headD 0 + 2) (l.getLastD 0)) := by
  have hl : l.getLastD 0 = 0 ↔ l = [] :=
    getLastD_eq_zero_iff fun y hy => hpos y (List.mem_append_left _ hy)
  have hr : r.headD 0 = 0 ↔ r = [] :=
    headD_eq_zero_iff fun y hy => hpos y (List.mem_append_right _ (List.mem_cons_of_mem _ hy))
  unfold remove
  simp only [ha.prev_eq, ha.next_eq, hl, hr, ne_eq, ite_not]
  by_cases h₁ : l = [] <;> by_cases h₂ : r = [] <;>
    simp [h₁, h₂, setNext, setPrev, store]

theorem getLastD_mem {l : List ℤ} (hl : l ≠ []) : l.getLastD 0 ∈ l := by
  cases l with
  | nil => exact absurd rfl hl
  | cons y ys =>
    rw [List.getLastD_cons]
    exact List.getLastD_mem_cons

theorem headD_mem {l : List ℤ} (hl : l ≠ []) : l.headD 0 ∈ l := by
  cases l with
  | nil => exact absurd rfl hl
  | cons y ys => exact List.mem_cons_self

theorem remove_frame (ha : AvailList h (l ++ x :: r)) (hpos : ∀ y ∈ l ++ x :: r, 0 < y) {k : ℤ}
    (hk : ∀ y ∈ l ++ r, k ≠ y + 1 ∧ k ≠ y + 2) : (h.remove x).array k = h.array k := by
  have hlast : l ≠ [] → k ≠ l.getLastD 0 + 1 := fun hl =>
    (hk _ (List.mem_append_left _ (getLastD_mem hl))).1
  have hhead : r ≠ [] → k ≠ r.headD 0 + 2 := fun hr =>
    (hk _ (List.mem_append_right _ (headD_mem hr))).2
  rw [(remove_eq ha hpos).2]
  by_cases h₁ : l = [] <;> by_cases h₂ : r = []
  · simp [h₁, h₂]
  · simp only [h₁, h₂, ↓reduceIte]
    exact Function.update_of_ne (hhead h₂) _ _
  · simp only [h₁, h₂, ↓reduceIte]
    exact Function.update_of_ne (hlast h₁) _ _
  · simp only [h₁, h₂, ↓reduceIte]
    rw [Function.update_of_ne (hhead h₂), Function.update_of_ne (hlast h₁)]

theorem remove_availList (ha : AvailList h (l ++ x :: r)) (hpos : ∀ y ∈ l ++ x :: r, 0 < y)
    (hs : Spread (l ++ x :: r)) : AvailList (h.remove x) (l ++ r) := by
  obtain ⟨hll, -, -, hlr⟩ := linkedTo_append.mp ha.linked
  obtain ⟨hsl, hsr, hcross⟩ := List.pairwise_append.mp hs
  have hsr := (List.pairwise_cons.mp hsr).2
  obtain ⟨havail, harray⟩ := remove_eq ha hpos
  -- the links of `l` after its last node points past `x`
  let a₁ := if l = [] then h.array else Function.update h.array (l.getLastD 0 + 1) (r.headD 0)
  have hl₁ : LinkedTo a₁ 0 l (r.headD 0) := by
    by_cases hl : l = []
    · subst hl; trivial
    · simp only [a₁, hl, ↓reduceIte]
      exact hll.relink_last hsl _
  have hr₁ : LinkedTo a₁ x r 0 := by
    refine hlr.congr fun y hy => ?_
    by_cases hl : l = []
    · simp [a₁, hl]
    · have := hcross _ (getLastD_mem hl) y (List.mem_cons_of_mem _ hy)
      simp only [a₁, hl, ↓reduceIte]
      exact ⟨Function.update_of_ne (by omega) _ _, Function.update_of_ne (by omega) _ _⟩
  refine ⟨?_, ?_⟩
  · rw [havail]
    cases l with
    | nil => rfl
    | cons y ys => simpa using ha.head
  · rw [harray]
    apply linkedTo_append.mpr
    cases r with
    | nil => exact ⟨by simpa [a₁] using hl₁, trivial⟩
    | cons z zs =>
      simp only [reduceCtorEq, ↓reduceIte, List.headD_cons]
      refine ⟨hl₁.congr fun y hy => ?_, hr₁.relink_head hsr _⟩
      have := hcross y hy z (List.mem_cons_of_mem _ List.mem_cons_self)
      exact ⟨Function.update_of_ne (by omega) _ _, Function.update_of_ne (by omega) _ _⟩

end Remove

section Make
variable {h : Heap} {i ints : ℤ} {fl : List ℤ}

theorem footer_after_store (h : Heap) (i : ℤ) {v ints : ℤ} (hz : 0 ≤ ints)
    (hv : v = ints ∨ v = -ints) : (h.store i v).footerFromHeader i = i + ints - 1 := by
  have hs : (h.store i v).size i = ints := by
    apply size_eq_of_tag hz
    simpa [store] using hv
  unfold footerFromHeader
  rw [hs]

theorem makeTaken_array (hz : 0 ≤ ints) : (h.makeTaken i ints).array =
    Function.update (Function.update h.array i (-ints)) (i + ints - 1) (-ints) := by
  unfold makeTaken
  dsimp only
  rw [footer_after_store h i hz (Or.inr rfl)]
  rfl

theorem makeTaken_frame (hz : 0 ≤ ints) {k : ℤ} (h₁ : k ≠ i) (h₂ : k ≠ i + ints - 1) :
    (h.makeTaken i ints).array k = h.array k := by
  rw [makeTaken_array hz, Function.update_of_ne h₂, Function.update_of_ne h₁]

theorem makeTaken_tagged (hz : 0 ≤ ints) :
    Block.Tagged (h.makeTaken i ints).array ⟨i, ints, false⟩ := by
  rw [makeTaken_array hz]
  refine ⟨?_, by simp [Block.stop, Block.tag]⟩
  simp only [Block.tag, Bool.false_eq_true, ↓reduceIte]
  by_cases he : i = i + ints - 1
  · rw [← he, Function.update_self]
  · rw [Function.update_of_ne he, Function.update_self]

@[simp] theorem makeTaken_len (h : Heap) (i ints : ℤ) : (h.makeTaken i ints).len = h.len := rfl
@[simp] theorem makeTaken_base (h : Heap) (i ints : ℤ) : (h.makeTaken i ints).base = h.base := rfl

@[simp] theorem makeAvail_len (h : Heap) (i ints : ℤ) : (h.makeAvail i ints).len = h.len := by
  unfold makeAvail
  dsimp only
  split <;> rfl

@[simp] theorem makeAvail_base (h : Heap) (i ints : ℤ) : (h.makeAvail i ints).base = h.base := by
  unfold makeAvail
  dsimp only
  split <;> rfl

def nodeWords (h : Heap) (i ints : ℤ) : ℤ → ℤ :=
  Function.update (Function.update (Function.update (Function.update h.array i ints)
    (i + ints - 1) ints) (i + 1) h.avail) (i + 2) 0

theorem makeAvail_array (hz : 0 ≤ ints) : (h.makeAvail i ints).array =
    if h.avail = 0 then h.nodeWords i ints
    else Function.update (h.nodeWords i ints) (h.avail + 2) i := by
  unfold makeAvail
  simp only [footer_after_store h i hz (Or.inl rfl)]
  by_cases ha : h.avail = 0 <;> simp [ha, store, setNext, setPrev, nodeWords]

theorem nodeWords_frame {k : ℤ} (h₁ : k ≠ i) (h₂ : k ≠ i + 1) (h₃ : k ≠ i + 2)
    (h₄ : k ≠ i + ints - 1) : h.nodeWords i ints k = h.array k := by
  unfold nodeWords
  rw [Function.update_of_ne h₃, Function.update_of_ne h₂, Function.update_of_ne h₄,
    Function.update_of_ne h₁]

theorem makeAvail_frame (hz : 0 ≤ ints) (ha : AvailList h fl) {k : ℤ} (h₁ : k ≠ i)
    (h₂ : k ≠ i + 1) (h₃ : k ≠ i + 2) (h₄ : k ≠ i + ints - 1) (hk : ∀ y ∈ fl, k ≠ y + 2) :
    (h.makeAvail i ints).array k = h.array k := by
  rw [makeAvail_array hz]
  split
  · exact nodeWords_frame h₁ h₂ h₃ h₄
  · rename_i hne
    have hfl : fl ≠ [] := by
      rintro rfl
      exact hne ha.head
    rw [Function.update_of_ne (ha.head ▸ hk _ (headD_mem hfl))]
    exact nodeWords_frame h₁ h₂ h₃ h₄

theorem makeAvail_tagged (hz : 4 ≤ ints) (ha : AvailList h fl)
    (hsep : ∀ y ∈ fl, y + 4 ≤ i ∨ i + ints ≤ y) :
    Block.Tagged (h.makeAvail i ints).array ⟨i, ints, true⟩ := by
  have hword : ∀ k, k = i ∨ k = i + ints - 1 → (h.makeAvail i ints).array k = ints := by
    intro k hk
    have hn : h.nodeWords i ints k = ints := by
      unfold nodeWords
      rw [Function.update_of_ne (by omega), Function.update_of_ne (by omega)]
      by_cases he : k = i + ints - 1
      · rw [he, Function.update_self]
      · rw [Function.update_of_ne he, show k = i by omega, Function.update_self]
    rw [makeAvail_array (by omega)]
    split
    · exact hn
    · rename_i hne
      have hfl : fl ≠ [] := by
        rintro rfl
        exact hne ha.head
      have := hsep _ (headD_mem hfl)
      rw [Function.update_of_ne (by rw [ha.head]; omega)]
      exact hn
  exact ⟨by simpa [Block.tag] using hword _ (Or.inl rfl),
    by simpa [Block.tag, Block.stop] using hword _ (Or.inr rfl)⟩

theorem makeAvail_availList (hz : 4 ≤ ints) (ha : AvailList h fl) (hs : Spread fl)
    (hsep : ∀ y ∈ fl, y + 4 ≤ i ∨ i + ints ≤ y) (hpos : ∀ y ∈ fl, 0 < y) :
    AvailList (h.makeAvail i ints) (i :: fl) := by
  have hold : LinkedTo (h.nodeWords i ints) 0 fl 0 := by
    refine ha.linked.congr fun y hy => ?_
    have := hsep y hy
    exact ⟨nodeWords_frame (by omega) (by omega) (by omega) (by omega),
      nodeWords_frame (by omega) (by omega) (by omega) (by omega)⟩
  have hnext : h.nodeWords i ints (i + 1) = h.avail := by
    unfold nodeWords
    rw [Function.update_of_ne (by omega), Function.update_self]
  have hprev : h.nodeWords i ints (i + 2) = 0 := by
    unfold nodeWords
    rw [Function.update_self]
  refine ⟨rfl, ?_⟩
  rw [makeAvail_array (by omega)]
  cases fl with
  | nil =>
    have h0 : h.avail = 0 := ha.head
    simp only [h0, ↓reduceIte]
    exact ⟨hprev, hnext.trans h0, trivial⟩
  | cons y ys =>
    have hy : h.avail = y := ha.head
    have hy0 := hpos y List.mem_cons_self
    have hiy := hsep y List.mem_cons_self
    simp only [hy, show y ≠ 0 by omega, ↓reduceIte]
    refine ⟨?_, ?_, hold.relink_head hs i⟩
    · rw [Function.update_of_ne (by omega)]
      exact hprev
    · rw [Function.update_of_ne (by omega), hnext]
      exact hy

end Make
end MMapKernel.Heap
