import MMapKernel.Heap.Clients

/-!
# Which block `malloc` takes

The running minimum of the search, cut off after twenty fitting blocks, is the earliest
smallest block among the first twenty that fit. The carving then changes the free list
at that block only.
-/

open BoundaryTag Transition
namespace MMapKernel.Heap

def FirstSmallest (sz : ℤ → ℤ) (x : ℤ) (xs : List ℤ) : Prop :=
  ∃ l r, xs = l ++ x :: r ∧ (∀ y ∈ l, sz x < sz y) ∧ ∀ y ∈ r, sz x ≤ sz y

def better (sz : ℤ → ℤ) (best : ℤ × ℤ) (p : ℤ) : ℤ × ℤ := if sz p < best.1 then (sz p, p) else best

theorem FirstSmallest.mem {sz : ℤ → ℤ} {x : ℤ} {xs : List ℤ} (h : FirstSmallest sz x xs) :
    x ∈ xs := by
  obtain ⟨l, r, rfl, -, -⟩ := h
  simp

theorem FirstSmallest.le {sz : ℤ → ℤ} {x : ℤ} {xs : List ℤ} (h : FirstSmallest sz x xs) {y : ℤ}
    (hy : y ∈ xs) : sz x ≤ sz y := by
  obtain ⟨l, r, rfl, hl, hr⟩ := h
  rcases List.mem_append.mp hy with hy | hy
  · exact (hl y hy).le
  · rcases List.mem_cons.mp hy with rfl | hy
    · exact le_rfl
    · exact hr y hy

theorem FirstSmallest.skip {sz : ℤ → ℤ} {x b y : ℤ} {ys : List ℤ}
    (h : FirstSmallest sz x (b :: ys)) (hy : sz b ≤ sz y) : FirstSmallest sz x (b :: y :: ys) := by
  obtain ⟨l, r, he, hl, hr⟩ := h
  cases l with
  | nil =>
    obtain ⟨rfl, rfl⟩ : b = x ∧ ys = r := by simpa using he
    refine ⟨[], y :: ys, rfl, by simp, fun z hz => ?_⟩
    rcases List.mem_cons.mp hz with rfl | hz
    · exact hy
    · exact hr z hz
  | cons c l =>
    obtain ⟨rfl, rfl⟩ : b = c ∧ ys = l ++ x :: r := by simpa using he
    have hxb : sz x < sz b := hl b List.mem_cons_self
    refine ⟨b :: y :: l, r, rfl, fun z hz => ?_, hr⟩
    rcases List.mem_cons.mp hz with rfl | hz
    · exact hxb
    · rcases List.mem_cons.mp hz with rfl | hz
      · exact hxb.trans_le hy
      · exact hl z (List.mem_cons_of_mem _ hz)

theorem FirstSmallest.replace {sz : ℤ → ℤ} {x b y : ℤ} {ys : List ℤ}
    (h : FirstSmallest sz x (y :: ys)) (hy : sz y < sz b) : FirstSmallest sz x (b :: y :: ys) := by
  have hxy := h.le List.mem_cons_self
  obtain ⟨l, r, he, hl, hr⟩ := h
  refine ⟨b :: l, r, by rw [he, List.cons_append], fun z hz => ?_, hr⟩
  rcases List.mem_cons.mp hz with rfl | hz
  · exact hxy.trans_lt hy
  · exact hl z hz

theorem foldl_better (sz : ℤ → ℤ) (b : ℤ) (ys : List ℤ) :
    ∃ x, ys.foldl (better sz) (sz b, b) = (sz x, x) ∧ FirstSmallest sz x (b :: ys) := by
  induction ys generalizing b with
  | nil => exact ⟨b, rfl, [], [], rfl, by simp, by simp⟩
  | cons y ys ih =>
    by_cases hy : sz y < sz b
    · obtain ⟨x, hfold, hx⟩ := ih y
      exact ⟨x, by rw [List.foldl_cons, better, if_pos hy, hfold], hx.replace hy⟩
    · obtain ⟨x, hfold, hx⟩ := ih b
      exact ⟨x, by rw [List.foldl_cons, better, if_neg hy, hfold], hx.skip (not_lt.mp hy)⟩

theorem pick_eq_foldl (sz : ℤ → ℤ) (ints : ℤ) (n : ℕ) (best : ℤ × ℤ) (ps : List ℤ) :
    pick sz ints ((n : ℤ) + 1) best ps =
      ((ps.filter fun p => ints ≤ sz p).take (n + 1)).foldl (better sz) best := by
  induction ps generalizing n best with
  | nil => rfl
  | cons p ps ih =>
    unfold pick
    by_cases hfit : ints ≤ sz p
    · simp only [hfit, ↓reduceIte, add_sub_cancel_right, decide_true, List.filter_cons_of_pos,
        List.take_succ_cons, List.foldl_cons]
      cases n with
      | zero => simp [better]
      | succ n =>
        have hn : ((n + 1 : ℕ) : ℤ) ≠ 0 := by omega
        rw [if_neg hn, Nat.cast_succ]
        exact ih n _
    · rw [if_neg hfit, List.filter_cons_of_neg (by simpa using hfit)]
      exact ih n best

def walk (h : Heap) : ℕ → ℤ → List ℤ
  | 0, _ => []
  | fuel + 1, p => if p = 0 then [] else p :: walk h fuel (h.next p)

def freeList (h : Heap) : List ℤ := h.walk (h.len.toNat + 1) h.avail

def fitting (h : Heap) (ints : ℤ) : List ℤ := h.freeList.filter fun p => ints ≤ h.size p

theorem walk_eq {h : Heap} {ps : List ℤ} {prev : ℤ} (hl : LinkedTo h.array prev ps 0)
    (hpos : ∀ p ∈ ps, 0 < p) (fuel : ℕ) (hfuel : ps.length < fuel) :
    h.walk fuel (ps.headD 0) = ps := by
  induction ps generalizing prev fuel with
  | nil =>
    cases fuel with
    | zero => rfl
    | succ fuel => simp [walk]
  | cons p ps ih =>
    obtain ⟨fuel, rfl⟩ : ∃ n, fuel = n + 1 := ⟨fuel - 1, by simp at hfuel; omega⟩
    obtain ⟨-, hnext, hr⟩ := hl
    have hp := hpos p List.mem_cons_self
    have hn : h.next p = ps.headD 0 := hnext
    simp only [walk, List.headD_cons, show p ≠ 0 by omega, ↓reduceIte, hn]
    rw [ih hr (fun q hq => hpos q (List.mem_cons_of_mem _ hq)) fuel (by simpa using hfuel)]

section
variable {h : Heap} {bs : List Block} {fl : List ℤ}

theorem WellFormed.freeList_eq (hw : WellFormed h bs fl) : h.freeList = fl := by
  unfold freeList
  rw [hw.head]
  exact walk_eq hw.linked (hw.nodes.pos hw.toTagging) _ hw.length_le

theorem WellFormed.listed (hw : WellFormed h bs fl) {x : ℤ} (hx : x ∈ fl) :
    ∃ b ∈ bs, b.free = true ∧ b.start = x ∧ h.size x = b.size := by
  obtain ⟨b, hb, hbf, rfl⟩ := hw.nodes x hx
  exact ⟨b, hb, hbf, rfl, hw.size_start hb⟩

theorem WellFormed.size_lt (hw : WellFormed h bs fl) {x : ℤ} (hx : x ∈ fl) : h.size x < h.len := by
  obtain ⟨b, hb, -, -, hsize⟩ := hw.listed hx
  have := tiles_mem hw.tiles hb
  rw [hsize]
  simp only [Block.stop] at this
  omega

theorem WellFormed.search_cases (hw : WellFormed h bs fl) (hlen : h.len ≤ 0x7FFFFFFF) (ints : ℤ) :
    (h.fitting ints = [] ∧
      h.search ints (h.len.toNat + 1) 20 h.avail (0x7FFFFFFF, 0) = .ok (0x7FFFFFFF, 0)) ∨
    ∃ x, FirstSmallest h.size x ((h.fitting ints).take 20) ∧
      h.search ints (h.len.toNat + 1) 20 h.avail (0x7FFFFFFF, 0) = .ok (h.size x, x) := by
  have hpick := pick_eq_foldl h.size ints 19 (0x7FFFFFFF, 0) fl
  have hsearch := hw.search_eq ints
  rw [show (20 : ℤ) = ((19 : ℕ) : ℤ) + 1 by norm_num, hpick] at hsearch
  rw [show (20 : ℤ) = ((19 : ℕ) : ℤ) + 1 by norm_num, hsearch]
  have hfit : (fl.filter fun p => decide (ints ≤ h.size p)) = h.fitting ints := by
    rw [fitting, hw.freeList_eq]
  rw [hfit]
  cases hc : h.fitting ints with
  | nil => exact Or.inl ⟨rfl, rfl⟩
  | cons p ps =>
    have hp : p ∈ fl := by
      have : p ∈ h.fitting ints := by rw [hc]; exact List.mem_cons_self
      rw [fitting, hw.freeList_eq] at this
      exact List.mem_of_mem_filter this
    have hlt : h.size p < 0x7FFFFFFF := (hw.size_lt hp).trans_le hlen
    obtain ⟨x, hfold, hx⟩ := foldl_better h.size p (ps.take 19)
    refine Or.inr ⟨x, hx, ?_⟩
    rw [List.take_succ_cons, List.foldl_cons, better, if_pos hlt, hfold]

theorem WellFormed.mem_fitting (hw : WellFormed h bs fl) {ints x : ℤ} :
    x ∈ h.fitting ints ↔ x ∈ fl ∧ ints ≤ h.size x := by
  rw [fitting, hw.freeList_eq]
  simp

theorem WellFormed.malloc_cases (hw : WellFormed h bs fl) (hlen : h.len ≤ 0x7FFFFFFF)
    {bytes : UInt32} (hz : bytes ≠ 0) :
    (h.fitting (intsOf bytes) = [] ∧ h.malloc bytes = .ok (0, h)) ∨
    ∃ L b R, bs = L ++ b :: R ∧ b.free = true ∧ intsOf bytes ≤ b.size ∧
      FirstSmallest h.size b.start ((h.fitting (intsOf bytes)).take 20) ∧
      h.malloc bytes = .ok (h.pointer b, h.carve (intsOf bytes) b.size b.start) := by
  rcases hw.search_cases hlen (intsOf bytes) with ⟨hnone, hsearch⟩ | ⟨x, hx, hsearch⟩
  · exact Or.inl ⟨hnone, by simp [Heap.malloc, hz, hsearch]⟩
  · obtain ⟨hxl, hfit⟩ := hw.mem_fitting.mp (List.mem_of_mem_take hx.mem)
    obtain ⟨b, hb, hbf, rfl, hsize⟩ := hw.listed hxl
    have hne : b.start ≠ 0 := by
      have := (tiles_mem hw.tiles hb).1
      omega
    obtain ⟨L, R, hbs⟩ := List.append_of_mem hb
    refine Or.inr ⟨L, b, R, hbs, hbf, hsize ▸ hfit, hx, ?_⟩
    simp only [Heap.malloc, hz, hsearch, hne, hsize, pointer, ↓reduceIte, ne_eq, not_false_eq_true]

end
end MMapKernel.Heap
