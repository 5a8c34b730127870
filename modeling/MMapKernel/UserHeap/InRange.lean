import MMapKernel.UserHeap.Model

/-!
# Accesses of the user heap that stay in the array

On a well-formed heap every index that `malloc` and `free` compute lies in the array, so the checked
functions do what those of the kernel heap do, except that the search takes the first block that
fits. `sanity` stays in the array whatever it is given.
-/

open BoundaryTag
namespace MMapKernel.UserHeap
open Heap (Tagging AvailList WellFormed Pending Nodes)

variable {h : Heap} {i x ints : ℤ}

@[simp] theorem ok_bind {α β : Type} (a : α) (f : α → Checked β) : (Except.ok a >>= f) = f a := rfl

theorem bind_eq_ok {α β : Type} {x : Checked α} {f : α → Checked β} {b : β} (h : x >>= f = .ok b) :
    ∃ a, x = .ok a ∧ f a = .ok b := by
  cases x with
  | error e => cases h
  | ok a => exact ⟨a, rfl, h⟩

@[simp] theorem pure_eq {α : Type} (a : α) : (pure a : Checked α) = .ok a := rfl

theorem get_ok (h0 : 0 ≤ i) (hl : i < h.len) : get h i = .ok (h.array i) := if_pos ⟨h0, hl⟩

theorem set_ok (h0 : 0 ≤ i) (hl : i < h.len) (x : ℤ) : set h i x = .ok (h.store i x) :=
  if_pos ⟨h0, hl⟩

theorem size_ok (h0 : 0 ≤ i) (hl : i < h.len) : size h i = .ok (h.size i) := by
  rw [size, get_ok h0 hl]
  rfl

theorem footerFromHeader_ok (h0 : 0 ≤ i) (hl : i < h.len) :
    footerFromHeader h i = .ok (h.footerFromHeader i) := by
  rw [footerFromHeader, size_ok h0 hl]
  rfl

@[simp] theorem sanity_ok (h : Heap) (i : ℤ) : sanity h i = .ok i := by
  unfold sanity
  split_ifs with hz hout
  · rw [hz]
    rfl
  · rfl
  · have hi : 0 ≤ i ∧ i < h.len := by omega
    rw [footerFromHeader_ok hi.1 hi.2, ok_bind]
    split_ifs with hfooter
    · rfl
    · rw [get_ok hi.1 hi.2, get_ok (by omega) (by omega), ok_bind, ok_bind]
      split <;> rfl

theorem left_ok (h0 : 0 ≤ i - 1) (hl : i - 1 < h.len) : left h i = .ok (h.left i) := by
  rw [left, headerFromFooter, size_ok h0 hl]
  exact sanity_ok h _

theorem right_ok (h0 : 0 ≤ i) (hl : i < h.len) : right h i = .ok (h.right i) := by
  rw [right, size_ok h0 hl]
  exact sanity_ok h _

theorem next1_ok (h0 : 0 ≤ i + 1) (hl : i + 1 < h.len) : next1 h i = .ok (h.next i) := by
  rw [next1, get_ok h0 hl]
  exact sanity_ok h _

theorem prev1_ok (h0 : 0 ≤ i + 2) (hl : i + 2 < h.len) : prev1 h i = .ok (h.prev i) := by
  rw [prev1, get_ok h0 hl]
  exact sanity_ok h _

theorem isAvail_ok (h0 : 0 ≤ i) (hl : i < h.len) : isAvail h i = .ok (h.isAvail i) := by
  rw [isAvail, get_ok h0 hl]
  rfl

theorem isTaken_ok (h0 : 0 ≤ i) (hl : i < h.len) : isTaken h i = .ok (h.isTaken i) := by
  rw [isTaken, get_ok h0 hl]
  rfl

def Link (h : Heap) (x : ℤ) : Prop := x = 0 ∨ 0 ≤ x ∧ x + 2 < h.len

theorem remove_ok (h0 : 0 ≤ i) (hl : i + 2 < h.len) (hprev : Link h (h.prev i))
    (hnext : Link h (h.next i)) : remove h i = .ok (h.remove i) := by
  rw [remove, prev1_ok (by omega) hl, ok_bind, next1_ok (by omega) (by omega), ok_bind, Heap.remove]
  have hrest : ∀ g : Heap, g.len = h.len →
      (if h.next i ≠ 0 then prev g (h.next i) (h.prev i) else .ok g) =
        .ok (if h.next i ≠ 0 then g.setPrev (h.next i) (h.prev i) else g) := by
    intro g hg
    split
    case isTrue hn =>
      have := hnext.resolve_left hn
      exact set_ok (by omega) (by rw [hg]; omega) _
    case isFalse => rfl
  by_cases hp : h.prev i = 0
  · simp only [if_pos hp, ok_bind]
    exact hrest _ rfl
  · have := hprev.resolve_left hp
    simp only [if_neg hp]
    rw [next, set_ok (by omega) (by omega), ok_bind]
    exact hrest _ rfl

@[simp] theorem store_len (h : Heap) (i x : ℤ) : (h.store i x).len = h.len := rfl

theorem footer_ok {v : ℤ} (h0 : 0 ≤ i) (hi : 1 ≤ ints) (hl : i < h.len) (hv : v = ints ∨ v = -ints) :
    footerFromHeader (h.store i v) i = .ok (i + ints - 1) := by
  rw [footerFromHeader_ok h0 (by simpa using hl), Heap.footer_after_store h i (by omega) hv]

theorem makeTaken_ok (h0 : 0 ≤ i) (hi : 1 ≤ ints) (hl : i + ints ≤ h.len) :
    makeTaken h i ints = .ok (h.makeTaken i ints) := by
  rw [makeTaken, set_ok h0 (by omega), ok_bind, footer_ok h0 hi (by omega) (Or.inr rfl), ok_bind,
    set_ok (by omega) (by simp; omega), Heap.makeTaken,
    Heap.footer_after_store h i (by omega : 0 ≤ ints) (Or.inr rfl)]

theorem makeAvail_ok (h0 : 0 ≤ i) (hi : 4 ≤ ints) (hl : i + ints ≤ h.len) (ha : Link h h.avail) :
    makeAvail h i ints = .ok (h.makeAvail i ints) := by
  rw [makeAvail, Heap.makeAvail, Heap.footer_after_store h i (by omega : 0 ≤ ints) (Or.inl rfl),
    set_ok h0 (by omega), ok_bind, footer_ok h0 (by omega) (by omega) (Or.inl rfl), ok_bind,
    set_ok (by omega) (by simp; omega), ok_bind, next, set_ok (by omega) (by simp; omega), ok_bind,
    prev, set_ok (by omega) (by simp; omega), ok_bind]
  by_cases hz : h.avail = 0
  · simp [hz, Heap.store, Heap.setNext, Heap.setPrev]
  · have := ha.resolve_left hz
    simp only [Heap.store, Heap.setNext, Heap.setPrev, ne_eq, hz, not_false_eq_true, if_true]
    rw [prev, set_ok (by omega) (by dsimp only; omega)]
    rfl

section
variable {bs L R : List Block} {fl : List ℤ} {b : Block} {s e : ℤ}

theorem node_range (ht : Tagging h bs) (hn : Nodes fl bs) (hx : x ∈ fl) :
    2 ≤ x ∧ x + 4 ≤ h.len - 2 := by
  obtain ⟨c, hc, -, rfl⟩ := hn x hx
  have := ht.layout.mem c hc
  simp only [Block.stop] at this
  omega

theorem link_headD (ht : Tagging h bs) (hn : Nodes fl bs) {xs : List ℤ} (hxs : ∀ y ∈ xs, y ∈ fl) :
    Link h (xs.headD 0) := by
  cases xs with
  | nil => exact .inl rfl
  | cons y ys =>
    have := node_range ht hn (hxs y List.mem_cons_self)
    exact .inr ⟨by simp only [List.headD_cons]; omega, by simp only [List.headD_cons]; omega⟩

theorem link_getLastD (ht : Tagging h bs) (hn : Nodes fl bs) {xs : List ℤ} (hxs : ∀ y ∈ xs, y ∈ fl) :
    Link h (xs.getLastD 0) := by
  by_cases hnil : xs = []
  · exact .inl (by rw [hnil]; rfl)
  · have := node_range ht hn (hxs _ (Heap.getLastD_mem hnil))
    exact .inr ⟨by omega, by omega⟩

theorem remove_listed (ht : Tagging h bs) (ha : AvailList h fl) (hn : Nodes fl bs) (hx : x ∈ fl) :
    remove h x = .ok (h.remove x) := by
  have hrange := node_range ht hn hx
  obtain ⟨l, r, rfl⟩ := List.append_of_mem hx
  refine remove_ok (by omega) (by omega) ?_ ?_
  · rw [ha.prev_eq]
    exact link_getLastD ht hn fun y hy => List.mem_append_left _ hy
  · rw [ha.next_eq]
    exact link_headD ht hn fun y hy => List.mem_append_right _ (List.mem_cons_of_mem _ hy)

theorem avail_link (ht : Tagging h bs) (ha : AvailList h fl) (hn : Nodes fl bs) : Link h h.avail := by
  rw [ha.head]
  exact link_headD ht hn fun _ hy => hy

theorem pending_remove (hp : Pending h L R fl s e) (hx : x ∈ fl) : remove h x = .ok (h.remove x) :=
  remove_listed hp.toTagging hp.toAvailList hp.nodes hx

theorem pending_makeTaken (hp : Pending h L R fl s e) (h4 : 4 ≤ ints) (hle : s + ints ≤ e) :
    makeTaken h s ints = .ok (h.makeTaken s ints) := by
  have hs := tiles_le hp.before
  have he := tiles_le hp.after
  exact makeTaken_ok (by omega) (by omega) (by omega)

theorem pending_makeAvail (hp : Pending h L R fl s e) (h4 : 4 ≤ e - s) :
    makeAvail h s (e - s) = .ok (h.makeAvail s (e - s)) := by
  have hs := tiles_le hp.before
  have he := tiles_le hp.after
  exact makeAvail_ok (by omega) h4 (by omega) (avail_link hp.toTagging hp.toAvailList hp.nodes)

theorem carve_ok (hw : WellFormed h (L ++ b :: R) fl) (hb : b.free = true) (h4 : 4 ≤ ints)
    (hfit : ints ≤ b.size) :
    carve h b.start b.size ints = .ok (h.carve ints b.size b.start) := by
  have hp := hw.open_at.absorb_right hb
  have hmem : b.start ∈ fl := hw.open_at.mem_list (by simp) hb
  rw [carve, pending_remove hw.open_at hmem, ok_bind, Heap.carve]
  by_cases hsplit : 4 ≤ b.size - ints
  · have hle : b.start + ints ≤ b.stop := by simp only [Block.stop]; omega
    have he : b.size - ints = b.stop - (b.start + ints) := by simp only [Block.stop]; omega
    simp only [ge_iff_le, hsplit, if_true]
    rw [pending_makeTaken hp h4 hle, ok_bind, he]
    exact pending_makeAvail (hp.makeTaken h4 hle) (by omega)
  · simp only [ge_iff_le, hsplit, if_false]
    exact pending_makeTaken hp (by omega) le_rfl

theorem mallocLoop_eq {xs : List ℤ} {before : ℤ} (hl : LinkedTo h.array before xs 0)
    (hrange : ∀ y ∈ xs, 2 ≤ y ∧ y + 4 ≤ h.len - 2) {turns : ℕ} (hturns : xs.length ≤ turns) :
    mallocLoop ints turns h (xs.headD 0) =
      match xs.find? fun y => ints ≤ h.size y with
      | none => .ok (0, h)
      | some y => carve h y (h.size y) ints >>= fun g => .ok (g.addressOf (y + 1), g) := by
  induction xs generalizing before turns with
  | nil =>
    unfold mallocLoop
    rfl
  | cons y ys ih =>
    obtain ⟨turns, rfl⟩ : ∃ t, turns = t + 1 := ⟨turns - 1, by simp at hturns; omega⟩
    obtain ⟨-, hnext, hrest⟩ := hl
    have hy := hrange y List.mem_cons_self
    have hn : h.next y = ys.headD 0 := hnext
    unfold mallocLoop
    have hav : isAvail h y = .ok (h.isAvail y) := isAvail_ok (by omega) (by omega)
    have hsize : size h y = .ok (h.size y) := size_ok (by omega) (by omega)
    rw [List.headD_cons, if_neg (by omega)]
    simp only [hav, hsize, ok_bind]
    by_cases hfit : ints ≤ h.size y
    · simp only [ge_iff_le, hfit, if_true, List.find?_cons_of_pos, decide_true]
      rfl
    · simp only [ge_iff_le, hfit, if_false]
      rw [next1_ok (by omega) (by omega), ok_bind, hn, List.find?_cons_of_neg (by simpa using hfit)]
      exact ih hrest (fun z hz => hrange z (List.mem_cons_of_mem _ hz)) (by simpa using hturns)

theorem malloc_cases (hw : WellFormed h bs fl) {bytes : UInt32} (hz : bytes ≠ 0) :
    ((∀ y ∈ fl, h.size y < Heap.intsOf bytes) ∧ malloc h bytes = .ok (0, h)) ∨
    ∃ L b R, bs = L ++ b :: R ∧ b.free = true ∧ Heap.intsOf bytes ≤ b.size ∧
      malloc h bytes = .ok (h.pointer b, h.carve (Heap.intsOf bytes) b.size b.start) := by
  have hmalloc : malloc h bytes = mallocLoop (Heap.intsOf bytes) h.len.toNat h (fl.headD 0) := by
    simp [malloc, hz, hw.head]
  rw [hmalloc, mallocLoop_eq hw.linked (fun y hy => node_range hw.toTagging hw.nodes hy)
    (Nat.le_of_lt_succ hw.length_le)]
  cases hfind : fl.find? fun y => Heap.intsOf bytes ≤ h.size y with
  | none =>
    refine .inl ⟨fun y hy => ?_, rfl⟩
    simpa using List.find?_eq_none.mp hfind y hy
  | some y =>
    have hfit : Heap.intsOf bytes ≤ h.size y := by simpa using List.find?_some hfind
    obtain ⟨b, hb, hbf, rfl, hsize⟩ := hw.listed (List.mem_of_find?_eq_some hfind)
    obtain ⟨L, R, rfl⟩ := List.append_of_mem hb
    rw [hsize] at hfit
    refine .inr ⟨L, b, R, rfl, hbf, hfit, ?_⟩
    dsimp only
    rw [hsize, carve_ok hw hbf (Heap.four_le_intsOf bytes) hfit, ok_bind,
      ← Heap.pointer_congr (Heap.carve_base h (Heap.intsOf bytes) b.size b.start)]
    rfl

theorem left_range (hp : Pending h L R fl s e) : 0 ≤ h.left s ∧ h.left s < h.len := by
  have hs := tiles_le hp.before
  have he := tiles_le hp.after
  have hgap := hp.gap
  rcases hp.left_eq with ⟨rfl, hz, -⟩ | ⟨L', c, rfl, hl, -⟩
  · omega
  · have := hp.layout.mem c (by simp)
    simp only [Block.stop] at this
    omega

theorem pending_mergeLeft (hp : Pending h L R fl s e) (sz : ℤ) :
    mergeLeft h s sz (h.left s) = .ok (h.mergeLeft s sz (h.left s)) := by
  obtain ⟨h0, hl⟩ := left_range hp
  rw [mergeLeft, isAvail_ok h0 hl, ok_bind, Heap.mergeLeft]
  split
  case isTrue hav =>
    rcases hp.left_eq with ⟨-, -, hf⟩ | ⟨L', c, rfl, hleft, hf⟩
    · exact absurd (hf.symm.trans hav) (by decide)
    · rw [pending_remove hp (hleft ▸ hp.mem_list (by simp) (hf.symm.trans hav)), ok_bind,
        size_ok h0 (by rwa [Heap.remove_len])]
      rfl
  case isFalse => rfl

theorem pending_mergeRight (hp : Pending h L R fl s e) (sz : ℤ) :
    mergeRight h sz e = .ok (h.mergeRight sz e) := by
  have hs := tiles_le hp.before
  have he := tiles_le hp.after
  have hgap := hp.gap
  rw [mergeRight, isAvail_ok (by omega) (by omega), ok_bind, Heap.mergeRight]
  split
  case isTrue hav =>
    rcases hp.right_eq with ⟨-, hf⟩ | ⟨R', c, rfl, rfl, hf⟩
    · exact absurd (hf.symm.trans hav) (by decide)
    · rw [pending_remove hp (hp.mem_list (by simp) (hf.symm.trans hav)), ok_bind,
        size_ok (by omega) (by rw [Heap.remove_len]; omega)]
      rfl
  case isFalse => rfl

theorem release_ok (hw : WellFormed h (L ++ b :: R) fl) (hb : b.free = false) :
    release h b.start = .ok (h.release b.start) := by
  obtain ⟨hp, hsL, hsR⟩ := hw.opened hb
  have hin := tiles_mem hw.tiles (b := b) (by simp)
  have hsz : b.size = b.stop - b.start := by simp only [Block.stop]; omega
  have hright : h.right b.start = b.stop := by
    simp only [Heap.right, Heap.sanity, hw.size_start (b := b) (by simp), Block.stop]
  obtain ⟨L', fl₁, hp₁, hsz₁, hs₁, -⟩ := Heap.mergeLeft_spec hp hsL b.size hsz
  obtain ⟨R', fl₂, e', hp₂, hsz₂, he₂, -⟩ := Heap.mergeRight_spec hp₁ hsR hsz₁
  have hstart := size_ok (h := h) (i := b.start) (by omega) (by omega)
  rw [hw.size_start (by simp)] at hstart
  rw [release, hstart, ok_bind, left_ok (by omega) (by omega), ok_bind, right_ok (by omega) (by omega),
    ok_bind, hright, pending_mergeLeft hp, ok_bind, pending_mergeRight hp₁, ok_bind, hw.release_eq]
  dsimp only
  rw [hsz₂]
  exact pending_makeAvail hp₂ (by omega)

theorem indexOf_eq {p : ℕ} (hp : h.base ≤ p) : indexOf h p = h.indexOf p := by
  obtain ⟨k, rfl⟩ := Nat.exists_eq_add_of_le hp
  unfold indexOf Heap.indexOf
  rw [Nat.add_sub_cancel_left, show ((h.base + k : ℕ) : ℤ) - h.base = (k : ℤ) by omega,
    Int.tdiv_eq_ediv_of_nonneg (by omega)]
  rfl

theorem index_pointer (hw : WellFormed h bs fl) (hb : b ∈ bs) :
    indexOf h (h.pointer b) = b.start ∧ h.base < h.pointer b := by
  have hin := (tiles_mem hw.tiles hb).1
  have hpos := Heap.pointer_pos h (b := b) (by omega)
  exact ⟨(indexOf_eq hpos.le).trans (Heap.indexOf_pointer h (by omega)), hpos⟩

theorem free_block (hw : WellFormed h (L ++ b :: R) fl) (hb : b.free = false) :
    free h (h.pointer b) = .ok (h.release b.start) := by
  obtain ⟨hidx, hpos⟩ := index_pointer hw (b := b) (by simp)
  have hin := tiles_mem hw.tiles (b := b) (by simp)
  simp only [Block.stop] at hin
  rw [free, if_neg (by omega), if_neg (by omega)]
  simp only [hidx, sanity_ok, ok_bind]
  rw [isTaken_ok (by omega) (by omega), hw.isTaken_start (by simp), hb, ok_bind]
  exact release_ok hw hb

theorem free_null {p : ℕ} (hp : p = 0 ∨ p = h.base) : free h p = .ok h := by
  rcases hp with rfl | rfl
  · simp [free]
  · simp [free]

end

end MMapKernel.UserHeap
