import Mathlib

/-!
# Tilings of an integer array by tagged blocks, and lists threaded through them

A tiling is a list of placed blocks that fill an index range from left to right.
A block carries its signed size in its first and in its last word: positive for a
free block, negative for a taken one. The words after the header of a free block
hold the two links of a list, so a list node occupies the indices `x+1` and `x+2`
of the block that starts at `x`. Index `0` plays the part of the null link.

The statements are about an arbitrary array `ℤ → ℤ`. A change of the array is
described by the words it may touch, so every result here comes with the
condition under which it survives such a change.
-/

namespace BoundaryTag

structure Block where
  start : ℤ
  size : ℤ
  free : Bool
deriving DecidableEq, Repr

namespace Block

def stop (b : Block) : ℤ := b.start + b.size

def tag (b : Block) : ℤ := if b.free then b.size else -b.size

def Tagged (a : ℤ → ℤ) (b : Block) : Prop :=
  a b.start = b.tag ∧ a (b.stop - 1) = b.tag

theorem Tagged.congr {a a' : ℤ → ℤ} {b : Block} (h : b.Tagged a)
    (h₁ : a' b.start = a b.start) (h₂ : a' (b.stop - 1) = a (b.stop - 1)) : b.Tagged a' :=
  ⟨h₁.trans h.1, h₂.trans h.2⟩

end Block

def Tiles (lo hi : ℤ) : List Block → Prop
  | [] => lo = hi
  | b :: bs => b.start = lo ∧ 4 ≤ b.size ∧ Tiles b.stop hi bs

theorem tiles_append {lo hi : ℤ} {xs ys : List Block} :
    Tiles lo hi (xs ++ ys) ↔ ∃ mid, Tiles lo mid xs ∧ Tiles mid hi ys := by
  induction xs generalizing lo with
  | nil => simp [Tiles]
  | cons b bs ih =>
    simp only [List.cons_append, Tiles, ih]
    constructor
    · rintro ⟨h, hs, mid, hl, hr⟩
      exact ⟨mid, ⟨h, hs, hl⟩, hr⟩
    · rintro ⟨mid, ⟨h, hs, hl⟩, hr⟩
      exact ⟨h, hs, mid, hl, hr⟩

theorem tiles_middle {lo hi : ℤ} {xs ys : List Block} {b : Block} :
    Tiles lo hi (xs ++ b :: ys) ↔
      Tiles lo b.start xs ∧ 4 ≤ b.size ∧ Tiles b.stop hi ys := by
  rw [tiles_append]
  constructor
  · rintro ⟨mid, hl, rfl, hs, hr⟩
    exact ⟨hl, hs, hr⟩
  · rintro ⟨hl, hs, hr⟩
    exact ⟨b.start, hl, rfl, hs, hr⟩

theorem tiles_le {lo hi : ℤ} {bs : List Block} (h : Tiles lo hi bs) : lo ≤ hi := by
  induction bs generalizing lo with
  | nil => exact le_of_eq h
  | cons b bs ih =>
    obtain ⟨rfl, hs, hr⟩ := h
    have := ih hr
    simp only [Block.stop] at this
    omega

/-- Blocks of at least four words inside `[lo, hi)`, no two of which meet. They need not
fill the range. -/
structure Layout (lo hi : ℤ) (bs : List Block) : Prop where
  mem : ∀ b ∈ bs, lo ≤ b.start ∧ 4 ≤ b.size ∧ b.stop ≤ hi
  apart : ∀ b ∈ bs, ∀ c ∈ bs, b = c ∨ b.stop ≤ c.start ∨ c.stop ≤ b.start

theorem tiles_mem {lo hi : ℤ} {bs : List Block} (h : Tiles lo hi bs) {b : Block}
    (hb : b ∈ bs) : lo ≤ b.start ∧ 4 ≤ b.size ∧ b.stop ≤ hi := by
  obtain ⟨xs, ys, rfl⟩ := List.append_of_mem hb
  obtain ⟨hl, hs, hr⟩ := tiles_middle.mp h
  exact ⟨tiles_le hl, hs, tiles_le hr⟩

theorem tiles_apart {lo hi : ℤ} {bs : List Block} (h : Tiles lo hi bs) {b c : Block}
    (hb : b ∈ bs) (hc : c ∈ bs) : b = c ∨ b.stop ≤ c.start ∨ c.stop ≤ b.start := by
  obtain ⟨xs, ys, rfl⟩ := List.append_of_mem hb
  obtain ⟨hl, -, hr⟩ := tiles_middle.mp h
  rcases List.mem_append.mp hc with hc | hc
  · exact Or.inr (Or.inr (tiles_mem hl hc).2.2)
  · rcases List.mem_cons.mp hc with hc | hc
    · exact Or.inl hc.symm
    · exact Or.inr (Or.inl (tiles_mem hr hc).1)

theorem Tiles.layout {lo hi : ℤ} {bs : List Block} (h : Tiles lo hi bs) : Layout lo hi bs :=
  ⟨fun _ hb => tiles_mem h hb, fun _ hb _ hc => tiles_apart h hb hc⟩

theorem layout_gap {lo s e hi : ℤ} {xs ys : List Block} (hx : Tiles lo s xs) (hy : Tiles e hi ys)
    (hse : s ≤ e) : Layout lo hi (xs ++ ys) := by
  have hlo := tiles_le hx
  have hhi := tiles_le hy
  refine ⟨fun b hb => ?_, fun b hb c hc => ?_⟩
  · rcases List.mem_append.mp hb with hb | hb
    · have := tiles_mem hx hb; omega
    · have := tiles_mem hy hb; omega
  · rcases List.mem_append.mp hb with hb | hb <;> rcases List.mem_append.mp hc with hc | hc
    · exact tiles_apart hx hb hc
    · have h₁ := tiles_mem hx hb
      have h₂ := tiles_mem hy hc
      exact Or.inr (Or.inl (by omega))
    · have h₁ := tiles_mem hy hb
      have h₂ := tiles_mem hx hc
      exact Or.inr (Or.inr (by omega))
    · exact tiles_apart hy hb hc

namespace Layout
variable {lo hi : ℤ} {bs : List Block}

theorem link_ne_tag (h : Layout lo hi bs) {b c : Block} (hb : b ∈ bs) (hc : c ∈ bs) {k : ℤ}
    (hk : k = c.start + 1 ∨ k = c.start + 2) : k ≠ b.start ∧ k ≠ b.stop - 1 := by
  have hb4 := (h.mem b hb).2.1
  have hc4 := (h.mem c hc).2.1
  rcases h.apart b hb c hc with rfl | hbc | hbc <;> simp only [Block.stop] at * <;> omega

end Layout

theorem tiles_pairwise {lo hi : ℤ} {bs : List Block} (h : Tiles lo hi bs) :
    bs.Pairwise fun b c => b.stop ≤ c.start := by
  induction bs generalizing lo with
  | nil => exact List.Pairwise.nil
  | cons b bs ih =>
    obtain ⟨rfl, -, hr⟩ := h
    exact List.Pairwise.cons (fun c hc => (tiles_mem hr hc).1) (ih hr)

def startsOf (free : Bool) (bs : List Block) : List ℤ :=
  (bs.filter fun b => b.free == free).map Block.start

theorem mem_startsOf {free : Bool} {bs : List Block} {x : ℤ} :
    x ∈ startsOf free bs ↔ ∃ b ∈ bs, b.free = free ∧ b.start = x := by
  simp [startsOf, and_assoc]

@[simp] theorem startsOf_nil (free : Bool) : startsOf free [] = [] := rfl

theorem startsOf_append (free : Bool) (xs ys : List Block) :
    startsOf free (xs ++ ys) = startsOf free xs ++ startsOf free ys := by
  simp [startsOf]

theorem startsOf_cons (free : Bool) (b : Block) (bs : List Block) :
    startsOf free (b :: bs) =
      if b.free = free then b.start :: startsOf free bs else startsOf free bs := by
  simp only [startsOf, List.filter_cons, beq_iff_eq]
  split <;> rfl

def Spread (xs : List ℤ) : Prop := xs.Pairwise fun x y => x + 4 ≤ y ∨ y + 4 ≤ x

theorem spread_startsOf {lo hi : ℤ} {bs : List Block} (h : Tiles lo hi bs) (free : Bool) :
    Spread (startsOf free bs) := by
  have hp := tiles_pairwise h
  refine List.pairwise_map.mpr ((hp.sublist List.filter_sublist).imp_of_mem ?_)
  intro b c hb _ hbc
  have hs := (tiles_mem h (List.mem_of_mem_filter hb)).2.1
  simp only [Block.stop] at hbc
  omega

theorem Spread.nodup {xs : List ℤ} (h : Spread xs) : xs.Nodup := by
  refine List.Pairwise.imp ?_ h
  intro x y hxy he
  omega

theorem Spread.perm {xs ys : List ℤ} (h : Spread xs) (hp : xs.Perm ys) : Spread ys :=
  List.Pairwise.perm h hp fun hxy => hxy.symm

/-- `xs` is linked in both directions; `p` stands before its first node and `n` after
its last one. -/
def LinkedTo (a : ℤ → ℤ) (p : ℤ) (xs : List ℤ) (n : ℤ) : Prop :=
  match xs with
  | [] => True
  | x :: xs => a (x + 2) = p ∧ a (x + 1) = xs.headD n ∧ LinkedTo a x xs n

theorem linkedTo_append {a : ℤ → ℤ} {p n : ℤ} {xs ys : List ℤ} :
    LinkedTo a p (xs ++ ys) n ↔
      LinkedTo a p xs (ys.headD n) ∧ LinkedTo a (xs.getLastD p) ys n := by
  induction xs generalizing p with
  | nil => simp [LinkedTo]
  | cons x xs ih =>
    have hh : (xs ++ ys).headD n = xs.headD (ys.headD n) := by cases xs <;> rfl
    simp only [List.cons_append, LinkedTo, ih, hh, List.getLastD_cons, and_assoc]

theorem LinkedTo.congr {a a' : ℤ → ℤ} {p n : ℤ} {xs : List ℤ} (h : LinkedTo a p xs n)
    (hag : ∀ x ∈ xs, a' (x + 1) = a (x + 1) ∧ a' (x + 2) = a (x + 2)) : LinkedTo a' p xs n := by
  induction xs generalizing p with
  | nil => trivial
  | cons x xs ih =>
    obtain ⟨hp, hn, hr⟩ := h
    have hx := hag x List.mem_cons_self
    exact ⟨hx.2.trans hp, hx.1.trans hn, ih hr fun y hy => hag y (List.mem_cons_of_mem _ hy)⟩

theorem LinkedTo.relink_last {a : ℤ → ℤ} {p n : ℤ} {xs : List ℤ} (h : LinkedTo a p xs n)
    (hs : Spread xs) (n' : ℤ) :
    LinkedTo (Function.update a (xs.getLastD p + 1) n') p xs n' := by
  induction xs generalizing p with
  | nil => trivial
  | cons x xs ih =>
    obtain ⟨hp, hn, hr⟩ := h
    obtain ⟨hx, hs⟩ := List.pairwise_cons.mp hs
    have ih := ih hr hs
    cases xs with
    | nil =>
      refine ⟨?_, ?_, trivial⟩
      · rw [Function.update_of_ne (by simp [List.getLastD])]
        exact hp
      · simp [List.getLastD]
    | cons y ys =>
      have hl : (y :: ys).getLastD x ∈ y :: ys := by
        rw [List.getLastD_cons]
        exact List.getLastD_mem_cons
      have hfar := hx _ hl
      refine ⟨?_, ?_, ?_⟩
      · rw [List.getLastD_cons, Function.update_of_ne (by omega)]
        exact hp
      · rw [List.getLastD_cons, Function.update_of_ne (by omega)]
        simpa using hn
      · simpa only [List.getLastD_cons] using ih

theorem LinkedTo.relink_head {a : ℤ → ℤ} {p n : ℤ} {x : ℤ} {xs : List ℤ}
    (h : LinkedTo a p (x :: xs) n) (hs : Spread (x :: xs)) (p' : ℤ) :
    LinkedTo (Function.update a (x + 2) p') p' (x :: xs) n := by
  obtain ⟨-, hn, hr⟩ := h
  obtain ⟨hx, -⟩ := List.pairwise_cons.mp hs
  refine ⟨by simp, ?_, hr.congr fun y hy => ?_⟩
  · rw [Function.update_of_ne (by omega)]
    exact hn
  · have := hx y hy
    exact ⟨Function.update_of_ne (by omega) _ _, Function.update_of_ne (by omega) _ _⟩

end BoundaryTag
