import MMapKernel.Heap.Operations

/-!
# `malloc` and `free` keep the heap well formed

The search of `malloc` is compared with a fold over the free list, so its result is
a listed block that is large enough. Carving that block, and merging a released
one with its free neighbours, are then run on the range they occupy.
-/

open BoundaryTag
namespace MMapKernel.Heap

def takenBlocks (bs : List Block) : List Block := bs.filter fun b => !b.free

theorem mem_takenBlocks {bs : List Block} {c : Block} :
    c ∈ takenBlocks bs ↔ c ∈ bs ∧ c.free = false := by
  simp [takenBlocks]

theorem takenBlocks_append (xs ys : List Block) :
    takenBlocks (xs ++ ys) = takenBlocks xs ++ takenBlocks ys := List.filter_append ..

theorem takenBlocks_cons (b : Block) (bs : List Block) :
    takenBlocks (b :: bs) = if b.free then takenBlocks bs else b :: takenBlocks bs := by
  cases hb : b.free <;> simp [takenBlocks, hb]

theorem settled_append {xs ys : List Block} : Settled (xs ++ ys) ↔ Settled xs ∧ Settled ys ∧
    ∀ b ∈ xs.getLast?, ∀ c ∈ ys.head?, ¬(b.free = true ∧ c.free = true) := List.isChain_append

theorem settled_cons {b : Block} {ys : List Block} : Settled (b :: ys) ↔
    (∀ c ∈ ys.head?, ¬(b.free = true ∧ c.free = true)) ∧ Settled ys := List.isChain_cons

theorem settled_middle {xs ys : List Block} {b : Block} : Settled (xs ++ b :: ys) ↔
    Settled xs ∧ (∀ c ∈ xs.getLast?, ¬(c.free = true ∧ b.free = true)) ∧
    (∀ c ∈ ys.head?, ¬(b.free = true ∧ c.free = true)) ∧ Settled ys := by
  rw [settled_append, settled_cons]
  simp only [List.head?_cons, Option.mem_def, Option.some.injEq, forall_eq']
  tauto

/-- The choice `malloc` makes among the blocks of the free list, from a running best
`(mx, it)`. -/
def pick (sz : ℤ → ℤ) (ints : ℤ) : ℤ → ℤ × ℤ → List ℤ → ℤ × ℤ
  | _, best, [] => best
  | countDown, best, p :: ps =>
    if ints ≤ sz p then
      let best := if sz p < best.1 then (sz p, p) else best
      if countDown - 1 = 0 then best else pick sz ints (countDown - 1) best ps
    else pick sz ints countDown best ps

theorem pick_cases (sz : ℤ → ℤ) (ints countDown : ℤ) (best : ℤ × ℤ) (ps : List ℤ) :
    pick sz ints countDown best ps = best ∨
    ∃ p ∈ ps, pick sz ints countDown best ps = (sz p, p) ∧ ints ≤ sz p := by
  induction ps generalizing countDown best with
  | nil => exact Or.inl rfl
  | cons p ps ih =>
    unfold pick
    by_cases hfit : ints ≤ sz p
    · simp only [hfit, ↓reduceIte]
      -- the running best after `p` is either unchanged or `p` itself
      have hbest : ∀ best' : ℤ × ℤ, best' = best ∨ best' = (sz p, p) →
          best' = best ∨ ∃ q ∈ p :: ps, best' = (sz q, q) ∧ ints ≤ sz q := by
        intro best' hb
        rcases hb with hb | hb
        · exact Or.inl hb
        · exact Or.inr ⟨p, List.mem_cons_self, hb, hfit⟩
      have hnew : (if sz p < best.1 then (sz p, p) else best) = best ∨
          (if sz p < best.1 then (sz p, p) else best) = (sz p, p) := by
        split
        · exact Or.inr rfl
        · exact Or.inl rfl
      split
      · exact hbest _ hnew
      · rcases ih (countDown - 1) (if sz p < best.1 then (sz p, p) else best) with h | h
        · rw [h]
          exact hbest _ hnew
        · obtain ⟨q, hq, h⟩ := h
          exact Or.inr ⟨q, List.mem_cons_of_mem _ hq, h⟩
    · simp only [hfit, ↓reduceIte]
      rcases ih countDown best with h | ⟨q, hq, h⟩
      · exact Or.inl h
      · exact Or.inr ⟨q, List.mem_cons_of_mem _ hq, h⟩

theorem search_eq_pick {h : Heap} (ints : ℤ) {ps : List ℤ} {prev : ℤ}
    (hl : LinkedTo h.array prev ps 0) (hpos : ∀ p ∈ ps, 0 < p)
    (hav : ∀ p ∈ ps, h.isAvail p = true) (fuel : ℕ) (hfuel : ps.length < fuel) (countDown : ℤ)
    (best : ℤ × ℤ) :
    h.search ints fuel countDown (ps.headD 0) best = .ok (pick h.size ints countDown best ps) := by
  induction ps generalizing prev fuel countDown best with
  | nil =>
    obtain ⟨fuel, rfl⟩ : ∃ n, fuel = n + 1 := ⟨fuel - 1, by simp at hfuel; omega⟩
    simp [search, pick]
  | cons p ps ih =>
    obtain ⟨fuel, rfl⟩ : ∃ n, fuel = n + 1 := ⟨fuel - 1, by simp at hfuel; omega⟩
    obtain ⟨-, hnext, hr⟩ := hl
    have hp := hpos p List.mem_cons_self
    have hrest := fun cd best => ih hr (fun q hq => hpos q (List.mem_cons_of_mem _ hq))
      (fun q hq => hav q (List.mem_cons_of_mem _ hq)) fuel
      (by simp only [List.length_cons] at hfuel; omega) cd best
    have hn : h.next p = ps.headD 0 := hnext
    unfold search pick
    simp only [List.headD_cons, show p ≠ 0 by omega, ↓reduceIte, hav p List.mem_cons_self,
      Bool.not_true, Bool.false_eq_true, ge_iff_le, hn, hrest]
    split <;> [split <;> rfl; rfl]

theorem four_le_intsOf (bytes : UInt32) : 4 ≤ intsOf bytes := by
  unfold intsOf
  dsimp only
  split <;> omega

theorem tiles_length {lo hi : ℤ} {bs : List Block} (h : Tiles lo hi bs) :
    4 * (bs.length : ℤ) ≤ hi - lo := by
  induction bs generalizing lo with
  | nil => simp [Tiles] at h; simp [h]
  | cons b bs ih =>
    obtain ⟨rfl, h4, hr⟩ := h
    have := ih hr
    simp only [Block.stop] at this
    push_cast [List.length_cons]
    omega

theorem WellFormed.nodes {h : Heap} {bs : List Block} {fl : List ℤ} (hw : WellFormed h bs fl) :
    Nodes fl bs := nodes_of_perm hw.exactly fun _ hc => hc

theorem WellFormed.length_le {h : Heap} {bs : List Block} {fl : List ℤ}
    (hw : WellFormed h bs fl) : fl.length < h.len.toNat + 1 := by
  have h₁ : fl.length ≤ bs.length := by
    rw [hw.exactly.length_eq, startsOf, List.length_map]
    exact List.length_filter_le _ _
  have h₂ := tiles_length hw.tiles
  omega

theorem WellFormed.search_eq {h : Heap} {bs : List Block} {fl : List ℤ} (hw : WellFormed h bs fl)
    (ints : ℤ) : h.search ints (h.len.toNat + 1) 20 h.avail (0x7FFFFFFF, 0) =
      .ok (pick h.size ints 20 (0x7FFFFFFF, 0) fl) := by
  have hav : ∀ p ∈ fl, h.isAvail p = true := by
    intro p hp
    obtain ⟨c, hc, hcf, rfl⟩ := hw.nodes p hp
    rw [hw.isAvail_start hc, hcf]
  rw [hw.head]
  exact search_eq_pick ints hw.linked (hw.nodes.pos hw.toTagging) hav _ hw.length_le 20 _

theorem search_spec {h : Heap} {bs : List Block} {fl : List ℤ} (hw : WellFormed h bs fl)
    (ints : ℤ) :
    ∃ mx it, h.search ints (h.len.toNat + 1) 20 h.avail (0x7FFFFFFF, 0) = .ok (mx, it) ∧
      (it = 0 ∨ ∃ b ∈ bs, b.free = true ∧ b.start = it ∧ b.size = mx ∧ ints ≤ mx) := by
  have hs := hw.search_eq ints
  rcases pick_cases h.size ints 20 (0x7FFFFFFF, 0) fl with hp | ⟨p, hp, hpick, hfit⟩
  · exact ⟨_, _, hs.trans (congrArg _ hp), Or.inl rfl⟩
  · refine ⟨_, _, hs.trans (congrArg _ hpick), Or.inr ?_⟩
    obtain ⟨c, hc, hcf, rfl⟩ := hw.nodes p hp
    exact ⟨c, hc, hcf, rfl, (hw.size_start hc).symm, hfit⟩

def carved (b : Block) (ints : ℤ) : List Block :=
  if 4 ≤ b.size - ints then [⟨b.start, ints, false⟩, ⟨b.start + ints, b.size - ints, true⟩]
  else [⟨b.start, b.size, false⟩]

def carvedSize (b : Block) (ints : ℤ) : ℤ := if 4 ≤ b.size - ints then ints else b.size

theorem le_carvedSize {b : Block} {ints : ℤ} (hfit : ints ≤ b.size) : ints ≤ carvedSize b ints := by
  unfold carvedSize
  split
  · exact le_rfl
  · exact hfit

theorem carvedSize_le {b : Block} {ints : ℤ} (hfit : ints ≤ b.size) : carvedSize b ints ≤ b.size := by
  unfold carvedSize
  split
  · exact hfit
  · exact le_rfl

def carvedList (fl : List ℤ) (b : Block) (ints : ℤ) : List ℤ :=
  if 4 ≤ b.size - ints then (b.start + ints) :: fl.erase b.start else fl.erase b.start

theorem takenBlocks_carved (b : Block) (ints : ℤ) :
    takenBlocks (carved b ints) = [⟨b.start, carvedSize b ints, false⟩] := by
  unfold carved carvedSize
  split <;> rfl

@[simp] theorem carve_len (h : Heap) (ints mx it : ℤ) : (h.carve ints mx it).len = h.len := by
  unfold carve
  dsimp only
  split <;> simp

@[simp] theorem carve_base (h : Heap) (ints mx it : ℤ) : (h.carve ints mx it).base = h.base := by
  unfold carve
  dsimp only
  split <;> simp

theorem carve_spec {h : Heap} {L R : List Block} {fl : List ℤ} {b : Block}
    (hw : WellFormed h (L ++ b :: R) fl) (hb : b.free = true) {ints : ℤ} (h4 : 4 ≤ ints)
    (hfit : ints ≤ b.size) :
    WellFormed (h.carve ints b.size b.start) (L ++ carved b ints ++ R) (carvedList fl b ints) ∧
    ∀ c ∈ L ++ R, c.free = false → Untouched h (h.carve ints b.size b.start) c := by
  obtain ⟨hsL, hlast, hhead, hsR⟩ := settled_middle.mp hw.settled
  have hmem : b.start ∈ fl := hw.mem_list (by simp) hb
  have hopen := hw.open_at
  have hp := hopen.absorb_right hb
  have hkeep : ∀ c ∈ L ++ R, c.free = false → Untouched h (h.remove b.start) c := by
    intro c hc hcf
    refine hopen.untouched_remove hmem ?_ hcf
    simp only [List.mem_append, List.mem_cons] at hc ⊢
    tauto
  by_cases hsplit : 4 ≤ b.size - ints
  · have he : b.stop - (b.start + ints) = b.size - ints := by simp only [Block.stop]; omega
    have hle : b.start + ints ≤ b.stop := by simp only [Block.stop]; omega
    have hp₁ := hp.makeTaken h4 hle
    have hp₂ := hp₁.makeAvail (by omega)
    have hcarve : h.carve ints b.size b.start =
        ((h.remove b.start).makeTaken b.start ints).makeAvail (b.start + ints)
          (b.stop - (b.start + ints)) := by
      simp only [carve, ge_iff_le, hsplit, ↓reduceIte, he]
    refine ⟨?_, fun c hc hcf => ?_⟩
    · rw [hcarve, carvedList, if_pos hsplit]
      have hbs : L ++ carved b ints ++ R = L ++ [⟨b.start, ints, false⟩] ++
          [⟨b.start + ints, b.stop - (b.start + ints), true⟩] ++ R := by
        simp [carved, hsplit, he]
      rw [hbs]
      apply hp₂.wellFormed
      rw [← hbs]
      simp only [carved, hsplit, ↓reduceIte, List.append_assoc, List.cons_append,
        List.nil_append]
      refine settled_middle.mpr ⟨hsL, fun c _ hc => Bool.false_ne_true hc.2, ?_, ?_⟩
      · simp
      · exact settled_cons.mpr ⟨fun c hc h => hhead c hc ⟨hb, h.2⟩, hsR⟩
    · rw [hcarve]
      apply ((hkeep c hc hcf).trans (hp.untouched_makeTaken h4 hle hc)).trans
      refine hp₁.untouched_makeAvail (by omega) ?_ hcf
      simp only [List.mem_append, List.mem_singleton] at hc ⊢
      tauto
  · have he : b.start + b.size = b.stop := rfl
    have hb4 : 4 ≤ b.size := by omega
    have hp₁ := hp.makeTaken hb4 he.le
    have hcarve : h.carve ints b.size b.start =
        (h.remove b.start).makeTaken b.start b.size := by
      simp only [carve, ge_iff_le, hsplit, ↓reduceIte]
    refine ⟨?_, fun c hc hcf => ?_⟩
    · rw [hcarve, carvedList, if_neg hsplit]
      have hbs : L ++ carved b ints ++ R = L ++ [⟨b.start, b.size, false⟩] ++ R := by
        simp [carved, hsplit]
      rw [hbs]
      rw [he] at hp₁
      apply hp₁.wellFormed
      rw [List.append_assoc, List.singleton_append]
      exact settled_middle.mpr ⟨hsL, fun c _ hc => Bool.false_ne_true hc.2,
        fun c _ hc => Bool.false_ne_true hc.1, hsR⟩
    · rw [hcarve]
      exact (hkeep c hc hcf).trans (hp.untouched_makeTaken hb4 he.le hc)

section Release
variable {h : Heap} {L R : List Block} {fl : List ℤ} {s e : ℤ}

theorem Pending.left_eq (hp : Pending h L R fl s e) :
    (L = [] ∧ h.left s = 0 ∧ h.isAvail (h.left s) = false) ∨
    ∃ L' c, L = L' ++ [c] ∧ h.left s = c.start ∧ h.isAvail (h.left s) = c.free := by
  rcases List.eq_nil_or_concat L with rfl | ⟨L', c, rfl⟩
  · have hs : s = 2 := hp.before.symm
    have h1 : h.size 1 = 2 := size_eq_of_tag (by omega) (Or.inr hp.front.2)
    have h0 : h.left s = 0 := by
      simp only [left, sanity, headerFromFooter, hs]
      rw [show (2 : ℤ) - 1 = 1 by norm_num, h1]
      norm_num
    exact Or.inl ⟨rfl, h0, by rw [h0]; simp [isAvail, hp.front.1]⟩
  · rw [List.concat_eq_append] at hp ⊢
    have hc : c ∈ L' ++ [c] ++ R := by simp
    obtain ⟨-, -, hs⟩ := tiles_middle.mp hp.before
    have hs : c.stop = s := hs
    have hl : h.left s = c.start := by
      simp only [left, sanity, headerFromFooter, ← hs, hp.size_last hc]
      simp only [Block.stop]
      omega
    exact Or.inr ⟨L', c, rfl, hl, by rw [hl, hp.isAvail_start hc]⟩

theorem Pending.right_eq (hp : Pending h L R fl s e) :
    (R = [] ∧ h.isAvail e = false) ∨
    ∃ R' c, R = c :: R' ∧ e = c.start ∧ h.isAvail e = c.free := by
  cases R with
  | nil =>
    have he : e = h.len - 2 := hp.after
    exact Or.inl ⟨rfl, by simp [isAvail, he, hp.back.1]⟩
  | cons c R' =>
    have hc : c ∈ L ++ c :: R' := by simp
    have he : e = c.start := hp.after.1.symm
    exact Or.inr ⟨R', c, rfl, he, by rw [he, hp.isAvail_start hc]⟩

theorem Pending.mem_list (hp : Pending h L R fl s e) {c : Block} (hc : c ∈ L ++ R)
    (hcf : c.free = true) : c.start ∈ fl :=
  hp.exactly.mem_iff.mpr (mem_startsOf.mpr ⟨c, hc, hcf, rfl⟩)

theorem Pending.size_after_remove (hp : Pending h L R fl s e) {c : Block} (hc : c ∈ L ++ R)
    (hcf : c.free = true) : (h.remove c.start).size c.start = c.size :=
  (remove_spec hp.toTagging hp.toAvailList hp.nodes hp.nodup (hp.mem_list hc hcf)).1.size_start hc

def ClosedLeft (L : List Block) : Prop := Settled L ∧ ∀ c ∈ L.getLast?, c.free = false

def ClosedRight (R : List Block) : Prop := Settled R ∧ ∀ c ∈ R.head?, c.free = false

theorem mergeLeft_spec (hp : Pending h L R fl s e) (hL : Settled L) (sz : ℤ) (hsz : sz = e - s) :
    let m := h.mergeLeft s sz (h.left s)
    ∃ L' fl', Pending m.1 L' R fl' m.2.1 e ∧ m.2.2 = e - m.2.1 ∧ m.2.1 ≤ s ∧
      takenBlocks L' = takenBlocks L ∧ ClosedLeft L' ∧
      ∀ c ∈ L ++ R, c.free = false → Untouched h m.1 c := by
  have hstay : h.isAvail (h.left s) = false → h.mergeLeft s sz (h.left s) = (h, s, sz) := by
    intro hf
    simp [mergeLeft, hf]
  rcases hp.left_eq with ⟨rfl, -, hf⟩ | ⟨L', c, rfl, hl, hf⟩
  · rw [hstay hf]
    exact ⟨[], fl, hp, hsz, le_rfl, rfl, ⟨hL, by simp⟩, fun _ _ _ _ _ _ => rfl⟩
  · obtain ⟨hsL, hlast, -, -⟩ := settled_middle.mp hL
    have hc : c ∈ L' ++ [c] ++ R := by simp
    cases hcf : c.free with
    | false =>
      rw [hstay (hf.trans hcf)]
      exact ⟨_, fl, hp, hsz, le_rfl, rfl, ⟨hL, by simp [hcf]⟩, fun _ _ _ _ _ _ => rfl⟩
    | true =>
      have hm : h.mergeLeft s sz (h.left s) =
          (h.remove c.start, c.start, sz + (h.remove c.start).size c.start) := by
        simp only [mergeLeft, ← hl, hf, hcf, ↓reduceIte]
      obtain ⟨-, h4, hs⟩ := tiles_middle.mp hp.before
      have hs : c.stop = s := hs
      rw [hm]
      refine ⟨L', _, hp.absorb_left hcf, ?_, ?_, ?_, ⟨hsL, fun d hd => ?_⟩, fun d hd hdf => ?_⟩
      · dsimp only
        rw [hp.size_after_remove hc hcf, hsz, ← hs, Block.stop]
        omega
      · dsimp only
        rw [← hs, Block.stop]
        omega
      · simp [takenBlocks, hcf]
      · exact Bool.eq_false_iff.mpr fun hdf => hlast d hd ⟨hdf, hcf⟩
      · exact hp.untouched_remove (hp.mem_list hc hcf) hd hdf

theorem mergeRight_spec (hp : Pending h L R fl s e) (hR : Settled R) {sz : ℤ} (hsz : sz = e - s) :
    let m := h.mergeRight sz e
    ∃ R' fl' e', Pending m.1 L R' fl' s e' ∧ m.2 = e' - s ∧ e ≤ e' ∧
      takenBlocks R' = takenBlocks R ∧ ClosedRight R' ∧
      ∀ c ∈ L ++ R, c.free = false → Untouched h m.1 c := by
  have hstay : h.isAvail e = false → h.mergeRight sz e = (h, sz) := by
    intro hf
    simp [mergeRight, hf]
  rcases hp.right_eq with ⟨rfl, hf⟩ | ⟨R', c, rfl, he, hf⟩
  · rw [hstay hf]
    exact ⟨[], fl, e, hp, hsz, le_rfl, rfl, ⟨hR, by simp⟩, fun _ _ _ _ _ _ => rfl⟩
  · obtain ⟨hhead, hsR⟩ := settled_cons.mp hR
    have hc : c ∈ L ++ c :: R' := by simp
    cases hcf : c.free with
    | false =>
      rw [hstay (hf.trans hcf)]
      exact ⟨_, fl, e, hp, hsz, le_rfl, rfl, ⟨hR, by simp [hcf]⟩, fun _ _ _ _ _ _ => rfl⟩
    | true =>
      have hm : h.mergeRight sz e =
          (h.remove c.start, sz + (h.remove c.start).size c.start) := by
        simp only [mergeRight, hf, hcf, ↓reduceIte, ← he]
      have h4 := hp.after.2.1
      rw [hm]
      refine ⟨R', _, c.stop, hp.absorb_right hcf, ?_, ?_, ?_, ⟨hsR, fun d hd => ?_⟩,
        fun d hd hdf => ?_⟩
      · dsimp only
        rw [hp.size_after_remove hc hcf, hsz, Block.stop]
        omega
      · rw [Block.stop]
        omega
      · simp [takenBlocks, hcf]
      · exact Bool.eq_false_iff.mpr fun hdf => hhead d hd ⟨hcf, hdf⟩
      · exact hp.untouched_remove (hp.mem_list hc hcf) hd hdf

@[simp] theorem mergeLeft_len (h : Heap) (i sz l : ℤ) : (h.mergeLeft i sz l).1.len = h.len := by
  unfold mergeLeft
  split <;> simp

@[simp] theorem mergeLeft_base (h : Heap) (i sz l : ℤ) : (h.mergeLeft i sz l).1.base = h.base := by
  unfold mergeLeft
  split <;> simp

@[simp] theorem mergeRight_len (h : Heap) (sz r : ℤ) : (h.mergeRight sz r).1.len = h.len := by
  unfold mergeRight
  split <;> simp

@[simp] theorem mergeRight_base (h : Heap) (sz r : ℤ) : (h.mergeRight sz r).1.base = h.base := by
  unfold mergeRight
  split <;> simp

@[simp] theorem release_len (h : Heap) (i : ℤ) : (h.release i).len = h.len := by
  simp [release]

@[simp] theorem release_base (h : Heap) (i : ℤ) : (h.release i).base = h.base := by
  simp [release]

theorem WellFormed.release_eq {b : Block} (hw : WellFormed h (L ++ b :: R) fl) : h.release b.start =
    let l := h.mergeLeft b.start b.size (h.left b.start)
    let r := l.1.mergeRight l.2.2 b.stop
    r.1.makeAvail l.2.1 r.2 := by
  have hsize : h.size b.start = b.size := hw.size_start (by simp)
  simp only [release, right, sanity, hsize, Block.stop]

theorem WellFormed.opened {b : Block} (hw : WellFormed h (L ++ b :: R) fl) (hb : b.free = false) :
    Pending h L R fl b.start b.stop ∧ Settled L ∧ Settled R := by
  obtain ⟨hsL, -, -, hsR⟩ := settled_middle.mp hw.settled
  exact ⟨hw.open_at.forget_right hb, hsL, hsR⟩

theorem release_spec {b : Block} (hw : WellFormed h (L ++ b :: R) fl) (hb : b.free = false) :
    ∃ bs' fl', WellFormed (h.release b.start) bs' fl' ∧
      takenBlocks bs' = takenBlocks L ++ takenBlocks R ∧
      ∀ c ∈ L ++ R, c.free = false → Untouched h (h.release b.start) c := by
  obtain ⟨hp, hsL, hsR⟩ := hw.opened hb
  have h4 : 4 ≤ b.size := (tiles_mem hw.tiles (b := b) (by simp)).2.1
  have hsz : b.size = b.stop - b.start := by simp only [Block.stop]; omega
  obtain ⟨L', fl₁, hp₁, hsz₁, hs₁, htL, ⟨hsL', hcL⟩, hu₁⟩ := mergeLeft_spec hp hsL b.size hsz
  obtain ⟨R', fl₂, e', hp₂, hsz₂, he₂, htR, ⟨hsR', hcR⟩, hu₂⟩ := mergeRight_spec hp₁ hsR hsz₁
  have hlong : 4 ≤ e' - (h.mergeLeft b.start b.size (h.left b.start)).2.1 := by
    simp only [Block.stop] at he₂
    omega
  have hrel := hw.release_eq
  dsimp only at hrel
  rw [hsz₂] at hrel
  generalize (h.mergeLeft b.start b.size (h.left b.start)) = m at *
  have hp₃ := hp₂.makeAvail hlong
  refine ⟨L' ++ [⟨m.2.1, e' - m.2.1, true⟩] ++ R', m.2.1 :: fl₂, ?_, ?_, fun c hc hcf => ?_⟩
  · rw [hrel]
    apply hp₃.wellFormed
    rw [List.append_assoc, List.singleton_append]
    refine settled_middle.mpr ⟨hsL', fun c hc h => ?_, fun c hc h => ?_, hsR'⟩
    · exact Bool.false_ne_true ((hcL c hc).symm.trans h.1)
    · exact Bool.false_ne_true ((hcR c hc).symm.trans h.2)
  · rw [← htL, ← htR, takenBlocks_append, takenBlocks_append]
    simp [takenBlocks]
  · have hin : ∀ {X X' : List Block}, takenBlocks X' = takenBlocks X → c ∈ X → c ∈ X' :=
      fun he hx => (mem_takenBlocks.mp (he ▸ mem_takenBlocks.mpr ⟨hx, hcf⟩)).1
    have hc₁ : c ∈ L' ++ R := by
      rcases List.mem_append.mp hc with hc | hc
      · exact List.mem_append_left _ (hin htL hc)
      · exact List.mem_append_right _ hc
    have hc₂ : c ∈ L' ++ R' := by
      rcases List.mem_append.mp hc₁ with hc | hc
      · exact List.mem_append_left _ hc
      · exact List.mem_append_right _ (hin htR hc)
    rw [hrel]
    exact ((hu₁ c hc hcf).trans (hu₂ c hc₁ hcf)).trans (hp₂.untouched_makeAvail hlong hc₂ hcf)

end Release

theorem settled_covers {lo hi x y : ℤ} {bs : List Block} (ht : Tiles lo hi bs)
    (hs : Settled bs) (hlo : lo ≤ x) (hxy : x < y) (hhi : y ≤ hi)
    (hd : ∀ c ∈ takenBlocks bs, c.stop ≤ x ∨ y ≤ c.start) :
    ∃ b ∈ bs, b.free = true ∧ b.start ≤ x ∧ y ≤ b.stop := by
  induction bs generalizing lo with
  | nil =>
    have hlh : lo = hi := ht
    omega
  | cons b bs ih =>
    obtain ⟨hb, h4, hr⟩ := ht
    obtain ⟨hnext, hs⟩ := settled_cons.mp hs
    by_cases hx : b.stop ≤ x
    · obtain ⟨c, hc, h⟩ := ih hr hs hx fun c hc => hd c (by
        rw [takenBlocks_cons]
        split
        · exact hc
        · exact List.mem_cons_of_mem _ hc)
      exact ⟨c, List.mem_cons_of_mem _ hc, h⟩
    · have hbf : b.free = true := by
        by_contra hbf
        have := hd b (by rw [takenBlocks_cons, if_neg hbf]; exact List.mem_cons_self)
        omega
      refine ⟨b, List.mem_cons_self, hbf, by omega, le_of_not_gt fun hy => ?_⟩
      -- the range would go on into the next block, which is taken
      cases bs with
      | nil =>
        have : b.stop = hi := hr
        omega
      | cons c cs =>
        obtain ⟨hc, hc4, -⟩ := hr
        have hcf : c.free = false := by
          rw [← Bool.not_eq_true]
          exact fun hcf => hnext c rfl ⟨hbf, hcf⟩
        have := hd c (mem_takenBlocks.mpr ⟨by simp, hcf⟩)
        simp only [Block.stop] at *
        omega

end MMapKernel.Heap
