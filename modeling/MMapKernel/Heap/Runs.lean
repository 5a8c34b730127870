import MMapKernel.Heap.Calls
import MMapKernel.Lib.Transition

/-!
# Call sequences on the kernel heap

A session is a heap with the list of pointers that `malloc` has handed out and that
have not been released. The calls are those the kernel makes: `malloc` with any byte
count, and `free` of a live pointer, of 0, or of the pointer `malloc(0)` returns.
-/

open BoundaryTag Transition
namespace MMapKernel.Heap

structure Session where
  heap : Heap
  live : List ℕ

inductive Call where
  | malloc (bytes : UInt32)
  | free (p : ℕ)
deriving DecidableEq

namespace Session

def step (s : Session) : Call → Except Panic Session
  | .malloc bytes =>
    match s.heap.malloc bytes with
    | .error e => .error e
    | .ok (p, h) => .ok ⟨h, if bytes = 0 ∨ p = 0 then s.live else p :: s.live⟩
  | .free p =>
    match s.heap.free p with
    | .error e => .error e
    | .ok h => .ok ⟨h, s.live.erase p⟩

def Allowed (s : Session) : Call → Prop
  | .malloc _ => True
  | .free p => p ∈ s.live ∨ p = 0 ∨ p = s.heap.base

instance decidableAllowed (s : Session) : (c : Call) → Decidable (s.Allowed c)
  | .malloc _ => inferInstanceAs (Decidable True)
  | .free p => inferInstanceAs (Decidable (p ∈ s.live ∨ p = 0 ∨ p = s.heap.base))

end Session

def sessions (base : ℕ) (bytes : UInt32) (memory : ℤ → ℤ) : System Session Call where
  init s := s = ⟨makeBlocks base bytes memory, []⟩
  step s c t := s.Allowed c ∧ s.step c = .ok t

def Session.next (s : Session) (c : Call) : Option Session := (s.step c).toOption

def Session.mayCall (s : Session) (c : Call) : Bool := s.Allowed c

theorem toOption_eq_some {ε α : Type} {x : Except ε α} {a : α} (h : x.toOption = some a) :
    x = .ok a := by
  cases x with
  | error e => cases h
  | ok b =>
    cases h
    rfl

theorem sessions_run {base : ℕ} {bytes : UInt32} {memory : ℤ → ℤ} {cs : List Call} {s : Session}
    (h : run Session.next Session.mayCall ⟨makeBlocks base bytes memory, []⟩ cs = some s) :
    Reachable (sessions base bytes memory) s :=
  run_reachable (S := sessions base bytes memory)
    (fun _ _ _ hc ht => ⟨of_decide_eq_true hc, toOption_eq_some ht⟩) (.start rfl) h

theorem new_eq_ok {h h' : Heap} {size : UInt32} {p : ℕ} (hn : h.new size = .ok (p, h')) :
    h.malloc size = .ok (p, h') ∧ p ≠ 0 := by
  unfold new at hn
  split at hn
  · cases hn
  · rename_i q g hm
    split at hn
    · cases hn
    · rename_i hq
      cases hn
      exact ⟨hm, hq⟩

theorem heapInit_reachable {base : ℕ} {bytes : UInt32} {memory : ℤ → ℤ} {lock : ℕ} {h : Heap}
    (hi : heapInit base bytes memory = .ok (lock, h)) :
    Reachable (sessions base bytes memory) ⟨h, [lock]⟩ := by
  obtain ⟨hm, hlock⟩ := new_eq_ok hi
  have hsize : sizeofBlockingLock ≠ 0 := by decide
  refine (Reachable.start rfl).next (i := .malloc sizeofBlockingLock) ⟨trivial, ?_⟩
  simp only [Session.step, hm, hsize, hlock, or_self, ↓reduceIte]

def pointer (h : Heap) (b : Block) : ℕ := h.addressOf (b.start + 1)

def indexOf (h : Heap) (p : ℕ) : ℤ := ((p - h.base) / 4 : ℕ) - 1

def InPayload (h : Heap) (p : ℕ) (k : ℤ) : Prop :=
  h.indexOf p < k ∧ k < h.indexOf p + h.size (h.indexOf p) - 1

theorem indexOf_pointer (h : Heap) {b : Block} (hb : 0 ≤ b.start) :
    h.indexOf (h.pointer b) = b.start := by
  unfold indexOf pointer addressOf
  omega

theorem pointer_congr {g h : Heap} (hbase : g.base = h.base) : g.pointer = h.pointer := by
  funext b
  simp only [pointer, addressOf, hbase]

theorem indexOf_congr {g h : Heap} (hbase : g.base = h.base) : g.indexOf = h.indexOf := by
  funext p
  simp only [indexOf, hbase]

structure Session.Inv (base : ℕ) (len : ℤ) (s : Session) (bs : List Block) (fl : List ℤ) :
    Prop where
  base_eq : s.heap.base = base
  len_eq : s.heap.len = len
  wf : s.heap.WellFormed bs fl
  live : s.live.Perm ((takenBlocks bs).map s.heap.pointer)

theorem makeBlocks_wellFormed (base : ℕ) (bytes : UInt32) (memory : ℤ → ℤ)
    (hlen : 8 ≤ (bytes / 4).toNat) :
    (makeBlocks base bytes memory).WellFormed
      [⟨2, ((bytes / 4).toNat : ℤ) - 4, true⟩] [2] := by
  generalize hn : ((bytes / 4).toNat : ℤ) = n
  have hn8 : 8 ≤ n := by omega
  let h₀ : Heap := { base := base, len := n, array := memory, avail := 0 }
  let h₁ := h₀.makeTaken 0 2
  let h₂ := h₁.makeAvail 2 (n - 4)
  have hinit : makeBlocks base bytes memory = h₂.makeTaken (n - 2) 2 := by
    simp only [makeBlocks, hn, h₂, h₁, h₀, makeAvail_len, makeTaken_len]
  have ha₁ : AvailList h₁ [] := ⟨rfl, trivial⟩
  have hfront : ∀ k, k = 0 ∨ k = 1 → h₁.array k = -2 := by
    intro k hk
    have : Block.Tagged (h₀.makeTaken 0 2).array ⟨0, 2, false⟩ := makeTaken_tagged (by omega)
    simp only [Block.Tagged, Block.stop, Block.tag, Bool.false_eq_true, ↓reduceIte] at this
    rcases hk with rfl | rfl
    · exact this.1
    · simpa using this.2
  have ha₂ : AvailList h₂ [2] :=
    makeAvail_availList (by omega) ha₁ List.Pairwise.nil (by simp) (by simp)
  have ht₂ : Block.Tagged h₂.array ⟨2, n - 4, true⟩ :=
    makeAvail_tagged (by omega) ha₁ (by simp)
  have hframe₂ : ∀ k, k = 0 ∨ k = 1 → h₂.array k = h₁.array k := fun k hk =>
    makeAvail_frame (by omega) ha₁ (by omega) (by omega) (by omega) (by omega) (by simp)
  have hframe₃ : ∀ k, k < n - 2 → (h₂.makeTaken (n - 2) 2).array k = h₂.array k := fun k hk =>
    makeTaken_frame (by omega) (by omega) (by omega)
  have hlen₃ : (h₂.makeTaken (n - 2) 2).len = n := by
    simp [h₂, h₁, h₀]
  have ht₃ : Block.Tagged (h₂.makeTaken (n - 2) 2).array ⟨n - 2, 2, false⟩ :=
    makeTaken_tagged (by omega)
  simp only [Block.Tagged, Block.stop, Block.tag, Bool.false_eq_true, ↓reduceIte] at ht₃
  have htiles : Tiles 2 (n - 2) [⟨2, n - 4, true⟩] :=
    ⟨rfl, by dsimp only; omega, by simp only [Tiles, Block.stop]; omega⟩
  rw [hinit]
  exact {
    front := by
      rw [hframe₃ 0 (by omega), hframe₃ 1 (by omega), hframe₂ 0 (by omega), hframe₂ 1 (by omega)]
      exact ⟨hfront 0 (Or.inl rfl), hfront 1 (Or.inr rfl)⟩
    back := by
      rw [hlen₃]
      refine ⟨ht₃.1, ?_⟩
      have := ht₃.2
      rwa [show n - 2 + 2 - 1 = n - 1 by omega] at this
    layout := by
      rw [hlen₃]
      exact htiles.layout
    tagged := by
      intro b hb
      rw [List.mem_singleton] at hb
      subst hb
      refine ht₂.congr (hframe₃ _ ?_) (hframe₃ _ ?_)
      · dsimp only; omega
      · simp only [Block.stop]; omega
    head := ha₂.head
    linked := by
      refine ha₂.linked.congr fun y hy => ?_
      rw [List.mem_singleton] at hy
      subst hy
      exact ⟨hframe₃ _ (by omega), hframe₃ _ (by omega)⟩
    tiles := by
      rw [hlen₃]
      exact htiles
    exactly := List.Perm.refl _
    settled := by simp [Settled] }

/-- What one call does: it returns, it keeps the invariant, and every taken block but the
released one is still taken with all its words. -/
def Session.Advances (base : ℕ) (len : ℤ) (s : Session) (bs : List Block) (c : Call) : Prop :=
  ∃ t bs' fl', s.step c = .ok t ∧ t.Inv base len bs' fl' ∧
    ∀ b ∈ takenBlocks bs, c ≠ .free (s.heap.pointer b) →
      b ∈ takenBlocks bs' ∧ Untouched s.heap t.heap b

section Step
variable {base : ℕ} {len : ℤ} {s : Session} {bs : List Block} {fl : List ℤ}

theorem pointer_pos (h : Heap) {b : Block} (hb : 0 ≤ b.start) : h.base < h.pointer b := by
  unfold pointer addressOf
  omega

theorem Session.Inv.start_nonneg (hi : s.Inv base len bs fl) {b : Block} (hb : b ∈ bs) :
    0 ≤ b.start := by
  have := (tiles_mem hi.wf.tiles hb).1
  omega

theorem Session.Inv.stay (hi : s.Inv base len bs fl) {c : Call} (hstep : s.step c = .ok s) :
    s.Advances base len bs c :=
  ⟨s, bs, fl, hstep, hi, fun _ hb _ => ⟨hb, fun _ _ _ => rfl⟩⟩

theorem Session.Inv.carve {L R : List Block} {b : Block} (hi : s.Inv base len (L ++ b :: R) fl)
    (hbf : b.free = true) {ints : ℤ} (h4 : 4 ≤ ints) (hfit : ints ≤ b.size) :
    Session.Inv base len ⟨s.heap.carve ints b.size b.start, s.heap.pointer b :: s.live⟩
      (L ++ carved b ints ++ R) (carvedList fl b ints) ∧
    ∀ c ∈ takenBlocks (L ++ b :: R), c ∈ takenBlocks (L ++ carved b ints ++ R) ∧
      Untouched s.heap (s.heap.carve ints b.size b.start) c := by
  obtain ⟨hw, hkeep⟩ := carve_spec hi.wf hbf h4 hfit
  have hptr : (s.heap.carve ints b.size b.start).pointer = s.heap.pointer :=
    pointer_congr (carve_base ..)
  have htaken : takenBlocks (L ++ b :: R) = takenBlocks L ++ takenBlocks R := by
    rw [takenBlocks_append, takenBlocks_cons, if_pos hbf]
  have htaken' : takenBlocks (L ++ carved b ints ++ R) = takenBlocks L ++
      [⟨b.start, carvedSize b ints, false⟩] ++ takenBlocks R := by
    rw [takenBlocks_append, takenBlocks_append, takenBlocks_carved]
  refine ⟨⟨(carve_base ..).trans hi.base_eq, (carve_len ..).trans hi.len_eq, hw, ?_⟩,
    fun c hc => ⟨?_, ?_⟩⟩
  · have hl := hi.live
    rw [htaken] at hl
    rw [htaken', hptr]
    simp only [List.map_append, List.map_cons, List.append_assoc,
      List.singleton_append] at hl ⊢
    exact (hl.cons _).trans List.perm_middle.symm
  · rw [htaken] at hc
    rw [htaken', List.append_assoc, List.mem_append]
    rcases List.mem_append.mp hc with hc | hc
    · exact Or.inl hc
    · exact Or.inr (List.mem_append_right _ hc)
  · rw [htaken, ← takenBlocks_append] at hc
    obtain ⟨hc, hcf⟩ := mem_takenBlocks.mp hc
    exact hkeep c hc hcf

theorem Session.Inv.malloc (hi : s.Inv base len bs fl) (bytes : UInt32) :
    s.Advances base len bs (.malloc bytes) := by
  by_cases hz : bytes = 0
  · exact hi.stay (by simp [Session.step, Heap.malloc, hz])
  · obtain ⟨mx, it, hsearch, hit⟩ := search_spec hi.wf (intsOf bytes)
    rcases hit with rfl | ⟨b, hb, hbf, rfl, rfl, hfit⟩
    · exact hi.stay (by simp [Session.step, Heap.malloc, hz, hsearch])
    · have hb0 := hi.start_nonneg hb
      have hb2 := (tiles_mem hi.wf.tiles hb).1
      obtain ⟨L, R, rfl⟩ := List.append_of_mem hb
      obtain ⟨hi', hkeep⟩ := hi.carve hbf (four_le_intsOf bytes) hfit
      have hp0 : s.heap.pointer b ≠ 0 := by
        have := pointer_pos s.heap hb0
        omega
      refine ⟨_, _, _, ?_, hi', fun c hc _ => hkeep c hc⟩
      have hne : b.start ≠ 0 := by omega
      simp only [Session.step, Heap.malloc, hz, hsearch, hne, ↓reduceIte, ne_eq,
        not_false_eq_true, false_or]
      simp only [pointer] at hp0 ⊢
      simp [hp0]

theorem Session.Inv.notMem_live (hi : s.Inv base len bs fl) {p : ℕ} (hp : p ≤ s.heap.base) :
    p ∉ s.live := by
  intro hm
  obtain ⟨b, hb, rfl⟩ := List.mem_map.mp (hi.live.mem_iff.mp hm)
  have := pointer_pos s.heap (hi.start_nonneg (mem_takenBlocks.mp hb).1)
  omega

theorem Session.Inv.step_free (hi : s.Inv base len bs fl) {b : Block} (hb : b ∈ bs)
    (hbf : b.free = false) : s.step (.free (s.heap.pointer b)) =
      .ok ⟨s.heap.release b.start, s.live.erase (s.heap.pointer b)⟩ := by
  have hb0 := hi.start_nonneg hb
  have hpos := pointer_pos s.heap hb0
  have hidx : sanity (((s.heap.pointer b - s.heap.base) / 4 : ℕ) - 1 : ℤ) = b.start :=
    indexOf_pointer s.heap hb0
  have hfree : s.heap.free (s.heap.pointer b) = .ok (s.heap.release b.start) := by
    simp only [Heap.free, hidx, hi.wf.isTaken_start hb, hbf, show s.heap.pointer b ≠ 0 by omega,
      show s.heap.pointer b ≠ s.heap.base by omega, ↓reduceIte, Bool.not_false, Bool.not_true,
      Bool.false_eq_true]
  simp only [Session.step, hfree]

theorem Session.Inv.step_null (hi : s.Inv base len bs fl) {p : ℕ} (hp : p = 0 ∨ p = s.heap.base) :
    s.step (.free p) = .ok s := by
  have hfree : s.heap.free p = .ok s.heap := by
    rcases hp with rfl | rfl
    · simp [Heap.free]
    · simp [Heap.free]
  have herase : s.live.erase p = s.live :=
    List.erase_of_not_mem (hi.notMem_live (by omega))
  simp only [Session.step, hfree, herase]

theorem Session.Inv.release {L R : List Block} {b : Block} (hi : s.Inv base len (L ++ b :: R) fl)
    (hbf : b.free = false) : ∃ bs' fl',
      Session.Inv base len ⟨s.heap.release b.start, s.live.erase (s.heap.pointer b)⟩ bs' fl' ∧
      takenBlocks bs' = takenBlocks L ++ takenBlocks R ∧
      ∀ c ∈ takenBlocks (L ++ b :: R), c ≠ b →
        c ∈ takenBlocks bs' ∧ Untouched s.heap (s.heap.release b.start) c := by
  obtain ⟨bs', fl', hw, ht, hkeep⟩ := release_spec hi.wf hbf
  have hptr : (s.heap.release b.start).pointer = s.heap.pointer := pointer_congr (release_base _ _)
  have htaken : takenBlocks (L ++ b :: R) = takenBlocks L ++ b :: takenBlocks R := by
    rw [takenBlocks_append, takenBlocks_cons, hbf]
    rfl
  refine ⟨bs', fl', ⟨(release_base _ _).trans hi.base_eq, (release_len _ _).trans hi.len_eq, hw, ?_⟩,
    ht, fun c hc hcb => ?_⟩
  · have hl := hi.live
    rw [htaken, List.map_append, List.map_cons] at hl
    have := (hl.trans List.perm_middle).erase (s.heap.pointer b)
    rw [List.erase_cons_head] at this
    rw [ht, hptr, List.map_append]
    exact this
  · have hc' : c ∈ takenBlocks L ++ takenBlocks R := by
      rw [htaken] at hc
      simp only [List.mem_append, List.mem_cons] at hc ⊢
      tauto
    refine ⟨ht ▸ hc', ?_⟩
    rw [← takenBlocks_append] at hc'
    obtain ⟨hc, hcf⟩ := mem_takenBlocks.mp hc'
    exact hkeep c hc hcf

theorem Session.Inv.free (hi : s.Inv base len bs fl) {p : ℕ}
    (hp : p ∈ s.live ∨ p = 0 ∨ p = s.heap.base) : s.Advances base len bs (.free p) := by
  rcases hp with hp | hp
  · obtain ⟨b, hb, rfl⟩ := List.mem_map.mp (hi.live.mem_iff.mp hp)
    obtain ⟨hbm, hbf⟩ := mem_takenBlocks.mp hb
    have hstep := hi.step_free hbm hbf
    obtain ⟨L, R, rfl⟩ := List.append_of_mem hbm
    obtain ⟨bs', fl', hi', -, hkeep⟩ := hi.release hbf
    exact ⟨_, bs', fl', hstep, hi', fun c hc hne => hkeep c hc fun h => hne (by rw [h])⟩
  · exact hi.stay (hi.step_null hp)

theorem Session.Inv.advances (hi : s.Inv base len bs fl) {c : Call} (hc : s.Allowed c) :
    s.Advances base len bs c := by
  cases c with
  | malloc bytes => exact hi.malloc bytes
  | free p => exact hi.free hc

end Step

theorem sessions_inductive (base : ℕ) (bytes : UInt32) (memory : ℤ → ℤ)
    (hlen : 8 ≤ (bytes / 4).toNat) :
    (sessions base bytes memory).Inductive fun s =>
      ∃ bs fl, s.Inv base ((bytes / 4).toNat : ℤ) bs fl where
  init := by
    rintro s rfl
    exact ⟨_, _, ⟨by simp [makeBlocks], by simp [makeBlocks], makeBlocks_wellFormed base bytes memory hlen,
      List.Perm.refl _⟩⟩
  step := by
    rintro s c t ⟨bs, fl, hi⟩ ⟨hc, hstep⟩
    obtain ⟨t', bs', fl', hstep', hi', -⟩ := hi.advances hc
    rw [hstep] at hstep'
    cases hstep'
    exact ⟨bs', fl', hi'⟩

theorem settled_all_free {bs : List Block} (hs : Settled bs) (ht : takenBlocks bs = []) {lo hi : ℤ}
    (htl : Tiles lo hi bs) (hlt : lo < hi) : bs = [⟨lo, hi - lo, true⟩] := by
  have hfree : ∀ b ∈ bs, b.free = true := by
    intro b hb
    by_contra hbf
    have := mem_takenBlocks.mpr ⟨hb, Bool.eq_false_iff.mpr hbf⟩
    rw [ht] at this
    exact absurd this (by simp)
  match bs, htl with
  | [], htl => exact absurd htl hlt.ne
  | [b], htl =>
    obtain ⟨h₁, -, h₂⟩ := htl
    have h₂ : b.stop = hi := h₂
    have h₃ := hfree b (by simp)
    obtain ⟨st, sz, fr⟩ := b
    simp only [Block.stop] at h₁ h₂ h₃
    subst h₁ h₃
    simp only [List.cons.injEq, Block.mk.injEq, and_true, true_and]
    omega
  | b :: c :: rest, _ =>
    exact absurd ⟨hfree b (by simp), hfree c (by simp)⟩ ((settled_cons.mp hs).1 c (by simp))

/-- The heap invariant over every sequence of calls. In each reachable session the blocks
tile the heap between the sentinels, the list from `avail` holds exactly the free blocks,
no two neighbours are free, and the live pointers are those of the taken blocks. Every
call the kernel may make returns, and leaves the payload of every other live block, and
that block's size, as they were. Once nothing is live the heap is one free block. -/
theorem heap_invariant (base : ℕ) (bytes : UInt32) (memory : ℤ → ℤ)
    (hlen : 8 ≤ (bytes / 4).toNat) {s : Session}
    (hs : Reachable (sessions base bytes memory) s) :
    (∃ bs fl, s.heap.WellFormed bs fl ∧ fl.Nodup ∧
      s.heap.len = ((bytes / 4).toNat : ℤ) ∧
      s.live.Perm ((takenBlocks bs).map s.heap.pointer)) ∧
    (∀ c, s.Allowed c → ∃ t, s.step c = .ok t ∧ ∀ p ∈ s.live, c ≠ .free p →
      p ∈ t.live ∧ t.heap.size (t.heap.indexOf p) = s.heap.size (s.heap.indexOf p) ∧
      ∀ k, s.heap.InPayload p k → t.heap.array k = s.heap.array k) ∧
    (s.live = [] →
      s.heap.WellFormed [⟨2, ((bytes / 4).toNat : ℤ) - 4, true⟩] [2]) := by
  obtain ⟨bs, fl, hi⟩ := hs.invariant (sessions_inductive base bytes memory hlen)
  refine ⟨⟨bs, fl, hi.wf, ?_, hi.len_eq, hi.live⟩, fun c hc => ?_, fun hl => ?_⟩
  · exact hi.wf.exactly.nodup_iff.mpr (spread_startsOf hi.wf.tiles true).nodup
  · obtain ⟨t, bs', fl', hstep, hi', hkeep⟩ := hi.advances hc
    refine ⟨t, hstep, fun p hp hne => ?_⟩
    obtain ⟨b, hb, rfl⟩ := List.mem_map.mp (hi.live.mem_iff.mp hp)
    obtain ⟨hb', hu⟩ := hkeep b hb hne
    have hbm := (mem_takenBlocks.mp hb).1
    have hbm' := (mem_takenBlocks.mp hb').1
    have h0 := hi.start_nonneg hbm
    have hptr : t.heap.pointer b = s.heap.pointer b := by
      rw [pointer_congr (hi'.base_eq.trans hi.base_eq.symm)]
    have hidx : t.heap.indexOf (s.heap.pointer b) = b.start := by
      rw [← hptr, indexOf_pointer t.heap h0]
    refine ⟨?_, ?_, fun k hk => ?_⟩
    · exact hi'.live.mem_iff.mpr (List.mem_map.mpr ⟨b, hb', hptr⟩)
    · rw [hidx, indexOf_pointer s.heap h0, hi'.wf.size_start hbm', hi.wf.size_start hbm]
    · simp only [InPayload, indexOf_pointer s.heap h0, hi.wf.size_start hbm] at hk
      exact hu k (by omega) (by simp only [Block.stop]; omega)
  · have hnone : takenBlocks bs = [] := by
      have := hi.live
      rw [hl] at this
      simpa using this.symm.eq_nil
    have hlen' := hi.len_eq
    have hbs := settled_all_free hi.wf.settled hnone hi.wf.tiles (by omega)
    have hfl := hi.wf.exactly
    rw [hbs] at hfl
    have hone : fl = [2] := by simpa [startsOf] using hfl
    have hw := hi.wf
    rw [hbs, hone, hlen'] at hw
    rwa [show ((bytes / 4).toNat : ℤ) - 2 - 2 = ((bytes / 4).toNat : ℤ) - 4 by omega] at hw

def exampleStart : Session := ⟨makeBlocks 0x100000 256 fun _ => 0, []⟩

theorem heap_invariant_coalesced : ∃ s t,
    run Session.next Session.mayCall exampleStart [.malloc 32, .malloc 8, .malloc 20, .malloc 8, .malloc 8,
      .free 0x100034, .free 0x100060] = some s ∧ s.live = [0x100070, 0x100044, 0x10000C] ∧
    (∃ bs fl, s.heap.WellFormed bs fl ∧ fl.Nodup ∧ s.live.Perm ((takenBlocks bs).map s.heap.pointer)) ∧
    run Session.next Session.mayCall s [.free 0x100044, .free 0x100070, .free 0x10000C] = some t ∧
      t.heap.WellFormed [⟨2, 60, true⟩] [2] := by
  obtain ⟨s, hrun, hlive⟩ : ∃ s, run Session.next Session.mayCall exampleStart [.malloc 32, .malloc 8, .malloc 20,
      .malloc 8, .malloc 8, .free 0x100034, .free 0x100060] = some s ∧ s.live = [0x100070, 0x100044, 0x10000C] :=
    Option.map_eq_some_iff.mp (by decide)
  obtain ⟨t, hall, hnone⟩ : ∃ t, run Session.next Session.mayCall exampleStart [.malloc 32, .malloc 8, .malloc 20,
      .malloc 8, .malloc 8, .free 0x100034, .free 0x100060, .free 0x100044, .free 0x100070, .free 0x10000C] = some t ∧
      t.live = [] := Option.map_eq_some_iff.mp (by decide)
  have hrest := run_append hrun [.free 0x100044, .free 0x100070, .free 0x10000C]
  obtain ⟨⟨bs, fl, hw, hnodup, -, hperm⟩, -⟩ :=
    heap_invariant 0x100000 256 (fun _ => 0) (by decide) (sessions_run hrun)
  have hone := (heap_invariant 0x100000 256 (fun _ => 0) (by decide) (sessions_run hall)).2.2 hnone
  exact ⟨s, t, hrun, hlive, ⟨bs, fl, hw, hnodup, hperm⟩, hrest.symm.trans hall, hone⟩

end MMapKernel.Heap
