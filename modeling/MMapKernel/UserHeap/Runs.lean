import MMapKernel.UserHeap.Realloc

/-!
# Programs that use the heap

A session is a heap with the results that a program has got and not released; `malloc(0)` gives the
address of the array, which is no block, any number of times. A block whose `realloc` has returned 0
is kept apart: the program still holds it. Between the calls the program writes bytes to the blocks
it has.
-/

open BoundaryTag Transition
namespace MMapKernel.UserHeap
open Heap (WellFormed Untouched takenBlocks carved carvedSize)

structure Session where
  heap : Heap
  live : List ℕ
  lost : List ℕ

inductive Act where
  | malloc (bytes : UInt32)
  | free (p : ℕ)
  | realloc (p : ℕ) (newSize : UInt32)
  | write (p i : ℕ) (x : UInt8)
deriving DecidableEq

namespace Session

def give (s : Session) (p : ℕ) (h : Heap) : Session :=
  { s with heap := h, live := if p = 0 then s.live else p :: s.live }

def drop (s : Session) (p : ℕ) (h : Heap) : Session where
  heap := h
  live := s.live.erase p
  lost := s.lost.erase p

def lose (s : Session) (p : ℕ) (h : Heap) : Session where
  heap := h
  live := s.live.erase p
  lost := p :: s.lost

def step (s : Session) : Act → Checked Session
  | .malloc bytes => do
    let (p, h) ← malloc s.heap bytes
    return s.give p h
  | .free p => do return s.drop p (← free s.heap p)
  | .realloc p newSize => do
    let (q, h) ← realloc s.heap p newSize
    return if p = 0 then s.give q h
      else if newSize = 0 then s.drop p h
      else if q = 0 then s.lose p h
      else (s.drop p h).give q h
  | .write p i x => do return { s with heap := ← storeByte s.heap (p + i) x.toNat }

def Holds (s : Session) (p : ℕ) : Prop := p = 0 ∨ p ∈ s.live ∨ p ∈ s.lost

def Allowed (s : Session) : Act → Prop
  | .malloc _ => True
  | .free p => s.Holds p
  | .realloc p _ => s.Holds p
  | .write p i _ => p ∈ s.live ∧ p ≠ s.heap.base ∧ i < payload s.heap p

/-- The calls that reach none of three defects of `realloc`: it releases a block although it returns
0, it takes the result of `malloc(0)` for a block, and for the three largest sizes it copies more
than the new block has room for. -/
def Sound (s : Session) : Act → Prop
  | .free p => p = 0 ∨ p ∈ s.live
  | .realloc p newSize => p = 0 ∨
      p ∈ s.live ∧ newSize.toNat ≤ 0xFFFFFFFC ∧ (p = s.heap.base → newSize = 0)
  | _ => True

def blocks (s : Session) : Heap.Session := ⟨s.heap, s.live.filter fun p => p ≠ s.heap.base⟩

@[simp] theorem blocks_heap (s : Session) : s.blocks.heap = s.heap := rfl

end Session

def sessions (base : ℕ) : System Session Act where
  init s := heapInit base = .ok s.heap ∧ s.live = [] ∧ s.lost = []
  step s a t := s.Allowed a ∧ s.step a = .ok t

theorem heapInit_ok (base : ℕ) : heapInit base = .ok (Heap.makeBlocks base 0x400000 fun _ => 0) := by
  have hints : (ints : ℤ) = 1048576 := rfl
  unfold heapInit
  dsimp only
  rw [makeTaken_ok le_rfl (by omega) (by dsimp only; omega), ok_bind, Heap.makeTaken_len,
    makeAvail_ok (by omega) (by dsimp only; omega) (by
      rw [Heap.makeTaken_len]
      dsimp only
      omega) (.inl rfl),
    ok_bind, Heap.makeAvail_len, Heap.makeTaken_len,
    makeTaken_ok (by dsimp only; omega) (by omega) (by
      rw [Heap.makeAvail_len, Heap.makeTaken_len]
      dsimp only
      omega)]
  rfl

section
variable {base : ℕ} {s : Session} {bs : List Block} {fl : List ℤ} {p : ℕ} {b : Block}

theorem pointer_ne_base (hi : s.blocks.Inv base ints bs fl) (hb : b ∈ bs) :
    s.heap.pointer b ≠ 0 ∧ s.heap.pointer b ≠ s.heap.base := by
  have hpos := (index_pointer hi.wf hb).2
  change s.heap.base < s.heap.pointer b at hpos
  omega

theorem block_of_live (hi : s.blocks.Inv base ints bs fl) (hp : p ∈ s.live) (hpb : p ≠ s.heap.base) :
    ∃ b ∈ bs, b.free = false ∧ s.heap.pointer b = p := by
  obtain ⟨b, hb, hbf, hbp, -⟩ := hi.block_of_live (p := p) (List.mem_filter.mpr ⟨hp, by simpa using hpb⟩)
  exact ⟨b, hb, hbf, hbp⟩

theorem blocks_give (s : Session) {h : Heap} (hbase : h.base = s.heap.base) (p : ℕ) :
    (s.give p h).blocks =
      ⟨h, if p = 0 ∨ p = s.heap.base then s.blocks.live else p :: s.blocks.live⟩ := by
  by_cases hz : p = 0
  · simp [Session.blocks, Session.give, hz, hbase]
  · by_cases hb : p = s.heap.base
    · have hz' : s.heap.base ≠ 0 := hb ▸ hz
      simp [Session.blocks, Session.give, hb, hz', hbase]
    · simp [Session.blocks, Session.give, hz, hb, hbase]

theorem blocks_drop (s : Session) {h : Heap} (hbase : h.base = s.heap.base) (p : ℕ) :
    (s.drop p h).blocks = ⟨h, s.blocks.live.erase p⟩ := by
  simp only [Session.blocks, Session.drop, hbase, List.erase_filter]

theorem blocks_replace (s : Session) {h : Heap} (hbase : h.base = s.heap.base) {q : ℕ} (hq : q ≠ 0)
    (hqb : q ≠ s.heap.base) :
    ((s.drop p h).give q h).blocks = ⟨h, q :: s.blocks.live.erase p⟩ := by
  have hne : ¬(q = 0 ∨ q = (s.drop p h).heap.base) := not_or.mpr ⟨hq, fun he => hqb (he.trans hbase)⟩
  rw [blocks_give (s.drop p h) (h := h) rfl q, if_neg hne, blocks_drop s hbase]

theorem malloc_inv (hi : s.blocks.Inv base ints bs fl) (bytes : UInt32) :
    ∃ p h, malloc s.heap bytes = .ok (p, h) ∧ h.base = s.heap.base ∧
      ∃ bs' fl', (s.give p h).blocks.Inv base ints bs' fl' := by
  by_cases hz : bytes = 0
  · refine ⟨s.heap.base, s.heap, by simp [malloc, hz], rfl, bs, fl, ?_⟩
    rw [blocks_give s rfl, if_pos (.inr rfl)]
    exact hi
  · rcases malloc_cases hi.wf hz with ⟨-, hm⟩ | ⟨L, b, R, rfl, hbf, hfit, hm⟩
    · refine ⟨0, s.heap, hm, rfl, bs, fl, ?_⟩
      rw [blocks_give s rfl, if_pos (.inl rfl)]
      exact hi
    · obtain ⟨hne, hneb⟩ := pointer_ne_base hi (b := b) (by simp)
      refine ⟨_, _, hm, Heap.carve_base .., L ++ carved b (Heap.intsOf bytes) ++ R,
        Heap.carvedList fl b (Heap.intsOf bytes), ?_⟩
      rw [Session.blocks_heap, blocks_give s (Heap.carve_base ..), if_neg (not_or.mpr ⟨hne, hneb⟩)]
      exact (hi.carve hbf (Heap.four_le_intsOf bytes) hfit).1

theorem free_inv (hi : s.blocks.Inv base ints bs fl) (hp : p = 0 ∨ p ∈ s.live) :
    ∃ h, free s.heap p = .ok h ∧ h.base = s.heap.base ∧
      ∃ bs' fl', (s.drop p h).blocks.Inv base ints bs' fl' := by
  by_cases hnull : p = 0 ∨ p = s.heap.base
  · refine ⟨s.heap, free_null hnull, rfl, bs, fl, ?_⟩
    have hout : p ∉ s.blocks.live := hi.notMem_live (by change p ≤ s.heap.base; omega)
    rw [blocks_drop s rfl, List.erase_of_not_mem hout]
    exact hi
  · rw [not_or] at hnull
    obtain ⟨b, hb, hbf, rfl⟩ := block_of_live hi (hp.resolve_left hnull.1) hnull.2
    obtain ⟨L, R, rfl⟩ := List.append_of_mem hb
    obtain ⟨bs', fl', hi', -⟩ := hi.release hbf
    refine ⟨_, free_block hi.wf hbf, Heap.release_base .., bs', fl', ?_⟩
    rw [blocks_drop s (Heap.release_base ..)]
    exact hi'

/-- What a `realloc` that returns a block has done with the old one and all others. -/
structure Moves (s : Session) (p : ℕ) (n : UInt32) (q : ℕ) (h : Heap) : Prop where
  data : ∀ i < min n.toNat (payload s.heap p), byte h (q + i) = byte s.heap (p + i)
  room : n.toNat ≤ payload h q
  others : ∀ r ∈ s.live, r ≠ p → r ≠ s.heap.base → payload h r = payload s.heap r ∧
    ∀ i < payload s.heap r, byte h (r + i) = byte s.heap (r + i)
  wellFormed : ∃ bs fl, WellFormed h bs fl ∧
    ((q :: s.live.erase p).filter fun r => r ≠ s.heap.base).Perm ((takenBlocks bs).map h.pointer) ∧
    ∃ f ∈ bs, f.free = true ∧ f.start ≤ s.heap.indexOf p ∧
      s.heap.indexOf p + s.heap.size (s.heap.indexOf p) ≤ f.stop

theorem release_covered {S : Heap.Session} {L R : List Block} {len : ℤ}
    (hi : S.Inv base len (L ++ b :: R) fl) {S' : Heap.Session} {bs' : List Block} {fl' : List ℤ}
    (hi' : S'.Inv base len bs' fl') (ht : takenBlocks bs' = takenBlocks L ++ takenBlocks R) :
    ∃ f ∈ bs', f.free = true ∧ f.start ≤ b.start ∧ b.stop ≤ f.stop := by
  obtain ⟨hL, h4, hR⟩ := tiles_middle.mp hi.wf.tiles
  have hin := tiles_mem hi.wf.tiles (b := b) (by simp)
  have hlen : S'.heap.len = S.heap.len := hi'.len_eq.trans hi.len_eq.symm
  refine Heap.settled_covers hi'.wf.tiles hi'.wf.settled hin.1 (by simp only [Block.stop]; omega)
    (by rw [hlen]; exact hin.2.2) fun c hc => ?_
  rw [ht] at hc
  rcases List.mem_append.mp hc with hc | hc
  · exact .inl (tiles_mem hL (Heap.mem_takenBlocks.mp hc).1).2.2
  · exact .inr (tiles_mem hR (Heap.mem_takenBlocks.mp hc).1).1

theorem moved_inv {L R : List Block} {c : Block} {n : UInt32} {S : Heap.Session}
    (hi : S.Inv base ints (L ++ c :: R) fl) (hcf : c.free = true) (hb : b ∈ L ++ c :: R)
    (hbf : b.free = false) (hr : n.toNat ≤ 0xFFFFFFFC) (hfit : Heap.intsOf n ≤ c.size) :
    Heap.Session.Inv base ints ⟨moved S.heap b c n, S.heap.pointer c :: S.live⟩
      (L ++ carved c (Heap.intsOf n) ++ R) (Heap.carvedList fl c (Heap.intsOf n)) := by
  have hcarve := (hi.carve hcf (Heap.four_le_intsOf n) hfit).1
  have hptr : (moved S.heap b c n).pointer = (S.heap.carve (Heap.intsOf n) c.size c.start).pointer :=
    Heap.pointer_congr (by simp)
  refine ⟨(moved_base ..).trans hi.base_eq, (moved_len ..).trans hi.len_eq,
    (moved_spec hi.wf hcf hb hbf hr hfit).1, ?_⟩
  rw [hptr]
  exact hcarve.live

theorem released_inv {L R : List Block} {c : Block} {n : UInt32} {S : Heap.Session}
    (hi : S.Inv base ints (L ++ c :: R) fl) (hcf : c.free = true) (hb : b ∈ L ++ c :: R)
    (hbf : b.free = false) (hr : n.toNat ≤ 0xFFFFFFFC) (hfit : Heap.intsOf n ≤ c.size) :
    ∃ bs' fl', Heap.Session.Inv base ints ⟨(moved S.heap b c n).release b.start,
        S.heap.pointer c :: S.live.erase (S.heap.pointer b)⟩ bs' fl' ∧
      (∃ f ∈ bs', f.free = true ∧ f.start ≤ b.start ∧ b.stop ≤ f.stop) ∧
      ∀ d ∈ L ++ carved c (Heap.intsOf n) ++ R, d.free = false → d ≠ b →
        d ∈ bs' ∧ Untouched (moved S.heap b c n) ((moved S.heap b c n).release b.start) d := by
  have hi₂ := moved_inv hi hcf hb hbf hr hfit
  obtain ⟨L', R', hbs⟩ := List.append_of_mem (old_mem hcf hb hbf (Heap.intsOf n)).2
  rw [hbs] at hi₂ ⊢
  obtain ⟨bs', fl', hi', ht, hkeep⟩ := hi₂.release hbf
  have hcb : S.heap.pointer c ≠ S.heap.pointer b :=
    pointer_ne hi.wf (by simp) hb (Heap.ne_of_taken hbf hcf).symm
  have hlive : (S.heap.pointer c :: S.live).erase (S.heap.pointer b) =
      S.heap.pointer c :: S.live.erase (S.heap.pointer b) := List.erase_cons_tail (by simpa using hcb)
  refine ⟨bs', fl', ?_, release_covered hi₂ hi' ht, fun d hd hdf hdb => ?_⟩
  · rw [← hlive, ← congrFun (Heap.pointer_congr (moved_base S.heap b c n)) b]
    exact hi'
  · obtain ⟨hd', hu⟩ := hkeep d (Heap.mem_takenBlocks.mpr ⟨hd, hdf⟩) hdb
    exact ⟨(Heap.mem_takenBlocks.mp hd').1, hu⟩

theorem realloc_inv (hi : s.blocks.Inv base ints bs fl) (hp : p ∈ s.live) (hpb : p ≠ s.heap.base)
    {n : UInt32} (hn : n ≠ 0) (hr : n.toNat ≤ 0xFFFFFFFC) :
    (∃ h, realloc s.heap p n = .ok (0, h) ∧ h.base = s.heap.base ∧
      ∃ bs' fl', (s.drop p h).blocks.Inv base ints bs' fl') ∨
    ∃ q h, realloc s.heap p n = .ok (q, h) ∧ q ≠ 0 ∧ Moves s p n q h ∧
      ∃ bs' fl', ((s.drop p h).give q h).blocks.Inv base ints bs' fl' := by
  obtain ⟨b, hb, hbf, rfl⟩ := block_of_live hi hp hpb
  have hw : WellFormed s.heap bs fl := hi.wf
  rcases realloc_cases hw hb hbf hn hr with ⟨-, hres⟩ | ⟨L, c, R, rfl, hcf, hfit, hres⟩
  · obtain ⟨L, R, rfl⟩ := List.append_of_mem hb
    obtain ⟨bs', fl', hi', -⟩ := hi.release hbf
    refine .inl ⟨_, hres, Heap.release_base .., bs', fl', ?_⟩
    rw [blocks_drop s (Heap.release_base ..)]
    exact hi'
  · obtain ⟨bs', fl', hi', ⟨f, hf, hff, hlo, hhi⟩, hstay⟩ := released_inv hi hcf hb hbf hr hfit
    obtain ⟨-, -, hkeep⟩ := moved_spec hw hcf hb hbf hr hfit
    have hbase : ((moved s.heap b c n).release b.start).base = s.heap.base := by simp
    obtain ⟨hq, hqb⟩ := pointer_ne_base hi (b := c) (by simp)
    refine .inr ⟨s.heap.pointer c, _, hres, hq, ?_, bs', fl', ?_⟩
    · obtain ⟨hmem, hu⟩ := hstay _ (served_mem c _) rfl
        (served_ne hw hcf hb hbf (Heap.four_le_intsOf n) hfit)
      obtain ⟨hroom, hdata⟩ := served_bytes hw hcf hb hbf hr hfit hi'.wf hmem hbase hu
      refine ⟨hdata, hroom, fun r hr hrb hr0 => ?_, bs', fl', hi'.wf, ?_, f, hf, hff, ?_⟩
      · obtain ⟨d, hd, hdf, rfl⟩ := block_of_live hi hr hr0
        have hdb : d ≠ b := fun he => hrb (by rw [he])
        obtain ⟨hdLR, hd₂⟩ := old_mem hcf hd hdf (Heap.intsOf n)
        obtain ⟨hd', hu⟩ := hstay d hd₂ hdf hdb
        exact kept_bytes hw hi'.wf hd hd' hbase ((hkeep d hdLR hdf).trans hu)
      · have hperm := hi'.live
        simp only [Session.blocks, List.erase_filter] at hperm
        rw [List.filter_cons_of_pos (by simpa using hqb)]
        exact hperm
      · have hidx := Heap.indexOf_pointer s.heap (b := b) (hi.start_nonneg hb)
        rw [hidx, hw.size_start hb]
        exact ⟨hlo, hhi⟩
    · rw [blocks_replace s hbase hq hqb]
      exact hi'

theorem realloc_zero (h : Heap) (hp : p ≠ 0) :
    realloc h p 0 = free h p >>= fun g => .ok (0, g) := by
  rw [realloc, if_neg hp, if_pos rfl]
  rfl

theorem write_inv (hi : s.blocks.Inv base ints bs fl) {i : ℕ} (x : UInt8)
    (ha : s.Allowed (.write p i x)) : ∃ h, storeByte s.heap (p + i) x.toNat = .ok h ∧
      ∃ bs' fl', Session.blocks { s with heap := h } |>.Inv base ints bs' fl' := by
  obtain ⟨hp, hpb, hlt⟩ := ha
  obtain ⟨b, hb, hbf, rfl⟩ := block_of_live hi hp hpb
  have hw : WellFormed s.heap bs fl := hi.wf
  have hin := tiles_mem hw.tiles hb
  rw [payload_pointer hw hb] at hlt
  have hword := wordOf_pointer (g := s.heap) (h := s.heap) (b := b) rfl (by omega) i
  simp only [Block.stop] at hin
  refine ⟨_, storeByte_ok ⟨by omega, by omega⟩ _, bs, fl, hi.base_eq, hi.len_eq, ?_, hi.live⟩
  exact hw.store hb hbf (by omega) (by simp only [Block.stop]; omega) _

theorem step_inv (hi : s.blocks.Inv base ints bs fl) {a : Act} (ha : s.Allowed a) (hs : s.Sound a) :
    ∃ t, s.step a = .ok t ∧ ∃ bs' fl', t.blocks.Inv base ints bs' fl' := by
  cases a with
  | malloc bytes =>
    obtain ⟨p, h, hm, -, hi'⟩ := malloc_inv hi bytes
    exact ⟨s.give p h, by simp [Session.step, hm], hi'⟩
  | free p =>
    obtain ⟨h, hf, -, hi'⟩ := free_inv hi hs
    exact ⟨s.drop p h, by simp [Session.step, hf], hi'⟩
  | realloc p n =>
    by_cases hp0 : p = 0
    · obtain ⟨q, h, hm, -, hi'⟩ := malloc_inv hi n
      exact ⟨s.give q h, by simp [Session.step, realloc, hp0, hm], hi'⟩
    · obtain ⟨hp, hr, hzero⟩ := hs.resolve_left hp0
      by_cases hn : n = 0
      · obtain ⟨h, hf, -, hi'⟩ := free_inv hi (.inr hp)
        exact ⟨s.drop p h, by simp [Session.step, hn, realloc_zero s.heap hp0, hf, hp0], hi'⟩
      · rcases realloc_inv hi hp (fun hpb => hn (hzero hpb)) hn hr with
          ⟨h, hres, -, hi'⟩ | ⟨q, h, hres, hq, -, hi'⟩
        · exact ⟨s.lose p h, by simp [Session.step, hres, hp0, hn], hi'⟩
        · exact ⟨(s.drop p h).give q h, by simp [Session.step, hres, hp0, hn, hq], hi'⟩
  | write p i x =>
    obtain ⟨h, hst, hi'⟩ := write_inv hi x ha
    exact ⟨{ s with heap := h }, by simp [Session.step, hst], hi'⟩

end

theorem sessions_inductive (base : ℕ) : ((sessions base).restrict Session.Sound).Inductive fun s =>
    ∃ bs fl, s.blocks.Inv base ints bs fl where
  init := by
    rintro s ⟨hheap, hlive, -⟩
    rw [heapInit_ok] at hheap
    have hheap : s.heap = Heap.makeBlocks base 0x400000 fun _ => 0 := (Except.ok.inj hheap).symm
    have hwf := Heap.makeBlocks_wellFormed base 0x400000 (fun _ => 0) (by decide)
    refine ⟨_, _, ?_, ?_, hheap ▸ hwf, ?_⟩
    · rw [Session.blocks_heap, hheap]
      simp [Heap.makeBlocks]
    · rw [Session.blocks_heap, hheap]
      simp [Heap.makeBlocks, ints]
    · simp [Session.blocks, hlive, takenBlocks]
  step := by
    rintro s a t ⟨bs, fl, hi⟩ ⟨hs, ha, hstep⟩
    obtain ⟨t', hstep', hi'⟩ := step_inv hi ha hs
    rw [hstep] at hstep'
    cases hstep'
    exact hi'

def start (base : ℕ) : Session := ⟨Heap.makeBlocks base 0x400000 fun _ => 0, [], []⟩

def tryStep (s : Session) (a : Act) : Option Session := (s.step a).toOption

instance decidableHolds (s : Session) (p : ℕ) : Decidable (s.Holds p) :=
  inferInstanceAs (Decidable (p = 0 ∨ p ∈ s.live ∨ p ∈ s.lost))

instance decidableAllowed (s : Session) : (a : Act) → Decidable (s.Allowed a)
  | .malloc _ => inferInstanceAs (Decidable True)
  | .free p => inferInstanceAs (Decidable (s.Holds p))
  | .realloc p _ => inferInstanceAs (Decidable (s.Holds p))
  | .write p i _ => inferInstanceAs (Decidable (p ∈ s.live ∧ p ≠ s.heap.base ∧ i < payload s.heap p))

instance decidableSound (s : Session) : (a : Act) → Decidable (s.Sound a)
  | .malloc _ => inferInstanceAs (Decidable True)
  | .free p => inferInstanceAs (Decidable (p = 0 ∨ p ∈ s.live))
  | .realloc p n => inferInstanceAs (Decidable (p = 0 ∨
      p ∈ s.live ∧ n.toNat ≤ 0xFFFFFFFC ∧ (p = s.heap.base → n = 0)))
  | .write _ _ _ => inferInstanceAs (Decidable True)

theorem toOption_some {α : Type} {x : Checked α} {a : α} (h : x.toOption = some a) : x = .ok a := by
  cases x with
  | error e => cases h
  | ok b => rw [Option.some.inj h]

def allowedRun (base : ℕ) (as : List Act) : Option Session :=
  run tryStep (fun s a => decide (s.Allowed a)) (start base) as

def soundRun (base : ℕ) (as : List Act) : Option Session :=
  run tryStep (fun s a => decide (s.Allowed a ∧ s.Sound a)) (start base) as

theorem allowedRun_reachable {base : ℕ} {as : List Act} {s : Session} (h : allowedRun base as = some s) :
    Reachable (sessions base) s :=
  run_reachable (S := sessions base)
    (fun _ _ _ ha hst => ⟨of_decide_eq_true ha, toOption_some hst⟩)
    (.start ⟨heapInit_ok base, rfl, rfl⟩) h

theorem soundRun_reachable {base : ℕ} {as : List Act} {s : Session} (h : soundRun base as = some s) :
    Reachable ((sessions base).restrict Session.Sound) s :=
  run_reachable (S := (sessions base).restrict Session.Sound)
    (fun _ _ _ ha hst => ⟨(of_decide_eq_true ha).2, (of_decide_eq_true ha).1, toOption_some hst⟩)
    (.start ⟨heapInit_ok base, rfl, rfl⟩) h

end MMapKernel.UserHeap
