import MMapKernel.Heap.BestFit

/-!
# What a request gets

The block behind the pointer that `malloc` returns, in every state that the clients of
the heap can bring about: which free block it comes from, what is left of the free
list, and how its payload compares with the bytes asked for.
-/

open BoundaryTag Transition
namespace MMapKernel.Heap

/-- `h'` is `h` after the free block at `x` has served a request for `ints` words. -/
structure Allocates (h h' : Heap) (x ints : ℤ) : Prop where
  taken : h'.isTaken x = true
  split : 4 ≤ h.size x - ints → h'.size x = ints ∧ h'.isAvail (x + ints) = true ∧
    h'.size (x + ints) = h.size x - ints ∧ h'.freeList = (x + ints) :: h.freeList.erase x
  whole : ¬4 ≤ h.size x - ints → h'.size x = h.size x ∧ h'.freeList = h.freeList.erase x
  others : ∀ y ∈ h.freeList, y ≠ x → h'.isAvail y = true ∧ h'.size y = h.size y

/-- The block behind `p` has room for `bytes` bytes, and its payload meets no block of a
live pointer. -/
structure Serves (s : Session) (h' : Heap) (p : ℕ) (bytes : UInt32) : Prop where
  room : (bytes.toNat : ℤ) ≤ 4 * (h'.size (h'.indexOf p) - 2)
  apart : ∀ q ∈ s.live, ∀ k, h'.InPayload p k →
    ¬(h'.indexOf q ≤ k ∧ k < h'.indexOf q + h'.size (h'.indexOf q))

section Carve
variable {h : Heap} {L R : List Block} {fl : List ℤ} {b : Block} {ints : ℤ}

theorem mem_carved_start (b : Block) (ints : ℤ) :
    ⟨b.start, carvedSize b ints, false⟩ ∈ carved b ints := by
  unfold carved carvedSize
  split <;> simp

theorem carved_start_mem (L R : List Block) (b : Block) (ints : ℤ) :
    (⟨b.start, carvedSize b ints, false⟩ : Block) ∈ L ++ carved b ints ++ R :=
  List.mem_append_left _ (List.mem_append_right _ (mem_carved_start b ints))

theorem mem_beside {c : Block} (hc : c ∈ L ++ b :: R) (hcb : c ≠ b) (ints : ℤ) :
    c ∈ L ++ R ∧ c ∈ L ++ carved b ints ++ R := by
  simp only [List.mem_append, List.mem_cons] at hc ⊢
  tauto

theorem ne_of_taken {c : Block} (hc : c.free = false) (hb : b.free = true) : c ≠ b := fun he => by
  rw [he, hb] at hc
  exact absurd hc (by decide)

theorem carve_allocates (hw : WellFormed h (L ++ b :: R) fl) (hb : b.free = true)
    (h4 : 4 ≤ ints) (hfit : ints ≤ b.size) :
    Allocates h (h.carve ints b.size b.start) b.start ints := by
  have hw' := (carve_spec hw hb h4 hfit).1
  have hstart := carved_start_mem L R b ints
  have hsize : h.size b.start = b.size := hw.size_start (by simp)
  have hsize' : (h.carve ints b.size b.start).size b.start = carvedSize b ints :=
    hw'.size_start hstart
  refine ⟨hw'.isTaken_start hstart, fun hsplit => ?_, fun hwhole => ?_, fun y hy hne => ?_⟩
  · rw [hsize] at hsplit
    have hrest : (⟨b.start + ints, b.size - ints, true⟩ : Block) ∈ L ++ carved b ints ++ R :=
      List.mem_append_left _ (List.mem_append_right _ (by simp [carved, hsplit]))
    rw [hsize', hw'.freeList_eq, hw.freeList_eq, hsize, carvedSize, carvedList, if_pos hsplit,
      if_pos hsplit]
    exact ⟨rfl, hw'.isAvail_start hrest, hw'.size_start hrest, rfl⟩
  · rw [hsize] at hwhole
    rw [hsize', hw'.freeList_eq, hw.freeList_eq, hsize, carvedSize, carvedList, if_neg hwhole,
      if_neg hwhole]
    exact ⟨rfl, rfl⟩
  · rw [hw.freeList_eq] at hy
    obtain ⟨c, hc, hcf, rfl, hcs⟩ := hw.listed hy
    have hc' := (mem_beside hc (fun he => hne (by rw [he])) ints).2
    exact ⟨(hw'.isAvail_start hc').trans hcf, (hw'.size_start hc').trans hcs.symm⟩

end Carve

section
variable {base : ℕ} {bytes : UInt32} {memory : ℤ → ℤ}

theorem clients_inv (hlen : 8 ≤ (bytes / 4).toNat) {s : Session}
    (hs : Reachable (clients base bytes memory) s) :
    ∃ bs fl, s.Inv base ((bytes / 4).toNat : ℤ) bs fl :=
  hs.invariant (clients_inductive base bytes memory hlen)

theorem Session.Inv.len_le {s : Session} {bs : List Block} {fl : List ℤ}
    (hi : s.Inv base ((bytes / 4).toNat : ℤ) bs fl) : s.heap.len ≤ 0x3FFFFFFF := by
  rw [hi.len_eq]
  have := bytes.toNat_lt
  simp only [UInt32.toNat_div, UInt32.reduceToNat]
  omega

end

/-- In every reachable state the search of `malloc` is complete, and it takes the earliest
smallest of the first twenty free blocks with room for the rounded request. -/
theorem malloc_best_of_twenty (base : ℕ) (bytes : UInt32) (memory : ℤ → ℤ)
    (hlen : 8 ≤ (bytes / 4).toNat) {s : Session}
    (hs : Reachable (clients base bytes memory) s) {request : UInt32} (hz : request ≠ 0) :
    ∃ p h', s.heap.malloc request = .ok (p, h') ∧
      (p = 0 ↔ ∀ x ∈ s.heap.freeList, s.heap.size x < intsOf request) ∧
      (p = 0 → h' = s.heap) ∧
      (p ≠ 0 → ∃ x, FirstSmallest s.heap.size x ((s.heap.fitting (intsOf request)).take 20) ∧
        p = s.heap.addressOf (x + 1) ∧ Allocates s.heap h' x (intsOf request)) := by
  obtain ⟨bs, fl, hi⟩ := clients_inv hlen hs
  have hle : s.heap.len ≤ 0x7FFFFFFF := hi.len_le.trans (by norm_num)
  have hnone : s.heap.fitting (intsOf request) = [] ↔
      ∀ x ∈ s.heap.freeList, s.heap.size x < intsOf request := by
    simp [fitting]
  rcases hi.wf.malloc_cases hle hz with ⟨hfit, hm⟩ | ⟨L, b, R, rfl, hbf, hfit, hx, hm⟩
  · exact ⟨0, s.heap, hm, by simpa using hnone.mp hfit, fun _ => rfl, fun hp => absurd rfl hp⟩
  · have hpos := pointer_pos s.heap (hi.start_nonneg (b := b) (by simp))
    refine ⟨_, _, hm, ?_, fun hp => absurd hp (by omega), fun _ => ?_⟩
    · rw [← hnone]
      constructor
      · intro hp
        omega
      · intro hempty
        rw [hempty] at hx
        exact absurd hx.mem (by simp)
    · exact ⟨b.start, hx, rfl, carve_allocates hi.wf hbf (four_le_intsOf request) hfit⟩

theorem fragmented : ∃ s, Reachable (booted 0x100000 256 fun _ => 0) s ∧
    s.live = [0x10007C, 0x10004C, 0x10000C] ∧ s.heap.freeList = [22, 12, 34] ∧
    s.heap.freeList.map s.heap.size = [8, 6, 28] := by
  have hrun : ((heapInit 0x100000 256 fun _ => 0).toOption.bind fun r =>
      (run Session.tryAct Session.mayAct ⟨r.2, [r.1]⟩ [.call (.malloc 16), .call (.malloc 8),
        .call (.malloc 24), .call (.malloc 8), .write 0x10004C 19 7, .call (.free 0x100034),
        .call (.free 0x10005C)]).map fun s =>
          (s.live, s.heap.freeList, s.heap.freeList.map s.heap.size)) =
      some ([0x10007C, 0x10004C, 0x10000C], [22, 12, 34], [8, 6, 28]) := by decide
  obtain ⟨⟨lock, h⟩, hi, hrun⟩ := Option.bind_eq_some_iff.mp hrun
  obtain ⟨s, hs, hstate⟩ := Option.map_eq_some_iff.mp hrun
  simp only [Prod.mk.injEq] at hstate
  exact ⟨s, booted_run (toOption_eq_some hi) hs, hstate⟩

theorem malloc_best_of_twenty_fragmented : ∃ (s : Session) (p : ℕ) (h' : Heap),
    s.heap.freeList = [22, 12, 34] ∧ s.heap.freeList.map s.heap.size = [8, 6, 28] ∧
    s.heap.malloc 12 = .ok (p, h') ∧
    FirstSmallest s.heap.size 12 ((s.heap.fitting 5).take 20) ∧ p = s.heap.addressOf 13 ∧
    Allocates s.heap h' 12 5 := by
  obtain ⟨s, hs, -, hlist, hsizes⟩ := fragmented
  obtain ⟨p, h', hm, hnull, -, hbest⟩ := malloc_best_of_twenty 0x100000 256 (fun _ => 0) (by decide)
    (booted_reachable hs) (by decide : (12 : UInt32) ≠ 0)
  have hints : intsOf 12 = 5 := by decide
  rw [hints] at hnull hbest
  have hsz := hsizes
  rw [hlist] at hsz
  simp only [List.map_cons, List.map_nil, List.cons.injEq, and_true] at hsz
  obtain ⟨h22, h12, h34⟩ := hsz
  have hp : p ≠ 0 := by
    intro hp
    have := hnull.mp hp 12 (by simp [hlist])
    omega
  obtain ⟨x, hx, hpx, halloc⟩ := hbest hp
  have hx12 : x = 12 := by
    have hfit : (s.heap.fitting 5).take 20 = [22, 12, 34] := by simp [fitting, hlist, h22, h12, h34]
    have hmem := hx.mem
    have hle := hx.le (y := 12) (by simp [hfit])
    rw [hfit] at hmem
    simp only [List.mem_cons, List.not_mem_nil, or_false] at hmem
    rcases hmem with rfl | rfl | rfl
    · omega
    · rfl
    · omega
  subst hx12
  exact ⟨s, p, h', hlist, hsizes, hm, hx, hpx, halloc⟩

theorem intsOf_room {request : UInt32} (hr : request.toNat ≤ 0xFFFFFFFC) :
    (request.toNat : ℤ) ≤ 4 * (intsOf request - 2) := by
  have hsum : (request + 3).toNat = request.toNat + 3 := by
    rw [UInt32.toNat_add]
    simp only [UInt32.reduceToNat]
    omega
  have hword : ((request + 3) / 4 + 2).toNat = (request.toNat + 3) / 4 + 2 := by
    rw [UInt32.toNat_add, UInt32.toNat_div, hsum]
    simp only [UInt32.reduceToNat]
    omega
  unfold intsOf
  rw [hword]
  dsimp only
  split <;> omega

theorem intsOf_wraps {request : UInt32} (hr : 0xFFFFFFFC < request.toNat) : intsOf request = 4 := by
  have hlt := request.toNat_lt
  have hsum : (request + 3).toNat = request.toNat + 3 - 2 ^ 32 := by
    rw [UInt32.toNat_add]
    simp only [UInt32.reduceToNat]
    omega
  have hword : ((request + 3) / 4 + 2).toNat = 2 := by
    rw [UInt32.toNat_add, UInt32.toNat_div, hsum]
    simp only [UInt32.reduceToNat]
    omega
  unfold intsOf
  rw [hword]
  rfl

section
variable {base : ℕ} {len : ℤ} {s : Session} {L R : List Block} {fl : List ℤ} {b : Block}

theorem Session.Inv.carve_apart (hi : s.Inv base len (L ++ b :: R) fl) (hb : b.free = true)
    {request : UInt32} (hfit : intsOf request ≤ b.size) :
    let h' := s.heap.carve (intsOf request) b.size b.start
    h'.indexOf (s.heap.pointer b) = b.start ∧
    h'.size b.start = carvedSize b (intsOf request) ∧
    ∀ q ∈ s.live, ∀ k, h'.InPayload (s.heap.pointer b) k →
      ¬(h'.indexOf q ≤ k ∧ k < h'.indexOf q + h'.size (h'.indexOf q)) := by
  intro h'
  have hw' : WellFormed h' _ _ := (carve_spec hi.wf hb (four_le_intsOf request) hfit).1
  have hindex : h'.indexOf = s.heap.indexOf := indexOf_congr (carve_base ..)
  have hidx : h'.indexOf (s.heap.pointer b) = b.start := by
    rw [hindex, indexOf_pointer s.heap (hi.start_nonneg (by simp))]
  have hstart := carved_start_mem L R b (intsOf request)
  have hsize : h'.size b.start = carvedSize b (intsOf request) := hw'.size_start hstart
  refine ⟨hidx, hsize, fun q hq k hk hqk => ?_⟩
  obtain ⟨c, hc, hcf, -, hcidx, -⟩ := hi.block_of_live hq
  have hc' := (mem_beside hc (ne_of_taken hcf hb) (intsOf request)).2
  rw [InPayload, hidx, hsize] at hk
  rw [hindex, hcidx, hw'.size_start hc'] at hqk
  rcases hw'.layout.apart _ hstart c hc' with he | hlt | hlt
  · -- the only common block would be `b` itself, which was free
    have hbc : b.start = c.start := by rw [← he]
    rcases hi.wf.layout.apart b (by simp) c hc with rfl | hlt | hlt
    · exact absurd (hb.symm.trans hcf) (by decide)
    · have := (hi.wf.layout.mem b (by simp)).2.1
      simp only [Block.stop] at hlt
      omega
    · have := (hi.wf.layout.mem c hc).2.1
      simp only [Block.stop] at hlt
      omega
  · simp only [Block.stop] at hlt
    omega
  · simp only [Block.stop] at hlt
    omega

end

/-- A block that `malloc` hands out has room for the request and meets no live block exactly
when the rounding does not wrap, or there is no free block to hand out. -/
theorem malloc_serves_iff (base : ℕ) (bytes : UInt32) (memory : ℤ → ℤ)
    (hlen : 8 ≤ (bytes / 4).toNat) {s : Session}
    (hs : Reachable (clients base bytes memory) s) {request : UInt32} (hz : request ≠ 0) :
    (∀ p h', s.heap.malloc request = .ok (p, h') → p ≠ 0 → Serves s h' p request) ↔
      request.toNat ≤ 0xFFFFFFFC ∨ s.heap.avail = 0 := by
  obtain ⟨bs, fl, hi⟩ := clients_inv hlen hs
  have hle : s.heap.len ≤ 0x7FFFFFFF := hi.len_le.trans (by norm_num)
  have hrange := hi.len_le
  rcases hi.wf.malloc_cases hle hz with ⟨hfit, hm⟩ | ⟨L, b, R, rfl, hbf, hfit, -, hm⟩
  · refine iff_of_true (fun p h' he hp => ?_) ?_
    · rw [hm] at he
      cases he
      exact absurd rfl hp
    · by_cases hr : request.toNat ≤ 0xFFFFFFFC
      · exact Or.inl hr
      · -- every block has four words, so nothing is free
        apply Or.inr
        have hfl : fl = [] := by
          by_contra hne
          obtain ⟨x, hx⟩ := List.exists_mem_of_ne_nil fl hne
          have hxf : x ∈ s.heap.fitting (intsOf request) := by
            obtain ⟨c, hc, -, -, hcs⟩ := hi.wf.listed hx
            have := (tiles_mem hi.wf.tiles hc).2.1
            exact hi.wf.mem_fitting.mpr ⟨hx, by rw [intsOf_wraps (not_le.mp hr), hcs]; exact this⟩
          rw [hfit] at hxf
          exact absurd hxf (by simp)
        rw [hi.wf.head, hfl]
        rfl
  · obtain ⟨hidx, hsize, hapart⟩ := hi.carve_apart hbf hfit
    have hpos := pointer_pos s.heap (hi.start_nonneg (b := b) (by simp))
    have havail : s.heap.avail ≠ 0 := by
      intro h0
      rw [hi.wf.head] at h0
      have hfl := (headD_eq_zero_iff (hi.wf.nodes.pos hi.wf.toTagging)).mp h0
      have hmem : b.start ∈ fl := hi.wf.mem_list (by simp) hbf
      rw [hfl] at hmem
      exact absurd hmem (by simp)
    constructor
    · intro hserves
      refine Or.inl (le_of_not_gt fun hr => ?_)
      have hroom := (hserves _ _ hm (by omega)).room
      have hb := tiles_mem hi.wf.tiles (b := b) (by simp)
      rw [hidx, hsize, intsOf_wraps hr] at hroom
      have hcarved := carvedSize_le (by omega : 4 ≤ b.size)
      simp only [Block.stop] at hb
      omega
    · intro hr p h' he hp
      rw [hm] at he
      cases he
      have hroom := intsOf_room (hr.resolve_right havail)
      have hcarved := le_carvedSize hfit
      exact ⟨by rw [hidx, hsize]; omega, hapart⟩

theorem malloc_serves_iff_fragmented : ∃ s : Session, s.live = [0x10007C, 0x10004C, 0x10000C] ∧
    s.heap.freeList = [22, 12, 34] ∧
    (∀ p h', s.heap.malloc 12 = .ok (p, h') → p ≠ 0 → Serves s h' p 12) ∧
    ¬∀ p h', s.heap.malloc 0xFFFFFFFE = .ok (p, h') → p ≠ 0 → Serves s h' p 0xFFFFFFFE := by
  obtain ⟨s, hs, hlive, hlist, -⟩ := fragmented
  have hiff := fun {n : UInt32} (hn : n ≠ 0) =>
    malloc_serves_iff 0x100000 256 (fun _ => 0) (by decide) (booted_reachable hs) hn
  refine ⟨s, hlive, hlist, (hiff (by decide)).mpr (Or.inl (by decide)), fun hserves => ?_⟩
  rcases (hiff (by decide)).mp hserves with hr | havail
  · exact absurd hr (by decide)
  · simp [freeList, walk, havail] at hlist

/-- With the heap as `heapInit` leaves it, a request for `2^32 - 1` bytes gets a payload of eight
bytes. -/
theorem malloc_serves_too_little : ∃ lock h, heapInit 0x100000 256 (fun _ => 0) = .ok (lock, h) ∧
    Reachable (clients 0x100000 256 fun _ => 0) ⟨h, [lock]⟩ ∧ ∃ p h',
      h.malloc 0xFFFFFFFF = .ok (p, h') ∧ p ≠ 0 ∧ 4 * (h'.size (h'.indexOf p) - 2) = 8 ∧
      ¬Serves ⟨h, [lock]⟩ h' p 0xFFFFFFFF := by
  obtain ⟨⟨lock, h⟩, hi, hm⟩ : ∃ r, (heapInit 0x100000 256 fun _ => 0).toOption = some r ∧
      (r.2.malloc 0xFFFFFFFF).toOption.map (fun q => (q.1, q.2.size (q.2.indexOf q.1))) =
        some (0x100034, 4) := Option.bind_eq_some_iff.mp (by decide)
  obtain ⟨⟨p, h'⟩, hm, hstate⟩ := Option.map_eq_some_iff.mp hm
  simp only [Prod.mk.injEq] at hstate
  obtain ⟨rfl, hsize⟩ := hstate
  refine ⟨lock, h, toOption_eq_some hi, booted_reachable (.start ⟨lock, h, toOption_eq_some hi, rfl⟩),
    0x100034, h', toOption_eq_some hm, by decide, by rw [hsize]; norm_num, fun hserves => ?_⟩
  have hroom := hserves.room
  rw [hsize] at hroom
  exact absurd hroom (by decide)

end MMapKernel.Heap
