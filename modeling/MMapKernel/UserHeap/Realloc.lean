import MMapKernel.UserHeap.Copy

/-!
# `realloc` on a well-formed heap

The block for the new size is carved while the old one is still taken, so the two are apart and the
bytes are copied before the old block is released. It is released as well where no block has been
found for the new size.
-/

open BoundaryTag
namespace MMapKernel.UserHeap
open Heap (WellFormed Untouched carved carvedSize)

variable {h g : Heap} {bs L R : List Block} {fl : List ℤ} {b c : Block} {n : UInt32} {i m : ℕ}

def payload (h : Heap) (p : ℕ) : ℕ := (4 * (h.size (h.indexOf p) - 2)).toNat

/-- What `realloc` copies at most: as many bytes as the old block has, header and footer included. -/
def copySize (h : Heap) (p : ℕ) (n : UInt32) : ℕ := min n.toNat (4 * h.size (h.indexOf p)).toNat

def served (c : Block) (ints : ℤ) : Block := ⟨c.start, carvedSize c ints, false⟩

theorem served_mem (c : Block) (ints : ℤ) : served c ints ∈ L ++ carved c ints ++ R :=
  Heap.carved_start_mem L R c ints

theorem wordOf_pointer (hbase : g.base = h.base) (hb : 0 ≤ b.start) (i : ℕ) :
    wordOf g (h.pointer b + i) = b.start + 1 + i / 4 := by
  unfold wordOf Heap.pointer Heap.addressOf
  rw [hbase]
  omega

theorem payload_pointer (hw : WellFormed h bs fl) (hb : b ∈ bs) :
    payload h (h.pointer b) = (4 * (b.size - 2)).toNat := by
  rw [payload, Heap.indexOf_pointer h (by have := (tiles_mem hw.tiles hb).1; omega), hw.size_start hb]

theorem pointer_ne (hw : WellFormed h bs fl) (hb : b ∈ bs) (hc : c ∈ bs) (hne : b ≠ c) :
    h.pointer b ≠ h.pointer c := by
  have hbin := tiles_mem hw.tiles hb
  have hcin := tiles_mem hw.tiles hc
  unfold Heap.pointer Heap.addressOf
  rcases hw.layout.apart b hb c hc with he | hlt | hlt
  · exact absurd he hne
  · simp only [Block.stop] at hlt
    omega
  · simp only [Block.stop] at hlt
    omega

theorem byte_untouched (hw : WellFormed h bs fl) (hb : b ∈ bs) (hbase : g.base = h.base)
    (hu : Untouched h g b) (hi : i < payload h (h.pointer b)) :
    byte g (h.pointer b + i) = byte h (h.pointer b + i) := by
  have hin := tiles_mem hw.tiles hb
  rw [payload_pointer hw hb] at hi
  apply byte_congr hbase
  rw [wordOf_pointer rfl (by omega)]
  apply hu _ (by omega)
  simp only [Block.stop]
  omega

def moved (h : Heap) (b c : Block) (n : UInt32) : Heap :=
  copied (h.carve (Heap.intsOf n) c.size c.start) (h.pointer c) (h.pointer b) (copySize h (h.pointer b) n)

@[simp] theorem moved_base (h : Heap) (b c : Block) (n : UInt32) : (moved h b c n).base = h.base := by
  simp [moved]

@[simp] theorem moved_len (h : Heap) (b c : Block) (n : UInt32) : (moved h b c n).len = h.len := by
  simp [moved]

theorem copySize_pointer (hw : WellFormed h bs fl) (hb : b ∈ bs) (n : UInt32) :
    copySize h (h.pointer b) n = min n.toNat (4 * b.size).toNat := by
  rw [copySize, Heap.indexOf_pointer h (by have := (tiles_mem hw.tiles hb).1; omega), hw.size_start hb]

theorem source_word (hw : WellFormed h bs fl) (hb : b ∈ bs) (hbase : g.base = h.base)
    (hi : i < copySize h (h.pointer b) n) :
    b.start < wordOf g (h.pointer b + i) ∧ wordOf g (h.pointer b + i) ≤ b.stop := by
  have hin := tiles_mem hw.tiles hb
  rw [copySize_pointer hw hb] at hi
  rw [wordOf_pointer hbase (by omega), Block.stop]
  omega

theorem target_word (hw : WellFormed h bs fl) (hc : c ∈ bs) (hr : n.toNat ≤ 0xFFFFFFFC)
    (hfit : Heap.intsOf n ≤ c.size) (hbase : g.base = h.base) {p : ℕ} (hi : i < copySize h p n) :
    (served c (Heap.intsOf n)).start < wordOf g (h.pointer c + i) ∧
      wordOf g (h.pointer c + i) < (served c (Heap.intsOf n)).stop - 1 := by
  have hin := (tiles_mem hw.tiles hc).1
  have hroom := Heap.intsOf_room hr
  have hsize := Heap.le_carvedSize hfit
  have hn : i < n.toNat := hi.trans_le (min_le_left _ _)
  rw [wordOf_pointer hbase (by omega)]
  simp only [served, Block.stop]
  omega

theorem old_mem (hcf : c.free = true) (hb : b ∈ L ++ c :: R) (hbf : b.free = false) (ints : ℤ) :
    b ∈ L ++ R ∧ b ∈ L ++ carved c ints ++ R :=
  Heap.mem_beside hb (Heap.ne_of_taken hbf hcf) ints

theorem old_apart (hw : WellFormed h (L ++ c :: R) fl) (hcf : c.free = true) (hb : b ∈ L ++ c :: R)
    (hbf : b.free = false) {ints : ℤ} (hfit : ints ≤ c.size) :
    b.stop ≤ c.start ∨ (served c ints).stop ≤ b.start := by
  have hsize := Heap.carvedSize_le hfit
  rcases hw.layout.apart b hb c (by simp) with he | hlt | hlt
  · exact absurd he (Heap.ne_of_taken hbf hcf)
  · exact .inl hlt
  · refine .inr (le_trans ?_ hlt)
    simp only [served, Block.stop]
    omega

/-- The heap after the copy: as well formed as after the carving, with the bytes of the old block in
the new one and all other taken blocks as they were. -/
theorem moved_spec (hw : WellFormed h (L ++ c :: R) fl) (hcf : c.free = true) (hb : b ∈ L ++ c :: R)
    (hbf : b.free = false) (hr : n.toNat ≤ 0xFFFFFFFC) (hfit : Heap.intsOf n ≤ c.size) :
    WellFormed (moved h b c n) (L ++ carved c (Heap.intsOf n) ++ R)
        (Heap.carvedList fl c (Heap.intsOf n)) ∧
      (∀ i < min n.toNat (payload h (h.pointer b)),
        byte (moved h b c n) (h.pointer c + i) = byte h (h.pointer b + i)) ∧
      ∀ d ∈ L ++ R, d.free = false → Untouched h (moved h b c n) d := by
  obtain ⟨hw₁, hkeep⟩ := Heap.carve_spec hw hcf (Heap.four_le_intsOf n) hfit
  have htarget := fun i hi => target_word (g := h.carve (Heap.intsOf n) c.size c.start) hw (c := c)
    (by simp) hr hfit (by simp) (p := h.pointer b) (i := i) hi
  have hserved : served c (Heap.intsOf n) ∈ L ++ carved c (Heap.intsOf n) ++ R := served_mem c _
  refine ⟨copied_wellFormed hw₁ hserved rfl htarget, fun i hi => ?_, fun d hd hdf k hk hk' => ?_⟩
  · have hin := tiles_mem hw.tiles hb
    have hpayload := payload_pointer hw hb
    have hcopy := copySize_pointer hw hb n
    have hapart := old_apart hw hcf hb hbf hfit
    rw [moved, copied_byte (fun i hi j hj he => ?_) (by omega)]
    · exact byte_untouched hw hb (by simp) (hkeep b (old_mem hcf hb hbf 0).1 hbf) (by omega)
    · -- one address would be a word of the new block and one of the old block or the header behind it
      have hs := source_word (g := h) hw hb rfl hi
      have ht := target_word (g := h) hw (c := c) (by simp) hr hfit rfl hj
      rw [he] at hs
      simp only [served] at ht hapart
      omega
  · have hd' : d ∈ L ++ c :: R := by
      simp only [List.mem_append, List.mem_cons] at hd ⊢
      tauto
    refine (copied_word fun i hi => ?_).trans (hkeep d hd hdf k hk hk')
    obtain ⟨hlo, hhi⟩ := htarget i hi
    have hstart : (served c (Heap.intsOf n)).start = c.start := rfl
    rcases old_apart hw hcf hd' hdf hfit with hlt | hlt
    · omega
    · omega

theorem served_ne (hw : WellFormed h (L ++ c :: R) fl)
    (hcf : c.free = true) (hb : b ∈ L ++ c :: R) (hbf : b.free = false) {ints : ℤ} (h4 : 4 ≤ ints)
    (hfit : ints ≤ c.size) : served c ints ≠ b := by
  rintro rfl
  have hsize := Heap.le_carvedSize hfit
  have hapart := old_apart hw hcf hb hbf hfit
  simp only [served, Block.stop] at hapart
  omega

theorem kept_bytes {bs' : List Block} {fl' : List ℤ} (hw : WellFormed h bs fl)
    (hw' : WellFormed g bs' fl') (hb : b ∈ bs) (hb' : b ∈ bs') (hbase : g.base = h.base)
    (hu : Untouched h g b) : payload g (h.pointer b) = payload h (h.pointer b) ∧
      ∀ i < payload h (h.pointer b), byte g (h.pointer b + i) = byte h (h.pointer b + i) := by
  refine ⟨?_, fun i hi => byte_untouched hw hb hbase hu hi⟩
  rw [← Heap.pointer_congr hbase, payload_pointer hw' hb', Heap.pointer_congr hbase, payload_pointer hw hb]

theorem served_bytes (hw : WellFormed h (L ++ c :: R) fl) (hcf : c.free = true) (hb : b ∈ L ++ c :: R)
    (hbf : b.free = false) (hr : n.toNat ≤ 0xFFFFFFFC) (hfit : Heap.intsOf n ≤ c.size)
    {bs' : List Block} {fl' : List ℤ} (hw' : WellFormed g bs' fl')
    (hmem : served c (Heap.intsOf n) ∈ bs') (hbase : g.base = h.base)
    (hu : Untouched (moved h b c n) g (served c (Heap.intsOf n))) :
    n.toNat ≤ payload g (h.pointer c) ∧ ∀ i < min n.toNat (payload h (h.pointer b)),
      byte g (h.pointer c + i) = byte h (h.pointer b + i) := by
  obtain ⟨hw₂, hdata, -⟩ := moved_spec hw hcf hb hbf hr hfit
  have hsize := Heap.le_carvedSize hfit
  have hroom := Heap.intsOf_room hr
  have hptr : (moved h b c n).pointer (served c (Heap.intsOf n)) = h.pointer c := by
    rw [Heap.pointer_congr (moved_base ..)]
    rfl
  obtain ⟨hpay, hbytes⟩ := kept_bytes hw₂ hw' (served_mem c _) hmem (hbase.trans (moved_base ..).symm) hu
  rw [payload_pointer hw₂ (served_mem c _)] at hpay hbytes
  rw [hptr] at hpay hbytes
  have hn : n.toNat ≤ (4 * ((served c (Heap.intsOf n)).size - 2)).toNat := by
    simp only [served]
    omega
  exact ⟨hpay ▸ hn, fun i hi => (hbytes i (by omega)).trans (hdata i hi)⟩

theorem realloc_block (hw : WellFormed h bs fl) (hb : b ∈ bs) (hbf : b.free = false) (hn : n ≠ 0) :
    realloc h (h.pointer b) n = malloc h n >>= fun r =>
      (if r.1 ≠ 0 then memcpy r.2 r.1 (h.pointer b) (copySize h (h.pointer b) n) else .ok r.2) >>= fun g =>
        free g (h.pointer b) >>= fun g => .ok (r.1, g) := by
  obtain ⟨hidx, hpos⟩ := index_pointer hw hb
  have hin := tiles_mem hw.tiles hb
  simp only [Block.stop] at hin
  have hcopy : copySize h (h.pointer b) n =
      if (n.toNat : ℤ) > b.size * 4 then (b.size * 4).toNat else n.toNat := by
    rw [copySize_pointer hw hb, min_def]
    split <;> split <;> omega
  rw [realloc, if_neg (by omega), if_neg hn]
  simp only [hidx, sanity_ok, ok_bind]
  rw [isTaken_ok (by omega) (by omega), hw.isTaken_start hb, hbf, ok_bind, size_ok (by omega) (by omega),
    hw.size_start hb, hcopy]
  rfl

theorem realloc_cases (hw : WellFormed h bs fl) (hb : b ∈ bs) (hbf : b.free = false) (hn : n ≠ 0)
    (hr : n.toNat ≤ 0xFFFFFFFC) :
    ((∀ y ∈ fl, h.size y < Heap.intsOf n) ∧
      realloc h (h.pointer b) n = .ok (0, h.release b.start)) ∨
    ∃ L c R, bs = L ++ c :: R ∧ c.free = true ∧ Heap.intsOf n ≤ c.size ∧
      realloc h (h.pointer b) n = .ok (h.pointer c, (moved h b c n).release b.start) := by
  rw [realloc_block hw hb hbf hn]
  rcases malloc_cases hw hn with ⟨hfull, hm⟩ | ⟨L, c, R, rfl, hcf, hfit, hm⟩
  · obtain ⟨L, R, rfl⟩ := List.append_of_mem hb
    refine .inl ⟨hfull, ?_⟩
    rw [hm, ok_bind, if_neg (by simp), ok_bind, free_block hw hbf]
    rfl
  · refine .inr ⟨L, c, R, rfl, hcf, hfit, ?_⟩
    have hpos := (index_pointer hw (b := c) (by simp)).2
    have hin := tiles_mem hw.tiles hb
    have hc := tiles_mem hw.tiles (b := c) (by simp)
    have hsize := Heap.carvedSize_le hfit
    have hmemcpy : memcpy (h.carve (Heap.intsOf n) c.size c.start) (h.pointer c) (h.pointer b)
        (copySize h (h.pointer b) n) = .ok (moved h b c n) := by
      refine memcpy_ok (fun i hi => ?_) fun i hi => ?_
      · have ht := target_word (g := h.carve (Heap.intsOf n) c.size c.start) hw (c := c) (by simp) hr
          hfit (by simp) hi
        simp only [served, Block.stop] at ht hc
        exact ⟨by omega, by rw [Heap.carve_len]; omega⟩
      · have hs := source_word (g := h.carve (Heap.intsOf n) c.size c.start) hw hb (by simp) hi
        exact ⟨by omega, by rw [Heap.carve_len]; omega⟩
    obtain ⟨hw₂, -⟩ := moved_spec hw hcf hb hbf hr hfit
    obtain ⟨L', R', hbs⟩ := List.append_of_mem (old_mem hcf hb hbf (Heap.intsOf n)).2
    rw [hbs] at hw₂
    have hfree := free_block hw₂ hbf
    rw [Heap.pointer_congr (moved_base h b c n)] at hfree
    rw [hm, ok_bind, if_pos (by dsimp only; omega), hmemcpy, ok_bind, hfree]
    rfl

end MMapKernel.UserHeap
