import MMapKernel.Fs.Ext2
import MMapKernel.Fs.Readable
import MMapKernel.Lib.Ram

/-!
# Block reads are byte reads

`read` and `read_all` once more, now with the memory they store to. A whole block is read in
place, any other part of a block through `temp`, and `read_all` moves `buffer` on by what each
`read` returned. What arrives in the buffer is what `Transfer` lists, and where the blocks can be
read it is the bytes of the device or file from the offset on.
-/

namespace MMapKernel.Fs
namespace BlockIO

def readBlockInto (io : BlockIO) (r : Ram) (blockNumber buffer : UInt32) : Ram × Option Unit :=
  let t := io.readBlock blockNumber
  (r.storeBytes buffer t.stored, t.result)

def readWhole (io : BlockIO) (r : Ram) (blockNumber buffer : UInt32) : Ram × Option ℤ :=
  let (r, done) := io.readBlockInto r blockNumber buffer
  (r, done.map fun _ => (io.blockSize.toNat : ℤ))

/-- The path of `read` through `temp`, which is freshly allocated and freed again. -/
def readThroughTemp (io : BlockIO) (r : Ram) (blockNumber offsetInBlock actual buffer : UInt32) :
    Ram × Option ℤ :=
  let temp := io.readBlock blockNumber
  match temp.result with
  | none => (r, none)
  | some _ =>
    (r.storeBytes buffer ((temp.stored.drop offsetInBlock.toNat).take actual.toNat),
      some (actual.toNat : ℤ))

def readInto (io : BlockIO) (r : Ram) (offset desired buffer : UInt32) : Ram × Option ℤ :=
  let sz := io.sizeInBytes
  if sz < offset then (r, some (-1))
  else if offset = sz then (r, some 0)
  else
    let n := min desired (sz - offset)
    let blockNumber := offset / io.blockSize
    let offsetInBlock := offset % io.blockSize
    let actual := min (io.blockSize - offsetInBlock) n
    if ¬ (actual ≤ n ∧ offset + actual ≤ sz) then (r, none)
    else if actual = io.blockSize then
      if offsetInBlock ≠ 0 then (r, none)
      else io.readWhole r blockNumber buffer
    else if ¬ offsetInBlock + actual ≤ io.blockSize then (r, none)
    else io.readThroughTemp r blockNumber offsetInBlock actual buffer

def readAllInto (io : BlockIO) : ℕ → Ram → UInt32 → UInt32 → UInt32 → ℤ → Ram × Outcome ℤ
  | turns, r, offset, n, buffer, total =>
    if n = 0 then (r, .returned total)
    else
      match turns with
      | 0 => (r, .running)
      | turns + 1 =>
        match io.readInto r offset n buffer with
        | (r, none) => (r, .failed)
        | (r, some cnt) =>
          if cnt < 0 then (r, .returned cnt)
          else if cnt = 0 then (r, .returned total)
          else
            let step := UInt32.ofNat cnt.toNat
            readAllInto io turns r (offset + step) (n - step) (buffer + step) (total + cnt)

variable {io : BlockIO} {r : Ram} {offset n buffer : UInt32}

theorem readPartInto_eq (b o actual : UInt32) :
    (if actual = io.blockSize then
      if o ≠ 0 then (r, none)
      else io.readWhole r b buffer
    else if ¬ o + actual ≤ io.blockSize then (r, none)
    else io.readThroughTemp r b o actual buffer) =
      (r.storeBytes buffer (io.readPart b o actual).stored, (io.readPart b o actual).result) := by
  unfold readPart
  split_ifs with ha ho hle
  · rfl
  · rw [ha]
    rfl
  · unfold readThroughTemp
    dsimp only
    cases (io.readBlock b).result <;> rfl
  · rfl

theorem readInto_eq : io.readInto r offset n buffer =
    (r.storeBytes buffer (io.read offset n).stored, (io.read offset n).result) := by
  unfold readInto read
  dsimp only
  rw [readPartInto_eq]
  split_ifs <;> rfl

theorem readAllInto_zero (turns : ℕ) (total : ℤ) :
    io.readAllInto turns r offset 0 buffer total = (r, .returned total) := by
  unfold readAllInto
  rw [if_pos rfl]

theorem readAllInto_succ (turns : ℕ) (total : ℤ) (hn : n ≠ 0) :
    io.readAllInto (turns + 1) r offset n buffer total =
      match (io.read offset n).result with
      | none => (r.storeBytes buffer (io.read offset n).stored, .failed)
      | some cnt =>
        if cnt < 0 then (r.storeBytes buffer (io.read offset n).stored, .returned cnt)
        else if cnt = 0 then (r.storeBytes buffer (io.read offset n).stored, .returned total)
        else
          let step := UInt32.ofNat cnt.toNat
          io.readAllInto turns (r.storeBytes buffer (io.read offset n).stored) (offset + step)
            (n - step) (buffer + step) (total + cnt) := by
  rw [readAllInto, if_neg hn, readInto_eq]
  dsimp only
  split
  case h_1 h => rw [(Prod.mk.inj h).1, (Prod.mk.inj h).2]
  case h_2 h => rw [(Prod.mk.inj h).1, (Prod.mk.inj h).2]

theorem readAllInto_eq {turns : ℕ} (total : ℤ) (ht : n.toNat ≤ turns) :
    io.readAllInto turns r offset n buffer total =
      (r.storeBytes buffer (io.readLoop turns offset n total).stored,
        .ofOption (io.readLoop turns offset n total).result) := by
  induction turns generalizing r offset n buffer total with
  | zero =>
    obtain rfl : n = 0 := UInt32.toNat_inj.mp (Nat.le_zero.mp ht)
    rw [readAllInto_zero, readLoop_zero]
    rfl
  | succ turns ih =>
    by_cases hn : n = 0
    · rw [hn, readAllInto_zero, readLoop_zero]
      rfl
    rw [readAllInto_succ turns total hn]
    rcases lt_trichotomy offset.toNat io.sizeInBytes.toNat with ho | ho | ho
    · rw [← UInt32.lt_iff_toNat_lt] at ho
      have hpos := span_pos ho hn
      obtain ⟨-, hleft, -, -⟩ := next_room (n := n) ho
      rcases readLoop_inside turns total ho hn with ⟨hf, h⟩ | ⟨hr, hlen, h⟩
      · rw [h, hf]
        rfl
      · have hneg : ¬ ((io.span offset n).toNat : ℤ) < 0 := by omega
        have hzero : ((io.span offset n).toNat : ℤ) ≠ 0 := by omega
        rw [h, hr]
        simp only [hneg, hzero, if_false, Int.toNat_natCast, UInt32.ofNat_toNat]
        rw [ih _ (by omega), Ram.storeBytes_append, hlen, UInt32.ofNat_toNat]
    · rw [UInt32.toNat_inj.mp ho, read_at_end, readLoop_at_end]
      rfl
    · have ho := UInt32.lt_iff_toNat_lt.mpr ho
      rw [read_past ho, readLoop_past hn ho]
      rfl

def byteAt (io : BlockIO) (i : ℕ) : UInt8 :=
  (io.readBlock (UInt32.ofNat (i / io.blockSize.toNat))).stored.getD (i % io.blockSize.toNat) 0

def bytesFrom (io : BlockIO) (offset n : ℕ) : List UInt8 :=
  (List.range n).map fun i => io.byteAt (offset + i)

@[simp] theorem bytesFrom_length (io : BlockIO) (offset n : ℕ) :
    (io.bytesFrom offset n).length = n := by
  simp [bytesFrom]

@[simp] theorem bytesFrom_zero (io : BlockIO) (offset : ℕ) : io.bytesFrom offset 0 = [] := rfl

theorem bytesFrom_add (io : BlockIO) (offset m n : ℕ) :
    io.bytesFrom offset (m + n) = io.bytesFrom offset m ++ io.bytesFrom (offset + m) n := by
  simp [bytesFrom, List.range_add, Nat.add_assoc]

theorem blockSize_pos (io : BlockIO) : 0 < io.blockSize.toNat :=
  UInt32.lt_iff_toNat_lt.mp io.positive

theorem byteAt_add {i : ℕ} (hi : (offset % io.blockSize).toNat + i < io.blockSize.toNat) :
    io.byteAt (offset.toNat + i) =
      (io.readBlock (offset / io.blockSize)).stored.getD ((offset % io.blockSize).toNat + i) 0 := by
  have hsplit := Nat.div_add_mod' offset.toNat io.blockSize.toNat
  rw [← UInt32.toNat_div, ← UInt32.toNat_mod] at hsplit
  have hpos : offset.toNat + i = io.blockSize.toNat * (offset / io.blockSize).toNat +
      ((offset % io.blockSize).toNat + i) := by
    rw [Nat.mul_comm]
    omega
  rw [byteAt, hpos, Nat.mul_add_div io.blockSize_pos, Nat.div_eq_of_lt hi, Nat.add_zero,
    Nat.mul_add_mod, Nat.mod_eq_of_lt hi, UInt32.ofNat_toNat]

theorem bytesFrom_first {stored : List UInt8} {k : ℕ} (hr : io.readBlock 0 = .returns stored ())
    (hk : k ≤ io.blockSize.toNat) : io.bytesFrom 0 k = stored.take k := by
  have hlen : stored.length = io.blockSize.toNat := by
    have := io.stored_eq 0 (by rw [hr]; rfl)
    rwa [hr] at this
  refine List.ext_getElem ?_ fun i hi hi' => ?_
  · rw [bytesFrom_length, List.length_take]
    omega
  · rw [bytesFrom_length] at hi
    simp only [bytesFrom, List.getElem_map, List.getElem_range, List.getElem_take, byteAt, Nat.zero_add]
    rw [Nat.div_eq_of_lt (hi.trans_le hk), Nat.mod_eq_of_lt (hi.trans_le hk)]
    change (io.readBlock 0).stored.getD i 0 = _
    rw [hr]
    exact List.getD_eq_getElem _ _ _

theorem readPart_bytes {actual : UInt32} (hr : (io.readBlock (offset / io.blockSize)).result ≠ none)
    (hb : (offset % io.blockSize).toNat + actual.toNat ≤ io.blockSize.toNat) :
    io.readPart (offset / io.blockSize) (offset % io.blockSize) actual =
      .returns (io.bytesFrom offset.toNat actual.toNat) actual.toNat := by
  obtain ⟨⟨⟩, hr⟩ := Option.ne_none_iff_exists'.mp hr
  have hlen := io.stored_eq _ hr
  have hpart : ((io.readBlock (offset / io.blockSize)).stored.drop (offset % io.blockSize).toNat).take
      actual.toNat = io.bytesFrom offset.toNat actual.toNat := by
    refine List.ext_getElem ?_ fun i hi hi' => ?_
    · rw [List.length_take, List.length_drop, bytesFrom_length, hlen]
      omega
    · rw [bytesFrom_length] at hi'
      simp only [bytesFrom, List.getElem_map, List.getElem_range]
      rw [byteAt_add (by omega), List.getElem_take, List.getElem_drop, List.getD_eq_getElem]
  have hblock : io.readBlock (offset / io.blockSize) =
      .returns (io.readBlock (offset / io.blockSize)).stored () := by
    rw [Transfer.returns, ← hr]
  rw [← hpart]
  exact readPart_returns hblock hb

theorem readLoop_bytes {turns : ℕ} (total : ℤ) (ht : n.toNat ≤ turns) (ho : offset ≤ io.sizeInBytes)
    (hr : io.Readable offset n) :
    io.readLoop turns offset n total =
      .returns (io.bytesFrom offset.toNat (io.room offset n)) (total + io.room offset n) := by
  refine readLoop_returns io.Readable io.bytesFrom io.bytesFrom_zero io.bytesFrom_add
    (fun o k hlt hk hr => ?_) total ht ho hr
  obtain ⟨hfirst, hrest⟩ := (readable_inside hlt hk).mp hr
  refine ⟨?_, hrest⟩
  rw [read_inside hlt]
  exact readPart_bytes hfirst (span_in_block hlt)

theorem readAll_bytes (ho : offset ≤ io.sizeInBytes) (hr : io.Readable offset n) :
    io.readAll offset n =
      .returns (io.bytesFrom offset.toNat (io.room offset n)) (io.room offset n : ℤ) := by
  simpa [readAll] using readLoop_bytes 0 le_rfl ho hr

def Complete (io : BlockIO) : Prop :=
  ∀ b : UInt32, b.toNat * io.blockSize.toNat < io.sizeInBytes.toNat → (io.readBlock b).result = some ()

theorem complete_of_first (hr : (io.readBlock 0).result = some ())
    (hs : io.sizeInBytes.toNat ≤ io.blockSize.toNat) : io.Complete := by
  intro b hb
  obtain rfl : b = 0 := by
    refine UInt32.toNat_inj.mp (Nat.lt_one_iff.mp ?_)
    refine lt_of_mul_lt_mul_right ?_ (Nat.zero_le io.blockSize.toNat)
    omega
  exact hr

theorem Complete.readable (h : io.Complete) (offset n : UInt32) : io.Readable offset n := by
  intro i hi
  have hsize := io.sizeInBytes.toNat_lt
  have hblock := Nat.div_mul_le_self (offset.toNat + i) io.blockSize.toNat
  have hnum := Nat.div_le_self (offset.toNat + i) io.blockSize.toNat
  unfold room at hi
  rw [h]
  · exact Option.some_ne_none _
  · rw [UInt32.toNat_ofNat', Nat.mod_eq_of_lt (by omega)]
    omega

theorem readWhole_eq_readThroughTemp {b : UInt32} (hr : (io.readBlock b).result = some ()) :
    io.readWhole r b buffer = io.readThroughTemp r b 0 io.blockSize buffer := by
  have hlen := io.stored_eq b hr
  simp only [readWhole, readBlockInto, readThroughTemp, hr, Option.map_some, UInt32.toNat_zero,
    List.drop_zero, List.take_of_length_le hlen.le]

theorem Complete.readAllInto (h : io.Complete) {turns : ℕ} (ht : n.toNat ≤ turns)
    (ho : offset ≤ io.sizeInBytes) :
    io.readAllInto turns r offset n buffer 0 =
      (r.storeBytes buffer (io.bytesFrom offset.toNat (io.room offset n)),
        .returned (io.room offset n : ℤ)) := by
  rw [readAllInto_eq 0 ht, readLoop_bytes 0 ht ho (h.readable offset n), Int.zero_add]
  rfl

theorem readAllInto_past {turns : ℕ} (ht : n.toNat ≤ turns) (ho : io.sizeInBytes < offset) :
    io.readAllInto turns r offset n buffer 0 = (r, .returned (if n = 0 then 0 else -1)) := by
  by_cases hn : n = 0
  · rw [if_pos hn, hn, readAllInto_zero]
  · have hpos : 0 < n.toNat := Nat.pos_of_ne_zero fun h => hn (UInt32.toNat_inj.mp h)
    obtain ⟨t, rfl⟩ : ∃ t, turns = t + 1 := ⟨turns - 1, by omega⟩
    rw [readAllInto_eq 0 ht, readLoop_past hn ho, if_neg hn]
    rfl

/-- For every device or file whose blocks can be read, every offset, count, buffer and memory:
`read_all` ends after at most `n` turns and fails no assertion. It returns -1 exactly for an offset
behind the end with something asked for, and otherwise the number of bytes asked for that are left.
That many bytes of the buffer become those from the offset on, and no other byte of memory changes.
The two ways of reading a whole block do the same. -/
theorem read_all_reads_bytes (io : BlockIO) (h : io.Complete) (r : Ram) (offset n buffer : UInt32) :
    ∃ (r' : Ram) (c : ℤ),
      (∀ turns, n.toNat ≤ turns → io.readAllInto turns r offset n buffer 0 = (r', .returned c)) ∧
      (0 < n → (c = -1 ↔ io.sizeInBytes < offset)) ∧
      (offset ≤ io.sizeInBytes → c = min n.toNat (io.sizeInBytes.toNat - offset.toNat)) ∧
      (∀ i < min n.toNat (io.sizeInBytes.toNat - offset.toNat),
        r'.byte (buffer + UInt32.ofNat i) = io.byteAt (offset.toNat + i)) ∧
      (∀ a ∉ Ram.range buffer (min n.toNat (io.sizeInBytes.toNat - offset.toNat)),
        r'.byte a = r.byte a) ∧
      ∀ b : UInt32, b.toNat * io.blockSize.toNat < io.sizeInBytes.toNat →
        io.readWhole r b buffer = io.readThroughTemp r b 0 io.blockSize buffer := by
  have hpaths : ∀ b : UInt32, b.toNat * io.blockSize.toNat < io.sizeInBytes.toNat →
      io.readWhole r b buffer = io.readThroughTemp r b 0 io.blockSize buffer :=
    fun b hb => readWhole_eq_readThroughTemp (h b hb)
  by_cases ho : offset ≤ io.sizeInBytes
  · have hle := UInt32.le_iff_toNat_le.mp ho
    have hn := n.toNat_lt
    have hroom : io.room offset n ≤ n.toNat := min_le_left _ _
    refine ⟨_, _, fun turns ht => h.readAllInto ht ho, fun _ => ?_, fun _ => rfl, fun i hi => ?_,
      fun a ha => ?_, hpaths⟩
    · rw [UInt32.lt_iff_toNat_lt]
      omega
    · rw [Ram.storeBytes_getElem (by rw [bytesFrom_length]; omega) (by rwa [bytesFrom_length])]
      simp [bytesFrom]
    · exact Ram.storeBytes_of_notMem (by rwa [bytesFrom_length])
  · have hlt : io.sizeInBytes < offset := by
      rw [UInt32.le_iff_toNat_le] at ho
      exact UInt32.lt_iff_toNat_lt.mpr (by omega)
    have hzero : min n.toNat (io.sizeInBytes.toNat - offset.toNat) = 0 := by
      rw [UInt32.lt_iff_toNat_lt] at hlt
      omega
    refine ⟨_, _, fun turns ht => readAllInto_past ht hlt, fun hn => ?_, fun hle => absurd hle ho,
      fun i hi => ?_, fun _ _ => rfl, hpaths⟩
    · rw [if_neg (by rintro rfl; exact absurd hn (by decide))]
      exact iff_of_true rfl hlt
    · rw [hzero] at hi
      exact absurd hi (Nat.not_lt_zero i)

theorem threeBytes_pos : (0 : UInt32) < 3 := by decide

def smallDevice : BlockIO where
  blockSize := 3
  sizeInBytes := 7
  readBlock _ := .returns [5, 6, 7] ()
  positive := threeBytes_pos
  stored_le _ := le_rfl
  stored_eq _ _ := rfl

theorem small_device_tail : ∃ (r : Ram) (c : ℤ),
    (∀ turns, 9 ≤ turns → smallDevice.readAllInto turns ⟨fun _ => 0, []⟩ 2 9 4096 0 = (r, .returned c)) ∧
      c = 5 ∧ ∀ i < 5, r.byte (4096 + UInt32.ofNat i) = smallDevice.byteAt (2 + i) := by
  obtain ⟨r, c, hrun, -, hc, hbytes, -⟩ :=
    read_all_reads_bytes smallDevice (fun _ _ => rfl) ⟨fun _ => 0, []⟩ 2 9 4096
  exact ⟨r, c, hrun, hc (by decide), hbytes⟩

end BlockIO
end MMapKernel.Fs
