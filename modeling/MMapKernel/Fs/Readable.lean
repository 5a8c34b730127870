import MMapKernel.Fs.BlockIO

/-!
# When a read returns

`read_all` fails an assertion exactly if `read_block` does so for one of the blocks it comes to.
-/

namespace MMapKernel.Fs
namespace BlockIO

variable {io : BlockIO} {offset n : UInt32}

def Readable (io : BlockIO) (offset n : UInt32) : Prop :=
  ∀ i < io.room offset n, (io.readBlock (UInt32.ofNat ((offset.toNat + i) / io.blockSize.toNat))).result ≠ none

instance readableDecidable (io : BlockIO) (offset n : UInt32) : Decidable (io.Readable offset n) :=
  inferInstanceAs (Decidable (∀ i < io.room offset n,
    (io.readBlock (UInt32.ofNat ((offset.toNat + i) / io.blockSize.toNat))).result ≠ none))

theorem readPart_fails_iff {b o actual : UInt32} (h : o.toNat + actual.toNat ≤ io.blockSize.toNat) :
    (io.readPart b o actual).result = none ↔ (io.readBlock b).result = none := by
  have hbs := io.blockSize.toNat_lt
  unfold readPart
  split
  case isTrue ha =>
    have ho : o = 0 := UInt32.toNat_inj.mp (by
      rw [ha] at h
      simp only [UInt32.reduceToNat]
      omega)
    simp [ho]
  case isFalse =>
    have hle : o + actual ≤ io.blockSize := by
      rw [UInt32.le_iff_toNat_le, UInt32.toNat_add]
      omega
    rw [if_neg (not_not.mpr hle)]
    cases hr : (io.readBlock b).result with
    | none => simp [hr, Transfer.fails]
    | some u => simp [hr, Transfer.returns]

theorem read_fails_iff (ho : offset < io.sizeInBytes) :
    (io.read offset n).result = none ↔ (io.readBlock (offset / io.blockSize)).result = none := by
  rw [read_inside ho]
  exact readPart_fails_iff (span_in_block ho)

theorem readable_inside (ho : offset < io.sizeInBytes) (hn : n ≠ 0) :
    io.Readable offset n ↔ (io.readBlock (offset / io.blockSize)).result ≠ none ∧
      io.Readable (offset + io.span offset n) (n - io.span offset n) := by
  have hpos := span_pos ho hn
  have hblock := span_in_block (n := n) ho
  obtain ⟨hnext, -, hroom, -⟩ := next_room (n := n) ho
  have hsame : ∀ i < (io.span offset n).toNat,
      UInt32.ofNat ((offset.toNat + i) / io.blockSize.toNat) = offset / io.blockSize := by
    intro i hi
    have hdiv : (offset.toNat + i) / io.blockSize.toNat = offset.toNat / io.blockSize.toNat := by
      rw [UInt32.toNat_mod] at hblock
      have hsplit := Nat.div_add_mod' offset.toNat io.blockSize.toNat
      apply Nat.div_eq_of_lt_le (by omega)
      rw [Nat.add_mul, Nat.one_mul]
      omega
    rw [hdiv, ← UInt32.toNat_div, UInt32.ofNat_toNat]
  unfold Readable
  rw [← hroom]
  constructor
  · intro h
    refine ⟨?_, fun i hi => ?_⟩
    · have hfirst := h 0 (by omega)
      rwa [hsame 0 hpos] at hfirst
    · have hrest := h ((io.span offset n).toNat + i) (by omega)
      rwa [← Nat.add_assoc, ← hnext] at hrest
  · rintro ⟨hfirst, hrest⟩ i hi
    by_cases hlt : i < (io.span offset n).toNat
    · rw [hsame i hlt]
      exact hfirst
    · have h := hrest (i - (io.span offset n).toNat) (by omega)
      rw [hnext] at h
      rwa [show offset.toNat + i =
        offset.toNat + (io.span offset n).toNat + (i - (io.span offset n).toNat) by omega]

theorem readLoop_returns_iff {turns : ℕ} (total : ℤ) (ht : n.toNat ≤ turns) :
    (io.readLoop turns offset n total).result ≠ none ↔ io.Readable offset n := by
  induction turns generalizing offset n total with
  | zero =>
    have hroom : io.room offset n = 0 := by
      rw [room, Nat.le_zero.mp ht, Nat.zero_min]
    simp [readLoop, Transfer.returns, Readable, hroom]
  | succ turns ih =>
    by_cases hn : n = 0
    · have hroom : io.room offset n = 0 := by simp [room, hn]
      rw [hn, readLoop_zero]
      rw [hn] at hroom
      simp [Transfer.returns, Readable, hroom]
    have hend : ¬offset < io.sizeInBytes → io.room offset n = 0 := fun h => by
      rw [UInt32.lt_iff_toNat_lt] at h
      rw [room, Nat.sub_eq_zero_of_le (by omega), Nat.min_zero]
    rcases lt_trichotomy offset.toNat io.sizeInBytes.toNat with ho | ho | ho
    · rw [← UInt32.lt_iff_toNat_lt] at ho
      have hpos := span_pos ho hn
      obtain ⟨-, hleft, -, -⟩ := next_room (n := n) ho
      rw [readable_inside ho hn, ne_eq (io.readBlock _).result, ← read_fails_iff (n := n) ho]
      rcases readLoop_inside turns total ho hn with ⟨hf, h⟩ | ⟨hr, -, h⟩
      · simp [h, hf, Transfer.fails]
      · rw [h]
        simp only [ih _ (show (n - io.span offset n).toNat ≤ turns by omega), hr]
        simp
    · have hroom := hend fun h => by
        rw [UInt32.lt_iff_toNat_lt] at h
        omega
      rw [UInt32.toNat_inj.mp ho] at hroom ⊢
      rw [readLoop_at_end]
      simp [Transfer.returns, Readable, hroom]
    · have hroom := hend fun h => by
        rw [UInt32.lt_iff_toNat_lt] at h
        omega
      rw [readLoop_past hn (UInt32.lt_iff_toNat_lt.mpr ho)]
      simp [Transfer.returns, Readable, hroom]

theorem readAll_returns_iff : (io.readAll offset n).result ≠ none ↔ io.Readable offset n :=
  readLoop_returns_iff 0 le_rfl

theorem readThing_iff {size : UInt32} (hs : size ≠ 0) :
    (∃ bytes, io.readThing offset size = some bytes) ↔
      offset.toNat + size.toNat ≤ io.sizeInBytes.toNat ∧ io.Readable offset size := by
  have hpos : 0 < size.toNat := Nat.pos_of_ne_zero fun h => hs (UInt32.toNat_inj.mp h)
  rw [← readAll_returns_iff]
  unfold readThing
  dsimp only
  constructor
  · rintro ⟨bytes, h⟩
    split at h
    case isFalse => cases h
    case isTrue hr =>
      have hstored := readAll_stored_eq hr
      refine ⟨?_, by simp [hr]⟩
      by_contra hout
      by_cases ho : offset ≤ io.sizeInBytes
      · have hroom := (readAll_returned ho hr).2
        have hlt : io.room offset size < size.toNat := by
          unfold room
          omega
        omega
      · rw [UInt32.le_iff_toNat_le, not_le] at ho
        obtain ⟨turns, ht⟩ : ∃ t, size.toNat = t + 1 := ⟨size.toNat - 1, by omega⟩
        rw [readAll, ht, readLoop_past hs (UInt32.lt_iff_toNat_lt.mpr ho)] at hr
        simp only [Transfer.returns, Option.some.injEq] at hr
        omega
  · rintro ⟨hin, hr⟩
    obtain ⟨c, hc⟩ := Option.ne_none_iff_exists'.mp hr
    have hle : offset ≤ io.sizeInBytes := UInt32.le_iff_toNat_le.mpr (by omega)
    have hroom : io.room offset size = size.toNat := by
      unfold room
      omega
    have hcount := (readAll_returned hle hc).2
    rw [hroom] at hcount
    rw [hcount] at hc
    exact ⟨_, if_pos hc⟩

theorem Holds.readable {data : List UInt8} (h : io.Holds data) (hs : io.sizeInBytes.toNat ≤ data.length)
    (offset n : UInt32) : io.Readable offset n := by
  by_cases ho : offset ≤ io.sizeInBytes
  · rw [← readAll_returns_iff, h.readAll ho]
    · simp [Transfer.returns]
    · rw [UInt32.le_iff_toNat_le] at ho
      unfold room
      omega
  · rw [UInt32.le_iff_toNat_le] at ho
    intro i hi
    unfold room at hi
    omega

end BlockIO
end MMapKernel.Fs
