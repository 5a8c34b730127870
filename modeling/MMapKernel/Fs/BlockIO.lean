import Mathlib

/-!
# Block devices: `kernel/block_io.cc`

A read stores bytes one after another from its buffer pointer on. `Transfer` keeps them in that
order, with what the call returned; a call that fails an `ASSERT` returns nothing, but the bytes
it stored before stay stored. `read_block` is the virtual function of the class. That it stores
no more than a block, and a whole block when it returns, is what makes `buffer += cnt` in
`read_all` continue right behind the bytes stored so far.
-/

namespace MMapKernel.Fs

structure Transfer (α : Type) where
  stored : List UInt8
  result : Option α
deriving DecidableEq, Repr

namespace Transfer

def returns {α : Type} (stored : List UInt8) (value : α) : Transfer α := ⟨stored, some value⟩

def fails {α : Type} (stored : List UInt8) : Transfer α := ⟨stored, none⟩

end Transfer

structure BlockIO where
  blockSize : UInt32
  sizeInBytes : UInt32
  readBlock : UInt32 → Transfer Unit
  positive : 0 < blockSize
  stored_le : ∀ b, (readBlock b).stored.length ≤ blockSize.toNat
  stored_eq : ∀ b, (readBlock b).result = some () → (readBlock b).stored.length = blockSize.toNat

namespace BlockIO

def readPart (io : BlockIO) (blockNumber offsetInBlock actual : UInt32) : Transfer ℤ :=
  if actual = io.blockSize then
    if offsetInBlock ≠ 0 then .fails []
    else
      let r := io.readBlock blockNumber
      ⟨r.stored, r.result.map fun _ => actual.toNat⟩
  else if ¬ offsetInBlock + actual ≤ io.blockSize then .fails []
  else
    -- `read_block` stores into `temp`; only the `memcpy` stores through the pointer
    let temp := io.readBlock blockNumber
    match temp.result with
    | none => .fails []
    | some _ =>
      .returns ((temp.stored.drop offsetInBlock.toNat).take actual.toNat) actual.toNat

def read (io : BlockIO) (offset desired : UInt32) : Transfer ℤ :=
  let sz := io.sizeInBytes
  if sz < offset then .returns [] (-1)
  else if offset = sz then .returns [] 0
  else
    let n := min desired (sz - offset)
    let offsetInBlock := offset % io.blockSize
    let actual := min (io.blockSize - offsetInBlock) n
    if ¬ (actual ≤ n ∧ offset + actual ≤ sz) then .fails []
    else io.readPart (offset / io.blockSize) offsetInBlock actual

/-- The loop of `read_all`. Every turn that goes on has read at least one byte, so `n` turns
are enough, and none is left only when `n` is 0. -/
def readLoop (io : BlockIO) : ℕ → UInt32 → UInt32 → ℤ → Transfer ℤ
  | 0, _, _, total => .returns [] total
  | turns + 1, offset, n, total =>
    if n = 0 then .returns [] total
    else
      let r := io.read offset n
      match r.result with
      | none => .fails r.stored
      | some cnt =>
        if cnt < 0 then .returns r.stored cnt
        else if cnt = 0 then .returns r.stored total
        else
          let step := UInt32.ofNat cnt.toNat
          let rest := readLoop io turns (offset + step) (n - step) (total + cnt)
          ⟨r.stored ++ rest.stored, rest.result⟩

def readAll (io : BlockIO) (offset n : UInt32) : Transfer ℤ := io.readLoop n.toNat offset n 0

def readThing (io : BlockIO) (offset size : UInt32) : Option (List UInt8) :=
  let r := io.readAll offset size
  if r.result = some (size.toNat : ℤ) then some r.stored else none

variable {io : BlockIO} {offset n : UInt32}

def span (io : BlockIO) (offset n : UInt32) : UInt32 :=
  min (io.blockSize - offset % io.blockSize) (min n (io.sizeInBytes - offset))

def room (io : BlockIO) (offset n : UInt32) : ℕ :=
  min n.toNat (io.sizeInBytes.toNat - offset.toNat)

theorem offset_in_block (io : BlockIO) (offset : UInt32) :
    (offset % io.blockSize).toNat < io.blockSize.toNat := by
  rw [UInt32.toNat_mod]
  exact Nat.mod_lt _ (UInt32.lt_iff_toNat_lt.mp io.positive)

theorem span_toNat (ho : offset < io.sizeInBytes) :
    (io.span offset n).toNat =
      min (io.blockSize.toNat - offset.toNat % io.blockSize.toNat) (io.room offset n) := by
  have hmod : offset % io.blockSize ≤ io.blockSize :=
    UInt32.le_iff_toNat_le.mpr (io.offset_in_block offset).le
  have hle : offset ≤ io.sizeInBytes := UInt32.le_iff_toNat_le.mpr (UInt32.lt_iff_toNat_lt.mp ho).le
  rw [span, room, UInt32.toNat_min, UInt32.toNat_min, UInt32.toNat_sub_of_le _ _ hmod,
    UInt32.toNat_sub_of_le _ _ hle, UInt32.toNat_mod]

theorem read_past (h : io.sizeInBytes < offset) : io.read offset n = .returns [] (-1) := by
  simp [read, h]

theorem read_at_end : io.read io.sizeInBytes n = .returns [] 0 := by
  simp [read]

theorem span_asserts (ho : offset < io.sizeInBytes) :
    io.span offset n ≤ min n (io.sizeInBytes - offset) ∧ offset + io.span offset n ≤ io.sizeInBytes := by
  have hs := span_toNat (n := n) ho
  have hlt := UInt32.lt_iff_toNat_lt.mp ho
  have hsz := io.sizeInBytes.toNat_lt
  constructor
  · rw [UInt32.le_iff_toNat_le, span, UInt32.toNat_min]
    exact min_le_right _ _
  · rw [UInt32.le_iff_toNat_le, UInt32.toNat_add, hs]
    unfold room
    omega

theorem read_inside (ho : offset < io.sizeInBytes) :
    io.read offset n =
      io.readPart (offset / io.blockSize) (offset % io.blockSize) (io.span offset n) := by
  have hlt := UInt32.lt_iff_toNat_lt.mp ho
  have hpast : ¬ io.sizeInBytes < offset := by
    rw [UInt32.lt_iff_toNat_lt]
    omega
  have hne : offset ≠ io.sizeInBytes := fun h => by rw [h] at hlt; omega
  simp only [read, hpast, hne, if_false]
  exact if_neg (not_not.mpr (span_asserts ho))

theorem span_in_block (ho : offset < io.sizeInBytes) :
    (offset % io.blockSize).toNat + (io.span offset n).toNat ≤ io.blockSize.toNat := by
  have hs := span_toNat (n := n) ho
  have hmod := io.offset_in_block offset
  rw [UInt32.toNat_mod] at hmod ⊢
  omega

theorem span_pos (ho : offset < io.sizeInBytes) (hn : n ≠ 0) :
    0 < (io.span offset n).toNat := by
  have hs := span_toNat (n := n) ho
  have hmod := io.offset_in_block offset
  have hn' : 0 < n.toNat := Nat.pos_of_ne_zero fun h => hn (UInt32.toNat_inj.mp h)
  rw [UInt32.lt_iff_toNat_lt] at ho
  rw [UInt32.toNat_mod] at hmod
  rw [hs, room]
  omega

theorem readPart_stored_le (b o actual : UInt32) :
    (io.readPart b o actual).stored.length ≤ actual.toNat := by
  unfold readPart
  split
  case isTrue h =>
    split
    case isTrue => exact Nat.zero_le _
    case isFalse => exact h ▸ io.stored_le b
  case isFalse =>
    split
    case isTrue => exact Nat.zero_le _
    case isFalse =>
      dsimp only
      split
      case h_1 => exact Nat.zero_le _
      case h_2 => exact List.length_take_le _ _

theorem readPart_returned {b o actual : UInt32} {c : ℤ} (h : o.toNat + actual.toNat ≤ io.blockSize.toNat)
    (hc : (io.readPart b o actual).result = some c) :
    c = actual.toNat ∧ (io.readPart b o actual).stored.length = actual.toNat := by
  unfold readPart at hc ⊢
  split at hc
  case isTrue ha =>
    split at hc
    case isTrue => cases hc
    case isFalse ho =>
      simp only [ha, if_true, ho, if_false] at hc ⊢
      cases hr : (io.readBlock b).result with
      | none => simp [hr] at hc
      | some u =>
        refine ⟨by simpa [hr] using hc.symm, io.stored_eq b hr⟩
  case isFalse ha =>
    split at hc
    case isTrue => cases hc
    case isFalse ho =>
      simp only [ha, if_false, ho] at hc ⊢
      cases hr : (io.readBlock b).result with
      | none =>
        simp only [hr] at hc
        cases hc
      | some u =>
        simp only [hr, Transfer.returns, Option.some.injEq] at hc ⊢
        refine ⟨hc.symm, ?_⟩
        rw [List.length_take, List.length_drop, io.stored_eq b hr]
        omega

theorem readPart_returns {b o actual : UInt32} {stored : List UInt8} (hr : io.readBlock b = .returns stored ())
    (hb : o.toNat + actual.toNat ≤ io.blockSize.toNat) :
    io.readPart b o actual = .returns ((stored.drop o.toNat).take actual.toNat) actual.toNat := by
  unfold readPart
  split
  case isTrue ha =>
    have hzero : o.toNat = 0 := by
      rw [ha] at hb
      omega
    have hlen : stored.length = io.blockSize.toNat := by
      have := io.stored_eq b (by rw [hr]; rfl)
      rwa [hr] at this
    rw [if_neg (not_not.mpr (UInt32.toNat_inj.mp hzero)), hr, hzero, List.drop_zero,
      List.take_of_length_le (by rw [hlen, ha])]
    rfl
  case isFalse =>
    have hle : o + actual ≤ io.blockSize := by
      have := io.blockSize.toNat_lt
      rw [UInt32.le_iff_toNat_le, UInt32.toNat_add]
      omega
    rw [if_neg (not_not.mpr hle), hr]
    rfl

theorem readLoop_zero (turns : ℕ) (total : ℤ) : io.readLoop turns offset 0 total = .returns [] total := by
  cases turns <;> simp [readLoop]

theorem readLoop_past {turns : ℕ} {total : ℤ} (hn : n ≠ 0) (h : io.sizeInBytes < offset) :
    io.readLoop (turns + 1) offset n total = .returns [] (-1) := by
  simp [readLoop, hn, read_past h, Transfer.returns]

theorem readLoop_at_end (turns : ℕ) (total : ℤ) :
    io.readLoop turns io.sizeInBytes n total = .returns [] total := by
  cases turns with
  | zero => rfl
  | succ turns => simp [readLoop, read_at_end, Transfer.returns]

theorem readLoop_inside (turns : ℕ) (total : ℤ)
    (ho : offset < io.sizeInBytes) (hn : n ≠ 0) :
    (io.read offset n).result = none ∧
      io.readLoop (turns + 1) offset n total = .fails (io.read offset n).stored ∨
    (io.read offset n).result = some ((io.span offset n).toNat : ℤ) ∧
      (io.read offset n).stored.length = (io.span offset n).toNat ∧
      io.readLoop (turns + 1) offset n total =
        let rest := io.readLoop turns (offset + io.span offset n) (n - io.span offset n)
          (total + (io.span offset n).toNat)
        ⟨(io.read offset n).stored ++ rest.stored, rest.result⟩ := by
  have hpos := span_pos ho hn
  cases hr : (io.read offset n).result with
  | none => exact .inl ⟨rfl, by simp [readLoop, hn, hr]⟩
  | some c =>
    have hpart := readPart_returned (span_in_block ho) (read_inside ho ▸ hr)
    rw [← read_inside ho] at hpart
    obtain ⟨rfl, hlen⟩ := hpart
    refine .inr ⟨rfl, hlen, ?_⟩
    have hneg : ¬ ((io.span offset n).toNat : ℤ) < 0 := by omega
    have hzero : ((io.span offset n).toNat : ℤ) ≠ 0 := by omega
    simp only [readLoop, hn, if_false, hr, hneg, hzero, Int.toNat_natCast, UInt32.ofNat_toNat]

theorem next_room (ho : offset < io.sizeInBytes) :
    (offset + io.span offset n).toNat = offset.toNat + (io.span offset n).toNat ∧
    (n - io.span offset n).toNat = n.toNat - (io.span offset n).toNat ∧
    (io.span offset n).toNat + io.room (offset + io.span offset n) (n - io.span offset n) =
      io.room offset n ∧
    offset + io.span offset n ≤ io.sizeInBytes := by
  have hs := span_toNat (n := n) ho
  rw [UInt32.lt_iff_toNat_lt] at ho
  have hsz := io.sizeInBytes.toNat_lt
  have hroom : (io.span offset n).toNat ≤ io.room offset n := hs ▸ min_le_right _ _
  have hn : io.room offset n ≤ n.toNat := min_le_left _ _
  have hend : io.room offset n ≤ io.sizeInBytes.toNat - offset.toNat := min_le_right _ _
  have h1 : (offset + io.span offset n).toNat = offset.toNat + (io.span offset n).toNat := by
    rw [UInt32.toNat_add]
    omega
  have h2 : (n - io.span offset n).toNat = n.toNat - (io.span offset n).toNat :=
    UInt32.toNat_sub_of_le _ _ (UInt32.le_iff_toNat_le.mpr (hroom.trans hn))
  refine ⟨h1, h2, ?_, ?_⟩
  · rw [room, room, h1, h2]
    unfold room at hroom
    omega
  · rw [UInt32.le_iff_toNat_le, h1]
    omega

theorem readLoop_stored_le (turns : ℕ) (total : ℤ) :
    (io.readLoop turns offset n total).stored.length ≤ io.room offset n := by
  induction turns generalizing offset n total with
  | zero => exact Nat.zero_le _
  | succ turns ih =>
    by_cases hn : n = 0
    · rw [hn, readLoop_zero]
      exact Nat.zero_le _
    rcases lt_trichotomy offset.toNat io.sizeInBytes.toNat with ho | ho | ho
    · rw [← UInt32.lt_iff_toNat_lt] at ho
      obtain ⟨-, -, hroom, -⟩ := next_room (n := n) ho
      rcases readLoop_inside turns total ho hn with ⟨-, h⟩ | ⟨-, hlen, h⟩
      · rw [h, Transfer.fails, read_inside ho]
        exact (readPart_stored_le _ _ _).trans (by omega)
      · rw [h]
        simp only [List.length_append, hlen, ← hroom]
        exact Nat.add_le_add_left (ih _) _
    · rw [UInt32.toNat_inj.mp ho, readLoop_at_end]
      exact Nat.zero_le _
    · rw [readLoop_past hn (UInt32.lt_iff_toNat_lt.mpr ho)]
      exact Nat.zero_le _

theorem readLoop_returned {turns : ℕ} {total c : ℤ} (ht : n.toNat ≤ turns)
    (ho : offset ≤ io.sizeInBytes) (hc : (io.readLoop turns offset n total).result = some c) :
    (io.readLoop turns offset n total).stored.length = io.room offset n ∧
      c = total + io.room offset n := by
  induction turns generalizing offset n total with
  | zero =>
    simp only [readLoop, Transfer.returns, Option.some.injEq] at hc
    simp [readLoop, Transfer.returns, room, Nat.le_zero.mp ht, hc]
  | succ turns ih =>
    by_cases hn : n = 0
    · subst hn
      rw [readLoop_zero] at hc ⊢
      simpa [Transfer.returns, room] using hc.symm
    rcases Nat.lt_or_ge offset.toNat io.sizeInBytes.toNat with hlt | hge
    · rw [← UInt32.lt_iff_toNat_lt] at hlt
      have hpos := span_pos hlt hn
      obtain ⟨-, hleft, hroom, hle⟩ := next_room (n := n) hlt
      rcases readLoop_inside turns total hlt hn with ⟨-, h⟩ | ⟨-, hlen, h⟩
      · rw [h] at hc
        cases hc
      · rw [h] at hc ⊢
        obtain ⟨hstored, rfl⟩ := ih (by omega) hle hc
        simp only [List.length_append, hlen, hstored, hroom, true_and]
        omega
    · obtain rfl : offset = io.sizeInBytes :=
        UInt32.toNat_inj.mp (le_antisymm (UInt32.le_iff_toNat_le.mp ho) hge)
      rw [readLoop_at_end] at hc ⊢
      simpa [Transfer.returns, room] using hc.symm

/-- A loop whose turns store the `bytes` of the positions that they read, given a property of the
arguments that a turn hands to the next one. -/
theorem readLoop_returns (P : UInt32 → UInt32 → Prop) (bytes : ℕ → ℕ → List UInt8)
    (hzero : ∀ o, bytes o 0 = []) (hadd : ∀ o j k, bytes o (j + k) = bytes o j ++ bytes (o + j) k)
    (hturn : ∀ offset n, offset < io.sizeInBytes → n ≠ 0 → P offset n →
      io.read offset n = .returns (bytes offset.toNat (io.span offset n).toNat)
        (io.span offset n).toNat ∧
      P (offset + io.span offset n) (n - io.span offset n))
    {turns : ℕ} (total : ℤ) (ht : n.toNat ≤ turns) (ho : offset ≤ io.sizeInBytes) (hp : P offset n) :
    io.readLoop turns offset n total =
      .returns (bytes offset.toNat (io.room offset n)) (total + io.room offset n) := by
  induction turns generalizing offset n total with
  | zero => simp [readLoop, room, Nat.le_zero.mp ht, hzero]
  | succ turns ih =>
    by_cases hn : n = 0
    · rw [hn, readLoop_zero]
      simp [room, hzero]
    rcases Nat.lt_or_ge offset.toNat io.sizeInBytes.toNat with hlt | hge
    · rw [← UInt32.lt_iff_toNat_lt] at hlt
      have hpos := span_pos hlt hn
      obtain ⟨hnext, hleft, hroom, hle⟩ := next_room (n := n) hlt
      obtain ⟨hread, hp'⟩ := hturn offset n hlt hn hp
      rcases readLoop_inside turns total hlt hn with ⟨hf, -⟩ | ⟨-, -, hloop⟩
      · simp [hread, Transfer.returns] at hf
      · rw [hloop, ih _ (by omega) hle hp', hread]
        simp only [Transfer.returns, hnext, ← hroom, hadd, Transfer.mk.injEq, Option.some.injEq, true_and]
        omega
    · obtain rfl : offset = io.sizeInBytes :=
        UInt32.toNat_inj.mp (le_antisymm (UInt32.le_iff_toNat_le.mp ho) hge)
      rw [readLoop_at_end]
      simp [room, hzero]

theorem readAll_stored_le : (io.readAll offset n).stored.length ≤ io.room offset n :=
  readLoop_stored_le _ _

theorem readAll_returned {c : ℤ} (ho : offset ≤ io.sizeInBytes)
    (hc : (io.readAll offset n).result = some c) :
    (io.readAll offset n).stored.length = io.room offset n ∧ c = io.room offset n := by
  simpa [readAll] using readLoop_returned le_rfl ho hc

theorem readAll_stored_eq {c : ℤ} (hc : (io.readAll offset n).result = some c) :
    (io.readAll offset n).stored.length = io.room offset n := by
  rcases le_or_gt offset.toNat io.sizeInBytes.toNat with ho | ho
  · exact (readAll_returned (UInt32.le_iff_toNat_le.mpr ho) hc).1
  · have hle : (io.readAll offset n).stored.length ≤ io.room offset n := readAll_stored_le
    have hroom : io.room offset n = 0 := by rw [room, Nat.sub_eq_zero_of_le ho.le, Nat.min_zero]
    omega

/-- The blocks in front of the end of `data` read as its consecutive parts. -/
structure Holds (io : BlockIO) (data : List UInt8) : Prop where
  block : ∀ b : UInt32, b.toNat * io.blockSize.toNat < data.length →
    io.readBlock b =
      .returns ((data.drop (b.toNat * io.blockSize.toNat)).take io.blockSize.toNat) ()

namespace Holds
variable {data : List UInt8}

theorem part (h : io.Holds data) {actual : UInt32} (hin : offset.toNat < data.length)
    (hb : (offset % io.blockSize).toNat + actual.toNat ≤ io.blockSize.toNat) :
    io.readPart (offset / io.blockSize) (offset % io.blockSize) actual =
      .returns ((data.drop offset.toNat).take actual.toNat) actual.toNat := by
  have hdiv := Nat.div_add_mod' offset.toNat io.blockSize.toNat
  rw [← UInt32.toNat_div, ← UInt32.toNat_mod] at hdiv
  rw [readPart_returns (h.block (offset / io.blockSize) (by omega)) hb, List.drop_take, List.drop_drop,
    List.take_take, hdiv, min_eq_left (by omega)]

theorem readLoop (h : io.Holds data) {turns : ℕ} (total : ℤ) (ht : n.toNat ≤ turns)
    (ho : offset ≤ io.sizeInBytes) (hin : offset.toNat + io.room offset n ≤ data.length) :
    io.readLoop turns offset n total =
      .returns ((data.drop offset.toNat).take (io.room offset n)) (total + io.room offset n) := by
  refine readLoop_returns (fun o k => o.toNat + io.room o k ≤ data.length)
    (fun o k => (data.drop o).take k) (fun o => List.take_zero)
    (fun o j k => by rw [List.take_add, List.drop_drop]) (fun o k hlt hk hin => ?_) total ht ho hin
  have hpos := span_pos hlt hk
  obtain ⟨hnext, -, hroom, -⟩ := next_room (n := k) hlt
  refine ⟨?_, by omega⟩
  rw [read_inside hlt]
  exact h.part (by omega) (span_in_block hlt)

theorem readAll (h : io.Holds data) (ho : offset ≤ io.sizeInBytes)
    (hin : offset.toNat + io.room offset n ≤ data.length) :
    io.readAll offset n =
      .returns ((data.drop offset.toNat).take (io.room offset n)) (io.room offset n : ℤ) := by
  simpa only [zero_add, BlockIO.readAll] using h.readLoop 0 le_rfl ho hin

theorem readThing (h : io.Holds data) {size : UInt32}
    (hs : offset.toNat + size.toNat ≤ io.sizeInBytes.toNat)
    (hin : offset.toNat + size.toNat ≤ data.length) :
    io.readThing offset size = some ((data.drop offset.toNat).take size.toNat) := by
  have hroom : io.room offset size = size.toNat := by
    unfold room
    omega
  have hle : offset ≤ io.sizeInBytes := UInt32.le_iff_toNat_le.mpr (by omega)
  simp [h.readAll (n := size) hle (by omega), BlockIO.readThing, Transfer.returns, hroom]

end Holds
end BlockIO
end MMapKernel.Fs
