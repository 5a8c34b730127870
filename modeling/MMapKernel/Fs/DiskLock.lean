import MMapKernel.Fs.Ext2
import MMapKernel.Sys.UserMemory

/-!
# What a read does with the disk lock

`Ide::read_block` holds the lock of the driver while it stores a sector through its buffer pointer.
Whole blocks are transferred in place, so the pointer may be the caller's; parts of a block go through
a buffer of the kernel and are copied after the lock is released. The functions here give the calls of
`lock` and `unlock` and the stores through the caller's pointer in the order of the source. They follow
`BlockIO.read` and its callers, whose results say how far a call gets; where an `ASSERT` fails or the
drive reports an error the list ends.
-/

namespace MMapKernel.Fs
open Sys (addresses)
open BlockIO (readThing readPart_returned read_past span_in_block span_asserts readLoop_past)

inductive Action where
  | lock
  | unlock
  | store (a : UInt32)
deriving DecidableEq, Repr

def stores : Option UInt32 → ℕ → List Action
  | none, _ => []
  | some p, n => (addresses p n).map .store

def Disk.readSectorActions (disk : Disk) (sector : UInt32) (buffer : Option UInt32) : List Action :=
  .lock ::
    match (disk.readSector sector).result with
    | none => []
    | some _ => stores buffer 512 ++ [.unlock]

namespace BlockIO

def readPartActions (io : BlockIO) (block : UInt32 → Option UInt32 → List Action)
    (blockNumber offsetInBlock actual : UInt32) (buffer : Option UInt32) : List Action :=
  if actual = io.blockSize then
    if offsetInBlock ≠ 0 then [] else block blockNumber buffer
  else if ¬ offsetInBlock + actual ≤ io.blockSize then []
  else
    block blockNumber none ++
      match (io.readBlock blockNumber).result with
      | none => []
      | some _ => stores buffer actual.toNat

def readActions (io : BlockIO) (block : UInt32 → Option UInt32 → List Action)
    (offset desired : UInt32) (buffer : Option UInt32) : List Action :=
  let sz := io.sizeInBytes
  if sz < offset then []
  else if offset = sz then []
  else
    let n := min desired (sz - offset)
    let offsetInBlock := offset % io.blockSize
    let actual := min (io.blockSize - offsetInBlock) n
    if ¬ (actual ≤ n ∧ offset + actual ≤ sz) then []
    else io.readPartActions block (offset / io.blockSize) offsetInBlock actual buffer

def readLoopActions (io : BlockIO) (block : UInt32 → Option UInt32 → List Action) :
    ℕ → UInt32 → UInt32 → Option UInt32 → List Action
  | 0, _, _, _ => []
  | turns + 1, offset, n, buffer =>
    if n = 0 then []
    else
      io.readActions block offset n buffer ++
        match (io.read offset n).result with
        | none => []
        | some cnt =>
          if cnt ≤ 0 then []
          else
            let step := UInt32.ofNat cnt.toNat
            readLoopActions io block turns (offset + step) (n - step) (buffer.map (· + step))

def readAllActions (io : BlockIO) (block : UInt32 → Option UInt32 → List Action)
    (offset n : UInt32) (buffer : Option UInt32) : List Action :=
  io.readLoopActions block n.toNat offset n buffer

end BlockIO

def Disk.readAllActions (disk : Disk) (offset n : UInt32) (buffer : Option UInt32) : List Action :=
  disk.ide.readAllActions disk.readSectorActions offset n buffer

namespace Node

def blockIndexActions (node : Node) (index : UInt32) : List Action :=
  if index.toNat < 12 then []
  else if index < 12 + node.blockSize / 4 then
    node.disk.readAllActions (node.data.indirect1 * node.blockSize + (index - 12) * 4) 4 none
  else []

def readBlockActions (node : Node) (index : UInt32) (buffer : Option UInt32) : List Action :=
  if ¬ index < node.data.nSectors / (node.blockSize / 512) then []
  else
    node.blockIndexActions index ++
      match node.blockIndex index with
      | none => []
      | some block => node.disk.readAllActions (block * node.blockSize) node.blockSize buffer

def readAllActions (node : Node) (offset n : UInt32) (buffer : Option UInt32) : List Action :=
  node.io.readAllActions node.readBlockActions offset n buffer

end Node

/-- The lock after an action of the thread that may have it; `none` if the thread takes it again. -/
def Action.held : Bool → Action → Option Bool
  | held, .lock => if held then none else some true
  | _, .unlock => some false
  | held, .store _ => some held

def heldAfter (held : Bool) (xs : List Action) : Option Bool := xs.foldlM Action.held held

theorem heldAfter_append (held : Bool) (xs ys : List Action) :
    heldAfter held (xs ++ ys) = (heldAfter held xs).bind fun h => heldAfter h ys :=
  List.foldlM_append

theorem heldAfter_stores (held : Bool) (buffer : Option UInt32) (n : ℕ) :
    heldAfter held (stores buffer n) = some held := by
  cases buffer with
  | none => rfl
  | some p =>
    change heldAfter held ((addresses p n).map .store) = some held
    induction addresses p n with
    | nil => rfl
    | cons a l ih => exact ih

def Brackets (xs : List Action) (returns : Prop) : Prop :=
  ∃ h, heldAfter false xs = some h ∧ (returns → h = false)

namespace Brackets
variable {xs ys : List Action} {p q : Prop}

theorem nil : Brackets [] p := ⟨false, rfl, fun _ => rfl⟩

theorem mono (h : Brackets xs p) (hq : q → p) : Brackets xs q := by
  obtain ⟨held, hx, hfree⟩ := h
  exact ⟨held, hx, fun h => hfree (hq h)⟩

theorem append (hx : Brackets xs p) (hy : p → Brackets ys q) (hstop : ¬ p → ys = [] ∧ ¬ q) :
    Brackets (xs ++ ys) q := by
  obtain ⟨h, hheld, hfree⟩ := hx
  rw [Brackets, heldAfter_append, hheld]
  by_cases hp : p
  · rw [hfree hp]
    exact hy hp
  · obtain ⟨rfl, hq⟩ := hstop hp
    exact ⟨h, rfl, fun h => absurd h hq⟩

theorem stores (buffer : Option UInt32) (n : ℕ) : Brackets (Fs.stores buffer n) p :=
  ⟨false, heldAfter_stores false buffer n, fun _ => rfl⟩

end Brackets

def LocksFirst (xs : List Action) : Prop := ∀ x ∈ xs.head?, x = .lock

namespace LocksFirst
variable {xs ys : List Action}

theorem nil : LocksFirst [] := fun _ hx => nomatch hx

theorem cons (l : List Action) : LocksFirst (.lock :: l) := fun _ hx => (Option.mem_some.mp hx).symm

theorem append (hx : LocksFirst xs) (hy : LocksFirst ys) : LocksFirst (xs ++ ys) := by
  cases xs with
  | nil => exact hy
  | cons x xs => exact fun z hz => hx z hz

theorem heldAfter_eq_none (h : LocksFirst xs) : heldAfter true xs = none ↔ xs ≠ [] := by
  cases xs with
  | nil => simp [heldAfter]
  | cons x xs =>
    have hx := h x rfl
    subst hx
    exact iff_of_true rfl (List.cons_ne_nil _ _)

end LocksFirst

structure Guards (io : BlockIO) (block : UInt32 → Option UInt32 → List Action) : Prop where
  brackets : ∀ b buffer, Brackets (block b buffer) ((io.readBlock b).result ≠ none)
  first : ∀ b, LocksFirst (block b none)

namespace Guards
variable {io : BlockIO} {block : UInt32 → Option UInt32 → List Action}

theorem readPart (h : Guards io block) (b o actual : UInt32) (buffer : Option UInt32) :
    Brackets (io.readPartActions block b o actual buffer) ((io.readPart b o actual).result ≠ none) := by
  unfold BlockIO.readPartActions BlockIO.readPart
  by_cases hwhole : actual = io.blockSize
  · by_cases ho : o ≠ 0
    · simp only [if_pos hwhole, if_pos ho]
      exact .nil
    · simp only [if_pos hwhole, if_neg ho]
      refine (h.brackets b buffer).mono fun hret hnone => ?_
      rw [hnone] at hret
      exact hret rfl
  · by_cases hfit : ¬ o + actual ≤ io.blockSize
    · simp only [if_neg hwhole, if_pos hfit]
      exact .nil
    · simp only [if_neg hwhole, if_neg hfit]
      refine (h.brackets b none).append (fun hret => ?_) fun hret => ?_
      · cases hr : (io.readBlock b).result with
        | none => exact absurd hr hret
        | some _ => exact .stores _ _
      · rw [not_ne_iff.mp hret]
        exact ⟨rfl, fun hne => hne rfl⟩

theorem read (h : Guards io block) (offset n : UInt32) (buffer : Option UInt32) :
    Brackets (io.readActions block offset n buffer) ((io.read offset n).result ≠ none) := by
  unfold BlockIO.readActions BlockIO.read
  by_cases hpast : io.sizeInBytes < offset
  · simp only [if_pos hpast]
    exact .nil
  by_cases hend : offset = io.sizeInBytes
  · simp only [if_neg hpast, if_pos hend]
    exact .nil
  simp only [if_neg hpast, if_neg hend]
  split
  case isTrue => exact .nil
  case isFalse => exact h.readPart _ _ _ _

theorem readLoop (h : Guards io block) (turns : ℕ) (offset n : UInt32) (total : ℤ)
    (buffer : Option UInt32) :
    Brackets (io.readLoopActions block turns offset n buffer)
      ((io.readLoop turns offset n total).result ≠ none) := by
  induction turns generalizing offset n total buffer with
  | zero => exact .nil
  | succ turns ih =>
    by_cases hn : n = 0
    · simp only [hn, BlockIO.readLoopActions, if_true]
      exact .nil
    simp only [hn, BlockIO.readLoopActions, BlockIO.readLoop, if_false]
    refine (h.read offset n buffer).append (fun hret => ?_) fun hret => ?_
    · cases hr : (io.read offset n).result with
      | none => exact absurd hr hret
      | some cnt =>
        rcases lt_trichotomy cnt 0 with hlt | hzero | hgt
        · simp only [hlt.le, if_true]
          exact .nil
        · simp only [hzero, le_refl, if_true]
          exact .nil
        · simp only [hgt.not_ge, hgt.not_gt, hgt.ne', if_false]
          exact ih _ _ _ _
    · rw [not_ne_iff.mp hret]
      exact ⟨rfl, fun hne => hne rfl⟩

theorem readAll (h : Guards io block) (offset n : UInt32) (buffer : Option UInt32) :
    Brackets (io.readAllActions block offset n buffer) ((io.readAll offset n).result ≠ none) :=
  h.readLoop _ _ _ _ _

theorem readPart_first (h : Guards io block) (b o actual : UInt32) :
    LocksFirst (io.readPartActions block b o actual none) := by
  unfold BlockIO.readPartActions
  split
  case isTrue =>
    split
    case isTrue => exact .nil
    case isFalse => exact h.first b
  case isFalse =>
    split
    case isTrue => exact .nil
    case isFalse =>
      apply (h.first b).append
      split
      · exact .nil
      · exact .nil

theorem readLoop_first (h : Guards io block) (turns : ℕ) (offset n : UInt32) :
    LocksFirst (io.readLoopActions block turns offset n none) := by
  induction turns generalizing offset n with
  | zero => exact .nil
  | succ turns ih =>
    unfold BlockIO.readLoopActions
    split
    case isTrue => exact .nil
    case isFalse =>
      refine LocksFirst.append ?_ ?_
      · unfold BlockIO.readActions
        dsimp only
        split
        case isTrue => exact .nil
        case isFalse =>
          split
          case isTrue => exact .nil
          case isFalse =>
            split
            case isTrue => exact .nil
            case isFalse => exact h.readPart_first _ _ _
      · split
        · exact .nil
        · split
          case isTrue => exact .nil
          case isFalse => exact ih _ _

end Guards

theorem Disk.ide_guards (disk : Disk) : Guards disk.ide disk.readSectorActions where
  brackets b buffer := by
    have hread : disk.ide.readBlock b = disk.readSector b := rfl
    rw [hread, Disk.readSectorActions]
    cases hr : (disk.readSector b).result with
    | none => exact ⟨true, rfl, fun h => absurd rfl h⟩
    | some _ =>
      have hheld : heldAfter true (stores buffer 512 ++ [.unlock]) = some false := by
        rw [heldAfter_append, heldAfter_stores]
        rfl
      exact ⟨false, hheld, fun _ => rfl⟩
  first b := .cons _

namespace Node

theorem blockIndex_brackets (node : Node) (index : UInt32) :
    Brackets (node.blockIndexActions index) (node.blockIndex index ≠ none) := by
  unfold blockIndexActions blockIndex
  by_cases h12 : index.toNat < 12
  · rw [if_pos h12]
    exact .nil
  · rw [if_neg h12, dif_neg h12]
    split
    case isFalse => exact .nil
    case isTrue =>
      refine (node.disk.ide_guards.readAll _ _ _).mono fun hret hnone => hret ?_
      rw [readThing, hnone]
      rfl

theorem io_guards (node : Node) : Guards node.io node.readBlockActions where
  brackets b buffer := by
    have hread : node.io.readBlock b = node.readBlock b := rfl
    rw [hread]
    unfold readBlockActions readBlock
    split
    case isTrue => exact .nil
    case isFalse =>
      refine (node.blockIndex_brackets b).append (fun hret => ?_) fun hret => ?_
      · cases hb : node.blockIndex b with
        | none => exact absurd hb hret
        | some c =>
          refine (node.disk.ide_guards.readAll _ _ _).mono fun hret hnone => hret ?_
          dsimp only
          rw [hnone]
          rfl
      · rw [not_ne_iff.mp hret]
        exact ⟨rfl, fun hne => hne rfl⟩
  first b := by
    unfold readBlockActions
    split
    case isTrue => exact .nil
    case isFalse =>
      refine LocksFirst.append ?_ ?_
      · unfold blockIndexActions
        split
        case isTrue => exact .nil
        case isFalse =>
          split
          case isTrue => exact node.disk.ide_guards.readLoop_first _ _ _
          case isFalse => exact .nil
      · split
        · exact .nil
        · exact node.disk.ide_guards.readLoop_first _ _ _

def ReadsDisk (node : Node) (offset : UInt32) : Prop := node.readAllActions offset 4096 none ≠ []

end Node

def storesOf (xs : List Action) : List UInt32 :=
  xs.filterMap fun
    | .store a => some a
    | .lock | .unlock => none

theorem storesOf_append (xs ys : List Action) : storesOf (xs ++ ys) = storesOf xs ++ storesOf ys :=
  List.filterMap_append

theorem storesOf_stores (p : UInt32) (n : ℕ) : storesOf (stores (some p) n) = addresses p n := by
  change storesOf ((addresses p n).map .store) = addresses p n
  rw [storesOf, List.filterMap_map]
  exact List.filterMap_some

theorem storesOf_sector (p : UInt32) (n : ℕ) :
    storesOf (.lock :: (stores (some p) n ++ [.unlock])) = addresses p n := by
  change storesOf (stores (some p) n ++ [.unlock]) = addresses p n
  rw [storesOf_append, storesOf_stores]
  exact List.append_nil _

theorem addresses_append (p : UInt32) (m n : ℕ) :
    addresses p (m + n) = addresses p m ++ addresses (p + UInt32.ofNat m) n := by
  simp only [addresses, List.range_add, List.map_append, List.map_map, List.append_cancel_left_eq]
  refine List.map_congr_left fun i _ => ?_
  simp [Function.comp, UInt32.ofNat_add, UInt32.add_assoc]

/-- A level stores through the caller's pointer what its `read_block` returns, and nothing when the
buffer is the kernel's. -/
structure Writes (io : BlockIO) (block : UInt32 → Option UInt32 → List Action) : Prop where
  caller : ∀ b p, storesOf (block b (some p)) = addresses p (io.readBlock b).stored.length
  kernel : ∀ b, storesOf (block b none) = []

namespace Writes
variable {io : BlockIO} {block : UInt32 → Option UInt32 → List Action}

theorem readPart (h : Writes io block) {b o actual : UInt32}
    (hfit : o.toNat + actual.toNat ≤ io.blockSize.toNat) (p : UInt32) :
    storesOf (io.readPartActions block b o actual (some p)) =
      addresses p (io.readPart b o actual).stored.length := by
  unfold BlockIO.readPartActions
  by_cases hwhole : actual = io.blockSize
  · rw [if_pos hwhole, BlockIO.readPart, if_pos hwhole]
    by_cases ho : o ≠ 0
    · rw [if_pos ho, if_pos ho]
      rfl
    · rw [if_neg ho, if_neg ho]
      exact h.caller b p
  · by_cases hin : ¬ o + actual ≤ io.blockSize
    · rw [if_neg hwhole, if_pos hin, BlockIO.readPart, if_neg hwhole, if_pos hin]
      rfl
    · rw [if_neg hwhole, if_neg hin, storesOf_append, h.kernel, List.nil_append]
      cases hr : (io.readBlock b).result with
      | none =>
        simp only [hr, BlockIO.readPart, if_neg hwhole, if_neg hin]
        rfl
      | some _ =>
        have hret : (io.readPart b o actual).result = some (actual.toNat : ℤ) := by
          simp only [hr, BlockIO.readPart, if_neg hwhole, if_neg hin]
          rfl
        rw [(readPart_returned hfit hret).2]
        exact storesOf_stores p actual.toNat

theorem read (h : Writes io block) (offset n p : UInt32) :
    storesOf (io.readActions block offset n (some p)) =
      addresses p (io.read offset n).stored.length := by
  unfold BlockIO.readActions
  by_cases hpast : io.sizeInBytes < offset
  · rw [read_past hpast]
    simp only [if_pos hpast]
    rfl
  by_cases hend : offset = io.sizeInBytes
  · simp only [if_neg hpast, if_pos hend]
    rw [hend, BlockIO.read_at_end]
    rfl
  have ho : offset < io.sizeInBytes := by
    rw [UInt32.lt_iff_toNat_lt] at hpast ⊢
    have hne : offset.toNat ≠ io.sizeInBytes.toNat := fun heq => hend (UInt32.toNat_inj.mp heq)
    omega
  have hread := BlockIO.read_inside (n := n) ho
  have hpart := h.readPart (span_in_block (n := n) ho) p (b := offset / io.blockSize)
  rw [hread, ← hpart]
  simp only [if_neg hpast, if_neg hend]
  split
  case isTrue hbad => exact absurd (span_asserts ho) hbad
  case isFalse => rfl

theorem readLoop (h : Writes io block) (turns : ℕ) (offset n p : UInt32) (total : ℤ) :
    storesOf (io.readLoopActions block turns offset n (some p)) =
      addresses p (io.readLoop turns offset n total).stored.length := by
  induction turns generalizing offset n p total with
  | zero => rfl
  | succ turns ih =>
    by_cases hn : n = 0
    · simp only [if_pos hn, BlockIO.readLoop, BlockIO.readLoopActions]
      rfl
    unfold BlockIO.readLoopActions
    rw [if_neg hn, storesOf_append, h.read]
    rcases lt_trichotomy offset.toNat io.sizeInBytes.toNat with ho | ho | ho
    · rw [← UInt32.lt_iff_toNat_lt] at ho
      have hpos := BlockIO.span_pos ho hn
      rcases BlockIO.readLoop_inside turns total ho hn with ⟨hret, hloop⟩ | ⟨hret, hlen, hloop⟩
      · rw [hret, hloop]
        exact List.append_nil _
      · have hgo : ¬ ((io.span offset n).toNat : ℤ) ≤ 0 := by omega
        rw [hret, hloop]
        simp only [if_neg hgo, Int.toNat_natCast, UInt32.ofNat_toNat, Option.map_some, List.length_append,
          addresses_append, hlen]
        rw [ih]
    · rw [UInt32.toNat_inj.mp ho, BlockIO.read_at_end, BlockIO.readLoop_at_end]
      rfl
    · have hpast := UInt32.lt_iff_toNat_lt.mpr ho
      rw [readLoop_past hn hpast, BlockIO.read_past hpast]
      rfl

theorem readLoop_kernel (h : Writes io block) (turns : ℕ) (offset n : UInt32) :
    storesOf (io.readLoopActions block turns offset n none) = [] := by
  have hpart : ∀ b o actual, storesOf (io.readPartActions block b o actual none) = [] := by
    intro b o actual
    unfold BlockIO.readPartActions
    split
    case isTrue =>
      split
      case isTrue => rfl
      case isFalse => exact h.kernel b
    case isFalse =>
      split
      case isTrue => rfl
      case isFalse =>
        rw [storesOf_append, h.kernel]
        split <;> rfl
  have hread : ∀ offset n, storesOf (io.readActions block offset n none) = [] := by
    intro offset n
    unfold BlockIO.readActions
    dsimp only
    repeat' split
    all_goals first | rfl | exact hpart _ _ _
  induction turns generalizing offset n with
  | zero => rfl
  | succ turns ih =>
    unfold BlockIO.readLoopActions
    split
    case isTrue => rfl
    case isFalse =>
      rw [storesOf_append, hread, List.nil_append]
      split
      · rfl
      · split
        case isTrue => rfl
        case isFalse => exact ih _ _

end Writes

theorem Disk.ide_writes (disk : Disk) : Writes disk.ide disk.readSectorActions where
  caller b p := by
    have hread : disk.ide.readBlock b = disk.readSector b := rfl
    rw [hread, Disk.readSectorActions]
    cases hr : (disk.readSector b).result with
    | none =>
      have hstored : (disk.readSector b).stored = [] := by
        unfold Disk.readSector at hr ⊢
        split
        case isTrue h =>
          rw [if_pos h] at hr
          cases hr
        case isFalse => rfl
      rw [hstored]
      rfl
    | some _ =>
      rw [disk.readSector_stored_eq b hr]
      dsimp only
      exact storesOf_sector p 512
  kernel b := by
    rw [Disk.readSectorActions]
    split <;> rfl

namespace Node

theorem io_writes (node : Node) : Writes node.io node.readBlockActions := by
  have hindex : ∀ b, storesOf (node.blockIndexActions b) = [] := by
    intro b
    unfold blockIndexActions
    split
    case isTrue => rfl
    case isFalse =>
      split
      case isTrue => exact node.disk.ide_writes.readLoop_kernel _ _ _
      case isFalse => rfl
  refine ⟨fun b p => ?_, fun b => ?_⟩
  · have hread : node.io.readBlock b = node.readBlock b := rfl
    rw [hread]
    unfold readBlockActions readBlock
    split
    case isTrue => rfl
    case isFalse =>
      rw [storesOf_append, hindex, List.nil_append]
      cases node.blockIndex b with
      | none => rfl
      | some c =>
        apply (node.disk.ide_writes.readLoop _ _ _ _ 0).trans
        dsimp only
        split <;> rfl
  · unfold readBlockActions
    split
    case isTrue => rfl
    case isFalse =>
      rw [storesOf_append, hindex, List.nil_append]
      split
      · rfl
      · exact node.disk.ide_writes.readLoop_kernel _ _ _

theorem storesOf_readAllActions (node : Node) (offset n p : UInt32) :
    storesOf (node.readAllActions offset n (some p)) =
      addresses p (node.io.readAll offset n).stored.length :=
  node.io_writes.readLoop _ _ _ _ 0

end Node
end MMapKernel.Fs
