import MMapKernel.Fs.BlockIO

/-!
# The ext2 file system: `kernel/ext2.cc`, `kernel/ext2.h`, `kernel/ide.h`

The disk is a sequence of whole sectors and the driver returns their contents; it panics when
the drive reports an error, as it does for a sector behind the end. On top of it are i-nodes,
decoded from their 128 bytes, whose blocks are found through the direct pointers and the first
indirect block. Strings are lists of bytes; where the source has a NUL-terminated array, the
string ends at its first NUL.

A loop that need not end is given a number of turns, and `running` is the answer when they do
not suffice.
-/

namespace MMapKernel.Fs

inductive Outcome (α : Type) where
  | returned (value : α)
  | failed
  | nullNode
  | running
deriving DecidableEq, Repr

namespace Outcome

def bind {α β : Type} (x : Outcome α) (f : α → Outcome β) : Outcome β :=
  match x with
  | .returned a => f a
  | .failed => .failed
  | .nullNode => .nullNode
  | .running => .running

def ofOption {α : Type} : Option α → Outcome α
  | some a => .returned a
  | none => .failed

@[simp] theorem bind_returned {α β : Type} (a : α) (f : α → Outcome β) : (returned a).bind f = f a := rfl

@[simp] theorem ofOption_some {α : Type} (a : α) : ofOption (some a) = returned a := rfl

end Outcome

structure Disk where
  bytes : List UInt8
  sectors : bytes.length % 512 = 0

def Disk.readSector (disk : Disk) (sector : UInt32) : Transfer Unit :=
  if (sector.toNat + 1) * 512 ≤ disk.bytes.length then
    .returns ((disk.bytes.drop (sector.toNat * 512)).take 512) ()
  else .fails []

theorem Disk.readSector_stored_le (disk : Disk) (sector : UInt32) :
    (disk.readSector sector).stored.length ≤ 512 := by
  unfold readSector
  split
  case isTrue => exact List.length_take_le _ _
  case isFalse => exact Nat.zero_le _

theorem Disk.readSector_stored_eq (disk : Disk) (sector : UInt32)
    (h : (disk.readSector sector).result = some ()) :
    (disk.readSector sector).stored.length = 512 := by
  unfold readSector at h ⊢
  split at h
  case isTrue hs =>
    rw [if_pos hs]
    simp only [Transfer.returns, List.length_take, List.length_drop]
    omega
  case isFalse => cases h

theorem sectorSize_pos : (0 : UInt32) < 512 := by decide

theorem kibibyte_pos : (0 : UInt32) < 1024 := by decide

def Disk.ide (disk : Disk) : BlockIO where
  blockSize := 512
  sizeInBytes := 0xFFFFFFFF
  readBlock := disk.readSector
  positive := sectorSize_pos
  stored_le := disk.readSector_stored_le
  stored_eq := disk.readSector_stored_eq

def word (bytes : List UInt8) (i : ℕ) : UInt32 :=
  UInt32.ofNat ((bytes.getD i 0).toNat + (bytes.getD (i + 1) 0).toNat * 2 ^ 8 +
    (bytes.getD (i + 2) 0).toNat * 2 ^ 16 + (bytes.getD (i + 3) 0).toNat * 2 ^ 24)

def halfWord (bytes : List UInt8) (i : ℕ) : UInt16 :=
  UInt16.ofNat ((bytes.getD i 0).toNat + (bytes.getD (i + 1) 0).toNat * 2 ^ 8)

def wordBytes (w : UInt32) : List UInt8 :=
  [UInt8.ofNat w.toNat, UInt8.ofNat (w.toNat / 2 ^ 8), UInt8.ofNat (w.toNat / 2 ^ 16),
    UInt8.ofNat (w.toNat / 2 ^ 24)]

theorem word_wordBytes (w : UInt32) : word (wordBytes w) 0 = w := by
  have := w.toNat_lt
  apply UInt32.toNat_inj.mp
  simp only [word, wordBytes, List.getD_cons_zero, List.getD_cons_succ, UInt32.toNat_ofNat',
    UInt8.toNat_ofNat']
  omega

structure NodeData where
  mode : UInt16
  sizeLow : UInt32
  nSectors : UInt32
  direct : Fin 12 → UInt32
  indirect1 : UInt32
  indirect2 : UInt32
  indirect3 : UInt32

namespace NodeData

def ofBytes (bytes : List UInt8) : NodeData where
  mode := halfWord bytes 0
  sizeLow := word bytes 4
  nSectors := word bytes 28
  direct i := word bytes (40 + 4 * i)
  indirect1 := word bytes 88
  indirect2 := word bytes 92
  indirect3 := word bytes 96

def getType (data : NodeData) : UInt16 := data.mode >>> 12
def isDir (data : NodeData) : Bool := data.getType == 4
def isFile (data : NodeData) : Bool := data.getType == 8
def isSymlink (data : NodeData) : Bool := data.getType == 0xa

def blockBytes (data : NodeData) : List UInt8 :=
  (List.ofFn data.direct ++ [data.indirect1, data.indirect2, data.indirect3]).flatMap wordBytes

end NodeData

structure Node where
  disk : Disk
  number : UInt32
  blockSize : UInt32
  data : NodeData
  positive : 0 < blockSize

namespace Node

/-- The file-system block behind a logical block; `none` is a failed `ASSERT` or the panic. -/
def blockIndex (node : Node) (index : UInt32) : Option UInt32 :=
  let refsPerBlock := node.blockSize / 4
  if h : index.toNat < 12 then some (node.data.direct ⟨index.toNat, h⟩)
  else if index < 12 + refsPerBlock then
    (node.disk.ide.readThing (node.data.indirect1 * node.blockSize + (index - 12) * 4) 4).map
      fun bytes => word bytes 0
  else none

def readBlock (node : Node) (index : UInt32) : Transfer Unit :=
  if ¬ index < node.data.nSectors / (node.blockSize / 512) then .fails []
  else match node.blockIndex index with
    | none => .fails []
    | some block =>
      let r := node.disk.ide.readAll (block * node.blockSize) node.blockSize
      if r.result = some (node.blockSize.toNat : ℤ) then .returns r.stored () else .fails r.stored

theorem ide_size (disk : Disk) (offset : UInt32) : offset ≤ disk.ide.sizeInBytes := by
  have h := offset.toNat_lt
  rw [UInt32.le_iff_toNat_le]
  change offset.toNat ≤ 4294967295
  omega

theorem readBlock_stored_le (node : Node) (index : UInt32) :
    (node.readBlock index).stored.length ≤ node.blockSize.toNat := by
  have hread (b : UInt32) : (node.disk.ide.readAll b node.blockSize).stored.length ≤
      node.blockSize.toNat :=
    BlockIO.readAll_stored_le.trans (min_le_left _ _)
  unfold readBlock
  split
  case isTrue => exact Nat.zero_le _
  case isFalse =>
    split
    case h_1 => exact Nat.zero_le _
    case h_2 =>
      dsimp only
      split
      case isTrue => exact hread _
      case isFalse => exact hread _

theorem readBlock_stored_eq (node : Node) (index : UInt32)
    (h : (node.readBlock index).result = some ()) :
    (node.readBlock index).stored.length = node.blockSize.toNat := by
  unfold readBlock at h ⊢
  split at h
  case isTrue => cases h
  case isFalse hn =>
    rw [if_neg hn]
    split at h
    case h_1 => cases h
    case h_2 b hb =>
      dsimp only at h ⊢
      split at h
      case isTrue hr =>
        obtain ⟨hlen, hc⟩ := BlockIO.readAll_returned (ide_size _ _) hr
        rw [if_pos hr]
        simp only [Transfer.returns, hlen]
        omega
      case isFalse => cases h

def io (node : Node) : BlockIO where
  blockSize := node.blockSize
  sizeInBytes := node.data.sizeLow
  readBlock := node.readBlock
  positive := node.positive
  stored_le := node.readBlock_stored_le
  stored_eq := node.readBlock_stored_eq

def getSymbol (node : Node) : Outcome (List UInt8) :=
  let sz := node.data.sizeLow
  if ¬ node.data.isSymlink then .failed
  else if sz ≤ 60 then .returned (node.data.blockBytes.take sz.toNat)
  else .ofOption (node.io.readThing 0 sz)

/-- One directory record as `entries` reads it: its number, its total size and its name. -/
def readEntry (node : Node) (offset : UInt32) : Option (UInt32 × UInt16 × List UInt8) :=
  (node.io.readThing offset 4).bind fun inode =>
  (node.io.readThing (offset + 4) 2).bind fun totalSize =>
  (node.io.readThing (offset + 6) 1).bind fun nameLength =>
  (node.io.readThing (offset + 8) (nameLength.getD 0 0).toUInt32).map fun name =>
  (word inode 0, halfWord totalSize 0, name)

def entriesLoop (node : Node) : ℕ → UInt32 → Outcome (List (UInt32 × List UInt8))
  | turns, offset =>
    if offset < node.data.sizeLow then
      match turns with
      | 0 => .running
      | turns + 1 =>
        (Outcome.ofOption (node.readEntry offset)).bind fun (inode, totalSize, name) =>
        (entriesLoop node turns (offset + totalSize.toUInt32)).bind fun rest =>
        .returned ((inode, name) :: rest)
    else .returned []

def entries (node : Node) (turns : ℕ) : Outcome (List (UInt32 × List UInt8)) :=
  if node.data.isDir then node.entriesLoop turns 0 else .failed

end Node

def cString (bytes : List UInt8) : List UInt8 := bytes.takeWhile (· ≠ 0)

def streq (a b : List UInt8) : Bool := cString a == cString b

def Node.find (node : Node) (turns : ℕ) (name : List UInt8) : Outcome UInt32 :=
  (node.entries turns).bind fun es =>
    .returned (es.foldl (fun out e => if streq name e.2 then e.1 else out) 0)

/-- What mounting has read from the superblock and the group table. Mounting divides by the block
size and by the number of i-nodes in a group. -/
structure Ext2 where
  disk : Disk
  blockSize : UInt32
  positive : 0 < blockSize
  numberOfNodes : UInt32
  numberOfBlocks : UInt32
  iNodeSize : UInt32
  iNodeTables : List UInt32
  iNodesPerGroup : UInt32
  grouped : 0 < iNodesPerGroup

namespace Ext2

def getNode (fs : Ext2) (number : UInt32) : Option Node :=
  if ¬ (0 < number ∧ number ≤ fs.numberOfNodes) then none
  else
    let index := number - 1
    let groupIndex := index / fs.iNodesPerGroup
    match fs.iNodeTables[groupIndex.toNat]? with
    | none => none
    | some iTableBase =>
      if ¬ iTableBase ≤ fs.numberOfBlocks then none
      else
        let indexInGroup := index % fs.iNodesPerGroup
        let nodeOffset := iTableBase * fs.blockSize + indexInGroup * fs.iNodeSize
        (fs.disk.ide.readThing nodeOffset 128).map fun bytes =>
          ⟨fs.disk, number, fs.blockSize, .ofBytes bytes, fs.positive⟩

/-- The constructor, with the root that it fetches. `none` is a failed `ASSERT`, a panic or a
division by zero. -/
def mount (disk : Disk) : Option (Ext2 × Node) :=
  (disk.ide.readThing 1024 140).bind fun sb =>
    let blocksCount := word sb 4
    let blockSize : UInt32 := 1 <<< (word sb 24 + 10)
    let blocksPerGroup := word sb 32
    let iNodesPerGroup := word sb 40
    let nGroups := (blocksCount + blocksPerGroup - 1) / blocksPerGroup
    if h : 0 < blockSize ∧ 0 < iNodesPerGroup ∧ 0 < blocksPerGroup ∧
        blocksCount ≤ nGroups * blocksPerGroup then
      let superBlockNumber := 1024 / blockSize
      let groupTableNumber := superBlockNumber + 1
      let groupTableSize := 32 * nGroups
      (disk.ide.readThing (groupTableNumber * blockSize) groupTableSize).bind fun groupTable =>
        let fs : Ext2 :=
          { disk, blockSize, positive := h.1, numberOfNodes := word sb 0
            numberOfBlocks := blocksCount, iNodeSize := (halfWord sb 88).toUInt32
            iNodeTables := (List.range nGroups.toNat).map fun i => word groupTable (32 * i + 8)
            iNodesPerGroup, grouped := h.2.1 }
        (fs.getNode 2).map fun root => (fs, root)
    else none

def slash : UInt8 := 47

/-- The loop of `find`. `turns` bounds its own turns and those of the directory walks. -/
def findLoop (fs : Ext2) : ℕ → Option Node → List UInt8 → Outcome (Option Node)
  | turns, current, path =>
    match current, path.dropWhile (· = slash) with
    | none, _ => .returned none
    | some node, [] => .returned (some node)
    | some node, c :: rest =>
      match turns with
      | 0 => .running
      | turns + 1 =>
        let part := (c :: rest).takeWhile (· ≠ slash)
        if 256 < part.length then .failed
        else
          (node.find turns part).bind fun number =>
            if number = 0 then .returned none
            else
              (Outcome.ofOption (fs.getNode number)).bind fun next =>
                findLoop fs turns (some next) ((c :: rest).dropWhile (· ≠ slash))

def find (fs : Ext2) (turns : ℕ) (current : Option Node) (path : List UInt8) :
    Outcome (Option Node) :=
  fs.findLoop turns current (cString path)

end Ext2
end MMapKernel.Fs
