import MMapKernel.Fs.ByteRead
import MMapKernel.Fs.FileRead

/-!
# Files with holes

In ext2 a pointer that is 0 stands for a block of zeros, and the sector count of an i-node counts
only what is allocated. `read_block` knows neither: it takes the sector count for the number of
blocks, and it reads the block that the pointer names, which for a hole is the first block of the
image, or, when the indirect block itself is missing, what some word of the first block names.
-/

namespace MMapKernel.Fs
open BlockIO (readAll_returned readAll_bytes)

theorem Disk.ide_readAll_iff (disk : Disk) (offset : UInt32) {n : UInt32} (hn : 0 < n.toNat) :
    (disk.ide.readAll offset n).result = some (n.toNat : ℤ) ↔
      offset.toNat + n.toNat ≤ disk.bytes.length ∧ offset.toNat + n.toNat < 2 ^ 32 := by
  have hs := disk.sectors
  constructor
  · intro hr
    have hroom : disk.ide.room offset n = n.toNat := by
      have := (readAll_returned (Node.ide_size disk offset) hr).2
      omega
    have hclaimed : offset.toNat + n.toNat < 2 ^ 32 := by
      change min n.toNat (4294967295 - offset.toNat) = n.toNat at hroom
      omega
    have hread : disk.ide.Readable offset n := BlockIO.readAll_returns_iff.mp (by simp [hr])
    -- the sector of the last byte
    have hlast := hread (n.toNat - 1) (by omega)
    rw [show offset.toNat + (n.toNat - 1) = offset.toNat + n.toNat - 1 by omega] at hlast
    change (disk.readSector (UInt32.ofNat ((offset.toNat + n.toNat - 1) / 512))).result ≠ none at hlast
    unfold readSector at hlast
    split at hlast
    case isTrue hin =>
      rw [UInt32.toNat_ofNat', Nat.mod_eq_of_lt (by omega)] at hin
      omega
    case isFalse => exact absurd rfl hlast
  · rintro ⟨hin, hlt⟩
    rw [disk.ide_readAll_inside hin hlt]
    rfl

namespace Node

def Hole (node : Node) (i : ℕ) : Prop := node.pointer i = 0 ∨ 12 ≤ i ∧ node.data.indirect1 = 0

instance holeDecidable (node : Node) (i : ℕ) : Decidable (node.Hole i) :=
  inferInstanceAs (Decidable (_ ∨ _))

def sparseByte (node : Node) (pos : ℕ) : UInt8 :=
  if node.Hole (pos / node.blockSize.toNat) then 0
  else node.disk.bytes.getD ((node.pointer (pos / node.blockSize.toNat)).toNat * node.blockSize.toNat +
    pos % node.blockSize.toNat) 0

def allocatedCount (node : Node) : ℕ :=
  ((List.range node.blockCount).filter fun i => ¬ node.Hole i).length +
    if node.data.indirect1 = 0 then 0 else 1

structure Sparse (node : Node) : Prop where
  sectors : node.blockSize.toNat % 512 = 0
  small : node.blockCount ≤ 12 + node.blockSize.toNat / 4
  counted : node.data.nSectors.toNat = node.allocatedCount * (node.blockSize.toNat / 512)
  first : node.blockSize.toNat ≤ node.disk.bytes.length
  indirect : node.data.indirect1 ≠ 0 → node.OnDevice node.data.indirect1
  pointers : ∀ i < node.blockCount, ¬ node.Hole i → node.OnDevice (node.pointer i)

/-- The offset, modulo `2 ^ 32`, that `read_block` reads logical block `i` from. -/
def fetched (node : Node) (i : ℕ) : ℕ := (node.pointer i * node.blockSize).toNat

/-- The block has a number below the count of the allocated ones, and if it is a hole, then what
is read in its place lies on the device and has a zero at this position. -/
def Served (node : Node) (pos : ℕ) : Prop :=
  pos / node.blockSize.toNat < node.allocatedCount ∧
    (node.Hole (pos / node.blockSize.toNat) →
      node.fetched (pos / node.blockSize.toNat) + node.blockSize.toNat ≤ node.disk.bytes.length ∧
      node.fetched (pos / node.blockSize.toNat) + node.blockSize.toNat < 2 ^ 32 ∧
      node.disk.bytes.getD (node.fetched (pos / node.blockSize.toNat) + pos % node.blockSize.toNat) 0 = 0)

instance servedDecidable (node : Node) (pos : ℕ) : Decidable (node.Served pos) :=
  inferInstanceAs (Decidable (_ ∧ (_ → _)))

variable {node : Node}

namespace Sparse

theorem size_pos (node : Node) : 0 < node.blockSize.toNat := UInt32.lt_iff_toNat_lt.mp node.positive

theorem counted_blocks (h : node.Sparse) :
    (node.data.nSectors / (node.blockSize / 512)).toNat = node.allocatedCount := by
  have hpos := size_pos node
  have hs := h.sectors
  rw [UInt32.toNat_div, UInt32.toNat_div, h.counted]
  exact Nat.mul_div_cancel _ (Nat.div_pos (by omega) (by decide))

theorem blockIndex (h : node.Sparse) {i : UInt32} (hi : i.toNat < node.blockCount) :
    node.blockIndex i = some (node.pointer i.toNat) := by
  refine blockIndex_eq_inside (hi.trans_le h.small) fun _ => ?_
  by_cases hz : node.data.indirect1 = 0
  · -- a missing indirect block is looked for in the first block
    have hfirst := h.first
    have hbs := node.blockSize.toNat_lt
    rw [hz]
    constructor
    · unfold InImage
      rw [UInt32.toNat_zero]
      omega
    · rw [UInt32.toNat_zero]
      omega
  · exact h.indirect hz

theorem readBlock (h : node.Sparse) {i : UInt32} (hi : i.toNat < node.blockCount) :
    ((node.readBlock i).result ≠ none ↔ i.toNat < node.allocatedCount ∧
      node.fetched i.toNat + node.blockSize.toNat ≤ node.disk.bytes.length ∧
      node.fetched i.toNat + node.blockSize.toNat < 2 ^ 32) ∧
    ((node.readBlock i).result ≠ none → (node.readBlock i).stored =
      (node.disk.bytes.drop (node.fetched i.toNat)).take node.blockSize.toNat) := by
  have hread := node.disk.ide_readAll_iff (node.pointer i.toNat * node.blockSize) (size_pos node)
  have hcount : i < node.data.nSectors / (node.blockSize / 512) ↔ i.toNat < node.allocatedCount := by
    rw [UInt32.lt_iff_toNat_lt, h.counted_blocks]
  unfold Node.readBlock
  by_cases hlt : i.toNat < node.allocatedCount
  · simp only [hcount.mpr hlt, hlt, not_true_eq_false, if_false, h.blockIndex hi, true_and]
    split
    case isTrue hr =>
      have hin := hread.mp hr
      rw [node.disk.ide_readAll_inside hin.1 hin.2]
      exact ⟨iff_of_true (Option.some_ne_none _) hin, fun _ => rfl⟩
    case isFalse hr => exact ⟨iff_of_false (· rfl) (hr ∘ hread.mpr), fun hf => absurd rfl hf⟩
  · simp [hcount, hlt, Transfer.fails]

theorem block_lt {pos : ℕ} (hpos : pos < node.data.sizeLow.toNat) :
    pos / node.blockSize.toNat < node.blockCount := by
  rw [Nat.div_lt_iff_lt_mul (size_pos node)]
  exact hpos.trans_le (size_le_blocks node)

theorem fetched_eq {i : ℕ} (hin : node.OnDevice (node.pointer i)) :
    node.fetched i = (node.pointer i).toNat * node.blockSize.toNat := by
  have hlt := hin.2
  rw [fetched, UInt32.toNat_mul]
  exact Nat.mod_eq_of_lt (by omega)

theorem served_iff (h : node.Sparse) {pos : ℕ} (hpos : pos < node.data.sizeLow.toNat) :
    ((node.readBlock (UInt32.ofNat (pos / node.blockSize.toNat))).result ≠ none ∧
      node.io.byteAt pos = node.sparseByte pos) ↔ node.Served pos := by
  have hbs := size_pos node
  have hsize := node.data.sizeLow.toNat_lt
  have hblock := block_lt hpos
  have hmod := Nat.mod_lt pos hbs
  have hnum : (UInt32.ofNat (pos / node.blockSize.toNat)).toNat = pos / node.blockSize.toNat := by
    have := Nat.div_le_self pos node.blockSize.toNat
    rw [UInt32.toNat_ofNat', Nat.mod_eq_of_lt (by omega)]
  obtain ⟨hread, hstored⟩ := h.readBlock (i := UInt32.ofNat (pos / node.blockSize.toNat)) (by rwa [hnum])
  rw [hnum] at hread hstored
  have hbyte : (node.readBlock (UInt32.ofNat (pos / node.blockSize.toNat))).result ≠ none →
      node.io.byteAt pos = node.disk.bytes.getD
        (node.fetched (pos / node.blockSize.toNat) + pos % node.blockSize.toNat) 0 := by
    intro hr
    change (node.readBlock (UInt32.ofNat (pos / node.blockSize.toNat))).stored.getD
      (pos % node.blockSize.toNat) 0 = _
    rw [hstored hr]
    exact getD_slice hmod
  unfold Served
  by_cases hhole : node.Hole (pos / node.blockSize.toNat)
  · rw [sparseByte, if_pos hhole]
    constructor
    · rintro ⟨hr, hb⟩
      obtain ⟨hcount, hin, hlt⟩ := hread.mp hr
      exact ⟨hcount, fun _ => ⟨hin, hlt, (hbyte hr).symm.trans hb⟩⟩
    · rintro ⟨hcount, hserved⟩
      obtain ⟨hin, hlt, hz⟩ := hserved hhole
      have hr := hread.mpr ⟨hcount, hin, hlt⟩
      exact ⟨hr, (hbyte hr).trans hz⟩
  · have hin := h.pointers _ hblock hhole
    have hfetched := fetched_eq hin
    rw [sparseByte, if_neg hhole, ← hfetched]
    constructor
    · rintro ⟨hr, -⟩
      exact ⟨(hread.mp hr).1, fun hh => absurd hh hhole⟩
    · rintro ⟨hcount, -⟩
      have hr := hread.mpr ⟨hcount, by rw [hfetched]; exact hin⟩
      exact ⟨hr, hbyte hr⟩

end Sparse

/-- For every sparse file, every offset inside it and every count: `read_all` fails no assertion and
delivers the bytes of the file, with zeros for the holes, exactly if every position that it comes to
is served. -/
theorem sparse_reads_iff (node : Node) (h : node.Sparse) (offset n : UInt32)
    (ho : offset ≤ node.data.sizeLow) :
    node.io.readAll offset n =
      (let count := min n.toNat (node.data.sizeLow.toNat - offset.toNat)
       .returns ((List.range count).map fun i => node.sparseByte (offset.toNat + i)) (count : ℤ)) ↔
      ∀ i < min n.toNat (node.data.sizeLow.toNat - offset.toNat), node.Served (offset.toNat + i) := by
  have hle := UInt32.le_iff_toNat_le.mp ho
  have hinside : ∀ i < node.io.room offset n, offset.toNat + i < node.data.sizeLow.toNat := by
    intro i hi
    have : i < min n.toNat (node.data.sizeLow.toNat - offset.toNat) := hi
    omega
  constructor
  · intro hread i hi
    have hr : node.io.Readable offset n := BlockIO.readAll_returns_iff.mp (by
      rw [hread]
      exact Option.some_ne_none _)
    have hbytes := congrArg Transfer.stored ((readAll_bytes ho hr).symm.trans hread)
    refine (h.served_iff (hinside i hi)).mp ⟨hr i hi, ?_⟩
    exact List.map_inj_left.mp hbytes i (List.mem_range.mpr hi)
  · intro hserved
    have hpos : ∀ i < node.io.room offset n, _ := fun i hi =>
      (h.served_iff (hinside i hi)).mpr (hserved i hi)
    rw [readAll_bytes ho fun i hi => (hpos i hi).1]
    refine congrArg (Transfer.returns · _) (List.map_congr_left fun i hi => ?_)
    exact (hpos i (List.mem_range.mp hi)).2

/-- The i-node of a file of 1030 bytes at the start of the first block, with a hole before the block
that it has. -/
def holeDisk : Disk where
  bytes :=
    [0, 0x80, 0, 0, 6, 4, 0, 0] ++ List.replicate 20 0 ++ [2, 0, 0, 0] ++ List.replicate 12 0 ++
      [1, 0, 0, 0] ++ List.replicate 976 0 ++ List.replicate 1024 7
  sectors := by simp only [List.length_append, List.length_replicate, List.length_cons, List.length_nil]

def holeNode : Node := { smallFs with disk := holeDisk : Ext2 }.node 1 0

theorem holeNode_length : holeNode.disk.bytes.length = 2048 := by
  simp only [holeNode, Ext2.node, holeDisk, List.length_append, List.length_replicate,
    List.length_cons, List.length_nil]

theorem holeNode_sparse : holeNode.Sparse where
  sectors := by decide
  small := by decide
  counted := by decide
  first := by
    rw [holeNode_length]
    decide
  indirect h := absurd (by decide) h
  pointers i hi hh := by
    have hcount : holeNode.blockCount = 2 := by decide
    have hone : i = 1 := by
      by_contra hne
      obtain rfl : i = 0 := by omega
      exact hh (by decide)
    subst hone
    have hp : holeNode.pointer 1 = 1 := by decide
    rw [OnDevice, InImage, holeNode_length, hp]
    exact ⟨by decide, by decide⟩

theorem first_byte_of_hole : holeNode.io.readAll 0 1 = .returns [0] 1 := by
  refine (sparse_reads_iff holeNode holeNode_sparse 0 1 (by decide)).mpr fun i hi => ?_
  obtain rfl : i = 0 := by
    have hone : i < 1 := hi
    omega
  refine ⟨by decide, fun _ => ⟨?_, by decide, by decide⟩⟩
  rw [holeNode_length]
  decide

/-- The block behind the hole has number 1, and one block is allocated. -/
theorem block_behind_hole_fails :
    ¬ ∀ node : Node, node.Sparse → ∀ offset n : UInt32, offset ≤ node.data.sizeLow →
      node.io.readAll offset n =
        (let count := min n.toNat (node.data.sizeLow.toNat - offset.toNat)
         .returns ((List.range count).map fun i => node.sparseByte (offset.toNat + i)) (count : ℤ)) := by
  intro h
  have hread := congrArg Transfer.result (h holeNode holeNode_sparse 1024 6 (by decide))
  have hfails : (holeNode.io.readAll 1024 6).result = none := by decide
  rw [hfails] at hread
  cases hread

end Node
end MMapKernel.Fs
