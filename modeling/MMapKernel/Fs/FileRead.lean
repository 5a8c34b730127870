import MMapKernel.Fs.Ext2

/-!
# Reading a file end to end

An i-node whose blocks are all allocated reads as the concatenation of its blocks: `read_all` on
the node runs over file-system blocks, each of which `read_block` fetches with a `read_all` over
sectors. Both loops are the one of `BlockIO`, so both are instances of its contents lemma.
-/

namespace MMapKernel.Fs

theorem Disk.ide_holds (disk : Disk) : disk.ide.Holds disk.bytes where
  block b hb := by
    have hs := disk.sectors
    change b.toNat * 512 < disk.bytes.length at hb
    have hle : (b.toNat + 1) * 512 ≤ disk.bytes.length := by omega
    exact if_pos hle

theorem Disk.ide_readAll_inside (disk : Disk) {offset n : UInt32}
    (h : offset.toNat + n.toNat ≤ disk.bytes.length) (hlt : offset.toNat + n.toNat < 2 ^ 32) :
    disk.ide.readAll offset n =
      .returns ((disk.bytes.drop offset.toNat).take n.toNat) (n.toNat : ℤ) := by
  have hroom : disk.ide.room offset n = n.toNat := by
    change min n.toNat (4294967295 - offset.toNat) = n.toNat
    omega
  have hread := disk.ide_holds.readAll (n := n) (Node.ide_size disk offset) (by omega)
  rwa [hroom] at hread

theorem Disk.ide_readThing_inside (disk : Disk) {offset n : UInt32}
    (h : offset.toNat + n.toNat ≤ disk.bytes.length) (hlt : offset.toNat + n.toNat < 2 ^ 32) :
    disk.ide.readThing offset n = some ((disk.bytes.drop offset.toNat).take n.toNat) := by
  simp [disk.ide_readAll_inside h hlt, BlockIO.readThing, Transfer.returns]

theorem Disk.ide_readThing (disk : Disk) (hd : disk.bytes.length < 2 ^ 32) {offset n : UInt32}
    (h : offset.toNat + n.toNat ≤ disk.bytes.length) :
    disk.ide.readThing offset n = some ((disk.bytes.drop offset.toNat).take n.toNat) :=
  disk.ide_readThing_inside h (by omega)

theorem getD_slice {bytes : List UInt8} {o n i : ℕ} (h : i < n) :
    ((bytes.drop o).take n).getD i 0 = bytes.getD (o + i) 0 := by
  simp [List.getD_eq_getElem?_getD, h]

theorem word_slice {bytes : List UInt8} {o n i : ℕ} (h : i + 4 ≤ n) :
    word ((bytes.drop o).take n) i = word bytes (o + i) := by
  unfold word
  rw [getD_slice (by omega), getD_slice (by omega), getD_slice (by omega), getD_slice (by omega)]
  rfl

def Disk.block (disk : Disk) (bs b : ℕ) : List UInt8 := (disk.bytes.drop (b * bs)).take bs

namespace Node

def blockCount (node : Node) : ℕ :=
  (node.data.sizeLow.toNat + node.blockSize.toNat - 1) / node.blockSize.toNat

def pointer (node : Node) (i : ℕ) : UInt32 :=
  if h : i < 12 then node.data.direct ⟨i, h⟩
  else word node.disk.bytes (node.data.indirect1.toNat * node.blockSize.toNat + (i - 12) * 4)

def content (node : Node) : List UInt8 :=
  (List.range node.blockCount).flatMap fun i =>
    node.disk.block node.blockSize.toNat (node.pointer i).toNat

def InImage (node : Node) (b : UInt32) : Prop :=
  b.toNat * node.blockSize.toNat + node.blockSize.toNat ≤ node.disk.bytes.length

def OnDevice (node : Node) (b : UInt32) : Prop :=
  node.InImage b ∧ b.toNat * node.blockSize.toNat + node.blockSize.toNat < 2 ^ 32

/-- A block size is a multiple of the sector size, there are no more blocks than the direct
pointers and one indirect block can name, and all are allocated inside the image. -/
structure Allocated (node : Node) : Prop where
  sectors : node.blockSize.toNat % 512 = 0
  small : node.blockCount ≤ 12 + node.blockSize.toNat / 4
  counted : node.blockCount * (node.blockSize.toNat / 512) ≤ node.data.nSectors.toNat
  indirect : 12 < node.blockCount → node.InImage node.data.indirect1
  pointers : ∀ i < node.blockCount, node.InImage (node.pointer i)

variable {node : Node}

theorem size_le_blocks (node : Node) :
    node.data.sizeLow.toNat ≤ node.blockCount * node.blockSize.toNat := by
  have hp := UInt32.lt_iff_toNat_lt.mp node.positive
  have hd := Nat.div_add_mod' (node.data.sizeLow.toNat + node.blockSize.toNat - 1) node.blockSize.toNat
  have hm := Nat.mod_lt (node.data.sizeLow.toNat + node.blockSize.toNat - 1) hp
  unfold blockCount
  omega

theorem indirect_offset_inside {i : UInt32}
    (hend : node.data.indirect1.toNat * node.blockSize.toNat + node.blockSize.toNat ≤ 2 ^ 32)
    (h12 : 12 ≤ i.toNat) (hi : (i.toNat - 12) * 4 + 4 ≤ node.blockSize.toNat) :
    (node.data.indirect1 * node.blockSize + (i - 12) * 4).toNat =
      node.data.indirect1.toNat * node.blockSize.toNat + (i.toNat - 12) * 4 := by
  have hsub : (i - 12).toNat = i.toNat - 12 := UInt32.toNat_sub_of_le _ _ h12
  rw [UInt32.toNat_add, UInt32.toNat_mul, UInt32.toNat_mul, hsub]
  change (_ % 2 ^ 32 + (i.toNat - 12) * 4 % 2 ^ 32) % 2 ^ 32 = _
  rw [Nat.mod_eq_of_lt (show node.data.indirect1.toNat * node.blockSize.toNat < 2 ^ 32 by omega)]
  omega

theorem blockIndex_eq_inside {i : UInt32} (hsmall : i.toNat < 12 + node.blockSize.toNat / 4)
    (hin : 12 ≤ i.toNat → node.OnDevice node.data.indirect1) :
    node.blockIndex i = some (node.pointer i.toNat) := by
  unfold blockIndex pointer
  by_cases h12 : i.toNat < 12
  · rw [dif_pos h12, dif_pos h12]
  · rw [dif_neg h12, dif_neg h12]
    obtain ⟨hin, hend⟩ := hin (by omega)
    have hbs := node.blockSize.toNat_lt
    have hdiv : (node.blockSize / 4).toNat = node.blockSize.toNat / 4 := UInt32.toNat_div _ _
    have hlt : i < 12 + node.blockSize / 4 := by
      rw [UInt32.lt_iff_toNat_lt, UInt32.toNat_add, hdiv]
      change i.toNat < (12 + node.blockSize.toNat / 4) % 2 ^ 32
      omega
    have hfour : (i.toNat - 12) * 4 + UInt32.toNat 4 ≤ node.blockSize.toNat := by
      change (i.toNat - 12) * 4 + 4 ≤ _
      omega
    have hoff := indirect_offset_inside hend.le (by omega) hfour
    unfold InImage at hin
    rw [if_pos hlt, node.disk.ide_readThing_inside (by omega) (by omega), Option.map_some,
      word_slice (show 0 + 4 ≤ UInt32.toNat 4 by decide), hoff, Nat.add_zero]

theorem blockIndex_eq (hd : node.disk.bytes.length < 2 ^ 32) (h : node.Allocated) {i : UInt32}
    (hi : i.toNat < node.blockCount) : node.blockIndex i = some (node.pointer i.toNat) := by
  refine blockIndex_eq_inside (hi.trans_le h.small) fun h12 => ?_
  have hin := h.indirect (by omega)
  exact ⟨hin, hin.trans_lt hd⟩

theorem readBlock_eq_inside {i b : UInt32} (hcount : i < node.data.nSectors / (node.blockSize / 512))
    (hi : node.blockIndex i = some b) (hb : node.OnDevice b) :
    node.readBlock i = .returns (node.disk.block node.blockSize.toNat b.toNat) () := by
  obtain ⟨hin, hlt⟩ := hb
  unfold InImage at hin
  have hoff : (b * node.blockSize).toNat = b.toNat * node.blockSize.toNat := by
    rw [UInt32.toNat_mul]
    exact Nat.mod_eq_of_lt (by omega)
  have hread := node.disk.ide_readAll_inside (n := node.blockSize)
    (show (b * node.blockSize).toNat + _ ≤ _ by omega) (by omega)
  simp only [readBlock, hcount, if_false, not_true_eq_false, hi, hread, hoff]
  exact if_pos rfl

theorem readBlock_eq (hd : node.disk.bytes.length < 2 ^ 32) (h : node.Allocated) {i : UInt32}
    (hi : i.toNat < node.blockCount) :
    node.readBlock i = .returns (node.disk.block node.blockSize.toNat (node.pointer i.toNat).toNat) () := by
  have hin := h.pointers _ hi
  have hcount : i < node.data.nSectors / (node.blockSize / 512) := by
    have hpos : 0 < node.blockSize.toNat / 512 := by
      have hpos := UInt32.lt_iff_toNat_lt.mp node.positive
      have hsectors := h.sectors
      change 0 < node.blockSize.toNat at hpos
      omega
    rw [UInt32.lt_iff_toNat_lt, UInt32.toNat_div, UInt32.toNat_div]
    exact hi.trans_le ((Nat.le_div_iff_mul_le hpos).mpr h.counted)
  exact readBlock_eq_inside hcount (blockIndex_eq hd h hi) ⟨hin, hin.trans_lt hd⟩

theorem block_length (h : node.Allocated) {i : ℕ} (hi : i < node.blockCount) :
    (node.disk.block node.blockSize.toNat (node.pointer i).toNat).length = node.blockSize.toNat := by
  have hin := h.pointers _ hi
  unfold InImage at hin
  rw [Disk.block, List.length_take, List.length_drop]
  omega

end Node

theorem take_drop_flatMap {α β : Type*} {f : α → List β} {m : ℕ} {l : List α}
    (hf : ∀ x ∈ l, (f x).length = m) {i : ℕ} (hi : i < l.length) :
    ((l.flatMap f).drop (i * m)).take m = f l[i] := by
  induction l generalizing i with
  | nil => simp at hi
  | cons x l ih =>
    have hx : (f x).length = m := hf x (by simp)
    cases i with
    | zero => simp [← hx]
    | succ i =>
      have htail := ih (fun y hy => hf y (by simp [hy])) (Nat.lt_of_succ_lt_succ hi)
      rw [List.flatMap_cons, Nat.succ_mul, Nat.add_comm, ← List.drop_drop, ← hx, List.drop_left, hx, htail]
      rfl

namespace Node
variable {node : Node}

theorem content_length (h : node.Allocated) :
    node.content.length = node.blockCount * node.blockSize.toNat := by
  have hsum : ((List.range node.blockCount).map fun i =>
      (node.disk.block node.blockSize.toNat (node.pointer i).toNat).length) =
        (List.range node.blockCount).map fun _ => node.blockSize.toNat :=
    List.map_congr_left fun i hi => block_length h (List.mem_range.mp hi)
  rw [content, List.length_flatMap, hsum]
  simp

theorem io_holds (hd : node.disk.bytes.length < 2 ^ 32) (h : node.Allocated) :
    node.io.Holds node.content where
  block b hb := by
    rw [content_length h] at hb
    have hlt : b.toNat < node.blockCount := lt_of_mul_lt_mul_right hb (Nat.zero_le _)
    have hpart := take_drop_flatMap (l := List.range node.blockCount)
      (fun i hi => block_length h (List.mem_range.mp hi)) (by simpa using hlt)
    rw [List.getElem_range] at hpart
    exact (readBlock_eq hd h hlt).trans (congrArg (Transfer.returns · ()) hpart.symm)

theorem readAll_eq (hd : node.disk.bytes.length < 2 ^ 32) (h : node.Allocated) {offset n : UInt32}
    (ho : offset ≤ node.data.sizeLow) :
    node.io.readAll offset n =
      .returns ((node.content.drop offset.toNat).take (min n.toNat (node.data.sizeLow.toNat - offset.toNat)))
        ((min n.toNat (node.data.sizeLow.toNat - offset.toNat) : ℕ) : ℤ) := by
  apply (io_holds hd h).readAll ho
  have hsize := size_le_blocks node
  rw [UInt32.le_iff_toNat_le] at ho
  rw [content_length h]
  change _ + min _ (node.data.sizeLow.toNat - _) ≤ _
  omega

end Node

namespace Ext2

/-- Where the image has i-node `number` of a group whose table starts at block `base`. -/
def nodeOffset (fs : Ext2) (number base : UInt32) : ℕ :=
  base.toNat * fs.blockSize.toNat +
    (number.toNat - 1) % fs.iNodesPerGroup.toNat * fs.iNodeSize.toNat

/-- The i-node exists: its number is one of the file system's, and its group's table has its
128 bytes inside the image. -/
structure HasNode (fs : Ext2) (number base : UInt32) : Prop where
  positive : 0 < number.toNat
  le : number ≤ fs.numberOfNodes
  table : fs.iNodeTables[(number.toNat - 1) / fs.iNodesPerGroup.toNat]? = some base
  base_le : base ≤ fs.numberOfBlocks
  inside : fs.nodeOffset number base + 128 ≤ fs.disk.bytes.length

def node (fs : Ext2) (number base : UInt32) : Node :=
  ⟨fs.disk, number, fs.blockSize, .ofBytes ((fs.disk.bytes.drop (fs.nodeOffset number base)).take 128),
    fs.positive⟩

theorem getNode_eq {fs : Ext2} (hd : fs.disk.bytes.length < 2 ^ 32) {number base : UInt32}
    (h : fs.HasNode number base) : fs.getNode number = some (fs.node number base) := by
  have hin := h.inside
  have hpos := h.positive
  have hlt := number.toNat_lt
  have hone : (number - 1).toNat = number.toNat - 1 :=
    UInt32.toNat_sub_of_le _ _ (UInt32.le_iff_toNat_le.mpr hpos)
  have hrange : 0 < number ∧ number ≤ fs.numberOfNodes := ⟨UInt32.lt_iff_toNat_lt.mpr hpos, h.le⟩
  have htable : fs.iNodeTables[((number - 1) / fs.iNodesPerGroup).toNat]? = some base := by
    rw [UInt32.toNat_div, hone]
    exact h.table
  have hoff : (base * fs.blockSize + (number - 1) % fs.iNodesPerGroup * fs.iNodeSize).toNat =
      fs.nodeOffset number base := by
    unfold nodeOffset at hin ⊢
    rw [UInt32.toNat_add, UInt32.toNat_mul, UInt32.toNat_mul, UInt32.toNat_mod, hone,
      Nat.mod_eq_of_lt (by omega), Nat.mod_eq_of_lt (by omega), Nat.mod_eq_of_lt (by omega)]
  have hread := fs.disk.ide_readThing hd (n := 128)
    (show (base * fs.blockSize + (number - 1) % fs.iNodesPerGroup * fs.iNodeSize).toNat + 128 ≤ _ by
      omega)
  simp only [getNode, hrange, not_true_eq_false, if_false, and_self, htable, h.base_le, hread,
    Option.map_some, hoff]
  rfl

/-- For every i-node of an image on a device smaller than 4 GiB, `get_node` finds it, and if its
blocks are all allocated, `read_all` from any offset in the file fails no assertion, returns
the number of bytes asked for that the file has left, and fills the buffer with those
bytes of the concatenation of the blocks. -/
theorem file_reads_as_its_blocks (fs : Ext2) (hd : fs.disk.bytes.length < 2 ^ 32)
    {number base : UInt32} (h : fs.HasNode number base) :
    fs.getNode number = some (fs.node number base) ∧
    ((fs.node number base).Allocated → ∀ offset n : UInt32,
      offset ≤ (fs.node number base).data.sizeLow →
      (fs.node number base).io.readAll offset n =
        let count := min n.toNat ((fs.node number base).data.sizeLow.toNat - offset.toNat)
        ⟨((fs.node number base).content.drop offset.toNat).take count, some (count : ℤ)⟩) :=
  ⟨getNode_eq hd h, fun ha _ _ ho => Node.readAll_eq hd ha ho⟩

end Ext2

def smallDisk : Disk where
  bytes :=
    [0, 0x80, 0, 0, 5, 0, 0, 0] ++ List.replicate 20 0 ++ [2, 0, 0, 0] ++ List.replicate 8 0 ++
      [1, 0, 0, 0] ++ List.replicate 980 0 ++ List.replicate 1024 7
  sectors := by simp only [List.length_append, List.length_replicate, List.length_cons, List.length_nil]

def smallFs : Ext2 where
  disk := smallDisk
  blockSize := 1024
  positive := kibibyte_pos
  numberOfNodes := 1
  numberOfBlocks := 2
  iNodeSize := 128
  iNodeTables := [0]
  iNodesPerGroup := 1
  grouped := by decide

theorem smallFs_length : smallFs.disk.bytes.length = 2048 := by
  simp only [smallFs, smallDisk, List.length_append, List.length_replicate, List.length_cons,
    List.length_nil]

theorem smallFs_hasNode : smallFs.HasNode 1 0 where
  positive := by decide
  le := by decide
  table := by decide
  base_le := by decide
  inside := by
    rw [smallFs_length]
    decide

theorem smallFs_allocated : (smallFs.node 1 0).Allocated where
  sectors := by decide
  small := by decide
  counted := by decide
  indirect h := absurd h (by decide)
  pointers i hi := by
    have hcount : (smallFs.node 1 0).blockCount = 1 := by decide
    obtain rfl : i = 0 := by omega
    have hp : (smallFs.node 1 0).pointer 0 = 1 := by decide
    rw [Node.InImage, hp]
    change 1 * 1024 + 1024 ≤ smallFs.disk.bytes.length
    rw [smallFs_length]

theorem small_file_tail :
    smallFs.getNode 1 = some (smallFs.node 1 0) ∧
    ((smallFs.node 1 0).io.readAll 2 100).result = some 3 := by
  obtain ⟨hnode, hread⟩ := smallFs.file_reads_as_its_blocks (by rw [smallFs_length]; decide) smallFs_hasNode
  refine ⟨hnode, ?_⟩
  rw [hread smallFs_allocated 2 100 (by decide)]
  decide

end MMapKernel.Fs
