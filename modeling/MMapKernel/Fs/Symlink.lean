import MMapKernel.Fs.ByteRead
import MMapKernel.Fs.FileRead

/-!
# Targets of symbolic links

ext2 keeps a target of fewer than 60 bytes in the place of the block pointers and a longer one in a
data block. `get_symbol` decides by the length as well, but takes 60 bytes for a short target.
-/

namespace MMapKernel.Fs
namespace Node

structure Stores (node : Node) (target : List UInt8) : Prop where
  link : node.data.isSymlink
  string : 0 ∉ target
  size : node.data.sizeLow.toNat = target.length
  fits : target.length ≤ node.blockSize.toNat
  short : target.length < 60 → node.data.blockBytes.take target.length = target
  long : 60 ≤ target.length →
    node.blockSize.toNat % 512 = 0 ∧ node.blockSize.toNat / 512 ≤ node.data.nSectors.toNat ∧
    node.OnDevice (node.data.direct 0) ∧ (∀ i, i ≠ 0 → node.data.direct i = 0) ∧
    (node.disk.block node.blockSize.toNat (node.data.direct 0).toNat).take target.length = target

variable {node : Node} {target : List UInt8}

theorem getSymbol_short (hl : node.data.isSymlink) (hs : node.data.sizeLow.toNat ≤ 60) :
    node.getSymbol = .returned (node.data.blockBytes.take node.data.sizeLow.toNat) := by
  have hle : node.data.sizeLow ≤ 60 := UInt32.le_iff_toNat_le.mpr hs
  simp [getSymbol, hl, hle]

theorem getSymbol_long (hl : node.data.isSymlink) (hs : 60 < node.data.sizeLow.toNat) :
    node.getSymbol = .ofOption (node.io.readThing 0 node.data.sizeLow) := by
  have hlt : ¬ node.data.sizeLow ≤ 60 := by
    rw [UInt32.le_iff_toNat_le]
    change ¬ node.data.sizeLow.toNat ≤ 60
    omega
  simp [getSymbol, hl, hlt]

theorem readThing_first {size : UInt32} {stored : List UInt8} (hr : node.readBlock 0 = .returns stored ())
    (hsize : size ≤ node.data.sizeLow) (hfit : size.toNat ≤ node.blockSize.toNat) :
    node.io.readThing 0 size = some (stored.take size.toNat) := by
  have hroom : node.io.room 0 size = size.toNat :=
    min_eq_left (UInt32.le_iff_toNat_le.mp hsize)
  have hreadable : node.io.Readable 0 size := by
    intro i hi
    have hzero : (UInt32.toNat 0 + i) / node.io.blockSize.toNat = 0 :=
      Nat.div_eq_of_lt (by change 0 + i < node.blockSize.toNat; omega)
    rw [hzero]
    change (node.readBlock 0).result ≠ none
    rw [hr]
    exact Option.some_ne_none _
  have hread := BlockIO.readAll_bytes (n := size) (UInt32.le_iff_toNat_le.mpr (Nat.zero_le _)) hreadable
  rw [hroom, UInt32.toNat_zero, BlockIO.bytesFrom_first hr hfit] at hread
  simp [hread, BlockIO.readThing, Transfer.returns]

theorem zero_mem_blockBytes {data : NodeData} (h : data.direct 1 = 0) : 0 ∈ data.blockBytes := by
  rw [NodeData.blockBytes, List.mem_flatMap]
  refine ⟨data.direct 1, List.mem_append_left _ ?_, ?_⟩
  · exact List.mem_ofFn.mpr ⟨1, rfl⟩
  · rw [h]
    decide

theorem blockBytes_length (data : NodeData) : data.blockBytes.length = 60 := by
  simp [NodeData.blockBytes, wordBytes]

theorem Stores.first_block (h : node.Stores target) (hlong : 60 ≤ target.length) :
    node.readBlock 0 =
      .returns (node.disk.block node.blockSize.toNat (node.data.direct 0).toNat) () := by
  obtain ⟨hsectors, hcount, hin, -, -⟩ := h.long hlong
  have hpos := UInt32.lt_iff_toNat_lt.mp node.positive
  rw [UInt32.toNat_zero] at hpos
  refine readBlock_eq_inside ?_ (by simp [blockIndex]) hin
  rw [UInt32.lt_iff_toNat_lt, UInt32.toNat_div, UInt32.toNat_div]
  have hsector : UInt32.toNat 512 ≤ node.blockSize.toNat := by
    change 512 ≤ _
    omega
  exact Nat.div_pos hcount (Nat.div_pos hsector (by decide))

/-- For every link whose target has at most a block of bytes: `get_symbol` delivers the target
exactly if the target has not 60 bytes. -/
theorem getSymbol_iff (node : Node) (target : List UInt8) (h : node.Stores target) :
    node.getSymbol = .returned target ↔ target.length ≠ 60 := by
  have hsize := h.size
  rcases lt_trichotomy target.length 60 with hlt | heq | hgt
  · refine iff_of_true ?_ hlt.ne
    rw [getSymbol_short h.link (by omega), hsize, h.short hlt]
  · refine iff_of_false (fun hget => ?_) (not_not.mpr heq)
    rw [getSymbol_short h.link (by omega), hsize, heq,
      List.take_of_length_le (blockBytes_length _).le, Outcome.returned.injEq] at hget
    have hzero := zero_mem_blockBytes ((h.long heq.ge).2.2.2.1 1 (by decide))
    rw [hget] at hzero
    exact h.string hzero
  · refine iff_of_true ?_ hgt.ne'
    have hfit := h.fits
    rw [getSymbol_long h.link (by omega),
      readThing_first (h.first_block hgt.le) (UInt32.le_iff_toNat_le.mpr le_rfl) (by omega), hsize,
      (h.long hgt.le).2.2.2.2]
    rfl

def shortLink : Node where
  disk := smallDisk
  number := 1
  blockSize := 1024
  positive := kibibyte_pos
  data :=
    { mode := 0xA1FF, sizeLow := 3, nSectors := 0, direct := fun i => if i.val = 0 then 0x636261 else 0
      indirect1 := 0, indirect2 := 0, indirect3 := 0 }

theorem short_link_target : shortLink.getSymbol = .returned [97, 98, 99] :=
  (getSymbol_iff shortLink [97, 98, 99]
    ⟨by decide, by decide, by decide, by decide, fun _ => by decide, fun h => absurd h (by decide)⟩).mpr
    (by decide)

def sixtyDisk : Disk where
  bytes := List.replicate 1024 0 ++ (List.replicate 60 97 ++ List.replicate 964 0)
  sectors := by simp only [List.length_append, List.length_replicate]

def sixtyLink : Node where
  disk := sixtyDisk
  number := 1
  blockSize := 1024
  positive := kibibyte_pos
  data :=
    { mode := 0xA1FF, sizeLow := 60, nSectors := 2, direct := fun i => if i.val = 0 then 1 else 0
      indirect1 := 0, indirect2 := 0, indirect3 := 0 }

theorem sixtyLink_stores : sixtyLink.Stores (List.replicate 60 97) where
  link := by decide
  string := by decide
  size := by decide
  fits := by decide
  short h := absurd h (by decide)
  long _ := by
    have hlen : sixtyLink.disk.bytes.length = 2048 := by
      simp only [sixtyLink, sixtyDisk, List.length_append, List.length_replicate]
    have hsecond : (List.replicate 60 (97 : UInt8) ++ List.replicate 964 0).length = 1024 := by
      simp only [List.length_append, List.length_replicate]
    have hblock : sixtyLink.disk.block 1024 1 = List.replicate 60 97 ++ List.replicate 964 0 := by
      rw [Disk.block]
      change (((List.replicate 1024 (0 : UInt8) ++ _).drop 1024).take 1024) = _
      rw [List.drop_left' List.length_replicate, List.take_of_length_le hsecond.le]
    refine ⟨by decide, by decide, ⟨?_, by decide⟩, by decide, ?_⟩
    · rw [InImage, hlen]
      decide
    · change (sixtyLink.disk.block 1024 1).take 60 = _
      rw [hblock]
      decide

/-- The target of sixty bytes comes out as the block pointers. -/
theorem sixty_bytes_misread : ¬ ∀ (node : Node) (target : List UInt8), node.Stores target →
    node.getSymbol = .returned target := by
  intro h
  exact absurd (h sixtyLink _ sixtyLink_stores) (by decide)

end Node
end MMapKernel.Fs
