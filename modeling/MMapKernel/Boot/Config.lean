import MMapKernel.Lib.Walk
import MMapKernel.Fs.Ext2

/-!
# The configuration that the firmware reports: `kernel/config.cc`

`configInit` looks for the root table in the BIOS area, for the MADT among the tables that it lists,
and reads the processors and the I/O APIC from the entries of the MADT. The structures of the firmware
are packed; a field is read at its offset.

`apicInfo` has `MAX_PROCS` elements, which the source does not check: it is kept by the index of a
store. The number of bytes that are left is at most 255 below 0, so it does not leave its 32 bits.
-/

namespace MMapKernel.Boot
open Fs (Outcome)

abbrev Memory := UInt32 → UInt8

def field (mem : Memory) (p : UInt32) : UInt32 :=
  UInt32.ofNat ((mem p).toNat + (mem (p + 1)).toNat * 2 ^ 8 + (mem (p + 2)).toNat * 2 ^ 16 +
    (mem (p + 3)).toNat * 2 ^ 24)

def halfField (mem : Memory) (p : UInt32) : UInt32 :=
  UInt32.ofNat ((mem p).toNat + (mem (p + 1)).toNat * 2 ^ 8)

def ascii (cs : List Char) : List UInt8 := cs.map fun c => UInt8.ofNat c.toNat

structure MemInfo where
  ax : UInt16
  bx : UInt16
  cx : UInt16
  dx : UInt16

structure ApicInfo where
  processorId : UInt8
  apicId : UInt8
  flags : UInt32
deriving DecidableEq, Repr

def MAX_PROCS : ℕ := 16

structure Config where
  memSize : UInt32
  nOtherProcs : UInt32
  totalProcs : UInt32
  localAPIC : UInt32
  madtFlags : UInt32
  ioAPIC : UInt32
  apicInfo : UInt32 → ApicInfo
  oemid : List UInt8

def iseq (mem : Memory) : UInt32 → List UInt8 → Bool
  | _, [] => true
  | a, c :: cs => mem a == c && iseq mem (a + 1) cs

/-- The loop of `findRSDInRange`, for a number of turns; 0 is the null pointer. -/
def findRSDFrom (mem : Memory) : ℕ → UInt32 → UInt32
  | 0, _ => 0
  | turns + 1, i =>
    if iseq mem i (ascii ['R', 'S', 'D', ' ', 'P', 'T', 'R', ' ']) then i
    else findRSDFrom mem turns (i + 16)

def findRSDInRange (mem : Memory) (start stop : UInt32) : UInt32 :=
  findRSDFrom mem ((stop - start).toNat / 16) start

def findRSD (mem : Memory) : UInt32 :=
  let it := findRSDInRange mem 0xE0000 0x100000
  if it = 0 then
    let base := halfField mem 0x40E <<< 4
    findRSDInRange mem base (base + (1 : UInt32) <<< 10)
  else it

def findSDTFrom (mem : Memory) (name : List UInt8) : ℕ → UInt32 → UInt32
  | 0, _ => 0
  | turns + 1, others =>
    let h := field mem others
    if iseq mem h name then h else findSDTFrom mem name turns (others + 4)

def findSDT (mem : Memory) (rsdp : UInt32) (name : List UInt8) : UInt32 :=
  let rsdt := field mem (rsdp + 16)
  let entries := (field mem (rsdt + 4) - 36) / 4
  findSDTFrom mem name entries.toNat (rsdt + 36)

def memAbove1M (memInfo : MemInfo) : Option UInt32 :=
  if memInfo.cx = 15 * 1024 ∨ memInfo.dx = 0 then
    some (((memInfo.ax ||| memInfo.cx).toUInt32 <<< 10) + ((memInfo.bx ||| memInfo.dx).toUInt32 <<< 16))
  else none

structure Scan where
  entryPtr : UInt32
  bytesForEntries : ℤ
  config : Config
  stored : List UInt32

def Scan.record (s : Scan) (info : ApicInfo) : Scan :=
  let index := s.config.nOtherProcs
  { s with
    config := { s.config with
      nOtherProcs := index + 1
      apicInfo := Function.update s.config.apicInfo index info }
    stored := s.stored ++ [index] }

def Scan.setIoAPIC (s : Scan) (address : UInt32) : Scan :=
  { s with config := { s.config with ioAPIC := address } }

def inspect (mem : Memory) (s : Scan) (entry : UInt32) : Scan :=
  if mem entry = 0 then
    if mem (entry + 2) = 0 then s
    else s.record ⟨mem (entry + 2), mem (entry + 3), field mem (entry + 4)⟩
  else if mem entry = 1 then s.setIoAPIC (field mem (entry + 4))
  else s

def Scan.advance (s : Scan) (len : UInt8) : Scan :=
  { s with entryPtr := s.entryPtr + len.toUInt32, bytesForEntries := s.bytesForEntries - len.toNat }

def turn (mem : Memory) (s : Scan) : Option Scan :=
  if 0 < s.bytesForEntries then
    let s := s.advance (mem (s.entryPtr + 1))
    some (inspect mem s s.entryPtr)
  else none

def entryLoop (mem : Memory) : ℕ → Scan → Outcome Scan
  | turns, s =>
    match turn mem s with
    | none => .returned s
    | some t =>
      match turns with
      | 0 => .running
      | turns + 1 => entryLoop mem turns t

def bytesForEntries (mem : Memory) (madt : UInt32) : ℤ := (field mem (madt + 4) - 44).toBitVec.toInt

def scanStart (mem : Memory) (madt : UInt32) (config : Config) : Scan where
  entryPtr := madt + 44
  bytesForEntries := bytesForEntries mem madt
  config := { config with
    localAPIC := field mem (madt + 36)
    madtFlags := field mem (madt + 40)
    nOtherProcs := 0 }
  stored := []

def scanMadt (mem : Memory) (turns : ℕ) (madt : UInt32) (config : Config) : Outcome Config :=
  (entryLoop mem turns (scanStart mem madt config)).bind fun s =>
    .returned { s.config with totalProcs := s.config.nOtherProcs + 1 }

def findMadt (mem : Memory) : UInt32 := findSDT mem (findRSD mem) (ascii ['A', 'P', 'I', 'C'])

def configInit (memInfo : MemInfo) (mem : Memory) (turns : ℕ) (config : Config) : Outcome Config :=
  (Outcome.ofOption (memAbove1M memInfo)).bind fun above =>
    let config := { config with memSize := above + (1 : UInt32) <<< 20 }
    let rsdp := findRSD mem
    let config :=
      if rsdp ≠ 0 then
        { config with oemid := (List.range 6).map (fun i => mem (rsdp + 9 + UInt32.ofNat i)) ++ [0] }
      else config
    scanMadt mem turns (findMadt mem) config

/-- Where the entry behind the first `n` ones starts, if the first one starts at `p`. -/
def cursor (mem : Memory) (p : UInt32) : ℕ → UInt32
  | 0 => p
  | n + 1 => cursor mem p n + (mem (cursor mem p n + 1)).toUInt32

def covered (mem : Memory) (p : UInt32) : ℕ → ℕ
  | 0 => 0
  | n + 1 => covered mem p n + (mem (cursor mem p n + 1)).toNat

def IsProcessor (mem : Memory) (entry : UInt32) : Prop := mem entry = 0 ∧ mem (entry + 2) ≠ 0

instance (mem : Memory) : DecidablePred (IsProcessor mem) := fun _ => inferInstanceAs (Decidable (_ ∧ _))

def IsIoApic (mem : Memory) (entry : UInt32) : Prop := mem entry = 1

instance (mem : Memory) : DecidablePred (IsIoApic mem) := fun _ => inferInstanceAs (Decidable (_ = _))

def infoAt (mem : Memory) (entry : UInt32) : ApicInfo :=
  ⟨mem (entry + 2), mem (entry + 3), field mem (entry + 4)⟩

def inspected (mem : Memory) (p : UInt32) (n : ℕ) : List UInt32 :=
  (List.range n).map fun i => cursor mem p (i + 1)

theorem covered_mono (mem : Memory) (p : UInt32) : Monotone (covered mem p) :=
  monotone_nat_of_le_succ fun _ => Nat.le_add_right _ _

theorem inspected_succ (mem : Memory) (p : UInt32) (n : ℕ) :
    inspected mem p (n + 1) = inspected mem p n ++ [cursor mem p (n + 1)] := by
  rw [inspected, List.range_succ, List.map_append]
  rfl

end MMapKernel.Boot
