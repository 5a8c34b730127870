import MMapKernel.Fs.Ext2
import MMapKernel.Sys.UserMemory
import MMapKernel.Vmm.Placement

/-!
# Loading an executable: `kernel/elf.cc`, and the checks of `SYS::exec`

For each program header of type 1 the loader maps its region, reads the file into it and clears
the rest. What `mmap` answers is not looked at: a region that is refused or moved is filled at
`vaddr` all the same.
-/

namespace MMapKernel.Sys
open Fs Vmm

structure ElfHeader where
  magic : List UInt8
  cls : UInt8
  encoding : UInt8
  abi : UInt8
  type : UInt16
  version : UInt32
  entry : UInt32
  phoff : UInt32
  phentsize : UInt16
  phnum : UInt16
deriving DecidableEq, Repr

def ElfHeader.ofBytes (bytes : List UInt8) : ElfHeader where
  magic := bytes.take 4
  cls := bytes.getD 4 0
  encoding := bytes.getD 5 0
  abi := bytes.getD 7 0
  type := halfWord bytes 16
  version := word bytes 20
  entry := word bytes 24
  phoff := word bytes 28
  phentsize := halfWord bytes 42
  phnum := halfWord bytes 44

def ElfHeader.accepted (hdr : ElfHeader) : Bool :=
  hdr.magic == [0x7F, 0x45, 0x4C, 0x46] && hdr.encoding == 1 && hdr.cls == 1 && hdr.abi == 0 &&
    hdr.version == 1 && hdr.type == 2 && hdr.phoff != 0

structure ProgramHeader where
  type : UInt32
  offset : UInt32
  vaddr : UInt32
  filesz : UInt32
  memsz : UInt32
deriving DecidableEq, Repr

def ProgramHeader.ofBytes (bytes : List UInt8) : ProgramHeader where
  type := word bytes 0
  offset := word bytes 4
  vaddr := word bytes 8
  filesz := word bytes 16
  memsz := word bytes 20

def bzeroTurns (n : UInt32) : ℕ := if n < 0x80000000 then n.toNat else 0

/-- The entry list and the addresses stored to; `finished` is false after a failed `ASSERT`. -/
structure Loaded where
  entries : List VMEntry
  stores : List UInt32
  finished : Bool

namespace ProgramHeader

def mmapArgs (ph : ProgramHeader) (word : NodePtr) : MmapArgs where
  addr := ph.vaddr
  length := ph.memsz
  prot := 0xa
  flags := 0x1
  fd := .negative
  offset := ph.offset
  word := word

def load (cfg : Config) (file : BlockIO) (word : NodePtr) (ph : ProgramHeader) (es : List VMEntry) :
    Loaded :=
  let es :=
    match Vmm.mmap cfg es (ph.mmapArgs word) with
    | .mapped _ es => es
    | .null | .nullFile => es
  let r := file.readAll ph.offset ph.filesz
  let read := addresses ph.vaddr r.stored.length
  match r.result with
  | none => ⟨es, read, false⟩
  | some _ =>
    ⟨es, read ++ addresses (ph.vaddr + ph.filesz) (bzeroTurns (ph.memsz - ph.filesz)), true⟩

end ProgramHeader

/-- The loop over the program headers. `words` are the heap words that the `node` fields of the
new entries start with. -/
def loadLoop (cfg : Config) (file : BlockIO) (phentsize : UInt32) (words : ℕ → NodePtr) :
    ℕ → UInt32 → List VMEntry → Loaded
  | 0, _, es => ⟨es, [], true⟩
  | left + 1, hoff, es =>
    match file.readThing hoff 32 with
    | none => ⟨es, [], false⟩
    | some bytes =>
      let ph := ProgramHeader.ofBytes bytes
      let one : Loaded := if ph.type = 1 then ph.load cfg file (words left) es else ⟨es, [], true⟩
      if one.finished = false then one
      else
        let rest := loadLoop cfg file phentsize words left (hoff + phentsize) one.entries
        { rest with stores := one.stores ++ rest.stores }

/-- `SYS::exec` from the header up to the end of `ELF::load`, which reads the header again.
`none`: an `ASSERT` fails or the answer is -1. -/
def loadFile (cfg : Config) (file : BlockIO) (words : ℕ → NodePtr) (es : List VMEntry) : Option Loaded :=
  (file.readThing 0 52).bind fun bytes =>
    let hdr := ElfHeader.ofBytes bytes
    if hdr.accepted then
      some (loadLoop cfg file hdr.phentsize.toUInt32 words hdr.phnum.toNat hdr.phoff es)
    else none

def programHeaders (file : BlockIO) (phentsize : UInt32) : ℕ → UInt32 → List ProgramHeader
  | 0, _ => []
  | left + 1, hoff =>
    match file.readThing hoff 32 with
    | none => []
    | some bytes => .ofBytes bytes :: programHeaders file phentsize left (hoff + phentsize)

def segments (file : BlockIO) (phentsize : UInt32) (left : ℕ) (hoff : UInt32) : List ProgramHeader :=
  (programHeaders file phentsize left hoff).filter (·.type = 1)

def loadSegments (file : BlockIO) : List ProgramHeader :=
  match file.readThing 0 52 with
  | none => []
  | some bytes =>
    let hdr := ElfHeader.ofBytes bytes
    segments file hdr.phentsize.toUInt32 hdr.phnum.toNat hdr.phoff

def ProgramHeader.InUserSpace (cfg : Config) (file : BlockIO) (ph : ProgramHeader) : Prop :=
  Clear cfg ph.vaddr (file.room ph.offset ph.filesz) ∧
    Clear cfg (ph.vaddr + ph.filesz) (bzeroTurns (ph.memsz - ph.filesz))

section
variable {cfg : Config} {file : BlockIO} {phentsize : UInt32} {words : ℕ → NodePtr}

theorem load_stores_user {ph : ProgramHeader} {word : NodePtr} {es : List VMEntry}
    (h : ph.InUserSpace cfg file) : ∀ a ∈ (ph.load cfg file word es).stores, UserByte cfg a := by
  have hread : ∀ a ∈ addresses ph.vaddr (file.readAll ph.offset ph.filesz).stored.length,
      UserByte cfg a :=
    (addresses_user_iff _ _ _).mpr (h.1.mono BlockIO.readAll_stored_le)
  intro a ha
  simp only [ProgramHeader.load] at ha
  split at ha
  case h_1 => exact hread a ha
  case h_2 =>
    rcases List.mem_append.mp ha with ha | ha
    · exact hread a ha
    · exact (addresses_user_iff _ _ _).mpr h.2 a ha

theorem load_user_iff {ph : ProgramHeader} {word : NodePtr} {es : List VMEntry}
    (hf : (ph.load cfg file word es).finished) :
    (∀ a ∈ (ph.load cfg file word es).stores, UserByte cfg a) ↔ ph.InUserSpace cfg file := by
  refine ⟨fun h => ?_, load_stores_user⟩
  cases hc : (file.readAll ph.offset ph.filesz).result with
  | none => simp [ProgramHeader.load, hc] at hf
  | some cnt =>
    simp only [ProgramHeader.load, hc, List.mem_append, BlockIO.readAll_stored_eq hc] at h
    exact ⟨(addresses_user_iff _ _ _).mp fun a ha => h a (.inl ha),
      (addresses_user_iff _ _ _).mp fun a ha => h a (.inr ha)⟩

theorem loadLoop_stores_user {left : ℕ} {hoff : UInt32} {es : List VMEntry}
    (h : ∀ ph ∈ segments file phentsize left hoff, ph.InUserSpace cfg file) :
    ∀ a ∈ (loadLoop cfg file phentsize words left hoff es).stores, UserByte cfg a := by
  induction left generalizing hoff es with
  | zero => simp [loadLoop]
  | succ left ih =>
    unfold loadLoop
    unfold segments programHeaders at h
    cases hb : file.readThing hoff 32 with
    | none => simp
    | some bytes =>
      simp only [hb, List.filter_cons] at h
      by_cases ht : (ProgramHeader.ofBytes bytes).type = 1
      · simp only [ht, decide_true, if_true, List.forall_mem_cons] at h
        simp only [ht, if_true]
        split
        case isTrue => exact load_stores_user h.1
        case isFalse =>
          intro a ha
          rcases List.mem_append.mp ha with ha | ha
          · exact load_stores_user h.1 a ha
          · exact ih h.2 a ha
      · simp only [ht, decide_false, Bool.false_eq_true, if_false] at h
        simp only [ht, if_false, Bool.true_eq_false, List.nil_append]
        exact ih h

theorem loadLoop_user_iff {left : ℕ} {hoff : UInt32} {es : List VMEntry}
    (hf : (loadLoop cfg file phentsize words left hoff es).finished) :
    (∀ a ∈ (loadLoop cfg file phentsize words left hoff es).stores, UserByte cfg a) ↔
      ∀ ph ∈ segments file phentsize left hoff, ph.InUserSpace cfg file := by
  refine ⟨fun h => ?_, loadLoop_stores_user⟩
  induction left generalizing hoff es with
  | zero => simp [segments, programHeaders]
  | succ left ih =>
    unfold loadLoop at hf h
    unfold segments programHeaders
    cases hb : file.readThing hoff 32 with
    | none => simp
    | some bytes =>
      simp only [hb] at hf h
      by_cases ht : (ProgramHeader.ofBytes bytes).type = 1
      · simp only [ht, if_true] at hf h
        split at hf
        case isTrue hone => simp [hone] at hf
        case isFalse hone =>
          rw [if_neg hone] at h
          simp only [List.mem_append] at h
          simp only [List.filter_cons, ht, decide_true, if_true, List.forall_mem_cons]
          rw [Bool.not_eq_false] at hone
          exact ⟨(load_user_iff hone).mp fun a ha => h a (.inl ha), ih hf fun a ha => h a (.inr ha)⟩
      · simp only [ht, if_false, Bool.true_eq_false, List.nil_append] at hf h
        simp only [List.filter_cons, ht, decide_false, Bool.false_eq_true, if_false]
        exact ih hf h

end

/-- For every file that passes the checks: if all segments lie in user space, so does all that
the loader stores; if one does not, the loader stores outside, unless it fails an assertion
before. -/
theorem load_stores_iff_segments (cfg : Config) (file : BlockIO) (words : ℕ → NodePtr)
    (es : List VMEntry) (l : Loaded) (h : loadFile cfg file words es = some l) :
    ((∀ ph ∈ loadSegments file, ph.InUserSpace cfg file) → ∀ a ∈ l.stores, UserByte cfg a) ∧
    (l.finished →
      ((∀ a ∈ l.stores, UserByte cfg a) ↔ ∀ ph ∈ loadSegments file, ph.InUserSpace cfg file)) := by
  simp only [loadFile, Option.bind_eq_some_iff, Option.ite_none_right_eq_some, Option.some.injEq] at h
  obtain ⟨bytes, hb, -, rfl⟩ := h
  simp only [loadSegments, hb]
  exact ⟨loadLoop_stores_user, loadLoop_user_iff⟩

def tinyElf (vaddr size : UInt32) : List UInt8 :=
  [0x7F, 0x45, 0x4C, 0x46, 1, 1, 1, 0, 0, 0, 0, 0, 0, 0, 0, 0, 2, 0, 3, 0, 1, 0, 0, 0] ++
    wordBytes 0x80000000 ++ wordBytes 52 ++ wordBytes 0 ++ wordBytes 0 ++
    [52, 0, 32, 0, 1, 0, 0, 0, 0, 0, 0, 0] ++
    wordBytes 1 ++ wordBytes 0 ++ wordBytes vaddr ++ wordBytes 0 ++ wordBytes size ++ wordBytes size ++
    wordBytes 0 ++ wordBytes 0

def tinyDisk (vaddr size : UInt32) : Disk where
  bytes := List.replicate 1024 0 ++ (tinyElf vaddr size ++ List.replicate 940 0)
  sectors := by
    simp only [tinyElf, wordBytes, List.length_append, List.length_replicate, List.length_cons,
      List.length_nil]

def tinyNode (vaddr size : UInt32) : Node where
  disk := tinyDisk vaddr size
  number := 12
  blockSize := 1024
  data :=
    { mode := 0x8000, sizeLow := 84, nSectors := 2, direct := fun i => if i = 0 then 1 else 0,
      indirect1 := 0, indirect2 := 0, indirect3 := 0 }
  positive := kibibyte_pos

def noWords : ℕ → NodePtr := fun _ => .null

theorem tiny_loads_in_user_page :
    ∃ l, loadFile qemu (tinyNode 0x80000000 4).io noWords [] = some l ∧ ∀ a ∈ l.stores, UserByte qemu a := by
  have hsome : (loadFile qemu (tinyNode 0x80000000 4).io noWords []).isSome := by decide +kernel
  have hseg : loadSegments (tinyNode 0x80000000 4).io = [⟨1, 0, 0x80000000, 4, 4⟩] := by decide +kernel
  obtain ⟨l, hl⟩ := Option.isSome_iff_exists.mp hsome
  refine ⟨l, hl, (load_stores_iff_segments qemu _ noWords [] l hl).1 ?_⟩
  intro ph hph
  obtain rfl := List.mem_singleton.mp (hseg ▸ hph)
  exact ⟨.inr ⟨by decide, by decide, .inl (by decide), .inl (by decide)⟩, .inl (by decide)⟩

/-- A segment at the start of the kernel heap: `mmap` refuses it and the loader fills it. -/
theorem tiny_overwrites_kernel_heap :
    ¬ ∀ (cfg : Config) (file : BlockIO) (words : ℕ → NodePtr) (es : List VMEntry) (l : Loaded),
      loadFile cfg file words es = some l → ∀ a ∈ l.stores, UserByte cfg a := by
  intro h
  have hmem : ∀ l, loadFile qemu (tinyNode 0x100000 4).io noWords [] = some l → 0x100000 ∈ l.stores := by
    have hall : (loadFile qemu (tinyNode 0x100000 4).io noWords []).all (0x100000 ∈ ·.stores) := by
      decide +kernel
    intro l hl
    simpa [hl] using hall
  have hsome : (loadFile qemu (tinyNode 0x100000 4).io noWords []).isSome := by decide +kernel
  obtain ⟨l, hl⟩ := Option.isSome_iff_exists.mp hsome
  exact absurd (h qemu _ noWords [] l hl 0x100000 (hmem l hl)).user (by decide)

end MMapKernel.Sys
