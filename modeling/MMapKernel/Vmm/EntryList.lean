import MMapKernel.Lib.Transition

/-!
# Entry lists: where `mmap` puts a region and which one `munmap` takes out

The part of `kernel/vmm.cc` that works on a process's `entry_list` alone. Addresses and
sizes are 32-bit words and wrap as in the source. The list is kept in the order of the
`next` pointers; the placement loop walks it with the two cursors `prev` and `temp`.

No constructor sets `VMEntry::node`, so a new entry carries whatever word the heap block
held. `NodeField` keeps that word apart from a pointer the fault handler has stored.
-/

namespace MMapKernel

/-- The two device pages. They are page-aligned and lie in the user half of the address
space, where every directory maps them for the kernel. -/
structure Config where
  ioAPIC : UInt32
  localAPIC : UInt32
  io_aligned : ioAPIC.toNat % 4096 = 0
  local_aligned : localAPIC.toNat % 4096 = 0
  io_user : 0x80000000 ≤ ioAPIC
  local_user : 0x80000000 ≤ localAPIC

namespace Vmm

/-- What a pointer-sized word can be when it is used as a `NodeEntry*`. -/
inductive NodePtr where
  | null
  | entry (id : ℕ)
  | wild
deriving DecidableEq, Repr

inductive NodeField where
  | unset (word : NodePtr)
  | set (id : ℕ)
deriving DecidableEq, Repr

def NodeField.value : NodeField → NodePtr
  | .unset word => word
  | .set id => .entry id

structure VMEntry where
  file : Option ℕ
  size : UInt32
  startingAddress : UInt32
  offset : UInt32
  flags : UInt32
  prot : UInt32
  node : NodeField
deriving DecidableEq, Repr

def framedown (pa : UInt32) : UInt32 := pa / 4096 * 4096

def frameup (pa : UInt32) : UInt32 := framedown (pa + 4096 - 1)

def isSpecial (cfg : Config) (va : UInt32) : Bool :=
  va < 0x80000000 || va == cfg.ioAPIC || va == cfg.localAPIC

namespace VMEntry

def stop (e : VMEntry) : UInt32 := e.startingAddress + e.size

/-- The test by which `munmap` and the fault handler recognise the entry of an address. -/
def holds (e : VMEntry) (va : UInt32) : Bool := va ≥ e.startingAddress && va < e.stop

def isShared (e : VMEntry) : Bool := e.flags &&& 1 != 0

end VMEntry

/-- The loop of `mmap`. `front` is the part of the list before `prev`; the result is the
address and the two parts between which the new entry goes. -/
def search (size : UInt32) : List VMEntry → VMEntry → List VMEntry → UInt32 →
    UInt32 × List VMEntry × List VMEntry
  | front, prev, [], va => (va, front ++ [prev], [])
  | front, prev, temp :: rest, va =>
    if va ≥ temp.startingAddress then search size (front ++ [prev]) temp rest va
    else if va ≥ prev.stop && va + size < temp.startingAddress then
      (va, front ++ [prev], temp :: rest)
    else
      let va := prev.stop
      if va ≥ prev.stop && va + size < temp.startingAddress then
        (va, front ++ [prev], temp :: rest)
      else search size (front ++ [prev]) temp rest va

def place (es : List VMEntry) (size va : UInt32) : UInt32 × List VMEntry × List VMEntry :=
  match es with
  | [] => (va, [], [])
  | prev :: rest => search size [] prev rest va

/-- The file behind a descriptor: none is asked for, `getFile` finds nothing, the console
(whose node is null), or a file of the file system. -/
inductive Fd where
  | negative
  | unknown
  | console
  | node (number : ℕ)
deriving DecidableEq, Repr

structure MmapArgs where
  addr : UInt32
  length : UInt32
  prot : UInt32
  flags : UInt32
  fd : Fd
  offset : UInt32
  word : NodePtr
deriving DecidableEq, Repr

inductive MmapResult where
  | null
  | nullFile
  | mapped (va : UInt32) (entries : List VMEntry)
deriving DecidableEq, Repr

def MmapArgs.hint (a : MmapArgs) : UInt32 := if a.addr = 0 then 0x80000000 else a.addr

def MmapArgs.size (a : MmapArgs) : UInt32 := frameup a.length

def MmapArgs.newEntry (a : MmapArgs) (file : Option ℕ) (va : UInt32) : VMEntry :=
  { file := file, size := a.size, startingAddress := va, offset := a.offset, flags := a.flags,
    prot := a.prot, node := .unset a.word }

/-- `VMM::mmap` on the entry list of the calling process. `nullFile` is the call of `getNode`
on a null `File`. -/
def mmap (cfg : Config) (es : List VMEntry) (a : MmapArgs) : MmapResult :=
  if isSpecial cfg a.hint then .null
  else
    let (va, front, back) := place es a.size a.hint
    if va ≠ a.addr ∧ a.flags &&& 2 = 2 then .null
    else
      let insert (file : Option ℕ) : MmapResult :=
        .mapped va (front ++ a.newEntry file va :: back)
      match a.fd with
      | .negative => insert none
      | .unknown => .nullFile
      | .console => insert none
      | .node number => insert (some number)

/-- The search of `munmap`: the first entry that holds the address, and the list without it. -/
def takeEntry (va : UInt32) : List VMEntry → Option (VMEntry × List VMEntry)
  | [] => none
  | e :: es =>
    if e.holds va then some (e, es)
    else (takeEntry va es).map fun r => (r.1, e :: r.2)

def munmapEntries (cfg : Config) (es : List VMEntry) (addr : UInt32) : List VMEntry :=
  if isSpecial cfg addr then es
  else match takeEntry addr es with
    | none => es
    | some (_, rest) => rest

end Vmm
end MMapKernel
