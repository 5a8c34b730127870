import MMapKernel.Vmm.PageTable

/-!
# The kernel state behind shared mappings

Processes with their page directories and entry lists, the frame allocator, and the
`node_list` of files that are mapped shared. A process is named by its index. A `NodeEntry`
is named by its index in `nodes`, which keeps every one ever made, since none is deleted;
`nodeList` is the linked list, first entry first.

Each call is one atomic step. A step has no result where the machine stops (the allocator
panics) or where the code follows a word that points to no `NodeEntry`. A null pointer the
kernel follows raises a page fault below `0x80000000`, and the fault handler then ends the
process that is running.
-/

open Transition
namespace MMapKernel.Vmm

structure NodeEntry where
  file : ℕ
  numProcesses : UInt32
  pa : ℕ
deriving DecidableEq, Repr

/-- `terminated` lasts from `stop` to the deletion of the last reference. -/
inductive Status where
  | live
  | terminated
  | destroyed
deriving DecidableEq, Repr

structure Process where
  pd : PageDir
  entryList : List VMEntry
  status : Status
  killFlag : Bool

def Process.stopped (p : Process) : Process := { p with status := .terminated }

structure Kernel where
  phys : PhysMem
  procs : List Process
  nodes : List NodeEntry
  nodeList : List ℕ

abbrev FileSystem := ℕ → List UInt8

namespace Kernel

def put (k : Kernel) (pid : ℕ) (p : Process) : Kernel := { k with procs := k.procs.set pid p }

def fileOf (k : Kernel) (n : ℕ) : Option ℕ := (k.nodes[n]?).map NodeEntry.file

def findNode (k : Kernel) (number : ℕ) : Option ℕ := k.nodeList.find? fun n => k.fileOf n = some number

/-- The walk of `munmap` over `node_list`: the first entry with that number is taken out. -/
def unlink (k : Kernel) (number : ℕ) : Kernel :=
  { k with nodeList := k.nodeList.eraseP fun n => k.fileOf n = some number }

end Kernel

def count (f : UInt32 → UInt32) (x : NodeEntry) : NodeEntry :=
  { x with numProcesses := f x.numProcesses }

def Kernel.mmap (cfg : Config) (k : Kernel) (pid : ℕ) (p : Process) (a : MmapArgs) : Kernel :=
  match Vmm.mmap cfg p.entryList a with
  | .null => k
  | .nullFile => k.put pid p.stopped
  | .mapped _ es => k.put pid { p with entryList := es }

def VMEntry.sharedFile (e : VMEntry) : Option ℕ := if e.isShared then e.file else none

/-- What `read_all` and the zero fill leave in a frame. The panic of a read behind the blocks that a node
can name is not part of it. -/
def pageContent (files : FileSystem) (e : VMEntry) (number : ℕ) (va : UInt32) (i : ℕ) : UInt8 :=
  if e.prot &&& 2 = 2 then
    ((files number)[(e.offset + va - e.startingAddress).toNat + i]?).getD 0
  else 0

def Kernel.resolve (files : FileSystem) (k : Kernel) (e : VMEntry) (va : UInt32) :
    Option (ℕ × VMEntry × Kernel) :=
  match e.sharedFile with
  | none => k.phys.allocFrame.map fun r => (r.1, e, { k with phys := r.2 })
  | some number =>
    match k.findNode number with
    | some n =>
      (k.nodes[n]?).map fun x =>
        (x.pa, { e with node := .set n }, { k with nodes := k.nodes.modify n (count (· + 1)) })
    | none =>
      k.phys.allocFrame.map fun r =>
        (r.1, { e with node := .set k.nodes.length },
          { k with
            phys := r.2.fill r.1 (pageContent files e number va)
            nodes := k.nodes ++ [⟨number, 1, r.1⟩]
            nodeList := k.nodeList ++ [k.nodes.length] })

def replaceEntry (va : UInt32) (e' : VMEntry) : List VMEntry → List VMEntry
  | [] => []
  | e :: es => if e.holds va then e' :: es else e :: replaceEntry va e' es

def Kernel.pageFault (files : FileSystem) (k : Kernel) (pid : ℕ) (p : Process) (va_ : UInt32) :
    Option Kernel :=
  let va := framedown va_
  if va < 0x80000000 then some (k.put pid p.stopped)
  else match p.entryList.find? fun e => e.holds va with
    | none => some (k.put pid p.stopped)
    | some e =>
      match k.resolve files e va with
      | none => none
      | some (pa, e', k) =>
        match p.pd.userMap k.phys va pa with
        | none => none
        | some (pd, phys) =>
          some ({ k with phys := phys }.put pid
            { p with pd := pd, entryList := replaceEntry va e' p.entryList })

/-- The addresses of the unmap loop. A size is a multiple of the page size, so the loop
takes `size / 4096` turns, or none when the end wraps below the start. -/
def VMEntry.pages (e : VMEntry) : List UInt32 :=
  (List.range ((e.stop.toNat - e.startingAddress.toNat) / 4096)).map fun i =>
    e.startingAddress + UInt32.ofNat (i * 4096)

def PageDir.unmapAll (d : PageDir) (m : PhysMem) (vas : List UInt32) (physical : Bool) :
    PageDir × PhysMem :=
  vas.foldl (fun s va => s.1.unmap s.2 va physical) (d, m)

def Kernel.release (k : Kernel) (pid : ℕ) (p : Process) (e : VMEntry) (physical : Bool) :
    Option Kernel :=
  let (pd, phys) := p.pd.unmapAll k.phys e.pages physical
  let p := { p with pd := pd }
  let k := { k with phys := phys }
  if physical = false then some (k.put pid p)
  else if k.nodeList = [] then some (k.put pid p.stopped)
  else match e.node.value with
    | .null => some (k.put pid p.stopped)
    | .wild => none
    | .entry n => (k.fileOf n).map fun number => (k.unlink number).put pid p

def Kernel.munmap (cfg : Config) (k : Kernel) (pid : ℕ) (p : Process) (addr : UInt32) :
    Option Kernel :=
  if isSpecial cfg addr then some k
  else match takeEntry addr p.entryList with
    | none => some k
    | some (e, rest) =>
      let p := { p with entryList := rest }
      if e.isShared = false then k.release pid p e true
      else match e.node.value with
        | .null => some (k.put pid p.stopped)
        | .wild => none
        | .entry n =>
          match k.nodes[n]? with
          | none => none
          | some x =>
            { k with nodes := k.nodes.modify n (count (· - 1)) }.release pid p e
              (x.numProcesses - 1 == 0)

def adjust (f : UInt32 → UInt32) (nodes : List NodeEntry) (e : VMEntry) : Option (List NodeEntry) :=
  match e.node.value with
  | .null => some nodes
  | .wild => none
  | .entry n => if n < nodes.length then some (nodes.modify n (count f)) else none

def adjustAll (f : UInt32 → UInt32) (nodes : List NodeEntry) (es : List VMEntry) :
    Option (List NodeEntry) :=
  es.foldlM (adjust f) nodes

/-- `Process::fork`. Without a free child slot it returns a null process, and the thread
constructor follows that. -/
def Kernel.fork (cfg : Config) (k : Kernel) (pid : ℕ) (p : Process) (slot : Bool) : Option Kernel :=
  if slot = false then some (k.put pid p.stopped)
  else match PageDir.makePd cfg k.phys with
    | none => none
    | some (child, phys) =>
      match p.pd.copyUser child phys with
      | none => none
      | some (child, phys) =>
        (adjustAll (· + 1) k.nodes p.entryList).map fun nodes =>
          { k with
            phys := phys
            nodes := nodes
            procs := k.procs ++ [⟨child, p.entryList, .live, false⟩] }

def Kernel.exit (k : Kernel) (pid : ℕ) (p : Process) : Option Kernel :=
  (adjustAll (· - 1) k.nodes p.entryList).map fun nodes => { k with nodes := nodes }.put pid p.stopped

def Kernel.destroy (cfg : Config) (k : Kernel) (pid : ℕ) (p : Process) : Kernel :=
  { k with phys := p.pd.deletePd cfg k.phys }.put pid { p with status := .destroyed }

def Kernel.spawn (cfg : Config) (k : Kernel) : Option Kernel :=
  (PageDir.makePd cfg k.phys).map fun r =>
    { k with phys := r.2, procs := k.procs ++ [⟨r.1, [], .live, false⟩] }

inductive Call where
  | spawn
  | mmap (pid : ℕ) (a : MmapArgs)
  | pageFault (pid : ℕ) (va : UInt32)
  | munmap (pid : ℕ) (addr len : UInt32)
  | fork (pid : ℕ) (slot : Bool)
  | exit (pid : ℕ)
  | kill (pid : ℕ)
  | tick (pid : ℕ)
  | destroy (pid : ℕ)

/-- What a call does when the process it names is `p`. The hardware raises a page fault only
where no user entry is present; a tick ends a process whose flag is set; the last
reference to a process goes after it has stopped. -/
def Kernel.stepOn (cfg : Config) (files : FileSystem) (k : Kernel) (p : Process) :
    Call → Option Kernel
  | .spawn => none
  | .mmap pid a => if p.status = .live then some (k.mmap cfg pid p a) else none
  | .pageFault pid va =>
    if p.status = .live ∧ ¬ ((p.pd.lookup (pageOf va)).any Pte.user) then
      k.pageFault files pid p va
    else none
  | .munmap pid addr _ => if p.status = .live then k.munmap cfg pid p addr else none
  | .fork pid slot => if p.status = .live then k.fork cfg pid p slot else none
  | .exit pid => if p.status = .live then k.exit pid p else none
  | .kill pid => some (k.put pid { p with killFlag := true })
  | .tick pid => if p.status = .live ∧ p.killFlag = true then some (k.put pid p.stopped) else none
  | .destroy pid => if p.status = .terminated then some (k.destroy cfg pid p) else none

def Call.pid : Call → Option ℕ
  | .spawn => none
  | .mmap pid _ | .pageFault pid _ | .munmap pid _ _ | .fork pid _ | .exit pid | .kill pid
  | .tick pid | .destroy pid => some pid

def Kernel.step (cfg : Config) (files : FileSystem) (k : Kernel) (c : Call) : Option Kernel :=
  match c.pid with
  | none => k.spawn cfg
  | some pid => (k.procs[pid]?).bind fun p => k.stepOn cfg files p c

/-- No process yet, no file mapped, and an allocator that has handed out only frames the
kernel keeps. -/
structure Booted (k : Kernel) : Prop where
  procs : k.procs = []
  nodes : k.nodes = []
  nodeList : k.nodeList = []
  free : k.phys.free = []

def kernels (cfg : Config) (files : FileSystem) : System Kernel Call where
  init := Booted
  step k c k' := k.step cfg files c = some k'

def Kernel.run (cfg : Config) (files : FileSystem) (k : Kernel) (cs : List Call) : Option Kernel :=
  cs.foldlM (fun k c => k.step cfg files c) k

def bootKernel : Kernel where
  phys := { free := [], avail := 0x100000, limit := 0x8000000, bytes := fun _ _ => 0 }
  procs := []
  nodes := []
  nodeList := []

theorem bootKernel_booted : Booted bootKernel := ⟨rfl, rfl, rfl, rfl⟩

end MMapKernel.Vmm
