import MMapKernel.Lib.Sparse
import MMapKernel.Vmm.EntryList
import MMapKernel.Vmm.PhysMem

/-!
# Page directories

The user half of a page directory as `kernel/vmm.cc` builds it: present directory entries
with the frame of their table, present table entries with their frame and user bit. The
kernel half is the same in all directories and no operation here changes it; memory is
taken to end below `0x80000000`, so that its tables never lie in the user half.

A loop of the source over all 1024 slots of an array skips the slots that are not
present, so it is a fold over the entries of a `Sparse` array.
-/

namespace MMapKernel.Vmm

instance slotsNeZero : NeZero 1024 := ⟨by decide⟩

structure Pte where
  frame : ℕ
  user : Bool
deriving DecidableEq, Repr

structure PageTable where
  frame : ℕ
  ptes : Sparse 1024 Pte

structure PageDir where
  frame : ℕ
  tables : Sparse 1024 PageTable

abbrev Page := Fin 1024 × Fin 1024

def pageOf (va : UInt32) : Page :=
  (⟨va.toNat / 2 ^ 22, by have := va.toNat_lt; omega⟩, ⟨va.toNat / 4096 % 1024, by omega⟩)

def addressOf (g : Page) : UInt32 := UInt32.ofNat (g.1 * 2 ^ 22 + g.2 * 4096)

theorem addressOf_toNat (g : Page) : (addressOf g).toNat = g.1 * 2 ^ 22 + g.2 * 4096 := by
  obtain ⟨⟨i, hi⟩, ⟨j, hj⟩⟩ := g
  simp only [addressOf, UInt32.toNat_ofNat']
  omega

theorem pageOf_addressOf (g : Page) : pageOf (addressOf g) = g := by
  obtain ⟨⟨i, hi⟩, ⟨j, hj⟩⟩ := g
  simp only [pageOf, addressOf_toNat, Prod.mk.injEq, Fin.mk.injEq]
  omega

theorem addressOf_pageOf {va : UInt32} (h : va.toNat % 4096 = 0) : addressOf (pageOf va) = va := by
  apply UInt32.toNat_inj.mp
  rw [addressOf_toNat]
  simp only [pageOf]
  omega

namespace PageDir

def lookup (d : PageDir) (g : Page) : Option Pte := (d.tables.get g.1).bind fun pt => pt.ptes.get g.2

/-- The body `map` and `user_map` share: find or allocate the table, store the entry. -/
def install (d : PageDir) (m : PhysMem) (va : UInt32) (pte : Pte) : Option (PageDir × PhysMem) :=
  let g := pageOf va
  match d.tables.get g.1 with
  | none =>
    match m.allocFrame with
    | none => none
    | some (t, m) =>
      some ({ d with tables := d.tables.set g.1 ⟨t, Sparse.empty.set g.2 pte⟩ }, m)
  | some pt =>
    some ({ d with tables := d.tables.set g.1 { pt with ptes := pt.ptes.set g.2 pte } }, m)

def map (d : PageDir) (m : PhysMem) (va : UInt32) (pa : ℕ) : Option (PageDir × PhysMem) :=
  d.install m va ⟨pa, false⟩

def userMap (d : PageDir) (m : PhysMem) (va : UInt32) (pa : ℕ) : Option (PageDir × PhysMem) :=
  d.install m va ⟨pa, true⟩

def clear (d : PageDir) (g : Page) : PageDir :=
  match d.tables.get g.1 with
  | none => d
  | some pt => { d with tables := d.tables.set g.1 { pt with ptes := pt.ptes.erase g.2 } }

def unmap (d : PageDir) (m : PhysMem) (va : UInt32) (physical : Bool) : PageDir × PhysMem :=
  match d.lookup (pageOf va) with
  | none => (d, m)
  | some pte => (d.clear (pageOf va), if physical then m.deallocFrame pte.frame else m)

def makePd (cfg : Config) (m : PhysMem) : Option (PageDir × PhysMem) :=
  match m.allocFrame with
  | none => none
  | some (f, m) =>
    match map ⟨f, Sparse.empty⟩ m cfg.ioAPIC cfg.ioAPIC.toNat with
    | none => none
    | some (d, m) => d.map m cfg.localAPIC cfg.localAPIC.toNat

def deleteTable (cfg : Config) (m : PhysMem) (pdi : Fin 1024) (pt : PageTable) : PhysMem :=
  let m := pt.ptes.entries.foldl
    (fun m e => if isSpecial cfg (addressOf (pdi, e.1)) then m else m.deallocFrame e.2.frame) m
  m.deallocFrame pt.frame

def deletePd (cfg : Config) (d : PageDir) (m : PhysMem) : PhysMem :=
  let m := (d.tables.entries.filter fun e => (512 : Fin 1024) ≤ e.1).foldl
    (fun m e => deleteTable cfg m e.1 e.2) m
  m.deallocFrame d.frame

/-- The inner loop of `fork`: copy the pages of one table that the child does not have. -/
def copyPage (c : Sparse 1024 Pte × PhysMem) (e : Fin 1024 × Pte) :
    Option (Sparse 1024 Pte × PhysMem) :=
  match c.1.get e.1 with
  | some _ => some c
  | none =>
    match c.2.allocFrame with
    | none => none
    | some (f, m) => some (c.1.set e.1 ⟨f, true⟩, m.fill f (m.bytes e.2.frame))

def copyTable (c : PageDir × PhysMem) (e : Fin 1024 × PageTable) : Option (PageDir × PhysMem) :=
  let child : Option (PageTable × PhysMem) :=
    match c.1.tables.get e.1 with
    | some pt => some (pt, c.2)
    | none => c.2.allocFrame.map fun r => (⟨r.1, Sparse.empty⟩, r.2)
  match child with
  | none => none
  | some (pt, m) =>
    match e.2.ptes.entries.foldlM copyPage (pt.ptes, m) with
    | none => none
    | some (ptes, m) => some ({ c.1 with tables := c.1.tables.set e.1 { pt with ptes := ptes } }, m)

def copyUser (parent child : PageDir) (m : PhysMem) : Option (PageDir × PhysMem) :=
  (parent.tables.entries.filter fun e => (512 : Fin 1024) ≤ e.1).foldlM copyTable (child, m)

end PageDir
end MMapKernel.Vmm
