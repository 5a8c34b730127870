import MMapKernel.Fs.DiskLock
import MMapKernel.Fs.FileRead
import MMapKernel.Fs.Readable
import MMapKernel.Vmm.Kernel

/-!
# Stores of the kernel in user memory

A store to a page that is not there enters the fault handler, which ends the process if no entry
answers. For the first page of a shared file it reads that file, which takes the lock of the driver:
a thread that stores a sector in place has that lock, and waits for itself then.
-/

namespace MMapKernel.Sys
open Fs Vmm
open BlockIO (readAll_stored_le)

def filesOf (inode : ℕ → Node) : FileSystem := fun number =>
  (inode number).content.take (inode number).data.sizeLow.toNat

theorem pageContent_readAll {inode : ℕ → Node} {number : ℕ} {e : VMEntry} {va : UInt32} {i : ℕ}
    (hd : (inode number).disk.bytes.length < 2 ^ 32) (h : (inode number).Allocated) (hprot : e.prot &&& 2 = 2)
    (hi : i < 4096) :
    pageContent (filesOf inode) e number va i =
      (((inode number).io.readAll (e.offset + va - e.startingAddress) 4096).stored[i]?).getD 0 := by
  rw [pageContent, if_pos hprot, filesOf]
  generalize e.offset + va - e.startingAddress = offset
  congr 1
  by_cases ho : offset ≤ (inode number).data.sizeLow
  · rw [(inode number).readAll_eq hd h ho]
    have hiff : i < min (4096 : UInt32).toNat ((inode number).data.sizeLow.toNat - offset.toNat) ↔
        offset.toNat + i < (inode number).data.sizeLow.toNat := by
      change i < min 4096 _ ↔ _
      omega
    simp only [Transfer.returns, List.getElem?_take, List.getElem?_drop, hiff]
  · have hlt : (inode number).data.sizeLow.toNat < offset.toNat := by
      rw [UInt32.le_iff_toNat_le] at ho
      omega
    have hstored : ((inode number).io.readAll offset 4096).stored = [] := by
      refine List.eq_nil_of_length_eq_zero (Nat.le_zero.mp (readAll_stored_le.trans ?_))
      change min 4096 ((inode number).data.sizeLow.toNat - offset.toNat) ≤ 0
      omega
    rw [hstored, List.getElem?_take, if_neg (by omega), List.getElem?_nil]

def faultRead (k : Kernel) (pid : ℕ) (x : UInt32) : Option (ℕ × UInt32) :=
  if x < 0x80000000 then none
  else (k.procs[pid]?).bind fun p =>
    if (p.pd.lookup (pageOf x)).isSome then none
    else (p.entryList.find? fun e => e.holds (framedown x)).bind fun e =>
      e.sharedFile.bind fun number =>
        if k.findNode number = none ∧ e.prot &&& 2 = 2 then
          some (number, e.offset + framedown x - e.startingAddress)
        else none

def faultActions (inode : ℕ → Node) (k : Kernel) (pid : ℕ) (x : UInt32) : List Action :=
  match faultRead k pid x with
  | none => []
  | some (number, offset) => (inode number).readAllActions offset 4096 none

def faultReturns (inode : ℕ → Node) (k : Kernel) (pid : ℕ) (x : UInt32) : Bool :=
  match faultRead k pid x with
  | none => true
  | some (number, offset) => ((inode number).io.readAll offset 4096).result.isSome

/-- What a store by process `pid` leaves of the pages. Kernel memory is mapped in every directory; a
page of the user half that is not present faults, and the fault may end the process. -/
def pageIn (files : FileSystem) (pid : ℕ) (k : Kernel) (x : UInt32) : Option Kernel :=
  if x < 0x80000000 then some k
  else (k.procs[pid]?).bind fun p =>
    if (p.pd.lookup (pageOf x)).isSome then some k
    else (k.pageFault files pid p x).bind fun k =>
      if (k.procs[pid]?).any fun p => p.status == .live then some k else none

/-- A store of the kernel on behalf of process `pid`, by a thread that has the lock of the driver or
has not. There is no result if the fault takes the lock again, if its read fails an `ASSERT`, or if it
ends the process. -/
def store (inode : ℕ → Node) (pid : ℕ) (held : Bool) (k : Kernel) (x : UInt32) : Option Kernel :=
  match heldAfter held (faultActions inode k pid x) with
  | none => none
  | some _ => if faultReturns inode k pid x then pageIn (filesOf inode) pid k x else none

def storeAll (inode : ℕ → Node) (pid : ℕ) (k : Kernel) (xs : List UInt32) : Option Kernel :=
  xs.foldlM (store inode pid false) k

def perform (inode : ℕ → Node) (pid : ℕ) : Bool → List Action → Kernel → Option Kernel
  | _, [], k => some k
  | held, .store x :: rest, k => (store inode pid held k x).bind (perform inode pid held rest)
  | held, action :: rest, k => (action.held held).bind fun held => perform inode pid held rest k

def transfers : Bool → List Action → List (Bool × UInt32)
  | _, [] => []
  | held, .store x :: rest => (held, x) :: transfers held rest
  | _, .lock :: rest => transfers true rest
  | _, .unlock :: rest => transfers false rest

def storeEach (inode : ℕ → Node) (pid : ℕ) (k : Kernel) (ts : List (Bool × UInt32)) : Option Kernel :=
  ts.foldlM (fun k t => store inode pid t.1 k t.2) k

def Calm (inode : ℕ → Node) (pid : ℕ) (held : Bool) (k : Kernel) (x : UInt32) : Prop :=
  ∀ number offset, faultRead k pid x = some (number, offset) →
    (held = true → ¬(inode number).ReadsDisk offset) ∧ (inode number).io.Readable offset 4096

section
variable {inode : ℕ → Node} {pid : ℕ} {held : Bool} {k k' : Kernel} {x : UInt32} {xs : List Action}

theorem faultRead_eq_some {r : ℕ × UInt32} :
    faultRead k pid x = some r ↔ ¬ x < 0x80000000 ∧ ∃ p, k.procs[pid]? = some p ∧
      p.pd.lookup (pageOf x) = none ∧
      ∃ e, p.entryList.find? (fun e => e.holds (framedown x)) = some e ∧
        ∃ number, e.sharedFile = some number ∧ (k.findNode number = none ∧ e.prot &&& 2 = 2) ∧
          (number, e.offset + framedown x - e.startingAddress) = r := by
  simp [faultRead, Option.bind_eq_some_iff]

theorem faultActions_first (k : Kernel) (x : UInt32) : LocksFirst (faultActions inode k pid x) := by
  unfold faultActions
  split
  · exact .nil
  · exact (Node.io_guards _).readLoop_first _ _ _

theorem faultActions_brackets (inode : ℕ → Node) (pid : ℕ) (k : Kernel) (x : UInt32) :
    Brackets (faultActions inode k pid x) (faultReturns inode k pid x = true) := by
  unfold faultActions faultReturns
  cases faultRead k pid x with
  | none => exact .nil
  | some r =>
    refine ((Node.io_guards _).readAll _ _ _).mono fun hret hnone => ?_
    dsimp only at hret
    rw [hnone] at hret
    cases hret

theorem faultActions_ne_nil {k : Kernel} {x : UInt32} :
    faultActions inode k pid x ≠ [] ↔
      ∃ number offset, faultRead k pid x = some (number, offset) ∧ (inode number).ReadsDisk offset := by
  unfold faultActions
  cases h : faultRead k pid x with
  | none => simp
  | some r =>
    obtain ⟨number, offset⟩ := r
    constructor
    · intro hne
      exact ⟨number, offset, rfl, hne⟩
    · rintro ⟨_, _, ⟨⟩, hdisk⟩
      exact hdisk

theorem faultReturns_iff : faultReturns inode k pid x = true ↔
    ∀ number offset, faultRead k pid x = some (number, offset) → (inode number).io.Readable offset 4096 := by
  unfold faultReturns
  cases faultRead k pid x with
  | none => simp
  | some r =>
    obtain ⟨number, offset⟩ := r
    simp [Option.isSome_iff_ne_none, BlockIO.readAll_returns_iff]

theorem heldAfter_fault : heldAfter held (faultActions inode k pid x) = none ↔
    held = true ∧ ∃ number offset, faultRead k pid x = some (number, offset) ∧
      (inode number).ReadsDisk offset := by
  rw [← faultActions_ne_nil]
  cases held with
  | true => simpa using (faultActions_first k x).heldAfter_eq_none
  | false =>
    obtain ⟨b, hb, -⟩ := faultActions_brackets inode pid k x
    simp [hb]

theorem heldAfter_returned {b : Bool} (h : heldAfter held (faultActions inode k pid x) = some b)
    (hret : faultReturns inode k pid x = true) : b = held := by
  cases held with
  | true =>
    have hnil : faultActions inode k pid x = [] := by
      by_contra hne
      rw [heldAfter_fault.mpr ⟨rfl, faultActions_ne_nil.mp hne⟩] at h
      cases h
    rw [hnil] at h
    exact (Option.some.inj h).symm
  | false =>
    obtain ⟨b', hb, hfree⟩ := faultActions_brackets inode pid k x
    rw [hb] at h
    rw [← Option.some.inj h]
    exact hfree hret

theorem store_calm (h : Calm inode pid held k x) :
    store inode pid held k x = pageIn (filesOf inode) pid k x := by
  have hret : faultReturns inode k pid x = true :=
    faultReturns_iff.mpr fun number offset hread => (h number offset hread).2
  unfold store
  split
  case h_1 hnone =>
    obtain ⟨hheld, number, offset, hread, hdisk⟩ := heldAfter_fault.mp hnone
    exact absurd hdisk ((h number offset hread).1 hheld)
  case h_2 => rw [if_pos hret]

theorem calm_of_store (h : store inode pid held k x = some k') : Calm inode pid held k x := by
  unfold store at h
  split at h
  case h_1 => cases h
  case h_2 hsome =>
    obtain ⟨hret, -⟩ := Option.ite_none_right_eq_some.mp h
    refine fun number offset hread => ⟨fun hheld hdisk => ?_, faultReturns_iff.mp hret _ _ hread⟩
    rw [heldAfter_fault.mpr ⟨hheld, number, offset, hread, hdisk⟩] at hsome
    cases hsome

theorem store_some_iff : store inode pid held k x = some k' ↔
    Calm inode pid held k x ∧ pageIn (filesOf inode) pid k x = some k' := by
  constructor
  · intro h
    exact ⟨calm_of_store h, (store_calm (calm_of_store h)).symm.trans h⟩
  · rintro ⟨hcalm, h⟩
    exact (store_calm hcalm).trans h

theorem storeAll_eq (inode : ℕ → Node) (pid : ℕ) (k : Kernel) (xs : List UInt32) :
    storeAll inode pid k xs = storeEach inode pid k (xs.map fun x => (false, x)) := by
  rw [storeAll, storeEach, List.foldlM_map]

theorem perform_eq {b : Bool} (h : heldAfter held xs = some b) :
    perform inode pid held xs k = storeEach inode pid k (transfers held xs) := by
  induction xs generalizing held k with
  | nil => rfl
  | cons action rest ih =>
    obtain ⟨held', hheld, hrest⟩ := Option.bind_eq_some_iff.mp
      (show (action.held held).bind (fun h => heldAfter h rest) = some b from h)
    cases action with
    | store x =>
      cases hheld
      change (store inode pid held k x).bind (perform inode pid held rest) =
        (store inode pid held k x).bind fun k => storeEach inode pid k (transfers held rest)
      exact congrArg _ (funext fun k => ih hrest)
    | lock =>
      cases held with
      | true => cases hheld
      | false =>
        cases hheld
        exact ih hrest
    | unlock =>
      cases hheld
      exact ih hrest

theorem transfers_snd (held : Bool) (xs : List Action) :
    (transfers held xs).map Prod.snd = storesOf xs := by
  induction xs generalizing held with
  | nil => rfl
  | cons action rest ih =>
    cases action with
    | store x => exact congrArg (x :: ·) (ih held)
    | lock => exact ih true
    | unlock => exact ih false

end
end MMapKernel.Sys
