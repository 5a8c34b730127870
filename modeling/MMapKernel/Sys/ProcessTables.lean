import MMapKernel.Lib.Transition
import MMapKernel.Sys.Handler

/-!
# The tables of a process: `kernel/process.cc`

A process has a table of semaphores, one of files and two of children: the futures with their exit
statuses and the kill flags. One kind of id names the slots of the first three; its upper bits say
which table is meant. What the slots refer to is left open: `σ`, `φ`, `χ` and `κ` are the types of
semaphores, files, futures and flags, and a null pointer is an empty slot.
-/

open Transition
namespace MMapKernel.Sys

def getSemaphoreIndex : UInt32 → Option (Fin 10) := handleIndex 0x20000000 10

structure ProcessTables (σ φ χ κ : Type) where
  sems : Fin 10 → Option σ
  files : Fin 10 → Option φ
  children : Fin 10 → Option χ
  killFlags : Fin 10 → Option κ

/-- The search for a slot that `newSemaphore`, `setFile` and `fork` begin with. -/
def firstFree {α : Type} (table : Fin 10 → Option α) : Option (Fin 10) :=
  (List.finRange 10).find? fun i => (table i).isNone

structure Answer where
  result : UInt32
  status : Option UInt32 := none
deriving DecidableEq, Repr

namespace ProcessTables
variable {σ φ χ κ : Type}

def newSemaphore (p : ProcessTables σ φ χ κ) (sem : σ) : UInt32 × ProcessTables σ φ χ κ :=
  match firstFree p.sems with
  | some i =>
    (0x20000000 ||| (UInt32.ofNat i &&& 0x0FFFFFFF),
      { p with sems := Function.update p.sems i (some sem) })
  | none => (-1, p)

def getSemaphore (p : ProcessTables σ φ χ κ) (id : UInt32) : Option σ :=
  (getSemaphoreIndex id).bind p.sems

def getFile (p : ProcessTables σ φ χ κ) (fd : UInt32) : Option φ :=
  match getFileIndex fd with
  | none => none
  | some _ => if h : fd.toNat < 10 then p.files ⟨fd.toNat, h⟩ else none

def setFile (p : ProcessTables σ φ χ κ) (file : Option φ) : UInt32 × ProcessTables σ φ χ κ :=
  match firstFree p.files with
  | some i => (UInt32.ofNat i, { p with files := Function.update p.files i file })
  | none => (-1, p)

/-- `fork`: the id, the tables of the new process, if there is one, and those of the parent.
`child` and `flag` are the `output` and the `kill_flag` of the new process. -/
def fork (p : ProcessTables σ φ χ κ) (child : χ) (flag : κ) :
    UInt32 × Option (ProcessTables σ φ χ κ) × ProcessTables σ φ χ κ :=
  match firstFree p.children with
  | some i =>
    (0x10000000 ||| UInt32.ofNat i,
      some { sems := p.sems, files := p.files, children := fun _ => none, killFlags := fun _ => none },
      { p with
        children := Function.update p.children i (some child)
        killFlags := Function.update p.killFlags i (some flag) })
  | none => (-1, none, p)

def close (p : ProcessTables σ φ χ κ) (id : UInt32) : UInt32 × ProcessTables σ φ χ κ :=
  match getSemaphoreIndex id with
  | some i =>
    if (p.sems i).isNone then (-1, p) else (0, { p with sems := Function.update p.sems i none })
  | none =>
    match getChildIndex id with
    | some i =>
      if (p.children i).isNone then (-1, p)
      else (0, { p with children := Function.update p.children i none })
    | none =>
      match getFileIndex id with
      | some i =>
        if (p.files i).isNone then (-1, p) else (0, { p with files := Function.update p.files i none })
      | none => (-1, p)

/-- `wait`; `get` is the status of each future that is set. Without one the call goes on waiting. -/
def wait (p : ProcessTables σ φ χ κ) (get : χ → Option UInt32) (id : UInt32) :
    Option (Answer × ProcessTables σ φ χ κ) :=
  match getChildIndex id with
  | none => some (⟨-1, none⟩, p)
  | some i =>
    match p.children i with
    | none => some (⟨-1, none⟩, p)
    | some e =>
      (get e).map fun v => (⟨0, some v⟩, { p with children := Function.update p.children i none })

def kill (p : ProcessTables σ φ χ κ) (id : UInt32) : UInt32 × Option κ × ProcessTables σ φ χ κ :=
  match getChildIndex id with
  | none => (-1, none, p)
  | some i =>
    match p.killFlags i with
    | none => (-1, none, p)
    | some flag => (0, some flag, { p with killFlags := Function.update p.killFlags i none })

end ProcessTables

inductive TableCall (σ φ χ κ : Type) where
  | newSemaphore (sem : σ)
  | setFile (file : Option φ)
  | fork (child : χ) (flag : κ)
  | close (id : UInt32)
  | wait (id : UInt32)
  | kill (id : UInt32)
  | exits (child : χ) (v : UInt32)

structure TableState (σ φ χ κ : Type) where
  tables : ProcessTables σ φ χ κ
  output : χ → Option UInt32
  killed : κ → Bool

section Steps
variable {σ φ χ κ : Type} [DecidableEq χ] [DecidableEq κ]

def TableState.step (s : TableState σ φ χ κ) : TableCall σ φ χ κ → Option (Answer × TableState σ φ χ κ)
  | .newSemaphore sem =>
    let r := s.tables.newSemaphore sem
    some (⟨r.1, none⟩, { s with tables := r.2 })
  | .setFile file =>
    let r := s.tables.setFile file
    some (⟨r.1, none⟩, { s with tables := r.2 })
  | .fork child flag =>
    let r := s.tables.fork child flag
    some (⟨r.1, none⟩, { s with tables := r.2.2 })
  | .close id =>
    let r := s.tables.close id
    some (⟨r.1, none⟩, { s with tables := r.2 })
  | .wait id => (s.tables.wait s.output id).map fun r => (r.1, { s with tables := r.2 })
  | .kill id =>
    match s.tables.kill id with
    | (r, none, tables) => some (⟨r, none⟩, { s with tables := tables })
    | (r, some flag, tables) =>
      some (⟨r, none⟩, { s with tables := tables, killed := Function.update s.killed flag true })
  | .exits child v =>
    match s.output child with
    | some _ => none
    | none => some (⟨0, none⟩, { s with output := Function.update s.output child (some v) })

end Steps

inductive Slot where
  | sem (i : Fin 10)
  | child (i : Fin 10)
  | file (i : Fin 10)
deriving DecidableEq, Repr

def Slot.id : Slot → UInt32
  | .sem i => 0x20000000 ||| UInt32.ofNat i
  | .child i => 0x10000000 ||| UInt32.ofNat i
  | .file i => UInt32.ofNat i

def slotOf (id : UInt32) : Option Slot :=
  match getSemaphoreIndex id with
  | some i => some (.sem i)
  | none =>
    match getChildIndex id with
    | some i => some (.child i)
    | none => (getFileIndex id).map .file

theorem kind_or_index (id : UInt32) : (id &&& 0xF0000000) ||| (id &&& 0x0FFFFFFF) = id := by
  apply UInt32.toBitVec_inj.mp
  simp only [UInt32.toBitVec_or, UInt32.toBitVec_and, ← BitVec.and_or_distrib_left]
  exact BitVec.and_allOnes

theorem handleIndex_eq_some {kind id : UInt32} {i : Fin 10} (h : handleIndex kind 10 id = some i) :
    id = kind ||| UInt32.ofNat i := by
  unfold handleIndex at h
  split at h
  case isTrue => cases h
  case isFalse hkind =>
    dsimp only at h
    split at h
    case isFalse => cases h
    case isTrue hlt =>
      cases h
      rw [not_not] at hkind
      conv_lhs => rw [← kind_or_index id, hkind]
      simp

theorem getSemaphoreIndex_eq_some {id : UInt32} {i : Fin 10} :
    getSemaphoreIndex id = some i ↔ id = (Slot.sem i).id := by
  refine ⟨handleIndex_eq_some, ?_⟩
  rintro rfl
  revert i
  decide

theorem getChildIndex_eq_some {id : UInt32} {i : Fin 10} :
    getChildIndex id = some i ↔ id = (Slot.child i).id := by
  refine ⟨handleIndex_eq_some, ?_⟩
  rintro rfl
  revert i
  decide

theorem getFileIndex_eq_some {id : UInt32} {i : Fin 10} :
    getFileIndex id = some i ↔ id = (Slot.file i).id := by
  constructor
  · intro h
    simpa [Slot.id] using handleIndex_eq_some h
  · rintro rfl
    revert i
    decide

theorem slotOf_id (slot : Slot) : slotOf slot.id = some slot := by
  cases slot with
  | sem i => revert i; decide
  | child i => revert i; decide
  | file i => revert i; decide

theorem Slot.id_injective : Function.Injective Slot.id := by
  intro a b h
  have ha := slotOf_id a
  rw [h, slotOf_id] at ha
  exact (Option.some.inj ha).symm

theorem getChildIndex_id (i : Fin 10) : getChildIndex (Slot.child i).id = some i :=
  getChildIndex_eq_some.mpr rfl

theorem getChildIndex_other {slot : Slot} (h : ∀ i, slot ≠ .child i) :
    getChildIndex slot.id = none := by
  cases hi : getChildIndex slot.id with
  | none => rfl
  | some i => exact absurd (Slot.id_injective (getChildIndex_eq_some.mp hi)) (h i)

theorem newSemaphore_id (i : Fin 10) :
    0x20000000 ||| (UInt32.ofNat i &&& 0x0FFFFFFF) = (Slot.sem i).id := by
  revert i
  decide

theorem file_id_toNat (i : Fin 10) : (Slot.file i).id.toNat = i := by
  revert i
  decide

theorem slot_id_ne_error (slot : Slot) : slot.id ≠ -1 := by
  cases slot with
  | sem i => revert i; decide
  | child i => revert i; decide
  | file i => revert i; decide

inductive Object (σ φ χ : Type) where
  | semaphore (sem : σ)
  | file (file : φ)
  | child (child : χ)

def ProcessTables.at {σ φ χ κ : Type} (p : ProcessTables σ φ χ κ) : Slot → Option (Object σ φ χ)
  | .sem i => (p.sems i).map .semaphore
  | .child i => (p.children i).map .child
  | .file i => (p.files i).map .file

section Effects
variable {σ φ χ κ : Type} {p : ProcessTables σ φ χ κ}

theorem at_sems (i : Fin 10) (x : Option σ) :
    { p with sems := Function.update p.sems i x }.at =
      Function.update p.at (.sem i) (x.map .semaphore) := by
  funext slot
  cases slot with
  | sem j => by_cases h : j = i <;> simp [ProcessTables.at, h]
  | child j => simp [ProcessTables.at]
  | file j => simp [ProcessTables.at]

theorem at_files (i : Fin 10) (x : Option φ) :
    { p with files := Function.update p.files i x }.at =
      Function.update p.at (.file i) (x.map .file) := by
  funext slot
  cases slot with
  | sem j => simp [ProcessTables.at]
  | child j => simp [ProcessTables.at]
  | file j => by_cases h : j = i <;> simp [ProcessTables.at, h]

theorem at_children (i : Fin 10) (x : Option χ) (flags : Fin 10 → Option κ) :
    { p with children := Function.update p.children i x, killFlags := flags }.at =
      Function.update p.at (.child i) (x.map .child) := by
  funext slot
  cases slot with
  | sem j => simp [ProcessTables.at]
  | child j => by_cases h : j = i <;> simp [ProcessTables.at, h]
  | file j => simp [ProcessTables.at]

theorem firstFree_eq_some {α : Type} {table : Fin 10 → Option α} {i : Fin 10}
    (h : firstFree table = some i) : table i = none := by
  simpa using List.find?_some h

variable [DecidableEq χ] [DecidableEq κ] {s t : TableState σ φ χ κ} {c : TableCall σ φ χ κ} {a : Answer}

inductive Effect (s : TableState σ φ χ κ) : TableCall σ φ χ κ → Answer → TableState σ φ χ κ → Prop
  | refused (c : TableCall σ φ χ κ) : Effect s c ⟨-1, none⟩ s
  | newSemaphore (i : Fin 10) (sem : σ) : s.tables.sems i = none →
      Effect s (.newSemaphore sem) ⟨(Slot.sem i).id, none⟩
        { s with tables.sems := Function.update s.tables.sems i (some sem) }
  | setFile (i : Fin 10) (file : Option φ) : s.tables.files i = none →
      Effect s (.setFile file) ⟨(Slot.file i).id, none⟩
        { s with tables.files := Function.update s.tables.files i file }
  | fork (i : Fin 10) (child : χ) (flag : κ) : s.tables.children i = none →
      Effect s (.fork child flag) ⟨(Slot.child i).id, none⟩
        { s with
          tables.children := Function.update s.tables.children i (some child)
          tables.killFlags := Function.update s.tables.killFlags i (some flag) }
  | closeSem (i : Fin 10) (sem : σ) : s.tables.sems i = some sem →
      Effect s (.close (Slot.sem i).id) ⟨0, none⟩
        { s with tables.sems := Function.update s.tables.sems i none }
  | closeChild (i : Fin 10) (child : χ) : s.tables.children i = some child →
      Effect s (.close (Slot.child i).id) ⟨0, none⟩
        { s with tables.children := Function.update s.tables.children i none }
  | closeFile (i : Fin 10) (file : φ) : s.tables.files i = some file →
      Effect s (.close (Slot.file i).id) ⟨0, none⟩
        { s with tables.files := Function.update s.tables.files i none }
  | wait (i : Fin 10) (child : χ) (v : UInt32) : s.tables.children i = some child →
      s.output child = some v →
      Effect s (.wait (Slot.child i).id) ⟨0, some v⟩
        { s with tables.children := Function.update s.tables.children i none }
  | kill (i : Fin 10) (flag : κ) : s.tables.killFlags i = some flag →
      Effect s (.kill (Slot.child i).id) ⟨0, none⟩
        { s with
          tables.killFlags := Function.update s.tables.killFlags i none
          killed := Function.update s.killed flag true }
  | exits (child : χ) (v : UInt32) : s.output child = none →
      Effect s (.exits child v) ⟨0, none⟩
        { s with output := Function.update s.output child (some v) }

theorem close_effect (s : TableState σ φ χ κ) (id : UInt32) :
    Effect s (.close id) ⟨(s.tables.close id).1, none⟩ { s with tables := (s.tables.close id).2 } := by
  unfold ProcessTables.close
  split
  case h_1 i hi =>
    rw [getSemaphoreIndex_eq_some.mp hi]
    cases ho : s.tables.sems i with
    | none => exact .refused _
    | some sem => exact .closeSem i sem ho
  case h_2 =>
    split
    case h_1 i hi =>
      rw [getChildIndex_eq_some.mp hi]
      cases ho : s.tables.children i with
      | none => exact .refused _
      | some child => exact .closeChild i child ho
    case h_2 =>
      split
      case h_1 i hi =>
        rw [getFileIndex_eq_some.mp hi]
        cases ho : s.tables.files i with
        | none => exact .refused _
        | some file => exact .closeFile i file ho
      case h_2 => exact .refused _

theorem wait_effect {id : UInt32} (h : s.step (.wait id) = some (a, t)) : Effect s (.wait id) a t := by
  obtain ⟨⟨a, tables⟩, hr, hst⟩ := Option.map_eq_some_iff.mp h
  cases hst
  unfold ProcessTables.wait at hr
  split at hr
  case h_1 =>
    cases hr
    exact .refused _
  case h_2 i hi =>
    rw [getChildIndex_eq_some.mp hi]
    split at hr
    case h_1 =>
      cases hr
      exact .refused _
    case h_2 child hchild =>
      obtain ⟨v, hv, heq⟩ := Option.map_eq_some_iff.mp hr
      cases heq
      exact .wait i child v hchild hv

theorem kill_effect {id : UInt32} (h : s.step (.kill id) = some (a, t)) : Effect s (.kill id) a t := by
  simp only [TableState.step, ProcessTables.kill] at h
  cases hi : getChildIndex id with
  | none =>
    rw [hi] at h
    cases h
    exact .refused _
  | some i =>
    rw [hi] at h
    rw [getChildIndex_eq_some.mp hi]
    cases hflag : s.tables.killFlags i with
    | none =>
      simp only [hflag] at h
      cases h
      exact .refused _
    | some flag =>
      simp only [hflag] at h
      cases h
      exact .kill i flag hflag

theorem step_effect (h : s.step c = some (a, t)) : Effect s c a t := by
  cases c with
  | newSemaphore sem =>
    cases h
    unfold ProcessTables.newSemaphore
    split
    case h_1 i hi =>
      simp only [newSemaphore_id]
      exact .newSemaphore i sem (firstFree_eq_some hi)
    case h_2 => exact .refused _
  | setFile file =>
    cases h
    unfold ProcessTables.setFile
    split
    case h_1 i hi => exact .setFile i file (firstFree_eq_some hi)
    case h_2 => exact .refused _
  | fork child flag =>
    cases h
    unfold ProcessTables.fork
    split
    case h_1 i hi => exact .fork i child flag (firstFree_eq_some hi)
    case h_2 => exact .refused _
  | close id =>
    cases h
    exact close_effect s id
  | wait id => exact wait_effect h
  | kill id => exact kill_effect h
  | exits child v =>
    simp only [TableState.step] at h
    split at h
    case h_1 => cases h
    case h_2 hnone =>
      cases h
      exact .exits child v hnone

end Effects

end MMapKernel.Sys
