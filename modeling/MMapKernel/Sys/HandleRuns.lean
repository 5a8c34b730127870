import MMapKernel.Sys.ProcessTables

/-!
# Handles over whole runs

A ledger beside the tables notes which ids calls have handed out and for what, and forgets them when
they are closed or waited for. It is kept from the answers of the calls alone; that the tables agree
with it is the invariant.

The table of kill flags is not part of that agreement. `close` and `wait` leave a child's flag in
its slot, so `kill` goes on to work on a child that has no handle any more.
-/

open Transition
namespace MMapKernel.Sys

variable {σ φ χ κ : Type}

abbrev HandleLedger (σ φ χ : Type) := List (UInt32 × Object σ φ χ)

/-- What a call that returned `r` adds to the ledger or takes out. A null file opens nothing. -/
def HandleLedger.record (l : HandleLedger σ φ χ) (c : TableCall σ φ χ κ) (r : UInt32) :
    HandleLedger σ φ χ :=
  if r = -1 then l
  else match c with
    | .newSemaphore sem => (r, .semaphore sem) :: l
    | .setFile (some file) => (r, .file file) :: l
    | .setFile none => l
    | .fork child _ => (r, .child child) :: l
    | .close id | .wait id => l.filter fun h => h.1 ≠ id
    | .kill _ | .exits _ _ => l

def allSlots : List Slot :=
  (List.finRange 10).map .sem ++ (List.finRange 10).map .child ++ (List.finRange 10).map .file

def ProcessTables.handles (p : ProcessTables σ φ χ κ) : HandleLedger σ φ χ :=
  allSlots.filterMap fun slot => (p.at slot).map fun o => (slot.id, o)

section Systems
variable [DecidableEq χ] [DecidableEq κ]

def handleStep (x : TableState σ φ χ κ × HandleLedger σ φ χ) (c : TableCall σ φ χ κ) :
    Option (TableState σ φ χ κ × HandleLedger σ φ χ) :=
  (x.1.step c).map fun r => (r.2, x.2.record c r.1.result)

def handleRuns : System (TableState σ φ χ κ × HandleLedger σ φ χ) (TableCall σ φ χ κ) where
  init x := x.2 = x.1.tables.handles
  step x c y := handleStep x c = some y

end Systems

structure Agrees (p : ProcessTables σ φ χ κ) (l : HandleLedger σ φ χ) : Prop where
  distinct : (l.map Prod.fst).Nodup
  listed : ∀ slot o, (slot.id, o) ∈ l ↔ p.at slot = some o
  decoded : ∀ id o, (id, o) ∈ l → ∃ slot : Slot, slot.id = id

theorem mem_allSlots (slot : Slot) : slot ∈ allSlots := by
  cases slot with
  | sem i => simp [allSlots]
  | child i => simp [allSlots]
  | file i => simp [allSlots]

theorem allSlots_nodup : allSlots.Nodup := by decide

theorem handles_agree (p : ProcessTables σ φ χ κ) : Agrees p p.handles where
  distinct := by
    rw [ProcessTables.handles, List.map_filterMap]
    refine allSlots_nodup.filterMap fun a b id ha hb => ?_
    simp only [Option.map_map, Option.mem_def, Option.map_eq_some_iff, Function.comp_apply] at ha hb
    obtain ⟨-, -, rfl⟩ := ha
    obtain ⟨-, -, hb⟩ := hb
    exact (Slot.id_injective hb).symm
  listed slot o := by
    simp only [ProcessTables.handles, List.mem_filterMap, Option.map_eq_some_iff, Prod.mk.injEq]
    constructor
    · rintro ⟨slot', -, o', ho, hid, rfl⟩
      rwa [← Slot.id_injective hid]
    · intro ho
      exact ⟨slot, mem_allSlots slot, o, ho, rfl, rfl⟩
  decoded id o h := by
    simp only [ProcessTables.handles, List.mem_filterMap, Option.map_eq_some_iff, Prod.mk.injEq] at h
    obtain ⟨slot, -, -, -, hid, -⟩ := h
    exact ⟨slot, hid⟩

namespace Agrees
variable {p q : ProcessTables σ φ χ κ} {l : HandleLedger σ φ χ} {slot : Slot} {o : Object σ φ χ}

theorem free (h : Agrees p l) (hfree : p.at slot = none) : slot.id ∉ l.map Prod.fst := by
  intro hmem
  obtain ⟨⟨id, o⟩, ho, hid⟩ := List.mem_map.mp hmem
  have hid : id = slot.id := hid
  rw [hid, h.listed, hfree] at ho
  cases ho

theorem same (h : Agrees p l) (hq : q.at = p.at) : Agrees q l :=
  ⟨h.distinct, fun slot o => by rw [hq]; exact h.listed slot o, h.decoded⟩

theorem opened (h : Agrees p l) (hfree : p.at slot = none)
    (hq : q.at = Function.update p.at slot (some o)) : Agrees q ((slot.id, o) :: l) where
  distinct := List.nodup_cons.mpr ⟨h.free hfree, h.distinct⟩
  listed slot' o' := by
    rw [List.mem_cons, Prod.mk.injEq, hq, h.listed]
    by_cases hs : slot' = slot
    · subst hs
      simp [hfree, eq_comm]
    · simp [hs, Slot.id_injective.eq_iff]
  decoded id o' hmem := by
    rcases List.mem_cons.mp hmem with heq | hmem
    · cases heq
      exact ⟨slot, rfl⟩
    · exact h.decoded id o' hmem

theorem closed (h : Agrees p l) (hq : q.at = Function.update p.at slot none) :
    Agrees q (l.filter fun x => x.1 ≠ slot.id) where
  distinct := h.distinct.sublist (List.filter_sublist.map _)
  listed slot' o := by
    rw [List.mem_filter, hq, h.listed]
    by_cases hs : slot' = slot
    · simp [hs]
    · simp [hs, Slot.id_injective.eq_iff]
  decoded id o hmem := h.decoded id o (List.mem_filter.mp hmem).1

end Agrees

section Runs
variable [DecidableEq χ] [DecidableEq κ] {s t : TableState σ φ χ κ} {c : TableCall σ φ χ κ} {a : Answer} {l : HandleLedger σ φ χ}

omit [DecidableEq χ] [DecidableEq κ] in
theorem record_id (slot : Slot) (l : HandleLedger σ φ χ) (c : TableCall σ φ χ κ) :
    l.record c slot.id = match c with
      | .newSemaphore sem => (slot.id, .semaphore sem) :: l
      | .setFile (some file) => (slot.id, .file file) :: l
      | .setFile none => l
      | .fork child _ => (slot.id, .child child) :: l
      | .close id | .wait id => l.filter fun h => h.1 ≠ id
      | .kill _ | .exits _ _ => l := if_neg (slot_id_ne_error slot)

theorem effect_agrees (h : Effect s c a t) (hl : Agrees s.tables l) :
    Agrees t.tables (l.record c a.result) := by
  cases h with
  | refused => exact hl
  | newSemaphore i sem hfree =>
    rw [record_id]
    have hslot : s.tables.at (.sem i) = none := by simp [ProcessTables.at, hfree]
    exact hl.opened hslot (at_sems i (some sem))
  | setFile i file hfree =>
    rw [record_id]
    cases file with
    | none =>
      apply hl.same
      rw [at_files, Function.update_eq_self_iff]
      simp [ProcessTables.at, hfree]
    | some file =>
      have hslot : s.tables.at (.file i) = none := by simp [ProcessTables.at, hfree]
      exact hl.opened hslot (at_files i (some file))
  | fork i child flag hfree =>
    rw [record_id]
    have hslot : s.tables.at (.child i) = none := by simp [ProcessTables.at, hfree]
    exact hl.opened hslot (at_children i (some child) _)
  | closeSem i sem h => exact hl.closed (at_sems i none)
  | closeChild i child h => exact hl.closed (at_children i none _)
  | closeFile i file h => exact hl.closed (at_files i none)
  | wait i child v h hv => exact hl.closed (at_children i none _)
  | kill i flag h => exact hl.same rfl
  | exits child v h => exact hl

theorem handleRuns_agree :
    (handleRuns : System (TableState σ φ χ κ × HandleLedger σ φ χ) _).Inductive
      fun x => Agrees x.1.tables x.2 where
  init := by
    rintro ⟨s, l⟩ h
    have h : l = s.tables.handles := h
    rw [h]
    exact handles_agree s.tables
  step := by
    rintro ⟨s, l⟩ c y hs hy
    obtain ⟨⟨a, t⟩, hstep, rfl⟩ := Option.map_eq_some_iff.mp hy
    exact effect_agrees (step_effect hstep) hs

/-- What `getSemaphore`, `getFile` and `wait` make of an id that was handed out for an object. A
`wait` for a child comes back once its status is set, with that status. -/
def StandsFor (s : TableState σ φ χ κ) (id : UInt32) : Object σ φ χ → Prop
  | .semaphore sem => s.tables.getSemaphore id = some sem
  | .file file => s.tables.getFile id = some file
  | .child child => (s.step (.wait id)).map Prod.fst = (s.output child).map fun v => ⟨0, some v⟩

omit [DecidableEq χ] [DecidableEq κ] in
theorem getFile_eq (p : ProcessTables σ φ χ κ) (fd : UInt32) :
    p.getFile fd = (getFileIndex fd).bind p.files := by
  unfold ProcessTables.getFile
  split
  case h_1 h => rw [h, Option.bind_none]
  case h_2 i h =>
    have hfd : fd.toNat = i := by rw [getFileIndex_eq_some.mp h, file_id_toNat]
    rw [h, Option.bind_some]
    simp [hfd]

theorem standsFor_of_at {slot : Slot} {o : Object σ φ χ} (h : s.tables.at slot = some o) :
    StandsFor s slot.id o := by
  cases slot with
  | sem i =>
    obtain ⟨sem, hsem, rfl⟩ := Option.map_eq_some_iff.mp h
    simp [StandsFor, ProcessTables.getSemaphore, getSemaphoreIndex_eq_some.mpr rfl, hsem]
  | child i =>
    obtain ⟨child, hchild, rfl⟩ := Option.map_eq_some_iff.mp h
    simp [StandsFor, TableState.step, ProcessTables.wait, getChildIndex_id, hchild, Function.comp_def]
  | file i =>
    obtain ⟨file, hfile, rfl⟩ := Option.map_eq_some_iff.mp h
    simp [StandsFor, getFile_eq, getFileIndex_eq_some.mpr rfl, hfile]

theorem refused_unchanged (h : Effect s c a t) (ha : a.result = -1) : t = s := by
  cases h with
  | refused => rfl
  | newSemaphore i => exact absurd ha (slot_id_ne_error (.sem i))
  | setFile i => exact absurd ha (slot_id_ne_error (.file i))
  | fork i => exact absurd ha (slot_id_ne_error (.child i))
  | closeSem | closeChild | closeFile | wait | kill | exits =>
    have hzero : (0 : UInt32) = -1 := ha
    exact absurd hzero (by decide)

theorem close_wait_local {id : UInt32} (h : Effect s c a t) (hc : c = .close id ∨ c = .wait id)
    {slot : Slot} (hslot : slot.id ≠ id) : t.tables.at slot = s.tables.at slot := by
  cases h with
  | refused => rfl
  | newSemaphore | setFile | fork | kill | exits => rcases hc with hc | hc <;> cases hc
  | closeSem i =>
    obtain rfl : _ = id := TableCall.close.inj (hc.resolve_right nofun)
    rw [at_sems, Function.update_of_ne fun h => hslot (congrArg Slot.id h)]
  | closeChild i =>
    obtain rfl : _ = id := TableCall.close.inj (hc.resolve_right nofun)
    rw [at_children, Function.update_of_ne fun h => hslot (congrArg Slot.id h)]
  | closeFile i =>
    obtain rfl : _ = id := TableCall.close.inj (hc.resolve_right nofun)
    rw [at_files, Function.update_of_ne fun h => hslot (congrArg Slot.id h)]
  | wait i =>
    obtain rfl : _ = id := TableCall.wait.inj (hc.resolve_left nofun)
    rw [at_children, Function.update_of_ne fun h => hslot (congrArg Slot.id h)]

theorem close_wait_flags {id : UInt32} (h : Effect s c a t) (hc : c = .close id ∨ c = .wait id) :
    t.tables.killFlags = s.tables.killFlags := by
  cases h with
  | refused | closeSem | closeChild | closeFile | wait => rfl
  | newSemaphore | setFile | fork | kill | exits => rcases hc with hc | hc <;> cases hc

end Runs

/-- What the handler of `read` and `wait` sees of the tables: a child is the status that is set. -/
def TableState.view {σ χ κ : Type} (s : TableState σ File χ κ) : Handles where
  files := s.tables.files
  children i := (s.tables.children i).bind s.output

theorem view_getFile {σ χ κ : Type} (s : TableState σ File χ κ) (fd : UInt32) :
    s.view.getFile fd = s.tables.getFile fd := (getFile_eq s.tables fd).symm

theorem view_child {σ χ κ : Type} [DecidableEq χ] [DecidableEq κ] (s : TableState σ File χ κ) (id v : UInt32) :
    (getChildIndex id).bind s.view.children = some v ↔ ∃ t, s.step (.wait id) = some (⟨0, some v⟩, t) := by
  simp only [TableState.step, ProcessTables.wait, Option.map_eq_some_iff, Prod.mk.injEq, TableState.view]
  cases getChildIndex id with
  | none => simp
  | some i =>
    cases hchild : s.tables.children i with
    | none => simp [hchild]
    | some child => simp [hchild]

open Fs Vmm in
theorem sysHandler_view {σ χ κ : Type} [DecidableEq χ] [DecidableEq κ] (cfg : Config) (s : TableState σ File χ κ)
    (c : UInt8) (r : Served) :
    (∀ fd buf n, sysHandler cfg s.view c (.read fd buf n) = some r ↔ fd ≠ 1 ∧ isSpecial cfg buf = false ∧
      ∃ file, s.tables.getFile fd = some file ∧ r = ⟨buf, (file.read c n).1⟩) ∧
    ∀ id status, sysHandler cfg s.view c (.wait id status) = some r ↔ isSpecial cfg status = false ∧
      ∃ v t, s.step (.wait id) = some (⟨0, some v⟩, t) ∧ r = ⟨status, .returns (wordBytes v) 0⟩ := by
  constructor
  · intro fd buf n
    rw [sysHandler, view_getFile]
    by_cases hfd : fd = 1
    · simp [hfd]
    · cases hs : isSpecial cfg buf <;> simp [hfd, eq_comm]
  · intro id status
    cases hs : isSpecial cfg status with
    | true => simp [sysHandler, hs]
    | false =>
      simp only [sysHandler, hs, Bool.false_eq_true, if_false, Option.map_eq_some_iff, view_child, true_and]
      refine exists_congr fun v => ?_
      constructor
      · intro h
        obtain ⟨⟨t, ht⟩, hr⟩ := h
        exact ⟨t, ht, hr.symm⟩
      · intro h
        obtain ⟨t, ht, hr⟩ := h
        exact ⟨⟨t, ht⟩, hr.symm⟩

/-- In every run from any process, no two open handles have one id, each resolves to what it was
handed out for, and from every state: a call that returns -1 leaves the tables as they are, and
`close` and `wait` leave every other slot as it is. -/
theorem handles_resolve {σ φ χ κ : Type} [DecidableEq χ] [DecidableEq κ] {s : TableState σ φ χ κ}
    {l : HandleLedger σ φ χ} (h : Reachable handleRuns (s, l)) :
    (l.map Prod.fst).Nodup ∧ (∀ id o, (id, o) ∈ l → StandsFor s id o) ∧
    ∀ c a t, s.step c = some (a, t) →
      (a.result = -1 → t.tables = s.tables) ∧
      ∀ id, c = .close id ∨ c = .wait id → t.tables.killFlags = s.tables.killFlags ∧
        ∀ slot : Slot, slot.id ≠ id → t.tables.at slot = s.tables.at slot := by
  have hl : Agrees s.tables l := h.invariant handleRuns_agree
  refine ⟨hl.distinct, fun id o ho => ?_, fun c a t hstep => ⟨fun ha => ?_, fun id hc => ?_⟩⟩
  · obtain ⟨slot, rfl⟩ := hl.decoded id o ho
    exact standsFor_of_at ((hl.listed slot o).mp ho)
  · rw [refused_unchanged (step_effect hstep) ha]
  · exact ⟨close_wait_flags (step_effect hstep) hc,
      fun slot hslot => close_wait_local (step_effect hstep) hc hslot⟩

def noHandles : TableState ℕ ℕ ℕ ℕ where
  tables := ⟨fun _ => none, fun _ => none, fun _ => none, fun _ => none⟩
  output _ := none
  killed _ := false

theorem handles_resolve_after_close : ∃ (s : TableState ℕ ℕ ℕ ℕ) (l : HandleLedger ℕ ℕ ℕ),
    l = [(0x20000000, .semaphore 9), (0x10000000, .child 3), (0, .file 2)] ∧
      ∀ id o, (id, o) ∈ l → StandsFor s id o := by
  obtain ⟨⟨s, l⟩, hrun, hl⟩ : ∃ x, run handleStep (fun _ _ => true) (noHandles, [])
      [.newSemaphore 1, .setFile (some 2), .fork 3 4, .close 0x20000000, .newSemaphore 9] = some x ∧
      x.2 = [(0x20000000, .semaphore 9), (0x10000000, .child 3), (0, .file 2)] := ⟨_, rfl, rfl⟩
  have hinit : Reachable handleRuns (noHandles, []) := .start rfl
  have hreach : Reachable handleRuns (s, l) := run_reachable (fun _ _ _ _ h => h) hinit hrun
  exact ⟨s, l, hl, (handles_resolve hreach).2.1⟩

section Ended
variable [DecidableEq χ] [DecidableEq κ] {s t : TableState σ φ χ κ} {c : TableCall σ φ χ κ} {a : Answer}

/-- The ids of children that a call has closed or waited for, until a `fork` returns the id again. -/
def recordEnded (ids : List UInt32) (c : TableCall σ φ χ κ) (r : UInt32) : List UInt32 :=
  if r = -1 then ids
  else match c with
    | .close id | .wait id => if (getChildIndex id).isSome then id :: ids else ids
    | .fork _ _ => ids.filter fun id => id ≠ r
    | .newSemaphore _ | .setFile _ | .kill _ | .exits _ _ => ids

def endedStep (x : TableState σ φ χ κ × List UInt32) (c : TableCall σ φ χ κ) :
    Option (TableState σ φ χ κ × List UInt32) :=
  (x.1.step c).map fun r => (r.2, recordEnded x.2 c r.1.result)

def Dead (s : TableState σ φ χ κ) (id : UInt32) : Prop :=
  ∀ c, c = .wait id ∨ c = .close id ∨ c = .kill id → s.step c = some (⟨-1, none⟩, s)

def EndedDead (x : TableState σ φ χ κ × List UInt32) : Prop := ∀ id ∈ x.2, Dead x.1 id

def FlagGone (x : TableState σ φ χ κ × List UInt32) : TableCall σ φ χ κ → Prop
  | .close id | .wait id => ∀ i, getChildIndex id = some i → (x.1.tables.children i).isSome →
      x.1.tables.killFlags i = none
  | .newSemaphore _ | .setFile _ | .fork _ _ | .kill _ | .exits _ _ => True

def Buried (x : TableState σ φ χ κ × List UInt32) : Prop :=
  ∀ id ∈ x.2, ∃ i, id = (Slot.child i).id ∧ x.1.tables.children i = none ∧
    x.1.tables.killFlags i = none

omit [DecidableEq χ] [DecidableEq κ] in
theorem close_child (p : ProcessTables σ φ χ κ) (i : Fin 10) :
    p.close (Slot.child i).id = if (p.children i).isNone then (-1, p)
      else (0, { p with children := Function.update p.children i none }) := by
  have hsem : getSemaphoreIndex (Slot.child i).id = none := by
    revert i
    decide
  simp [ProcessTables.close, hsem, getChildIndex_id]

theorem dead_iff (i : Fin 10) : Dead s (Slot.child i).id ↔
    s.tables.children i = none ∧ s.tables.killFlags i = none := by
  have hi := getChildIndex_id i
  constructor
  · intro h
    have hclose := h _ (.inr (.inl rfl))
    have hkill := h _ (.inr (.inr rfl))
    constructor
    · cases hc : s.tables.children i with
      | none => rfl
      | some child => simp [TableState.step, close_child, hc] at hclose
    · cases hf : s.tables.killFlags i with
      | none => rfl
      | some flag => simp [TableState.step, ProcessTables.kill, hi, hf] at hkill
  · rintro ⟨hchild, hflag⟩ c (rfl | rfl | rfl)
    · simp [TableState.step, ProcessTables.wait, hi, hchild]
    · simp [TableState.step, close_child, hchild]
    · simp [TableState.step, ProcessTables.kill, hi, hflag]

theorem buried_dead {x : TableState σ φ χ κ × List UInt32} (h : Buried x) : EndedDead x := by
  intro id hid
  obtain ⟨i, rfl, hi⟩ := h id hid
  exact (dead_iff i).mpr hi

omit [DecidableEq χ] [DecidableEq κ] in
theorem Buried.keep {ids ids' : List UInt32} (h : Buried (s, ids)) (hsub : ids' ⊆ ids)
    (hchild : ∀ i, (Slot.child i).id ∈ ids' → s.tables.children i = none → t.tables.children i = none)
    (hflag : ∀ i, (Slot.child i).id ∈ ids' → s.tables.killFlags i = none →
      t.tables.killFlags i = none) : Buried (t, ids') := by
  intro id hid
  obtain ⟨i, rfl, hc, hf⟩ := h id (hsub hid)
  exact ⟨i, rfl, hchild i hid hc, hflag i hid hf⟩

omit [DecidableEq χ] [DecidableEq κ] in
theorem Buried.bury {ids : List UInt32} {i : Fin 10} (h : Buried (s, ids))
    (hflag : s.tables.killFlags i = none) :
    Buried ({ s with tables.children := Function.update s.tables.children i none },
      (Slot.child i).id :: ids) := by
  intro id hid
  rcases List.mem_cons.mp hid with rfl | hid
  · exact ⟨i, rfl, by simp, hflag⟩
  · obtain ⟨j, rfl, hc, hf⟩ := h id hid
    refine ⟨j, rfl, ?_, hf⟩
    by_cases hij : j = i
    · simp [hij]
    · simpa [hij] using hc

omit [DecidableEq χ] [DecidableEq κ] in
theorem recordEnded_other (slot : Slot) (h : ∀ i, slot ≠ .child i) (ids : List UInt32) :
    recordEnded ids (.close slot.id : TableCall σ φ χ κ) 0 = ids := by
  simp [recordEnded, getChildIndex_other h]

theorem effect_buried {ids : List UInt32} (h : Effect s c a t) (hb : Buried (s, ids))
    (hg : FlagGone (s, ids) c) : Buried (t, recordEnded ids c a.result) := by
  cases h with
  | refused => exact hb
  | newSemaphore i | setFile i | exits =>
    unfold recordEnded
    split
    case isTrue => exact hb
    case isFalse => exact hb
  | fork i child flag hfree =>
    rw [recordEnded, if_neg (slot_id_ne_error (.child i))]
    have hne : ∀ j, (Slot.child j).id ∈ ids.filter (fun id => id ≠ (Slot.child i).id) → j ≠ i := by
      rintro j hj rfl
      simp at hj
    refine hb.keep (List.filter_subset_self _) (fun j hj hc => ?_) fun j hj hf => ?_
    · simpa [hne j hj] using hc
    · simpa [hne j hj] using hf
  | closeSem i =>
    rw [recordEnded_other (.sem i) nofun]
    exact hb
  | closeFile i =>
    rw [recordEnded_other (.file i) nofun]
    exact hb
  | closeChild i child hchild =>
    have hi := getChildIndex_id i
    have hflag := hg i hi (by simp [hchild])
    simpa [recordEnded, hi] using hb.bury hflag
  | wait i child v hchild hv =>
    have hi := getChildIndex_id i
    have hflag := hg i hi (by simp [hchild])
    simpa [recordEnded, hi] using hb.bury hflag
  | kill i flag hflag =>
    refine hb.keep (List.Subset.refl _) (fun j _ hc => hc) fun j _ hf => ?_
    by_cases hij : j = i
    · simp [hij]
    · simpa [hij] using hf

theorem flagGone_of_dead {ids : List UInt32} (h : s.step c = some (a, t))
    (hdead : EndedDead (t, recordEnded ids c a.result)) : FlagGone (s, ids) c := by
  cases c with
  | newSemaphore | setFile | fork | kill | exits => trivial
  | close id =>
    intro i hi hsome
    obtain ⟨child, hchild⟩ : ∃ child, s.tables.children i = some child :=
      Option.isSome_iff_exists.mp hsome
    obtain rfl := getChildIndex_eq_some.mp hi
    have hclose : s.step (.close (Slot.child i).id) = some (⟨0, none⟩,
        { s with tables.children := Function.update s.tables.children i none }) := by
      simp [TableState.step, close_child, hchild]
    rw [hclose] at h
    cases h
    have hmem : (Slot.child i).id ∈ recordEnded ids (.close (Slot.child i).id : TableCall σ φ χ κ) 0 := by
      simp [recordEnded, hi]
    exact ((dead_iff i).mp (hdead _ hmem)).2
  | wait id =>
    intro i hi hsome
    obtain ⟨child, hchild⟩ : ∃ child, s.tables.children i = some child :=
      Option.isSome_iff_exists.mp hsome
    obtain rfl := getChildIndex_eq_some.mp hi
    simp only [TableState.step, ProcessTables.wait, hi, hchild, Option.map_map] at h
    obtain ⟨v, -, hv⟩ := Option.map_eq_some_iff.mp h
    cases hv
    have hmem : (Slot.child i).id ∈ recordEnded ids (.wait (Slot.child i).id : TableCall σ φ χ κ) 0 := by
      simp [recordEnded, hi]
    exact ((dead_iff i).mp (hdead _ hmem)).2

end Ended

/-- From any process: the handles of children that were closed or waited for are dead in every state
of a run exactly if each of these children was killed before. -/
theorem ended_children_dead_iff {σ φ χ κ : Type} [DecidableEq χ] [DecidableEq κ]
    (s : TableState σ φ χ κ) (cs : List (TableCall σ φ χ κ)) :
    Always endedStep EndedDead (s, []) cs ↔ Throughout endedStep FlagGone (s, []) cs := by
  refine always_iff_throughout (fun _ => buried_dead) ?_ ?_ (by simp [Buried]) cs
  · rintro ⟨s, ids⟩ c y hb hy hg
    obtain ⟨⟨a, t⟩, hstep, rfl⟩ := Option.map_eq_some_iff.mp hy
    exact effect_buried (step_effect hstep) hb hg
  · rintro ⟨s, ids⟩ c y - hy hdead
    obtain ⟨⟨a, t⟩, hstep, rfl⟩ := Option.map_eq_some_iff.mp hy
    exact flagGone_of_dead hstep hdead

/-- A child exits and is waited for. A `kill` of its id returns 0 and sets the flag. -/
theorem kill_after_wait :
    ¬ Always endedStep EndedDead (noHandles, []) [.fork 3 4, .exits 3 7, .wait 0x10000000] := by
  intro h
  have hlast := ((h.2 _ rfl).2 _ rfl).2 _ rfl
  have hdead := hlast 0x10000000 (by decide) (.kill 0x10000000) (.inr (.inr rfl))
  have hkill := congrArg (Option.map fun r => r.1.result) hdead
  exact absurd hkill (by decide)

end MMapKernel.Sys
