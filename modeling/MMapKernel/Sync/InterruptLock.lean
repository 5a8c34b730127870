import MMapKernel.Lib.Owners
import MMapKernel.Lib.Transition

/-!
# Spin locks that disable interrupts: `InterruptSafeLock` of `kernel/atomic.h`

Each core makes its own calls of `lock` and `unlock`, the first unlock being that of the last lock, and
each access to a flag is a step of its own. While interrupts are enabled one may come in at any place;
its handler returns when it has unlocked what it has locked. Outside of its locks a core may set and
clear its interrupt flag as it likes.
-/

namespace MMapKernel.Sync
open Transition Owners

structure InterruptSafeLock where
  taken : Bool
  was : Bool

def Interrupts.restore (wasDisabled disabled : Bool) : Bool := if wasDisabled then disabled else false

/-- The places in `lock` and `unlock`. Each carries `before`, whether interrupts were disabled when `lock`
was called; no code reads it. -/
inductive LockPlace (L : Type) where
  | idle
  | disable (l : L) (before : Bool)
  | cli (l : L) (wasDisabled before : Bool)
  | exchange (l : L) (wasDisabled before : Bool)
  | storeWas (l : L) (wasDisabled before : Bool)
  | retry (l : L) (wasDisabled before : Bool)
  | loadWas (l : L) (before : Bool)
  | clear (l : L) (wasDisabled before : Bool)
  | restore (l : L) (wasDisabled before : Bool)

inductive Frame (L : Type) where
  | locked (l : L) (before : Bool)
  | interrupted (p : LockPlace L)

structure Core (L : Type) where
  disabled : Bool
  place : LockPlace L
  stack : List (Frame L)

structure LockState (C L : Type) where
  lock : L → InterruptSafeLock
  core : C → Core L

inductive CoreAct (L : Type) where
  | lock (l : L)
  | unlock
  | go
  | sti
  | cli
  | interrupt
  | iret

variable {C L : Type} [DecidableEq L]

def setTaken (lock : L → InterruptSafeLock) (l : L) (taken : Bool) : L → InterruptSafeLock :=
  Function.update lock l { lock l with taken := taken }

def setWas (lock : L → InterruptSafeLock) (l : L) (was : Bool) : L → InterruptSafeLock :=
  Function.update lock l { lock l with was := was }

def LockPlace.go (lock : L → InterruptSafeLock) (x : Core L) :
    LockPlace L → Option ((L → InterruptSafeLock) × Core L)
  | .idle => none
  | .disable l before => some (lock, { x with place := .cli l x.disabled before })
  | .cli l wasDisabled before =>
    some (lock, { x with
      disabled := if wasDisabled then x.disabled else true
      place := .exchange l wasDisabled before })
  | .exchange l wasDisabled before =>
    if (lock l).taken then some (lock, { x with place := .retry l wasDisabled before })
    else some (setTaken lock l true, { x with place := .storeWas l wasDisabled before })
  | .storeWas l wasDisabled before =>
    some (setWas lock l wasDisabled, { x with place := .idle, stack := .locked l before :: x.stack })
  | .retry l wasDisabled before =>
    some (lock, { x with
      disabled := Interrupts.restore wasDisabled x.disabled
      place := .disable l before })
  | .loadWas l before => some (lock, { x with place := .clear l (lock l).was before })
  | .clear l wasDisabled before =>
    some (setTaken lock l false, { x with place := .restore l wasDisabled before })
  | .restore _ wasDisabled _ =>
    some (lock, { x with
      disabled := Interrupts.restore wasDisabled x.disabled
      place := .idle })

def outsideLocks : List (Frame L) → Bool
  | .locked _ _ :: _ => false
  | _ => true

def CoreAct.run (lock : L → InterruptSafeLock) (x : Core L) :
    CoreAct L → Option ((L → InterruptSafeLock) × Core L)
  | .lock l =>
    match x.place with
    | .idle => some (lock, { x with place := .disable l x.disabled })
    | _ => none
  | .unlock =>
    match x.place, x.stack with
    | .idle, .locked l before :: rest => some (lock, { x with place := .loadWas l before, stack := rest })
    | _, _ => none
  | .go => x.place.go lock x
  | .sti =>
    match x.place with
    | .idle => if outsideLocks x.stack then some (lock, { x with disabled := false }) else none
    | _ => none
  | .cli =>
    match x.place with
    | .idle => if outsideLocks x.stack then some (lock, { x with disabled := true }) else none
    | _ => none
  | .interrupt => if x.disabled then none else some (lock, ⟨true, .idle, .interrupted x.place :: x.stack⟩)
  | .iret =>
    match x.place, x.stack with
    | .idle, .interrupted p :: rest => some (lock, ⟨false, p, rest⟩)
    | _, _ => none

variable [DecidableEq C]

def LockState.step (s : LockState C L) (c : C) (a : CoreAct L) : Option (LockState C L) :=
  (a.run s.lock (s.core c)).map fun r => ⟨r.1, Function.update s.core c r.2⟩

def LockState.Start (s : LockState C L) : Prop :=
  (∀ l, (s.lock l).taken = false) ∧ ∀ c, (s.core c).place = .idle ∧ (s.core c).stack = []

def interruptSafeLocks (C L : Type) [DecidableEq C] [DecidableEq L] :
    System (LockState C L) (C × CoreAct L) where
  init := LockState.Start
  step s i t := s.step i.1 i.2 = some t

/-- A lock is held from the `exchange` that takes it to the store that clears `taken`. -/
def LockPlace.held : LockPlace L → List L
  | .storeWas l _ _ => [l]
  | .loadWas l _ => [l]
  | .clear l _ _ => [l]
  | _ => []

def Frame.held : Frame L → List L
  | .locked l _ => [l]
  | .interrupted p => p.held

def Core.held (x : Core L) : List L := x.place.held ++ x.stack.flatMap Frame.held

def LockPlace.Fits (disabled : Bool) : LockPlace L → Prop
  | .idle => True
  | .disable _ before => disabled = before
  | .cli _ wasDisabled before => wasDisabled = before ∧ disabled = before
  | .exchange _ wasDisabled before => wasDisabled = before ∧ disabled = true
  | .storeWas _ wasDisabled before => wasDisabled = before ∧ disabled = true
  | .retry _ wasDisabled before => wasDisabled = before ∧ disabled = true
  | .loadWas _ _ => disabled = true
  | .clear _ wasDisabled before => wasDisabled = before ∧ disabled = true
  | .restore _ wasDisabled before => wasDisabled = before ∧ disabled = true

def LockPlace.outer (disabled : Bool) : LockPlace L → Bool
  | .idle => disabled
  | .disable _ before => before
  | .cli _ _ before => before
  | .exchange _ _ before => before
  | .storeWas _ _ before => before
  | .retry _ _ before => before
  | .loadWas _ before => before
  | .clear _ _ before => before
  | .restore _ _ before => before

/-- In a critical section interrupts are disabled, and behind it they are as they were before it; an
interrupt came in while they were enabled. -/
def StackFits : Bool → List (Frame L) → Prop
  | _, [] => True
  | disabled, .locked _ before :: rest => disabled = true ∧ StackFits before rest
  | _, .interrupted p :: rest => p.Fits false ∧ StackFits (p.outer false) rest

def WasFits (lock : L → InterruptSafeLock) (x : Core L) : Prop :=
  (∀ l before, .locked l before ∈ x.stack → (lock l).was = before) ∧
    ∀ l before, x.place = .loadWas l before → (lock l).was = before

structure CoreFits (lock : L → InterruptSafeLock) (x : Core L) : Prop where
  place : x.place.Fits x.disabled
  stack : StackFits (x.place.outer x.disabled) x.stack
  was : WasFits lock x

inductive CoreStep (lock : L → InterruptSafeLock) :
    Core L → CoreAct L → (L → InterruptSafeLock) → Core L → Prop
  | lock {d : Bool} {st : List (Frame L)} {l : L} :
      CoreStep lock ⟨d, .idle, st⟩ (.lock l) lock ⟨d, .disable l d, st⟩
  | unlock {d b : Bool} {st : List (Frame L)} {l : L} :
      CoreStep lock ⟨d, .idle, .locked l b :: st⟩ .unlock lock ⟨d, .loadWas l b, st⟩
  | readFlags {d b : Bool} {st : List (Frame L)} {l : L} :
      CoreStep lock ⟨d, .disable l b, st⟩ .go lock ⟨d, .cli l d b, st⟩
  | disable {d w b : Bool} {st : List (Frame L)} {l : L} :
      CoreStep lock ⟨d, .cli l w b, st⟩ .go lock ⟨if w then d else true, .exchange l w b, st⟩
  | fail {d w b : Bool} {st : List (Frame L)} {l : L} : (lock l).taken = true →
      CoreStep lock ⟨d, .exchange l w b, st⟩ .go lock ⟨d, .retry l w b, st⟩
  | take {d w b : Bool} {st : List (Frame L)} {l : L} : (lock l).taken = false →
      CoreStep lock ⟨d, .exchange l w b, st⟩ .go (setTaken lock l true) ⟨d, .storeWas l w b, st⟩
  | storeWas {d w b : Bool} {st : List (Frame L)} {l : L} :
      CoreStep lock ⟨d, .storeWas l w b, st⟩ .go (setWas lock l w) ⟨d, .idle, .locked l b :: st⟩
  | retry {d w b : Bool} {st : List (Frame L)} {l : L} :
      CoreStep lock ⟨d, .retry l w b, st⟩ .go lock ⟨Interrupts.restore w d, .disable l b, st⟩
  | loadWas {d b : Bool} {st : List (Frame L)} {l : L} :
      CoreStep lock ⟨d, .loadWas l b, st⟩ .go lock ⟨d, .clear l (lock l).was b, st⟩
  | clear {d w b : Bool} {st : List (Frame L)} {l : L} :
      CoreStep lock ⟨d, .clear l w b, st⟩ .go (setTaken lock l false) ⟨d, .restore l w b, st⟩
  | restore {d w b : Bool} {st : List (Frame L)} {l : L} :
      CoreStep lock ⟨d, .restore l w b, st⟩ .go lock ⟨Interrupts.restore w d, .idle, st⟩
  | sti {d : Bool} {st : List (Frame L)} : outsideLocks st = true →
      CoreStep lock ⟨d, .idle, st⟩ .sti lock ⟨false, .idle, st⟩
  | cli {d : Bool} {st : List (Frame L)} : outsideLocks st = true →
      CoreStep lock ⟨d, .idle, st⟩ .cli lock ⟨true, .idle, st⟩
  | interrupt {p : LockPlace L} {st : List (Frame L)} :
      CoreStep lock ⟨false, p, st⟩ .interrupt lock ⟨true, .idle, .interrupted p :: st⟩
  | iret {d : Bool} {p : LockPlace L} {st : List (Frame L)} :
      CoreStep lock ⟨d, .idle, .interrupted p :: st⟩ .iret lock ⟨false, p, st⟩

variable {lock lock' : L → InterruptSafeLock} {x x' : Core L} {a : CoreAct L} {c : C} {s t : LockState C L}

omit [DecidableEq C] in
theorem go_cases (h : x.place.go lock x = some (lock', x')) : CoreStep lock x .go lock' x' := by
  obtain ⟨d, p, st⟩ := x
  cases p with
  | idle => cases h
  | exchange l w b =>
    simp only [LockPlace.go] at h
    split at h
    case isTrue htaken =>
      cases h
      exact .fail htaken
    case isFalse hfree =>
      cases h
      exact .take ((Bool.not_eq_true _).mp hfree)
  | _ =>
    cases h
    constructor

omit [DecidableEq C] in
theorem run_cases (h : a.run lock x = some (lock', x')) : CoreStep lock x a lock' x' := by
  cases a with
  | go => exact go_cases h
  | lock l =>
    obtain ⟨d, p, st⟩ := x
    cases p <;> cases h
    exact .lock
  | unlock =>
    obtain ⟨d, p, st⟩ := x
    cases p with
    | idle =>
      cases st with
      | nil => cases h
      | cons φ st =>
        cases φ <;> cases h
        exact .unlock
    | _ => cases h
  | sti =>
    obtain ⟨d, p, st⟩ := x
    cases p with
    | idle =>
      obtain ⟨hout, h⟩ := Option.ite_none_right_eq_some.mp h
      cases h
      exact .sti hout
    | _ => cases h
  | cli =>
    obtain ⟨d, p, st⟩ := x
    cases p with
    | idle =>
      obtain ⟨hout, h⟩ := Option.ite_none_right_eq_some.mp h
      cases h
      exact .cli hout
    | _ => cases h
  | interrupt =>
    obtain ⟨d, p, st⟩ := x
    cases d <;> cases h
    exact .interrupt
  | iret =>
    obtain ⟨d, p, st⟩ := x
    cases p with
    | idle =>
      cases st with
      | nil => cases h
      | cons φ st =>
        cases φ <;> cases h
        exact .iret
    | _ => cases h

section
variable {l : L} {b : Bool} {p : LockPlace L} {st : List (Frame L)}

omit [DecidableEq L] in
theorem LockPlace.Fits.enabled (h : p.Fits false) : p.held = [] ∧ p.outer false = false := by
  cases p with
  | idle => exact ⟨rfl, rfl⟩
  | disable l before => exact ⟨rfl, h.symm⟩
  | cli l w before => exact ⟨rfl, h.2.symm⟩
  | loadWas l before => cases h
  | _ => cases h.2

omit [DecidableEq L] in
theorem StackFits.held_nil (h : StackFits false st) : st.flatMap Frame.held = [] := by
  induction st with
  | nil => rfl
  | cons φ st ih =>
    cases φ with
    | locked l before => cases h.1
    | interrupted p =>
      obtain ⟨hheld, houter⟩ := h.1.enabled
      have hrest := h.2
      rw [houter] at hrest
      rw [List.flatMap_cons, ih hrest, List.append_nil]
      exact hheld

omit [DecidableEq L] in
theorem StackFits.outside {d : Bool} (h : StackFits d st) (hout : outsideLocks st = true) (d' : Bool) :
    StackFits d' st := by
  cases st with
  | nil => trivial
  | cons φ st =>
    cases φ with
    | locked l before => cases hout
    | interrupted p => exact h

omit [DecidableEq L] in
theorem CoreFits.disabled (h : CoreFits lock x) (hl : l ∈ x.held) : x.disabled = true := by
  by_contra hd
  rw [Bool.not_eq_true] at hd
  obtain ⟨hplace, hstack, -⟩ := h
  rw [hd] at hplace hstack
  obtain ⟨hheld, houter⟩ := hplace.enabled
  rw [houter] at hstack
  rw [Core.held, hheld, hstack.held_nil] at hl
  cases hl

omit [DecidableEq L] in
theorem mem_held_stack (h : .locked l b ∈ x.stack) : l ∈ x.stack.flatMap Frame.held :=
  List.mem_flatMap.mpr ⟨_, h, List.mem_singleton_self l⟩

theorem setTaken_was (k : L) : (setTaken lock l b k).was = (lock k).was := by
  rw [setTaken, Function.apply_update (fun _ => InterruptSafeLock.was) lock]
  exact congrFun (Function.update_eq_self l fun k => (lock k).was) k

theorem setWas_was_of_ne {k : L} (hk : k ≠ l) : (setWas lock l b k).was = (lock k).was := by
  rw [setWas, Function.update_of_ne hk]

theorem setTaken_taken :
    (fun k => (setTaken lock l b k).taken) = Function.update (fun k => (lock k).taken) l b :=
  funext (Function.apply_update (fun _ => InterruptSafeLock.taken) lock l _)

theorem setWas_taken : (fun k => (setWas lock l b k).taken) = fun k => (lock k).taken := by
  funext k
  rw [setWas, Function.apply_update (fun _ => InterruptSafeLock.taken) lock]
  exact congrFun (Function.update_eq_self l fun k => (lock k).taken) k

namespace CoreStep

omit [DecidableEq C] in
theorem was_eq (h : CoreStep lock x a lock' x') (hl : l ∉ x.held) : (lock' l).was = (lock l).was := by
  cases h with
  | take => exact setTaken_was l
  | clear => exact setTaken_was l
  | storeWas =>
    apply setWas_was_of_ne
    rintro rfl
    exact hl List.mem_cons_self
  | _ => rfl

omit [DecidableEq C] in
theorem fits (h : CoreStep lock x a lock' x') (hfits : CoreFits lock x) (hnodup : x.held.Nodup) :
    CoreFits lock' x' := by
  obtain ⟨hplace, hstack, hframes, hload⟩ := hfits
  cases h with
  | lock => exact ⟨rfl, hstack, hframes, nofun⟩
  | unlock =>
    obtain ⟨hd, hrest⟩ := hstack
    refine ⟨hd, hrest, fun l b hl => hframes l b (List.mem_cons_of_mem _ hl), ?_⟩
    intro l b hl
    cases hl
    exact hframes _ _ List.mem_cons_self
  | readFlags => exact ⟨⟨hplace, hplace⟩, hstack, hframes, nofun⟩
  | @disable d w b =>
    obtain ⟨rfl, hd⟩ := hplace
    obtain rfl : d = w := hd
    refine ⟨⟨rfl, ?_⟩, hstack, hframes, nofun⟩
    cases d <;> rfl
  | fail => exact ⟨hplace, hstack, hframes, nofun⟩
  | take =>
    refine ⟨hplace, hstack, fun l b hl => ?_, nofun⟩
    rw [setTaken_was]
    exact hframes l b hl
  | @storeWas d w b st l =>
    obtain ⟨rfl, hd⟩ := hplace
    refine ⟨trivial, ⟨hd, hstack⟩, fun l' b' hl' => ?_, nofun⟩
    rcases List.mem_cons.mp hl' with heq | hmem
    · cases heq
      rw [setWas, Function.update_self]
    · have hne : l' ≠ l := by
        rintro rfl
        exact (List.nodup_cons.mp hnodup).1 (mem_held_stack (x := ⟨d, .storeWas l' w w, st⟩) hmem)
      rw [setWas_was_of_ne hne]
      exact hframes l' b' hmem
  | @retry d w =>
    obtain ⟨rfl, hd⟩ := hplace
    obtain rfl : d = true := hd
    refine ⟨?_, hstack, hframes, nofun⟩
    cases w <;> rfl
  | loadWas => exact ⟨⟨hload _ _ rfl, hplace⟩, hstack, hframes, nofun⟩
  | clear =>
    refine ⟨hplace, hstack, fun l b hl => ?_, nofun⟩
    rw [setTaken_was]
    exact hframes l b hl
  | @restore d w =>
    obtain ⟨rfl, hd⟩ := hplace
    obtain rfl : d = true := hd
    have houter : Interrupts.restore w true = w := by cases w <;> rfl
    refine ⟨trivial, ?_, hframes, nofun⟩
    change StackFits (Interrupts.restore w true) _
    rw [houter]
    exact hstack
  | sti hout => exact ⟨trivial, hstack.outside hout _, hframes, nofun⟩
  | cli hout => exact ⟨trivial, hstack.outside hout _, hframes, nofun⟩
  | interrupt =>
    refine ⟨trivial, ⟨hplace, hstack⟩, fun l b hl => ?_, nofun⟩
    rcases List.mem_cons.mp hl with heq | hmem
    · cases heq
    · exact hframes l b hmem
  | iret =>
    obtain ⟨hp, hrest⟩ := hstack
    refine ⟨hp, hrest, fun l b hl => hframes l b (List.mem_cons_of_mem _ hl), ?_⟩
    rintro l b rfl
    cases hp

theorem owned (h : CoreStep lock x a lock' x') {held : C → List L}
    (ho : Owned (fun k => (lock k).taken) held) (hc : held c = x.held) :
    Owned (fun k => (lock' k).taken) (Function.update held c x'.held) := by
  cases h with
  | take hfree =>
    rw [setTaken_taken]
    apply ho.take hfree
    rw [hc]
    exact .refl _
  | clear =>
    rw [setTaken_taken]
    apply ho.drop
    rw [hc]
    exact .refl _
  | storeWas =>
    rw [setWas_taken]
    apply ho.perm
    rw [hc]
    exact .refl _
  | _ =>
    apply ho.perm
    rw [hc]
    exact .refl _

end CoreStep
end

structure LocksInv (s : LockState C L) : Prop where
  core : ∀ c, CoreFits s.lock (s.core c)
  owned : Owned (fun l => (s.lock l).taken) fun c => (s.core c).held

namespace LocksInv

theorem step (h : LocksInv s) (hstep : s.step c a = some t) : LocksInv t := by
  obtain ⟨⟨lock', x'⟩, hrun, rfl⟩ := Option.map_eq_some_iff.mp hstep
  have hcore := run_cases hrun
  have hheld : (fun d => (Function.update s.core c x' d).held) =
      Function.update (fun d => (s.core d).held) c x'.held :=
    funext (Function.apply_update (fun _ => Core.held) s.core c x')
  have hown := hcore.fits (h.core c) (h.owned.nodup c)
  have hrest : ∀ d, d ≠ c → CoreFits lock' (s.core d) := by
    intro d hd
    obtain ⟨hplace, hstack, hframes, hload⟩ := h.core d
    have hother : ∀ l ∈ (s.core d).held, (lock' l).was = (s.lock l).was :=
      fun l hl => hcore.was_eq fun hl' => hd (h.owned.alone d c l hl hl')
    refine ⟨hplace, hstack, fun l b hl => ?_, fun l b hl => ?_⟩
    · rw [hother l (List.mem_append_right _ (mem_held_stack hl))]
      exact hframes l b hl
    · have hmem : l ∈ (s.core d).held := by
        rw [Core.held, hl]
        exact List.mem_cons_self
      rw [hother l hmem]
      exact hload l b hl
  refine ⟨(Function.forall_update_iff s.core fun _ x => CoreFits lock' x).mpr ⟨hown, hrest⟩, ?_⟩
  change Owned (fun l => (lock' l).taken) fun d => (Function.update s.core c x' d).held
  rw [hheld]
  exact hcore.owned h.owned rfl

omit [DecidableEq C] [DecidableEq L] in
theorem start (h : s.Start) : LocksInv s := by
  obtain ⟨hfree, hidle⟩ := h
  have hheld : ∀ c, (s.core c).held = [] := by
    intro c
    rw [Core.held, (hidle c).1, (hidle c).2]
    rfl
  refine ⟨fun c => ⟨?_, ?_, ?_, ?_⟩, ⟨?_, ?_, ?_⟩⟩
  · rw [(hidle c).1]
    trivial
  · rw [(hidle c).2]
    trivial
  · rw [(hidle c).2]
    exact nofun
  · rw [(hidle c).1]
    exact nofun
  · intro c l hl
    rw [hheld c] at hl
    cases hl
  · intro c
    rw [hheld c]
    exact List.nodup_nil
  · intro c c' l hl
    rw [hheld c] at hl
    cases hl

end LocksInv

theorem locksInv_of_reachable (hs : Reachable (interruptSafeLocks C L) s) : LocksInv s := by
  induction hs with
  | start h => exact .start h
  | next _ hstep ih => exact ih.step hstep

/-- In every interleaving of the steps of any number of cores: a lock is held by one core at most, and
once; a core that holds a lock has its interrupts disabled; and the last step of `unlock` leaves the
interrupt flag as it was when the matching `lock` was called. -/
theorem interrupt_safe_lock (s : LockState C L) (hs : Reachable (interruptSafeLocks C L) s) :
    (∀ c c', ∀ l ∈ (s.core c).held, l ∈ (s.core c').held → c = c') ∧
    (∀ c, (s.core c).held.Nodup) ∧
    (∀ c, ∀ l ∈ (s.core c).held, (s.core c).disabled = true) ∧
    ∀ c a t l wasDisabled before, (s.core c).place = .restore l wasDisabled before → s.step c a = some t →
      (t.core c).place = .idle ∧ (t.core c).disabled = before := by
  have h := locksInv_of_reachable hs
  refine ⟨h.owned.alone, h.owned.nodup, fun c l hl => (h.core c).disabled hl, ?_⟩
  intro c a t l wasDisabled before hplace hstep
  obtain ⟨⟨lock', x'⟩, hrun, rfl⟩ := Option.map_eq_some_iff.mp hstep
  have hcore := run_cases hrun
  have hfits := (h.core c).place
  simp only [Function.update_self]
  generalize s.core c = x at hplace hcore hfits
  obtain ⟨d, p, st⟩ := x
  obtain rfl : p = _ := hplace
  obtain ⟨rfl, hd⟩ := hfits
  obtain rfl : d = true := hd
  cases hcore
  refine ⟨rfl, ?_⟩
  cases wasDisabled <;> rfl

/-- The second core fails while the first one has the lock, and the first one is about to return from `unlock`. -/
def failedAttempt : List (Bool × CoreAct Unit) :=
  (false, .lock ()) :: List.replicate 4 (false, .go) ++ (true, .lock ()) :: List.replicate 4 (true, .go) ++
    (false, .unlock) :: List.replicate 2 (false, .go)

def isRestoring (s : LockState Bool Unit) : Bool :=
  match (s.core false).place with
  | .restore _ _ before => !before
  | _ => false

theorem failed_attempt_restores : ∃ s t, Reachable (interruptSafeLocks Bool Unit) s ∧
    s.step false .go = some t ∧ (t.core false).place = .idle ∧ (t.core false).disabled = false := by
  have hrun : (run (fun s i => s.step i.1 i.2) (fun _ _ => true)
      (⟨fun _ => ⟨false, false⟩, fun _ => ⟨false, .idle, []⟩⟩ : LockState Bool Unit)
      failedAttempt).any isRestoring := by decide +kernel
  obtain ⟨s, hs, hrestoring⟩ := (Option.any_eq_true _ _).mp hrun
  have hreach : Reachable (interruptSafeLocks Bool Unit) s :=
    run_reachable (fun _ _ _ _ hstep => hstep) (.start ⟨fun _ => rfl, fun _ => ⟨rfl, rfl⟩⟩) hs
  unfold isRestoring at hrestoring
  split at hrestoring
  case h_2 => cases hrestoring
  case h_1 l was before hplace =>
    obtain rfl : before = false := (Bool.not_eq_true' _).mp hrestoring
    have hstep : ∃ t, s.step false .go = some t := by
      rw [LockState.step, CoreAct.run, hplace]
      exact ⟨_, rfl⟩
    obtain ⟨t, ht⟩ := hstep
    have hflag := (interrupt_safe_lock s hreach).2.2.2 false .go t l was false hplace ht
    exact ⟨s, t, hreach, ht, hflag⟩

end MMapKernel.Sync
