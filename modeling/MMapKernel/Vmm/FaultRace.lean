import MMapKernel.Lib.LinkedList
import MMapKernel.Lib.Transition

/-!
# Page faults on shared mappings, interleaved

The fault handlers of several processes work on `node_list` without a lock and with interrupts
on. A step is one access to what they share: the head of the list, a `next` field, the frame
allocator, which has a lock of its own, the frame that is filled, and the page tables. The
fields of a `NodeEntry` that no handler reads back (`num_processes`) are left out, and so are
those of the `VMEntry` beyond its file.
-/

open Transition LinkedList
namespace MMapKernel.Vmm.FaultRace

variable {P : ℕ}

structure NodeEntry where
  file : ℕ
  pa : ℕ
  next : Option ℕ
deriving DecidableEq, Repr

/-- The point a process has reached in the shared branch of `vmm_pageFault`: `prev` and
`node_entry` are its local variables. -/
inductive Handler where
  | idle
  | looking (file : ℕ) (prev nodeEntry : Option ℕ)
  | missed (file : ℕ) (prev : Option ℕ)
  | allocated (file : ℕ) (prev : Option ℕ) (pa : ℕ)
  | created (prev : Option ℕ) (newEntry : ℕ)
  | filling (newEntry : ℕ)
  | filled (newEntry : ℕ)
  | found (nodeEntry : ℕ)
deriving DecidableEq, Repr

structure State (P : ℕ) where
  nodes : ℕ → NodeEntry
  made : ℕ
  nodeList : Option ℕ
  frames : List ℕ
  isFilled : ℕ → Bool
  mapped : List (Fin P × ℕ)
  handler : Fin P → Handler
  linked : List ℕ

namespace State

def next (s : State P) (n : ℕ) : Option ℕ := (s.nodes n).next

def enter (s : State P) (p : Fin P) (h : Handler) : State P :=
  { s with handler := Function.update s.handler p h }

def create (s : State P) (file pa : ℕ) : State P :=
  { s with nodes := Function.update s.nodes s.made ⟨file, pa, none⟩, made := s.made + 1 }

def link (s : State P) (prev : Option ℕ) (n : ℕ) : State P :=
  { s with
    nodeList := match prev with
      | none => some n
      | some _ => s.nodeList
    nodes := match prev with
      | none => s.nodes
      | some m => Function.update s.nodes m { s.nodes m with next := some n }
    linked := s.linked ++ [n] }

def fill (s : State P) (pa : ℕ) : State P := { s with isFilled := Function.update s.isFilled pa true }

def userMap (s : State P) (p : Fin P) (pa : ℕ) : State P := { s with mapped := (p, pa) :: s.mapped }

end State

inductive Act (P : ℕ) where
  | fault (p : Fin P) (file : ℕ)
  | alloc (p : Fin P) (pa : ℕ)
  | run (p : Fin P)
deriving DecidableEq, Repr

def run (s : State P) (p : Fin P) : Option (State P) :=
  match s.handler p with
  | .looking f prev none => some (s.enter p (.missed f prev))
  | .looking f _ (some n) =>
    if f = (s.nodes n).file then some (s.enter p (.found n))
    else some (s.enter p (.looking f (some n) (s.next n)))
  | .allocated f prev pa => some ((s.create f pa).enter p (.created prev s.made))
  | .created prev n => some ((s.link prev n).enter p (.filling n))
  | .filling n => some ((s.fill (s.nodes n).pa).enter p (.filled n))
  | .filled n | .found n => some ((s.userMap p (s.nodes n).pa).enter p .idle)
  | _ => none

def step (s : State P) : Act P → Option (State P)
  | .fault p f =>
    if s.handler p = .idle then some (s.enter p (.looking f none s.nodeList)) else none
  | .alloc p pa =>
    match s.handler p with
    | .missed f prev =>
      if pa ∈ s.frames then none
      else some ({ s with frames := pa :: s.frames }.enter p (.allocated f prev pa))
    | _ => none
  | .run p => run s p

structure Quiet (s : State P) : Prop where
  nodeList : s.nodeList = none
  linked : s.linked = []
  mapped : s.mapped = []
  handler : ∀ p, s.handler p = .idle

def faults : System (State P) (Act P) where
  init := Quiet
  step s a t := step s a = some t

abbrev State.OnList (s : State P) (n : ℕ) : Prop := LinkedList.OnList s.next s.nodeList n

structure Sound (s : State P) : Prop where
  kept : ∀ n ∈ s.linked, s.OnList n
  unique : ∀ m n, s.OnList m → s.OnList n → (s.nodes m).file = (s.nodes n).file → m = n
  filled : ∀ p pa, (p, pa) ∈ s.mapped → s.isFilled pa

/-- When a handler links its entry, the pointer it writes is still null; when one maps an entry
it has found, no handler is at work filling its frame. -/
def Undisturbed (s : State P) (a : Act P) : Prop :=
  ∀ p, a = .run p →
    (∀ prev n, s.handler p = .created prev n → slot s.next s.nodeList prev = none) ∧
    ∀ n, s.handler p = .found n → ∀ r, s.handler r ≠ .filling n

end MMapKernel.Vmm.FaultRace
