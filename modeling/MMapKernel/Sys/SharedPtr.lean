import MMapKernel.Lib.Holders
import MMapKernel.Lib.Transition

/-!
# Shared pointers: `kernel/shared.h`

A `Shared<T>` handle points to a `FatPointer`, which points to an object and to a counter. A handle
that was moved from is null, and a `FatPointer` may have a null object. Each operation is the source's
sequence of reads and writes: a null `FatPointer` or a freed one that is followed is a fault.

A `FatPointer` and its counter are allocated together and are named by the number of the allocation;
`made` lists the objects they were allocated for. `deleted` is the log of the objects deleted. The
destructor of an object is taken to touch no handle of its own type.
-/

open Transition
namespace MMapKernel.Sys

structure FatPointer (T : Type) where
  pointer : Option T
  counter : ℕ

inductive Fault where
  | movedFrom
  | freed
  | notAHandle
deriving DecidableEq, Repr

structure SharedMem (T : Type) where
  fats : ℕ → Option (FatPointer T)
  counters : ℕ → Option ℤ
  made : List (Option T)
  deleted : List T

namespace SharedMem
variable {T : Type}

def make (m : SharedMem T) (it : Option T) : ℕ × SharedMem T :=
  let a := m.made.length
  (a, { m with
    fats := Function.update m.fats a (some ⟨it, a⟩)
    counters := Function.update m.counters a (some 0)
    made := m.made ++ [it] })

def fat (m : SharedMem T) : Option ℕ → Except Fault (ℕ × FatPointer T)
  | none => .error .movedFrom
  | some a =>
    match m.fats a with
    | none => .error .freed
    | some f => .ok (a, f)

def addFetch (m : SharedMem T) (c : ℕ) (d : ℤ) : Except Fault (ℤ × SharedMem T) :=
  match m.counters c with
  | none => .error .freed
  | some v => .ok (v + d, { m with counters := Function.update m.counters c (some (v + d)) })

def free (m : SharedMem T) (a : ℕ) (f : FatPointer T) (o : T) : SharedMem T :=
  { m with
    fats := Function.update m.fats a none
    counters := Function.update m.counters f.counter none
    deleted := o :: m.deleted }

def decrementCounter (m : SharedMem T) (x : Option ℕ) : Except Fault (SharedMem T) :=
  match x with
  | none => .ok m
  | some a =>
    (m.fat (some a)).bind fun r =>
      match r.2.pointer with
      | none => .ok m
      | some o =>
        (m.addFetch r.2.counter (-1)).map fun v => if v.1 = 0 then v.2.free a r.2 o else v.2

def incrementCounter (m : SharedMem T) (x : Option ℕ) : Except Fault (SharedMem T) :=
  (m.fat x).bind fun r =>
    match r.2.pointer with
    | none => .ok m
    | some _ => (m.addFetch r.2.counter 1).map Prod.snd

end SharedMem

structure SharedState (H T : Type) where
  live : Finset H
  fatPointer : H → Option ℕ
  mem : SharedMem T

inductive SharedOp (H T : Type) where
  | construct (h : H) (it : Option T)
  | default (h : H)
  | copy (h rhs : H)
  | move (h rhs : H)
  | destroy (h : H)
  | assignRaw (h : H) (rhs : Option T)
  | assignCopy (h rhs : H)
  | assignMove (h rhs : H)

section Steps
variable {H T : Type} [DecidableEq H] [DecidableEq T]

def SharedOp.Legal (live : Finset H) : SharedOp H T → Prop
  | .construct h _ | .default h => h ∉ live
  | .copy h rhs | .move h rhs => h ∉ live ∧ rhs ∈ live
  | .destroy h | .assignRaw h _ => h ∈ live
  | .assignCopy h rhs | .assignMove h rhs => h ∈ live ∧ rhs ∈ live

instance legalDecidable (live : Finset H) (op : SharedOp H T) : Decidable (op.Legal live) := by
  cases op <;> unfold SharedOp.Legal <;> infer_instance

namespace SharedState

def set (s : SharedState H T) (h : H) (x : Option ℕ) : SharedState H T :=
  { s with fatPointer := Function.update s.fatPointer h x }

def begin (s : SharedState H T) (h : H) (x : Option ℕ) : SharedState H T :=
  { s with live := insert h s.live, fatPointer := Function.update s.fatPointer h x }

def apply (s : SharedState H T) : SharedOp H T → Except Fault (SharedState H T)
  | .construct h it =>
    let r := s.mem.make it
    (r.2.incrementCounter (some r.1)).map fun m => { s.begin h (some r.1) with mem := m }
  | .default h =>
    let r := s.mem.make none
    .ok { s.begin h (some r.1) with mem := r.2 }
  | .copy h rhs =>
    (s.mem.incrementCounter (s.fatPointer rhs)).map fun m =>
      { s.begin h (s.fatPointer rhs) with mem := m }
  | .move h rhs => .ok ((s.begin h (s.fatPointer rhs)).set rhs none)
  | .destroy h =>
    (s.mem.decrementCounter (s.fatPointer h)).map fun m => { s with live := s.live.erase h, mem := m }
  | .assignRaw h rhs =>
    (s.mem.fat (s.fatPointer h)).bind fun r =>
      if r.2.pointer = rhs then .ok s
      else
        (s.mem.decrementCounter (s.fatPointer h)).bind fun m =>
          let r := m.make rhs
          (r.2.incrementCounter (some r.1)).map fun m => { s.set h (some r.1) with mem := m }
  | .assignCopy h rhs =>
    if s.fatPointer h = s.fatPointer rhs then .ok s
    else
      (s.mem.decrementCounter (s.fatPointer h)).bind fun m =>
        (m.incrementCounter (s.fatPointer rhs)).map fun m =>
          { s.set h (s.fatPointer rhs) with mem := m }
  | .assignMove h rhs =>
    (s.mem.decrementCounter (s.fatPointer h)).map fun m =>
      { (s.set h (s.fatPointer rhs)).set rhs none with mem := m }

def step (s : SharedState H T) (op : SharedOp H T) : Except Fault (SharedState H T) :=
  if op.Legal s.live then s.apply op else .error .notAHandle

def start : SharedState H T where
  live := ∅
  fatPointer _ := none
  mem := ⟨fun _ => none, fun _ => none, [], []⟩

def next (s : SharedState H T) (op : SharedOp H T) : Option (SharedState H T) := (s.step op).toOption

end SharedState

def sharedRuns : System (SharedState H T) (SharedOp H T) where
  init s := s = .start
  step s op t := s.next op = some t

end Steps
end MMapKernel.Sys
