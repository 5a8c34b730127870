import MMapKernel.Lib.Words

/-!
# A part of the 32-bit x86 machine

The general registers, the flags that the instructions here read, the control registers of the memory
unit, and a memory of bytes with one address space. Code is a partial map from addresses to instructions, each
with the address of the next one, so the lengths of the encodings do not matter. An instruction whose only effect
on the instruction pointer is to go on is straight; a block of these acts as the fold of their effects.
-/

open Words
namespace X86

inductive Reg where
  | eax | ecx | edx | ebx | esp | ebp | esi | edi
deriving DecidableEq, Repr

structure Flags where
  sign : Bool
  overflow : Bool
  interrupt : Bool
deriving DecidableEq, Repr

structure Machine where
  reg : Reg → UInt32
  flags : Flags
  cr2 : UInt32
  cr3 : UInt32
  cs : UInt32
  ss : UInt32
  byte : UInt32 → UInt8
  eip : UInt32

inductive Operand where
  | reg (r : Reg)
  | imm (w : UInt32)
  | mem (base : Reg) (disp : UInt32)
  | abs (a : UInt32)
  | indexed (base index : Reg)
deriving DecidableEq, Repr

/-- An entry of the interrupt table, with the stack that the task state segment has for it. An interrupt gate
clears the interrupt flag, a trap gate does not. -/
structure Gate where
  target : UInt32
  cs : UInt32
  esp0 : UInt32
  ss0 : UInt32
  clears : Bool
deriving DecidableEq, Repr

inductive Instr where
  | mov (src dst : Operand)
  | movb (src dst : Operand)
  | add (w : UInt32) (dst : Reg)
  | or (w : UInt32) (dst : Operand)
  | push (src : Operand)
  | pop (dst : Reg)
  | pushf
  | popf
  | pusha
  | popa
  | readCr2 (dst : Reg)
  | readCr3 (dst : Reg)
  | writeCr2 (src : Reg)
  | writeCr3 (src : Reg)
  | cli
  | sti
  | jmp (target : UInt32)
  | jl (target : UInt32)
  | call (target : Operand)
  | ret
  | int (gate : Gate)
  | iret
deriving DecidableEq, Repr

def Instr.straight : Instr → Bool
  | .jmp _ | .jl _ | .call _ | .ret | .int _ | .iret => false
  | _ => true

def negative (w : UInt32) : Bool := w.toBitVec.msb

namespace Flags

def toWord (f : Flags) : UInt32 :=
  (if f.sign then 0x80 else 0) ||| (if f.interrupt then 0x200 else 0) ||| (if f.overflow then 0x800 else 0)

def ofWord (w : UInt32) : Flags := ⟨w &&& 0x80 ≠ 0, w &&& 0x800 ≠ 0, w &&& 0x200 ≠ 0⟩

@[simp] theorem ofWord_toWord (f : Flags) : ofWord f.toWord = f := by
  obtain ⟨s, o, i⟩ := f
  cases s <;> cases o <;> cases i <;> decide

def ofAdd (f : Flags) (x y : UInt32) : Flags :=
  { f with
    sign := negative (x + y)
    overflow := negative x == negative y && negative x != negative (x + y) }

@[simp] theorem ofAdd_interrupt (f : Flags) (x y : UInt32) : (f.ofAdd x y).interrupt = f.interrupt := rfl

def less (f : Flags) : Bool := f.sign != f.overflow

end Flags

def withLow (w : UInt32) (b : UInt8) : UInt32 := w &&& 0xFFFFFF00 ||| b.toUInt32

@[simp] theorem toUInt8_withLow (w : UInt32) (b : UInt8) : (withLow w b).toUInt8 = b := by
  have hlow : (w &&& 0xFFFFFF00).toUInt8 = 0 := by
    rw [UInt32.toUInt8_and]
    exact UInt8.and_zero
  rw [withLow, UInt32.toUInt8_or, hlow, UInt8.zero_or, UInt8.toUInt8_toUInt32]

namespace Machine

def address (m : Machine) : Operand → UInt32
  | .mem base disp => m.reg base + disp
  | .abs a => a
  | .indexed base index => m.reg base + m.reg index
  | _ => 0

def get (m : Machine) : Operand → UInt32
  | .reg r => m.reg r
  | .imm w => w
  | o => load m.byte (m.address o)

def getByte (m : Machine) : Operand → UInt8
  | .reg r => (m.reg r).toUInt8
  | .imm w => w.toUInt8
  | o => m.byte (m.address o)

def setReg (m : Machine) (r : Reg) (w : UInt32) : Machine := { m with reg := Function.update m.reg r w }

def put (m : Machine) (w : UInt32) : Operand → Machine
  | .reg r => m.setReg r w
  | .imm _ => m
  | o => { m with byte := store m.byte (m.address o) w }

def putByte (m : Machine) (b : UInt8) : Operand → Machine
  | .reg r => m.setReg r (withLow (m.reg r) b)
  | .imm _ => m
  | o => { m with byte := Function.update m.byte (m.address o) b }

def pushWord (m : Machine) (w : UInt32) : Machine :=
  { m with
    reg := Function.update m.reg .esp (m.reg .esp - 4)
    byte := store m.byte (m.reg .esp - 4) w }

def top (m : Machine) : UInt32 := load m.byte (m.reg .esp)

def dropWord (m : Machine) : Machine := m.setReg .esp (m.reg .esp + 4)

def popWord (m : Machine) (r : Reg) : Machine := m.dropWord.setReg r m.top

theorem get_mem (m : Machine) (r : Reg) (d : UInt32) : m.get (.mem r d) = load m.byte (m.reg r + d) := rfl

@[simp] theorem setReg_self (m : Machine) (r : Reg) (w : UInt32) : (m.setReg r w).reg r = w :=
  Function.update_self ..

theorem setReg_of_ne {r r' : Reg} (h : r' ≠ r) (m : Machine) (w : UInt32) : (m.setReg r w).reg r' = m.reg r' :=
  Function.update_of_ne h _ _

@[simp] theorem pushWord_esp (m : Machine) (w : UInt32) : (m.pushWord w).reg .esp = m.reg .esp - 4 := by
  simp [pushWord]

theorem pushWord_of_ne {r : Reg} (h : r ≠ .esp) (m : Machine) (w : UInt32) : (m.pushWord w).reg r = m.reg r :=
  Function.update_of_ne h _ _

theorem pushWord_byte (m : Machine) (w : UInt32) :
    (m.pushWord w).byte = store m.byte (m.reg .esp - 4) w := rfl

@[simp] theorem dropWord_esp (m : Machine) : m.dropWord.reg .esp = m.reg .esp + 4 := setReg_self ..

theorem dropWord_of_ne {r : Reg} (h : r ≠ .esp) (m : Machine) : m.dropWord.reg r = m.reg r := setReg_of_ne h _ _

@[simp] theorem popWord_byte (m : Machine) (r : Reg) : (m.popWord r).byte = m.byte := rfl

@[simp] theorem popWord_self (m : Machine) (r : Reg) : (m.popWord r).reg r = m.top := setReg_self ..

theorem popWord_of_ne {r r' : Reg} (h : r' ≠ r) (hesp : r' ≠ .esp) (m : Machine) :
    (m.popWord r).reg r' = m.reg r' :=
  (setReg_of_ne h _ _).trans (setReg_of_ne hesp _ _)

theorem popWord_esp {r : Reg} (h : r ≠ .esp) (m : Machine) : (m.popWord r).reg .esp = m.reg .esp + 4 :=
  (setReg_of_ne h.symm _ _).trans (setReg_self ..)

def allRegs : List Reg := [.eax, .ecx, .edx, .ebx, .esp, .ebp, .esi, .edi]

def pushAll (m : Machine) : Machine := allRegs.foldl (fun s r => s.pushWord (m.reg r)) m

def popAll (m : Machine) : Machine :=
  allRegs.reverse.foldl (fun s r => if r = .esp then s.dropWord else s.popWord r) m

def effect (m : Machine) : Instr → Machine
  | .mov src dst => m.put (m.get src) dst
  | .movb src dst => m.putByte (m.getByte src) dst
  | .add w dst => { m.setReg dst (m.reg dst + w) with flags := m.flags.ofAdd (m.reg dst) w }
  | .or w dst =>
    { m.put (m.get dst ||| w) dst with
      flags := { m.flags with sign := negative (m.get dst ||| w), overflow := false } }
  | .push src => m.pushWord (m.get src)
  | .pop dst => m.popWord dst
  | .pushf => m.pushWord m.flags.toWord
  | .popf => { m.dropWord with flags := .ofWord m.top }
  | .pusha => m.pushAll
  | .popa => m.popAll
  | .readCr2 dst => m.setReg dst m.cr2
  | .readCr3 dst => m.setReg dst m.cr3
  | .writeCr2 src => { m with cr2 := m.reg src }
  | .writeCr3 src => { m with cr3 := m.reg src }
  | .cli => { m with flags := { m.flags with interrupt := false } }
  | .sti => { m with flags := { m.flags with interrupt := true } }
  | _ => m

def goTo (m : Machine) (a : UInt32) : Machine := { m with eip := a }

def level (cs : UInt32) : UInt32 := cs &&& 3

def enter (m : Machine) (g : Gate) : Machine :=
  let s :=
    if level m.cs = level g.cs then m
    else (({ m.setReg .esp g.esp0 with ss := g.ss0 }).pushWord m.ss).pushWord (m.reg .esp)
  { ((s.pushWord m.flags.toWord).pushWord m.cs).pushWord m.eip with
    cs := g.cs
    eip := g.target
    flags := { m.flags with interrupt := m.flags.interrupt && !g.clears } }

def returnFromInterrupt (m : Machine) : Machine :=
  let s := m.dropWord
  let t := s.dropWord
  let u := { t.dropWord with eip := m.top, cs := s.top, flags := .ofWord t.top }
  if level s.top = level m.cs then u
  else { u.setReg .esp u.top with ss := u.dropWord.top }

def exec (m : Machine) (next : UInt32) : Instr → Machine
  | .jmp target => m.goTo target
  | .jl target => m.goTo (if m.flags.less then target else next)
  | .call target => (m.pushWord next).goTo (m.get target)
  | .ret => m.dropWord.goTo m.top
  | .int gate => (m.goTo next).enter gate
  | .iret => m.returnFromInterrupt
  | i => (m.effect i).goTo next

end Machine

abbrev Code := UInt32 → Option (Instr × UInt32)

def step (code : Code) (m : Machine) : Option Machine := (code m.eip).map fun i => m.exec i.2 i.1

def steps (code : Code) : ℕ → Machine → Option Machine
  | 0, m => some m
  | n + 1, m => (step code m).bind (steps code n)

def Reaches (code : Code) : Machine → Machine → Prop :=
  Relation.ReflTransGen fun m t => step code m = some t

def Placed (code : Code) (at_ : ℕ → UInt32) (text : List Instr) : Prop :=
  ∀ k i, text[k]? = some i → code (at_ k) = some (i, at_ (k + 1))

section
variable {code : Code} {at_ : ℕ → UInt32} {text : List Instr} {m t : Machine} {k : ℕ} {i : Instr}
open Machine

theorem steps_succ {n : ℕ} (h : X86.step code m = some t) : steps code (n + 1) m = steps code n t := by
  rw [steps, h, Option.bind_some]

theorem steps_add {n k : ℕ} (h : steps code n m = some t) : steps code (n + k) m = steps code k t := by
  induction n generalizing m with
  | zero =>
    cases h
    rw [Nat.zero_add]
  | succ n ih =>
    obtain ⟨s, hs, hrest⟩ := Option.bind_eq_some_iff.mp h
    rw [Nat.succ_add, steps_succ hs, ih hrest]

theorem steps_one (h : X86.step code m = some t) : steps code 1 m = some t := by
  rw [steps_succ h, steps]

theorem steps_trans {n k : ℕ} {u : Machine} (h : steps code n m = some t) (h' : steps code k t = some u) :
    steps code (n + k) m = some u := (steps_add h).trans h'

theorem reaches_of_steps {n : ℕ} (h : steps code n m = some t) : Reaches code m t := by
  induction n generalizing m with
  | zero =>
    cases h
    exact .refl
  | succ n ih =>
    obtain ⟨s, hs, hrest⟩ := Option.bind_eq_some_iff.mp h
    exact .head hs (ih hrest)

def assemble (text : List Instr) : Code := fun a => (text[a.toNat]?).map fun i => (i, a + 1)

theorem placed_assemble (h : text.length < 2 ^ 32) : Placed (assemble text) UInt32.ofNat text := by
  intro k i hi
  have hk : k < text.length := (List.getElem?_eq_some_iff.mp hi).1
  rw [assemble, UInt32.toNat_ofNat', Nat.mod_eq_of_lt (hk.trans h), hi, UInt32.ofNat_add]
  rfl

theorem Placed.of_append {rest : List Instr} (h : Placed code at_ (text ++ rest)) : Placed code at_ text := by
  intro k i hi
  apply h k i
  rw [List.getElem?_append_left (List.getElem?_eq_some_iff.mp hi).1, hi]

theorem exec_straight (h : i.straight) (m : Machine) (next : UInt32) :
    m.exec next i = (m.effect i).goTo next := by
  cases i <;> first | rfl | cases h

theorem exec_jmp (m : Machine) (next target : UInt32) : m.exec next (.jmp target) = m.goTo target := rfl

theorem exec_call (m : Machine) (next : UInt32) (target : Operand) :
    m.exec next (.call target) = (m.pushWord next).goTo (m.get target) := rfl

theorem exec_ret (m : Machine) (next : UInt32) : m.exec next .ret = m.dropWord.goTo m.top := rfl

theorem exec_jl (m : Machine) (next target : UInt32) :
    m.exec next (.jl target) = m.goTo (if m.flags.less then target else next) := rfl

theorem exec_iret (m : Machine) (next : UInt32) : m.exec next .iret = m.returnFromInterrupt := rfl

theorem goTo_returnFromInterrupt (m : Machine) (a : UInt32) :
    (m.goTo a).returnFromInterrupt = m.returnFromInterrupt := rfl

@[simp] theorem goTo_reg (m : Machine) (a : UInt32) : (m.goTo a).reg = m.reg := rfl

@[simp] theorem goTo_flags (m : Machine) (a : UInt32) : (m.goTo a).flags = m.flags := rfl

@[simp] theorem goTo_cr2 (m : Machine) (a : UInt32) : (m.goTo a).cr2 = m.cr2 := rfl

@[simp] theorem goTo_cr3 (m : Machine) (a : UInt32) : (m.goTo a).cr3 = m.cr3 := rfl

@[simp] theorem goTo_byte (m : Machine) (a : UInt32) : (m.goTo a).byte = m.byte := rfl

@[simp] theorem goTo_eip (m : Machine) (a : UInt32) : (m.goTo a).eip = a := rfl

@[simp] theorem goTo_goTo (m : Machine) (a b : UInt32) : (m.goTo a).goTo b = m.goTo b := rfl

theorem Placed.step (h : Placed code at_ text) (hm : m.eip = at_ k) (hi : text[k]? = some i) :
    step code m = some (m.exec (at_ (k + 1)) i) := by
  rw [X86.step, hm, h k i hi]
  rfl

theorem goTo_of_eip {a : UInt32} (h : m.eip = a) : m.goTo a = m := by
  rw [goTo, ← h]

@[simp] theorem effect_add_byte (m : Machine) (w : UInt32) (r : Reg) : (m.effect (.add w r)).byte = m.byte := rfl

theorem effect_mov_reg (m : Machine) (src : Operand) (r : Reg) :
    m.effect (.mov src (.reg r)) = m.setReg r (m.get src) := rfl

theorem goTo_foldl {α : Type*} {f : Machine → α → Machine} {a : UInt32}
    (hf : ∀ s x, f (s.goTo a) x = (f s x).goTo a) (l : List α) (m : Machine) :
    l.foldl f (m.goTo a) = (l.foldl f m).goTo a := by
  induction l generalizing m with
  | nil => rfl
  | cons x l ih => rw [List.foldl_cons, hf, ih, List.foldl_cons]

theorem goTo_pushAll (m : Machine) (a : UInt32) : (m.goTo a).pushAll = m.pushAll.goTo a := by
  have hreg : (m.goTo a).reg = m.reg := rfl
  rw [pushAll, pushAll, hreg]
  exact goTo_foldl (fun _ _ => rfl) allRegs m

theorem goTo_popWord (m : Machine) (a : UInt32) (r : Reg) : (m.goTo a).popWord r = (m.popWord r).goTo a := by
  have htop : (m.goTo a).top = m.top := rfl
  rw [popWord, popWord, htop]
  unfold goTo dropWord setReg
  rfl

theorem goTo_popAll (m : Machine) (a : UInt32) : (m.goTo a).popAll = m.popAll.goTo a := by
  rw [popAll, popAll]
  refine goTo_foldl (fun s r => ?_) allRegs.reverse m
  by_cases hr : r = .esp
  · rw [if_pos hr, if_pos hr]
    rfl
  · rw [if_neg hr, if_neg hr, goTo_popWord]

theorem goTo_effect (m : Machine) (a : UInt32) (i : Instr) : (m.goTo a).effect i = (m.effect i).goTo a := by
  cases i with
  | mov src dst => cases src <;> cases dst <;> rfl
  | movb src dst => cases src <;> cases dst <;> rfl
  | or w dst => cases dst <;> rfl
  | push src => cases src <;> rfl
  | pop dst => exact goTo_popWord m a dst
  | pusha => exact goTo_pushAll m a
  | popa => exact goTo_popAll m a
  | _ => rfl

def Machine.block (m : Machine) (is : List Instr) : Machine := is.foldl Machine.effect m

theorem Placed.straight (h : Placed code at_ text) (hi : text[k]? = some i) (hs : i.straight) (m : Machine) :
    X86.step code (m.goTo (at_ k)) = some ((m.effect i).goTo (at_ (k + 1))) := by
  rw [h.step (goTo_eip m _) hi, exec_straight hs, goTo_effect, goTo_goTo]

theorem Placed.block (h : Placed code at_ text) {l rest : List Instr} (htext : text.drop k = l ++ rest)
    (hs : l.all Instr.straight) (m : Machine) :
    steps code l.length (m.goTo (at_ k)) = some ((m.block l).goTo (at_ (k + l.length))) := by
  induction l generalizing m k with
  | nil => rfl
  | cons i l ih =>
    obtain ⟨hi, hl⟩ := Bool.and_eq_true_iff.mp hs
    have hget : text[k]? = some i := by
      rw [← Nat.add_zero k, ← List.getElem?_drop, htext]
      rfl
    have hdrop : text.drop (k + 1) = l ++ rest := by
      rw [← List.drop_drop, htext]
      rfl
    have hrest := ih hdrop hl (m.effect i)
    rw [Nat.add_assoc, Nat.add_comm 1] at hrest
    rw [List.length_cons, steps_succ (h.straight hget hi m), hrest]
    rfl

def turns (w : UInt32) : ℕ := if w < 0x80000000 then w.toNat else 0

theorem negative_iff (w : UInt32) : negative w = true ↔ 2147483648 ≤ w.toNat := by
  rw [negative, BitVec.msb_eq_decide, decide_eq_true_iff]
  rfl

theorem less_ofAdd (f : Flags) (w : UInt32) : (f.ofAdd w (-1)).less = (negative w || negative (w + -1)) := by
  have hone : negative (-1) = true := by decide
  rw [Flags.less, Flags.ofAdd, hone]
  cases negative w <;> cases negative (w + -1) <;> rfl

theorem toNat_add_neg_one (w : UInt32) : (w + -1).toNat = (w.toNat + 4294967295) % 4294967296 := by
  rw [UInt32.toNat_add]
  rfl

theorem turns_eq (w : UInt32) : turns w = if w.toNat < 2147483648 then w.toNat else 0 := rfl

theorem less_of_turns_eq_zero {w : UInt32} (f : Flags) (h : turns w = 0) : (f.ofAdd w (-1)).less = true := by
  have hlt := w.toNat_lt
  rw [less_ofAdd, Bool.or_eq_true, negative_iff, negative_iff, toNat_add_neg_one]
  rw [turns_eq] at h
  split at h <;> omega

theorem less_of_turns_succ {w : UInt32} (f : Flags) {n : ℕ} (h : turns w = n + 1) :
    (f.ofAdd w (-1)).less = false ∧ turns (w + -1) = n := by
  have hlt := w.toNat_lt
  rw [less_ofAdd, Bool.or_eq_false_iff, ← Bool.not_eq_true, ← Bool.not_eq_true, negative_iff, negative_iff,
    turns_eq, toNat_add_neg_one]
  rw [turns_eq] at h
  split at h <;> split <;> omega

theorem turns_lt (w : UInt32) : turns w < 2 ^ 32 := by
  have hlt := w.toNat_lt
  rw [turns_eq]
  split <;> omega

theorem add_neg_one_of_turns_succ {w : UInt32} {n : ℕ} (h : turns w = n + 1) : w + -1 = UInt32.ofNat n := by
  apply UInt32.toNat_inj.mp
  have hlt := w.toNat_lt
  rw [toNat_add_neg_one, UInt32.toNat_ofNat']
  rw [turns_eq] at h
  split at h <;> omega

def Machine.turn (c : Reg) (body : List Instr) (m : Machine) : Machine := (m.effect (.add (-1) c)).block body

theorem Placed.countdown (h : Placed code at_ text) {c : Reg} {out : UInt32} {b rest : List Instr}
    (htext : text.drop k = .add (-1) c :: .jl out :: (b ++ .jmp (at_ k) :: rest))
    (hs : b.all Instr.straight) (hc : ∀ s : Machine, (s.block b).reg c = s.reg c) (m : Machine) :
    Reaches code (m.goTo (at_ k))
      ((((Machine.turn c b)^[turns (m.reg c)] m).effect (.add (-1) c)).goTo out) := by
  have hget : ∀ j, text[k + j]? = (text.drop k)[j]? := fun j => List.getElem?_drop.symm
  have hadd : text[k]? = some (.add (-1) c) := by
    rw [← Nat.add_zero k, hget, htext]
    rfl
  have hjl : text[k + 1]? = some (.jl out) := by
    rw [hget, htext]
    rfl
  have hjmp : text[k + 2 + b.length]? = some (.jmp (at_ k)) := by
    rw [Nat.add_assoc, hget, htext, Nat.add_comm, List.getElem?_cons_succ, List.getElem?_cons_succ,
      List.getElem?_append_right le_rfl, Nat.sub_self]
    rfl
  have hdrop : text.drop (k + 2) = b ++ .jmp (at_ k) :: rest := by
    rw [← List.drop_drop, htext]
    rfl
  generalize hn : turns (m.reg c) = n
  induction n generalizing m with
  | zero =>
    have hless : (m.effect (.add (-1) c)).flags.less = true := less_of_turns_eq_zero m.flags hn
    have hstep := h.step (goTo_eip (m.effect (.add (-1) c)) _) hjl
    rw [exec_jl, goTo_flags, hless, if_pos rfl, goTo_goTo] at hstep
    exact .head (h.straight hadd rfl m) (.single hstep)
  | succ n ih =>
    obtain ⟨hflags, hturns⟩ := less_of_turns_succ m.flags hn
    have hless : (m.effect (.add (-1) c)).flags.less = false := hflags
    have hstep := h.step (goTo_eip (m.effect (.add (-1) c)) _) hjl
    rw [exec_jl, goTo_flags, hless, if_neg Bool.false_ne_true, goTo_goTo] at hstep
    have hcount : (m.turn c b).reg c = m.reg c + -1 := by
      rw [Machine.turn, hc]
      exact Function.update_self ..
    have hback := h.step (goTo_eip (m.turn c b) _) hjmp
    rw [exec_jmp, goTo_goTo] at hback
    have hbody := reaches_of_steps (h.block hdrop hs (m.effect (.add (-1) c)))
    rw [Function.iterate_succ_apply]
    refine .head (h.straight hadd rfl m) (.head hstep (hbody.trans (.head hback ?_)))
    exact ih (m.turn c b) (by rw [hcount, hturns])

end

structure Same (rs : List Reg) (m t : Machine) : Prop where
  reg : ∀ r ∈ rs, t.reg r = m.reg r
  interrupt : t.flags.interrupt = m.flags.interrupt
  cr2 : t.cr2 = m.cr2
  cr3 : t.cr3 = m.cr3
  cs : t.cs = m.cs
  ss : t.ss = m.ss

namespace Same
variable {rs rs' : List Reg} {m t u : Machine}

theorem refl (rs : List Reg) (m : Machine) : Same rs m m := ⟨fun _ _ => rfl, rfl, rfl, rfl, rfl, rfl⟩

theorem trans (h : Same rs m t) (h' : Same rs t u) : Same rs m u where
  reg r hr := (h'.reg r hr).trans (h.reg r hr)
  interrupt := h'.interrupt.trans h.interrupt
  cr2 := h'.cr2.trans h.cr2
  cr3 := h'.cr3.trans h.cr3
  cs := h'.cs.trans h.cs
  ss := h'.ss.trans h.ss

theorem goTo (rs : List Reg) (m : Machine) (a : UInt32) : Same rs m (m.goTo a) :=
  ⟨fun _ _ => rfl, rfl, rfl, rfl, rfl, rfl⟩

theorem setReg {r : Reg} (h : r ∉ rs) (m : Machine) (w : UInt32) : Same rs m (m.setReg r w) where
  reg _ hr := Function.update_of_ne (ne_of_mem_of_not_mem hr h) _ _
  interrupt := rfl
  cr2 := rfl
  cr3 := rfl
  cs := rfl
  ss := rfl

theorem pushWord (h : .esp ∉ rs) (m : Machine) (w : UInt32) : Same rs m (m.pushWord w) where
  reg _ hr := Function.update_of_ne (ne_of_mem_of_not_mem hr h) _ _
  interrupt := rfl
  cr2 := rfl
  cr3 := rfl
  cs := rfl
  ss := rfl

theorem cons {r : Reg} (hr : t.reg r = m.reg r) (h : Same rs m t) : Same (r :: rs) m t where
  reg _ hmem := (List.mem_cons.mp hmem).elim (fun he => he ▸ hr) (h.reg _)
  interrupt := h.interrupt
  cr2 := h.cr2
  cr3 := h.cr3
  cs := h.cs
  ss := h.ss

theorem mono (h : Same rs m t) (hsub : ∀ r ∈ rs', r ∈ rs) : Same rs' m t :=
  ⟨fun r hr => h.reg r (hsub r hr), h.interrupt, h.cr2, h.cr3, h.cs, h.ss⟩

end Same

/-- The instruction writes memory, the arithmetic flags and registers outside of `rs` at most. -/
def Instr.keeps (rs : List Reg) : Instr → Bool
  | .mov _ (.reg r) | .movb _ (.reg r) | .add _ r => r ∉ rs
  | .mov .. | .movb .. => true
  | .push _ => .esp ∉ rs
  | .pop r => r ∉ rs ∧ .esp ∉ rs
  | _ => false

theorem Same.effect {R : List Reg} {i : Instr} (h : i.keeps R) (m : Machine) : Same R m (m.effect i) := by
  cases i with
  | mov src dst =>
    cases dst with
    | reg r => exact .setReg (of_decide_eq_true h) m _
    | _ => exact ⟨fun _ _ => rfl, rfl, rfl, rfl, rfl, rfl⟩
  | movb src dst =>
    cases dst with
    | reg r => exact .setReg (of_decide_eq_true h) m _
    | _ => exact ⟨fun _ _ => rfl, rfl, rfl, rfl, rfl, rfl⟩
  | add w dst =>
    have hset := Same.setReg (of_decide_eq_true h) m (m.reg dst + w)
    exact ⟨hset.reg, rfl, rfl, rfl, rfl, rfl⟩
  | push src => exact .pushWord (of_decide_eq_true h) m _
  | pop dst =>
    obtain ⟨hdst, hesp⟩ := of_decide_eq_true h
    exact (Same.setReg hesp m _).trans (.setReg hdst _ _)
  | _ => cases h

theorem Same.block {R : List Reg} {l : List Instr} (h : l.all (Instr.keeps R)) (m : Machine) :
    Same R m (m.block l) := by
  induction l generalizing m with
  | nil => exact .refl R m
  | cons i l ih =>
    obtain ⟨hi, hl⟩ := Bool.and_eq_true_iff.mp h
    exact (Same.effect hi m).trans (ih hl _)

theorem block_keeps {c : Reg} {l : List Instr} (h : l.all (Instr.keeps [c])) (m : Machine) :
    (m.block l).reg c = m.reg c :=
  (Same.block h m).reg c List.mem_cons_self

theorem Same.turn {R : List Reg} {c : Reg} {body : List Instr} (hc : c ∉ R) (h : body.all (Instr.keeps R))
    (m : Machine) : Same R m (m.turn c body) :=
  (Same.effect (i := .add (-1) c) (decide_eq_true hc) m).trans (.block h _)

def calleeSaved : List Reg := [.ebx, .ebp, .esi, .edi]

/-- A function that was entered at `m` has returned to its caller. -/
structure Returned (m t : Machine) : Prop where
  eip : t.eip = m.top
  esp : t.reg .esp = m.reg .esp + 4
  same : Same calleeSaved m t

theorem Placed.returns {code : Code} {at_ : ℕ → UInt32} {text : List Instr} {m t : Machine} {k : ℕ}
    (h : Placed code at_ text) (hi : text[k]? = some .ret) (hrun : Reaches code m (t.goTo (at_ k)))
    (hsame : Same (.esp :: calleeSaved) m t) (htop : load t.byte (m.reg .esp) = m.top) :
    Reaches code m (t.dropWord.goTo t.top) ∧ Returned m (t.dropWord.goTo t.top) := by
  have hesp : t.reg .esp = m.reg .esp := hsame.reg .esp (by decide)
  have hstep : X86.step code (t.goTo (at_ k)) = some (t.dropWord.goTo t.top) := h.step (goTo_eip t _) hi
  have hdrop : Same calleeSaved t t.dropWord := .setReg (by decide) t _
  refine ⟨hrun.tail hstep, ?_, ?_, ?_⟩
  · rw [goTo_eip, Machine.top, hesp, htop]
  · rw [goTo_reg, Machine.dropWord, Machine.setReg_self, hesp]
  · exact ((hsame.mono (by decide)).trans hdrop).trans (.goTo _ _ _)

end X86
