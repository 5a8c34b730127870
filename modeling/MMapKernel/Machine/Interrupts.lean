import MMapKernel.Lib.Traps

/-!
# The ways into the kernel and out of it

The timer, a page fault and a system call go through `apitHandler_`, `pageFaultHandler_` and `sysHandler_` to a
function in C++. Where that comes back and leaves on the stack what belongs to the interrupted code, the first two
are not seen by this code, and the third changes what a function call would change. `switchToUser` starts a program.
-/

namespace MMapKernel.Interrupts
open Words X86 Machine

def apitHandler_ (apitHandler : UInt32) : List Instr :=
  [.pusha, .push (.reg .esp), .call (.imm apitHandler), .pop .esp, .popa, .iret]

def pageFaultHandler_ (vmm_pageFault : UInt32) : List Instr :=
  [.pusha, .mov (.reg .esp) (.reg .eax), .push (.reg .eax), .readCr2 .eax, .push (.reg .eax),
    .call (.imm vmm_pageFault), .add 8 .esp, .popa, .add 4 .esp, .iret]

def sysHandler_ (sysHandler : UInt32) : List Instr :=
  [.push (.reg .esp), .push (.reg .eax), .call (.imm sysHandler), .add 8 .esp, .iret]

def switchToUser (userSS userCS : UInt32) : List Instr :=
  [.mov (.mem .esp 4) (.reg .ecx), .mov (.mem .esp 8) (.reg .ebx), .mov (.mem .esp 12) (.reg .eax),
    .push (.abs userSS), .push (.reg .ebx), .pushf, .or 0x200 (.mem .esp 0), .push (.abs userCS),
    .push (.reg .ecx), .iret]

/-- An interrupt of `m` has called the function at `a`. The words are on the stack, the return address and the
arguments first, and nothing else in memory has changed. -/
structure Called (a : UInt32) (words : List UInt32) (m : Machine) (g : Gate) (u : Machine) : Prop where
  eip : u.eip = a
  esp : u.reg .esp = (m.onStack g).reg .esp - UInt32.ofNat (4 * words.length)
  stack : WordsAt u.byte (u.reg .esp) words
  byte : ∀ x, ¬ Within (u.reg .esp) (4 * words.length) x → u.byte x = m.byte x
  interrupt : u.flags.interrupt = (m.flags.interrupt && !g.clears)
  saved : ∀ r ∈ calleeSaved, u.reg r = m.reg r
  cs : u.cs = g.cs
  ss : u.ss = (m.onStack g).ss
  cr2 : u.cr2 = m.cr2
  cr3 : u.cr3 = m.cr3

/-- What every entry asks of the function, between its first instruction at `u` and its return at `w`. -/
structure Handled (u w : Machine) : Prop where
  eip : w.eip = u.top
  esp : w.reg .esp = u.reg .esp + 4
  cs : w.cs = u.cs
  ss : w.ss = u.ss
  cr3 : w.cr3 = u.cr3

structure Back (rs : List Reg) (m t : Machine) : Prop where
  reg : ∀ r ∈ rs, t.reg r = m.reg r
  flags : t.flags = m.flags
  eip : t.eip = m.eip
  cs : t.cs = m.cs
  ss : t.ss = m.ss
  cr3 : t.cr3 = m.cr3

structure Pushed (words : List UInt32) (v u : Machine) : Prop where
  esp : u.reg .esp = (v.pushWords words).reg .esp
  byte : u.byte = (v.pushWords words).byte
  saved : ∀ r ∈ calleeSaved, u.reg r = v.reg r
  flags : u.flags = v.flags
  cs : u.cs = v.cs
  ss : u.ss = v.ss
  cr2 : u.cr2 = v.cr2
  cr3 : u.cr3 = v.cr3

section
variable {code : Code} {at_ : ℕ → UInt32} {m u v w s : Machine} {g : Gate} {a e x : UInt32} {words : List UInt32}

namespace Pushed

theorem nil (v : Machine) : Pushed [] v v := ⟨rfl, rfl, fun _ _ => rfl, rfl, rfl, rfl, rfl, rfl⟩

theorem push (h : Pushed words v u) (a : UInt32) : Pushed (a :: words) v (u.pushWord a) where
  esp := by rw [pushWord_esp, pushWords, pushWord_esp, h.esp]
  byte := by rw [pushWord_byte, pushWords, pushWord_byte, h.esp, h.byte]
  saved r hr := by rw [pushWord_of_ne (ne_esp_of_calleeSaved hr), h.saved r hr]
  flags := h.flags
  cs := h.cs
  ss := h.ss
  cr2 := h.cr2
  cr3 := h.cr3

theorem all (v : Machine) (words : List UInt32) : Pushed words v (v.pushWords words) := by
  induction words with
  | nil => exact nil v
  | cons a words ih => exact ih.push a

theorem setReg {r : Reg} (h : Pushed words v u) (hr : r ∉ .esp :: calleeSaved) (a : UInt32) :
    Pushed words v (u.setReg r a) where
  esp := by
    have hne : Reg.esp ≠ r := by
      rintro rfl
      exact hr List.mem_cons_self
    rw [setReg_of_ne hne, h.esp]
  byte := h.byte
  saved r' hr' := by
    have hne : r' ≠ r := fun he => hr (List.mem_cons_of_mem _ (he ▸ hr'))
    rw [setReg_of_ne hne, h.saved r' hr']
  flags := h.flags
  cs := h.cs
  ss := h.ss
  cr2 := h.cr2
  cr3 := h.cr3

theorem goTo (h : Pushed words v u) (a : UInt32) : Pushed words v (u.goTo a) :=
  ⟨h.esp, h.byte, h.saved, h.flags, h.cs, h.ss, h.cr2, h.cr3⟩

theorem after_push (h : Pushed words (v.pushWord a) u) : Pushed (words ++ [a]) v u := by
  have hwords : (v.pushWord a).pushWords words = v.pushWords (words ++ [a]) := by
    clear h
    induction words with
    | nil => rfl
    | cons b words ih => rw [List.cons_append, pushWords, pushWords, ih]
  refine ⟨?_, ?_, fun r hr => ?_, h.flags, h.cs, h.ss, h.cr2, h.cr3⟩
  · rw [h.esp, hwords]
  · rw [h.byte, hwords]
  · rw [h.saved r hr, ((nil v).push a).saved r hr]

end Pushed

theorem Pushed.called (h : Pushed words (m.enter g) u) (hlen : 4 * words.length ≤ 2 ^ 31) (heip : u.eip = a) :
    Called a (words ++ frame m g) m g u := by
  have hframe := length_frame_le m g
  have hwords := pushWords_at words (enter_frame m g) (by omega)
  rw [← h.byte, ← h.esp] at hwords
  refine ⟨heip, ?_, hwords, fun x hx => ?_, ?_, fun r hr => ?_, ?_, ?_, ?_, ?_⟩
  · have hsum : UInt32.ofNat (4 * (frame m g).length) + UInt32.ofNat (4 * words.length) =
        UInt32.ofNat (4 * (words ++ frame m g).length) := by
      rw [← UInt32.ofNat_add, List.length_append, Nat.mul_add, Nat.add_comm]
    rw [h.esp, pushWords_esp, enter_reg, pushWords_esp, sub_sub_of_eq hsum]
  · rw [List.length_append] at hx
    have hsize : (UInt32.ofNat (4 * words.length)).toNat = 4 * words.length :=
      UInt32.toNat_ofNat_of_lt' (hlen.trans_lt (by decide))
    have hback : (m.enter g).reg .esp = u.reg .esp + UInt32.ofNat (4 * words.length) := by
      rw [h.esp, pushWords_esp, UInt32.sub_add_cancel]
    rw [h.byte, pushWords_byte, enter_byte_of_not_within]
    · rw [hback]
      exact fun hin => hx (hin.sub (by omega))
    · rw [← h.esp]
      exact fun hin => hx (hin.trans_le (by omega))
  · rw [h.flags, enter_eq]
  · rw [h.saved r hr, enter_of_ne (ne_esp_of_calleeSaved hr)]
  · rw [h.cs, enter_eq]
  · rw [h.ss, enter_ss]
  · rw [h.cr2, enter_cr2]
  · rw [h.cr3, enter_cr3]

theorem Pushed.call {text : List Instr} {k n : ℕ} (hpushed : Pushed words v s) (h : Placed code at_ text)
    (hi : text[k]? = some (.call (.imm a))) (hrun : steps code n v = some (s.goTo (at_ k))) :
    ∃ u, steps code (n + 1) v = some u ∧ u.eip = a ∧ Pushed (at_ (k + 1) :: words) v u := by
  have hcall := h.step (goTo_eip s _) hi
  rw [exec_call, get_imm] at hcall
  exact ⟨_, steps_trans hrun (steps_one hcall), goTo_eip _ a, ((hpushed.goTo _).push (at_ (k + 1))).goTo a⟩

theorem Handled.drop (h : Handled u w) : (w.effect (.add 8 .esp)).reg .esp = u.reg .esp + 12 := by
  rw [effect_add_reg, setReg_self, h.esp, UInt32.add_assoc]
  rfl

theorem length_allWords (m : Machine) : m.allWords.length = 8 := rfl

theorem resumes (hreg : s.reg = (m.enter g).reg) (hframe : WordsAt s.byte (s.reg .esp) (frame m g))
    (hcs : s.cs = g.cs) (hss : s.ss = (m.onStack g).ss) (hcr3 : s.cr3 = m.cr3) :
    Back allRegs m s.returnFromInterrupt ∧ s.returnFromInterrupt.byte = s.byte := by
  have hres := returnFromInterrupt_resumed hframe hcs (congrFun hreg .esp) hss
  refine ⟨⟨fun r _ => ?_, hres.flags, hres.eip, hres.cs, hres.ss, hres.cr3.trans hcr3⟩, hres.byte⟩
  by_cases hr : r = .esp
  · rw [hr, hres.esp]
  · rw [hres.reg r hr, hreg, enter_of_ne hr]

theorem add_three_words (b : UInt32) : b + 4 + 4 + 4 = b + 12 := by
  rw [UInt32.add_assoc, UInt32.add_assoc]
  rfl

theorem Handled.ret (u : Machine) : Handled u (u.dropWord.goTo u.top) := ⟨rfl, dropWord_esp u, rfl, rfl, rfl⟩

def exampleProgram : Machine where
  reg r := if r = .esp then 0x9000 else 7
  flags := ⟨false, false, true⟩
  cr2 := 0xA000
  cr3 := 0x6000
  cs := 35
  ss := 19
  byte := storeFields (fun _ => 0) 0x9000 [(0, 99)]
  eip := UInt32.ofNat 0

def exampleGate (target : UInt32) : Gate := ⟨target, 8, 0x5000, 24, true⟩

theorem apit_entry (h : Placed code at_ (apitHandler_ a)) (hv : v.eip = at_ 0) :
    ∃ u, steps code 3 v = some u ∧ u.eip = a ∧ Pushed (at_ 3 :: v.pushAll.reg .esp :: v.allWords) v u := by
  have hblock := h.block (k := 0) (l := [.pusha, .push (.reg .esp)]) rfl rfl v
  rw [goTo_of_eip hv] at hblock
  have hpushed := (Pushed.all v v.allWords).push (v.pushAll.reg .esp)
  rw [block_cons, block_cons, block_nil, effect_pusha, effect_push, get_reg] at hblock
  exact hpushed.call h rfl hblock

theorem apit_exit (h : Placed code at_ (apitHandler_ a)) (hw : w.eip = at_ 3) :
    steps code 3 w = some (w.popWord .esp).popAll.returnFromInterrupt := by
  have hblock := h.block (k := 3) (l := [.pop .esp, .popa]) rfl rfl w
  rw [goTo_of_eip hw, block_cons, block_cons, block_nil, effect_pop, effect_popa] at hblock
  exact h.irets rfl hblock

def timerWords (m : Machine) (g : Gate) : List UInt32 :=
  (m.enter g).pushAll.reg .esp :: ((m.enter g).allWords ++ frame m g)

/-- The timer is not seen by what it interrupts. -/
theorem apitHandler_transparent (h : Placed code at_ (apitHandler_ a)) (hg : g.target = at_ 0) (m : Machine) :
    ∃ u, steps code 3 (m.enter g) = some u ∧ Called a (at_ 3 :: timerWords m g) m g u ∧
      ∀ w, Handled u w → WordsAt w.byte (u.reg .esp + 4) (timerWords m g) →
        ∃ t, steps code 3 w = some t ∧ Back allRegs m t ∧ t.byte = w.byte := by
  have hentry : (m.enter g).eip = at_ 0 := by
    rw [enter_eq, hg]
  obtain ⟨u, hrun, heip, hpushed⟩ := apit_entry h hentry
  have hcalled : Called a (at_ 3 :: timerWords m g) m g u :=
    hpushed.called (by rw [List.length_cons, List.length_cons, length_allWords]; decide) heip
  refine ⟨u, hrun, hcalled, fun w hw hstack => ⟨_, apit_exit h (hw.eip.trans hcalled.stack.1), ?_⟩⟩
  obtain ⟨htop, hrest⟩ := hstack
  rw [← hw.esp] at htop hrest
  have hesp : (w.popWord .esp).reg .esp = (m.enter g).pushAll.reg .esp := (popWord_self w .esp).trans htop
  -- The pushed stack pointer is the address behind itself.
  have hend : w.reg .esp + 4 = (m.enter g).pushAll.reg .esp := by
    rw [hw.esp, hpushed.esp, pushWords, pushWords, pushWord_esp, pushWord_esp, UInt32.sub_add_cancel,
      UInt32.sub_add_cancel, pushAll_eq]
  rw [hend, ← hesp] at hrest
  obtain ⟨hreg, hframe⟩ := popAll_back (w := w.popWord .esp) hrest hesp
  rw [← hreg] at hframe
  exact resumes hreg hframe (hw.cs.trans hcalled.cs) (hw.ss.trans hcalled.ss) (hw.cr3.trans hcalled.cr3)

theorem apitHandler_transparent_ret : ∃ u t,
    steps (assemble (apitHandler_ 0x100)) 3 (exampleProgram.enter (exampleGate 0)) = some u ∧
      steps (assemble (apitHandler_ 0x100)) 3 (u.dropWord.goTo u.top) = some t ∧ Back allRegs exampleProgram t := by
  have hplaced : Placed (assemble (apitHandler_ 0x100)) UInt32.ofNat (apitHandler_ 0x100) :=
    placed_assemble (by decide)
  obtain ⟨u, hrun, hcalled, hreturns⟩ := apitHandler_transparent hplaced (g := exampleGate 0) rfl exampleProgram
  obtain ⟨t, hback, hsame, -⟩ := hreturns _ (.ret u) hcalled.stack.2
  exact ⟨u, t, hrun, hback, hsame⟩

theorem pageFault_entry (h : Placed code at_ (pageFaultHandler_ a)) (hv : v.eip = at_ 0) :
    ∃ u, steps code 6 v = some u ∧ u.eip = a ∧
      Pushed (at_ 6 :: v.cr2 :: v.pushAll.reg .esp :: v.allWords) v u := by
  have hblock := h.block (k := 0)
    (l := [.pusha, .mov (.reg .esp) (.reg .eax), .push (.reg .eax), .readCr2 .eax, .push (.reg .eax)]) rfl rfl v
  rw [goTo_of_eip hv, block_cons, block_cons, block_cons, block_cons, block_cons, block_nil, effect_pusha,
    effect_mov_reg, get_reg, effect_push, effect_readCr2, effect_push, get_reg, setReg_self, get_reg,
    setReg_self] at hblock
  have hfirst := ((Pushed.all v v.allWords).setReg (r := .eax) (by decide) (v.pushAll.reg .esp)).push
    (v.pushAll.reg .esp)
  have hboth := (hfirst.setReg (r := .eax) (by decide) v.cr2).push v.cr2
  have hcr2 := hfirst.cr2
  rw [← pushAll_eq] at hboth hcr2
  rw [hcr2] at hblock
  exact hboth.call h rfl hblock

theorem pageFault_exit (h : Placed code at_ (pageFaultHandler_ a)) (hw : w.eip = at_ 6) :
    steps code 4 w =
      some (((w.effect (.add 8 .esp)).popAll.effect (.add 4 .esp)).returnFromInterrupt) := by
  have hblock := h.block (k := 6) (l := [.add 8 .esp, .popa, .add 4 .esp]) rfl rfl w
  rw [goTo_of_eip hw, block_cons, block_cons, block_cons, block_nil, effect_popa] at hblock
  exact h.irets rfl hblock

/-- What the entry of page faults keeps on the stack during the call, where `e` is the error code. -/
def faultWords (m : Machine) (g : Gate) (e : UInt32) : List UInt32 :=
  ((m.enter g).pushWord e).allWords ++ e :: frame m g

/-- The function gets the address of the fault and that of the registers. When it is back, the code that faulted
tries again. -/
theorem pageFaultHandler_retries (h : Placed code at_ (pageFaultHandler_ a)) (hg : g.target = at_ 0)
    (m : Machine) (e : UInt32) :
    ∃ u, steps code 6 ((m.enter g).pushWord e) = some u ∧
      Called a (at_ 6 :: m.cr2 :: (u.reg .esp + 12) :: faultWords m g e) m g u ∧
      ∀ w, Handled u w → WordsAt w.byte (u.reg .esp + 12) (faultWords m g e) →
        ∃ t, steps code 4 w = some t ∧ Back allRegs m t ∧ t.byte = w.byte := by
  have hentry : ((m.enter g).pushWord e).eip = at_ 0 := by
    rw [← hg, enter_eq]
    rfl
  obtain ⟨u, hrun, heip, hpushed⟩ := pageFault_entry h hentry
  have hcr2 : ((m.enter g).pushWord e).cr2 = m.cr2 := enter_cr2 m g
  have hregs : u.reg .esp + 12 = ((m.enter g).pushWord e).pushAll.reg .esp := by
    have hsum : (12 : UInt32) = 4 + (4 + 4) := rfl
    rw [hsum, ← UInt32.add_assoc, ← UInt32.add_assoc, hpushed.esp, pushWords, pushWords, pushWords, pushWord_esp,
      pushWord_esp, pushWord_esp, UInt32.sub_add_cancel, UInt32.sub_add_cancel, UInt32.sub_add_cancel, pushAll_eq]
  have herror : Pushed (at_ 6 :: m.cr2 :: (u.reg .esp + 12) :: ((m.enter g).pushWord e).allWords ++ [e])
      (m.enter g) u := by
    rw [hregs, ← hcr2]
    exact hpushed.after_push
  have hcalled : Called a (at_ 6 :: m.cr2 :: (u.reg .esp + 12) :: faultWords m g e) m g u := by
    have hcall := herror.called (by simp only [List.length_append, List.length_cons, length_allWords]; decide) heip
    rwa [List.append_assoc] at hcall
  refine ⟨u, hrun, hcalled, fun w hw hstack => ⟨_, pageFault_exit h (hw.eip.trans hcalled.stack.1), ?_⟩⟩
  rw [← hw.drop] at hstack
  obtain ⟨hreg, -, hframe⟩ := popAll_back (w := w.effect (.add 8 .esp)) hstack (hw.drop.trans hregs)
  rw [pushWord_esp, UInt32.sub_add_cancel] at hframe
  have hback : ((w.effect (.add 8 .esp)).popAll.effect (.add 4 .esp)).reg = (m.enter g).reg := by
    funext r
    rw [effect_add_reg, hreg]
    by_cases hr : r = .esp
    · rw [hr, setReg_self, pushWord_esp, UInt32.sub_add_cancel]
    · rw [setReg_of_ne hr, hreg, pushWord_of_ne hr]
  rw [← hback] at hframe
  exact resumes hback hframe (hw.cs.trans hcalled.cs) (hw.ss.trans hcalled.ss) (hw.cr3.trans hcalled.cr3)

theorem pageFaultHandler_retries_ret : ∃ u t,
    steps (assemble (pageFaultHandler_ 0x100)) 6 ((exampleProgram.enter (exampleGate 0)).pushWord 6) = some u ∧
      load u.byte (u.reg .esp + 4) = 0xA000 ∧
      steps (assemble (pageFaultHandler_ 0x100)) 4 (u.dropWord.goTo u.top) = some t ∧
      Back allRegs exampleProgram t := by
  have hplaced : Placed (assemble (pageFaultHandler_ 0x100)) UInt32.ofNat (pageFaultHandler_ 0x100) :=
    placed_assemble (by decide)
  obtain ⟨u, hrun, hcalled, hreturns⟩ :=
    pageFaultHandler_retries hplaced (g := exampleGate 0) rfl exampleProgram 6
  obtain ⟨-, hfault, -, hrest⟩ := hcalled.stack
  rw [add_three_words] at hrest
  obtain ⟨t, hback, hsame, -⟩ := hreturns _ (.ret u) hrest
  exact ⟨u, t, hrun, hfault, hback, hsame⟩

theorem sys_entry (h : Placed code at_ (sysHandler_ a)) (hv : v.eip = at_ 0) :
    ∃ u, steps code 3 v = some u ∧ u.eip = a ∧ Pushed [at_ 3, v.reg .eax, v.reg .esp] v u := by
  have hblock := h.block (k := 0) (l := [.push (.reg .esp), .push (.reg .eax)]) rfl rfl v
  have heax : (v.pushWord (v.reg .esp)).reg .eax = v.reg .eax := pushWord_of_ne (by decide) v _
  rw [goTo_of_eip hv, block_cons, block_cons, block_nil, effect_push, effect_push, get_reg, get_reg, heax] at hblock
  have hpushed := ((Pushed.nil v).push (v.reg .esp)).push (v.reg .eax)
  exact hpushed.call h rfl hblock

theorem sys_exit (h : Placed code at_ (sysHandler_ a)) (hw : w.eip = at_ 3) :
    steps code 2 w = some (w.effect (.add 8 .esp)).returnFromInterrupt := by
  have hblock := h.block (k := 3) (l := [.add 8 .esp]) rfl rfl w
  rw [goTo_of_eip hw, block_cons, block_nil] at hblock
  exact h.irets rfl hblock

/-- The function gets the number of the call and the address of the frame. For the caller, the system call is the
call of a function that gives the same result. -/
theorem sysHandler_returns (h : Placed code at_ (sysHandler_ a)) (hg : g.target = at_ 0) (m : Machine) :
    ∃ u, steps code 3 (m.enter g) = some u ∧
      Called a (at_ 3 :: m.reg .eax :: (u.reg .esp + 12) :: frame m g) m g u ∧
      ∀ w, Handled u w → (∀ r ∈ calleeSaved, w.reg r = u.reg r) →
        WordsAt w.byte (u.reg .esp + 12) (frame m g) →
        ∃ t, steps code 2 w = some t ∧ Back (.esp :: calleeSaved) m t ∧ t.reg .eax = w.reg .eax ∧
          t.byte = w.byte := by
  have hentry : (m.enter g).eip = at_ 0 := by
    rw [enter_eq, hg]
  obtain ⟨u, hrun, heip, hpushed⟩ := sys_entry h hentry
  have hesp : u.reg .esp + 12 = (m.enter g).reg .esp := by
    have hsum : (12 : UInt32) = UInt32.ofNat (4 * 3) := rfl
    rw [hsum, hpushed.esp, pushWords_esp]
    exact UInt32.sub_add_cancel _ _
  have hcalled : Called a (at_ 3 :: m.reg .eax :: (u.reg .esp + 12) :: frame m g) m g u := by
    rw [hesp, ← enter_of_ne (r := .eax) (by decide) m g]
    have hlen : 4 * 3 ≤ 2 ^ 31 := by decide
    exact hpushed.called hlen heip
  refine ⟨u, hrun, hcalled, fun w hw hsaved hstack => ⟨_, sys_exit h (hw.eip.trans hcalled.stack.1), ?_⟩⟩
  have hrest : ∀ r, r ≠ .esp → (w.effect (.add 8 .esp)).reg r = w.reg r := fun r hr => setReg_of_ne hr w _
  rw [← hw.drop] at hstack
  have hres := returnFromInterrupt_resumed (w := w.effect (.add 8 .esp)) hstack (hw.cs.trans hcalled.cs)
    (hw.drop.trans hesp) (hw.ss.trans hcalled.ss)
  refine ⟨⟨fun r hr => ?_, hres.flags, hres.eip, hres.cs, hres.ss, ?_⟩, ?_, hres.byte⟩
  · by_cases he : r = .esp
    · rw [he, hres.esp]
    · have hmem : r ∈ calleeSaved := (List.mem_cons.mp hr).resolve_left he
      rw [hres.reg r he, hrest r he, hsaved r hmem, hcalled.saved r hmem]
  · exact hres.cr3.trans (hw.cr3.trans hcalled.cr3)
  · rw [hres.reg .eax (by decide), hrest .eax (by decide)]

theorem ofWord_or (f : Flags) : (Flags.ofWord (f.toWord ||| 0x200)).interrupt = true := by
  obtain ⟨sign, overflow, interrupt⟩ := f
  cases sign <;> cases overflow <;> cases interrupt <;> decide

theorem switch_arguments {ss cs : UInt32} (h : Placed code at_ (switchToUser ss cs)) (hm : m.eip = at_ 0) :
    ∃ s : Machine, steps code 3 m = some (s.goTo (at_ 3)) ∧ s.reg .ecx = load m.byte (m.reg .esp + 4) ∧
      s.reg .ebx = load m.byte (m.reg .esp + 8) ∧ s.reg .eax = load m.byte (m.reg .esp + 12) ∧
      s.reg .esp = m.reg .esp ∧ s.byte = m.byte ∧ s.cs = m.cs ∧ s.cr3 = m.cr3 ∧ s.flags = m.flags := by
  have hblock := h.block (k := 0) (l := [.mov (.mem .esp 4) (.reg .ecx), .mov (.mem .esp 8) (.reg .ebx),
    .mov (.mem .esp 12) (.reg .eax)]) rfl rfl m
  rw [goTo_of_eip hm] at hblock
  exact ⟨_, hblock, rfl, rfl, rfl, rfl, rfl, rfl, rfl, rfl⟩

theorem switch_block {ss cs : UInt32} (h : Placed code at_ (switchToUser ss cs)) (s : Machine) :
    ∃ p q w : Machine, p = s.pushWords [s.flags.toWord, s.reg .ebx, load s.byte ss] ∧
      q = p.effect (.or 0x200 (.mem .esp 0)) ∧ w = q.pushWords [s.reg .ecx, load q.byte cs] ∧
      steps code 6 (s.goTo (at_ 3)) = some (w.goTo (at_ 9)) := by
  have hblock := h.block (k := 3) (l := [.push (.abs ss), .push (.reg .ebx), .pushf, .or 0x200 (.mem .esp 0),
    .push (.abs cs), .push (.reg .ecx)]) rfl rfl s
  obtain ⟨p, hp⟩ : ∃ p, p = s.pushWords [s.flags.toWord, s.reg .ebx, load s.byte ss] := ⟨_, rfl⟩
  obtain ⟨q, hq⟩ : ∃ q, q = p.effect (.or 0x200 (.mem .esp 0)) := ⟨_, rfl⟩
  have hecx : (q.pushWord (load q.byte cs)).reg .ecx = s.reg .ecx := by
    rw [pushWord_of_ne (by decide), hq]
    exact (congrFun (congrArg Machine.reg hp) .ecx).trans (pushWords_reg (by decide) s _)
  have hebx : (s.pushWord (load s.byte ss)).reg .ebx = s.reg .ebx := pushWord_of_ne (by decide) s _
  refine ⟨p, q, q.pushWords [s.reg .ecx, load q.byte cs], hp, hq, rfl, ?_⟩
  rw [block_cons, effect_push, get_abs, block_cons, effect_push, get_reg, hebx, block_cons, effect_pushf,
    block_cons] at hblock
  have hflags : ((s.pushWord (load s.byte ss)).pushWord (s.reg .ebx)).flags = s.flags := rfl
  have hpush := hp
  rw [pushWords, pushWords, pushWords, pushWords] at hpush
  rw [hflags, ← hpush, ← hq, block_cons, effect_push, get_abs, block_cons, effect_push, get_reg, hecx,
    block_nil] at hblock
  exact hblock

theorem switch_frame {ss cs : UInt32} (h : Placed code at_ (switchToUser ss cs)) (s : Machine)
    (hapart : Apart cs 4 (s.reg .esp - 12) 12) :
    ∃ w : Machine, steps code 6 (s.goTo (at_ 3)) = some (w.goTo (at_ 9)) ∧
      WordsAt w.byte (w.reg .esp) [s.reg .ecx, load s.byte cs, s.flags.toWord ||| 0x200, s.reg .ebx,
        load s.byte ss] ∧ (∀ r, r ≠ .esp → w.reg r = s.reg r) ∧ w.cs = s.cs ∧ w.cr3 = s.cr3 ∧
      ∀ x, ¬ Within (s.reg .esp - 20) 20 x → w.byte x = s.byte x := by
  obtain ⟨p, q, w, hp, hq, hw, hrun⟩ := switch_block h s
  have hthree : 4 * (3 + 0) ≤ 2 ^ 32 := by decide
  have hfive : 4 * (2 + 3) ≤ 2 ^ 32 := by decide
  have hpesp : p.reg .esp = s.reg .esp - 12 := by rw [hp, pushWords_three_esp]
  have hpbyte : ∀ x, ¬ Within (s.reg .esp - 12) 12 x → p.byte x = s.byte x := by
    intro x hx
    rw [← hpesp, hp] at hx
    rw [hp]
    exact pushWords_byte hx
  have hpwords : WordsAt p.byte (p.reg .esp) [s.flags.toWord, s.reg .ebx, load s.byte ss] := by
    have hnil : WordsAt s.byte (s.reg .esp) [] := trivial
    rw [hp]
    exact pushWords_at [s.flags.toWord, s.reg .ebx, load s.byte ss] hnil hthree
  have hpsame : Same [] s p := by
    rw [hp]
    exact pushWords_same (by decide) s _
  obtain ⟨hqreg, hqcs, hqcr3⟩ : q.reg = p.reg ∧ q.cs = p.cs ∧ q.cr3 = p.cr3 := by
    rw [hq]
    exact or_same p 0x200 .esp 0
  have hqbyte : ∀ x, ¬ Within (s.reg .esp - 12) 12 x → q.byte x = s.byte x := by
    intro x hx
    have hfour : ¬ Within (p.reg .esp) 4 x := by
      rw [hpesp]
      exact fun hin => hx (hin.trans_le (by decide))
    rw [hq, or_top_frame hfour, hpbyte x hx]
  have hqwords : WordsAt q.byte (q.reg .esp) [s.flags.toWord ||| 0x200, s.reg .ebx, load s.byte ss] := by
    rw [hqreg, hq]
    exact or_top hpwords hthree
  have hload : load q.byte cs = load s.byte cs := load_congr fun x hx => hqbyte x (hapart x hx)
  rw [hload] at hw
  have hwesp : w.reg .esp = s.reg .esp - 20 := by
    have hsum : (12 : UInt32) + 8 = 20 := by decide
    rw [hw, pushWords_two_esp, hqreg, hpesp, sub_sub_of_eq hsum]
  have hwsame : Same [] q w := by
    rw [hw]
    exact pushWords_same (by decide) q _
  refine ⟨w, hrun, ?_, fun r hr => ?_, ?_, ?_, fun x hx => ?_⟩
  · rw [hw]
    exact pushWords_at [s.reg .ecx, load s.byte cs] hqwords hfive
  · rw [hw, pushWords_reg hr, hqreg, hp, pushWords_reg hr]
  · rw [hwsame.cs, hqcs, hpsame.cs]
  · rw [hwsame.cr3, hqcr3, hpsame.cr3]
  · have height : ¬ Within (w.reg .esp) 8 x := by
      rw [hwesp]
      exact fun hin => hx (hin.trans_le (by decide))
    have htwelve : ¬ Within (s.reg .esp - 12) 12 x := by
      have hsum : (12 : UInt32) + 8 = 20 := by decide
      rw [← sub_add_of_ge hsum]
      exact fun hin => hx (hin.sub (by decide))
    rw [hw] at height
    rw [hw, pushWords_byte height, hqbyte x htwelve]

/-- A program has been started from `m` with the arguments of `switchToUser`. -/
structure Started (ss cs : UInt32) (m t : Machine) : Prop where
  eip : t.eip = load m.byte (m.reg .esp + 4)
  esp : t.reg .esp = load m.byte (m.reg .esp + 8)
  eax : t.reg .eax = load m.byte (m.reg .esp + 12)
  cs : t.cs = load m.byte cs
  ss : t.ss = load m.byte ss
  interrupt : t.flags.interrupt = true
  cr3 : t.cr3 = m.cr3
  byte : ∀ x, ¬ Within (m.reg .esp - 20) 20 x → t.byte x = m.byte x

theorem switchToUser_starts {ss cs : UInt32} (h : Placed code at_ (switchToUser ss cs)) (hm : m.eip = at_ 0)
    (hlevel : level (load m.byte cs) ≠ level m.cs) (hapart : Apart cs 4 (m.reg .esp - 12) 12) :
    ∃ t, steps code 10 m = some t ∧ Started ss cs m t := by
  obtain ⟨s, hargs, hpc, hsp, hresult, hesp, hbyte, hcs, hcr3, hflags⟩ := switch_arguments h hm
  rw [← hesp] at hapart
  obtain ⟨w, hrun, hwords, hreg, hwcs, hwcr3, hwbyte⟩ := switch_frame h s hapart
  rw [hbyte] at hwords hwbyte
  rw [← hcs, ← hwcs] at hlevel
  obtain ⟨heip, htcs, htflags, htesp, htss, htreg, htbyte, htcr3⟩ := returnFromInterrupt_outward hwords hlevel
  refine ⟨_, h.irets rfl (steps_trans hargs hrun), ?_, ?_, ?_, htcs, htss, ?_, ?_, ?_⟩
  · rw [heip, hpc]
  · rw [htesp, hsp]
  · rw [htreg .eax (by decide), hreg .eax (by decide), hresult]
  · rw [htflags, ofWord_or]
  · rw [htcr3, hwcr3, hcr3]
  · rw [htbyte, ← hesp]
    exact hwbyte

end

end MMapKernel.Interrupts
