import MMapKernel.Machine.Interrupts

/-!
# The system calls of a program

Every function of `sys.S` loads its number and executes `int $48`. To its caller it is a function that the kernel
computes. `fork` saves the registers that a function keeps on the stack of the program, where the child finds them.
-/

namespace MMapKernel.SystemCalls
open Words X86 Machine Interrupts

def systemCall (n : UInt32) (g : Gate) : List Instr := [.mov (.imm n) (.reg .eax), .int g, .ret]

def exit : Gate → List Instr := systemCall 0

def write : Gate → List Instr := systemCall 1

def fork (g : Gate) : List Instr :=
  [.push (.reg .ebx), .push (.reg .esi), .push (.reg .edi), .push (.reg .ebp), .mov (.imm 2) (.reg .eax), .int g,
    .pop .ebp, .pop .edi, .pop .esi, .pop .ebx, .ret]

def sem : Gate → List Instr := systemCall 3

def up : Gate → List Instr := systemCall 4

def down : Gate → List Instr := systemCall 5

def close : Gate → List Instr := systemCall 6

def shutdown : Gate → List Instr := systemCall 7

def wait : Gate → List Instr := systemCall 8

def execl : Gate → List Instr := systemCall 9

def «open» : Gate → List Instr := systemCall 10

def len : Gate → List Instr := systemCall 11

def read : Gate → List Instr := systemCall 12

def seek : Gate → List Instr := systemCall 13

def mmap : Gate → List Instr := systemCall 14

def munmap : Gate → List Instr := systemCall 15

def kill : Gate → List Instr := systemCall 16

/-- The call that was made at `m` has returned to its caller with the result `a`. -/
structure Answered (a : UInt32) (m t : Machine) : Prop where
  eip : t.eip = m.top
  esp : t.reg .esp = m.reg .esp + 4
  eax : t.reg .eax = a
  saved : ∀ r ∈ calleeSaved, t.reg r = m.reg r

section
variable {code : Code} {at_ place : ℕ → UInt32} {m w : Machine} {g : Gate} {a n : UInt32}

def calling (n : UInt32) (m : Machine) (next : UInt32) : Machine := (m.setReg .eax n).goTo next

theorem systemCall_enters (h : Placed code at_ (systemCall n g)) (hm : m.eip = at_ 0) :
    steps code 2 m = some ((calling n m (at_ 2)).enter g) := by
  have hblock := h.block (k := 0) (l := [.mov (.imm n) (.reg .eax)]) rfl rfl m
  rw [goTo_of_eip hm, block_cons, block_nil, effect_mov_reg, get_imm] at hblock
  have hint := h.step (k := 1) (i := .int g) (goTo_eip (m.setReg .eax n) _) rfl
  rw [exec_int, goTo_goTo] at hint
  exact steps_trans hblock (steps_one hint)

/-- The kernel gets the number, and the program goes on behind the call with what the kernel has computed. -/
theorem systemCall_returns (h : Placed code at_ (systemCall n g)) (hsys : Placed code place (sysHandler_ a))
    (hg : g.target = place 0) (hm : m.eip = at_ 0) :
    ∃ u, steps code 5 m = some u ∧
      Called a (place 3 :: n :: (u.reg .esp + 12) :: frame (calling n m (at_ 2)) g) (calling n m (at_ 2)) g u ∧
      ∀ w, Handled u w → (∀ r ∈ calleeSaved, w.reg r = u.reg r) →
        WordsAt w.byte (u.reg .esp + 12) (frame (calling n m (at_ 2)) g) → load w.byte (m.reg .esp) = m.top →
        ∃ t, steps code 3 w = some t ∧ Answered (w.reg .eax) m t ∧ t.byte = w.byte := by
  obtain ⟨u, hentry, hcalled, hreturns⟩ := sysHandler_returns hsys hg (calling n m (at_ 2))
  have hrest : ∀ r, r ≠ .eax → (calling n m (at_ 2)).reg r = m.reg r := fun r hr => setReg_of_ne hr m n
  have hnumber : (calling n m (at_ 2)).reg .eax = n := setReg_self m .eax n
  rw [hnumber] at hcalled
  refine ⟨u, steps_trans (systemCall_enters h hm) hentry, hcalled, fun w hw hsaved hstack htop => ?_⟩
  obtain ⟨s, hback, ⟨hreg, -, heip, -, -, -⟩, heax, hbyte⟩ := hreturns w hw hsaved hstack
  have hret := h.step (k := 2) (i := .ret) heip rfl
  rw [exec_ret] at hret
  have hesp : s.reg .esp = m.reg .esp := (hreg .esp (by decide)).trans (hrest .esp (by decide))
  refine ⟨_, steps_trans hback (steps_one hret), ⟨?_, ?_, ?_, fun r hr => ?_⟩, hbyte⟩
  · rw [goTo_eip, top, hesp, hbyte, htop]
  · rw [goTo_reg, dropWord_esp, hesp]
  · rw [goTo_reg, dropWord_of_ne (by decide), heax]
  · have hne : r ≠ .eax := by
      rintro rfl
      exact absurd hr (by decide)
    rw [goTo_reg, dropWord_of_ne (ne_esp_of_calleeSaved hr), hreg r (List.mem_cons_of_mem _ hr), hrest r hne]

end

theorem ret_saved (u : Machine) : ∀ r ∈ calleeSaved, (u.dropWord.goTo u.top).reg r = u.reg r :=
  fun _ hr => dropWord_of_ne (ne_esp_of_calleeSaved hr) u

theorem esp_of_called {a b d e g : UInt32} {m u : Machine}
    (h : Called a (b :: d :: e :: frame m (exampleGate g)) m (exampleGate g) u)
    (hstack : (m.onStack (exampleGate g)).reg .esp = 0x5000) (hframe : (frame m (exampleGate g)).length = 5) :
    u.reg .esp = 0x4FE0 := by
  rw [h.esp, hstack, List.length_cons, List.length_cons, List.length_cons, hframe]
  decide

def exampleCode : Code := assemble (systemCall 11 (exampleGate 3) ++ sysHandler_ 0x100)

theorem systemCall_returns_ret : ∃ u t, steps exampleCode 5 exampleProgram = some u ∧
    load u.byte (u.reg .esp + 4) = 11 ∧ steps exampleCode 3 (u.dropWord.goTo u.top) = some t ∧ t.eip = 99 ∧
    t.reg .esp = 0x9004 := by
  have hplaced : Placed exampleCode UInt32.ofNat (systemCall 11 (exampleGate 3) ++ sysHandler_ 0x100) :=
    placed_assemble (by decide)
  obtain ⟨u, hrun, hcalled, hreturns⟩ :=
    systemCall_returns hplaced.of_append hplaced.append_right (m := exampleProgram) rfl rfl
  obtain ⟨-, hnumber, -, hrest⟩ := hcalled.stack
  rw [add_three_words] at hrest
  have hesp : u.reg .esp = 0x4FE0 := esp_of_called hcalled (by decide) (by decide)
  have hkept : load u.byte 0x9000 = exampleProgram.top := by
    apply load_congr
    intro x hx
    apply hcalled.byte
    rw [hesp]
    have hbelow : Apart 0x4FE0 (4 * 8) 0x9000 4 := apart_of_le (by decide) (by decide)
    exact hbelow.symm x hx
  obtain ⟨t, hback, hanswered, -⟩ := hreturns _ (.ret u) (ret_saved u) hrest hkept
  exact ⟨u, t, hrun, hnumber, hback, hanswered.eip.trans (by decide), hanswered.esp.trans (by decide)⟩

section
variable {code : Code} {at_ place : ℕ → UInt32} {k m t : Machine} {g : Gate} {a : UInt32}

/-- What `fork` keeps for itself on the stack of the program, in front of the return address. -/
def forkWords (m : Machine) : List UInt32 := [m.reg .ebp, m.reg .edi, m.reg .esi, m.reg .ebx]

def forking (m : Machine) (next : UInt32) : Machine := ((m.pushWords (forkWords m)).setReg .eax 2).goTo next

theorem forking_eax (m : Machine) (next : UInt32) : (forking m next).reg .eax = 2 :=
  setReg_self (m.pushWords (forkWords m)) .eax 2

theorem forking_esp (m : Machine) (next : UInt32) : (forking m next).reg .esp = m.reg .esp - 16 := by
  have hsize : UInt32.ofNat (4 * (forkWords m).length) = 16 := rfl
  rw [forking, goTo_reg, setReg_of_ne (by decide), pushWords_esp, hsize]

theorem forking_words (m : Machine) (next : UInt32) :
    WordsAt (forking m next).byte (m.reg .esp - 16) (forkWords m ++ [m.top]) := by
  have htop : WordsAt m.byte (m.reg .esp) [m.top] := ⟨rfl, trivial⟩
  have hlength : 4 * (4 + 1) ≤ 2 ^ 32 := by decide
  rw [← forking_esp m next]
  exact pushWords_at (forkWords m) htop hlength

theorem fork_enters (h : Placed code at_ (fork g)) (hm : m.eip = at_ 0) :
    steps code 6 m = some ((forking m (at_ 6)).enter g) := by
  have hblock := h.block (k := 0) (l := [.push (.reg .ebx), .push (.reg .esi), .push (.reg .edi),
    .push (.reg .ebp), .mov (.imm 2) (.reg .eax)]) rfl rfl m
  rw [goTo_of_eip hm, block_cons, effect_push, get_reg, block_cons, effect_push, get_reg,
    pushWord_of_ne (r := .esi) (by decide), block_cons, effect_push, get_reg, pushWord_of_ne (r := .edi) (by decide),
    pushWord_of_ne (r := .edi) (by decide), block_cons, effect_push, get_reg, pushWord_of_ne (r := .ebp) (by decide),
    pushWord_of_ne (r := .ebp) (by decide), pushWord_of_ne (r := .ebp) (by decide), block_cons, effect_mov_reg,
    get_imm, block_nil] at hblock
  obtain ⟨p, hp⟩ : ∃ p, p = m.pushWords (forkWords m) := ⟨_, rfl⟩
  have hpush := hp
  rw [forkWords, pushWords, pushWords, pushWords, pushWords, pushWords] at hpush
  rw [← hpush] at hblock
  have hint := h.step (k := 5) (i := .int g) (goTo_eip (p.setReg .eax 2) _) rfl
  rw [exec_int, goTo_goTo] at hint
  rw [forking, ← hp]
  exact steps_trans hblock (steps_one hint)

theorem fork_leaves (h : Placed code at_ (fork g)) (ht : t.eip = at_ 6) (hesp : t.reg .esp = m.reg .esp - 16)
    (hwords : WordsAt t.byte (t.reg .esp) (forkWords m ++ [m.top])) :
    ∃ u, steps code 5 t = some u ∧ Answered (t.reg .eax) m u ∧ u.byte = t.byte := by
  obtain ⟨hebp, hedi, hesi, hebx, htop, -⟩ := hwords
  have hblock := h.block (k := 6) (l := [.pop .ebp, .pop .edi, .pop .esi, .pop .ebx]) rfl rfl t
  rw [goTo_of_eip ht, block_cons, effect_pop, block_cons, effect_pop, block_cons, effect_pop, block_cons,
    effect_pop, block_nil] at hblock
  obtain ⟨s, hs⟩ : ∃ s, s = (((t.popWord .ebp).popWord .edi).popWord .esi).popWord .ebx := ⟨_, rfl⟩
  rw [← hs] at hblock
  have hend : s.reg .esp = m.reg .esp := by
    rw [hs, popWord_esp (by decide), popWord_esp (by decide), popWord_esp (by decide), popWord_esp (by decide), hesp]
    simp only [UInt32.add_assoc]
    exact UInt32.sub_add_cancel _ _
  have hbyte : s.byte = t.byte := by
    rw [hs]
    rfl
  have hsaved : ∀ r ∈ calleeSaved, s.reg r = m.reg r := by
    intro r hr
    rw [hs]
    cases r <;> simp [popWord, dropWord, setReg, top, calleeSaved, hebp, hedi, hesi, hebx] at hr ⊢
  have heax : s.reg .eax = t.reg .eax := by
    rw [hs, popWord_of_ne (by decide) (by decide), popWord_of_ne (by decide) (by decide),
      popWord_of_ne (by decide) (by decide), popWord_of_ne (by decide) (by decide)]
  have hreturn : s.top = m.top := by
    rw [top, hbyte, hend, ← htop, hesp]
    simp only [UInt32.add_assoc]
    exact congrArg _ (UInt32.sub_add_cancel _ _).symm
  have hret := h.step (k := 10) (i := .ret) (goTo_eip s _) rfl
  rw [exec_ret] at hret
  refine ⟨_, steps_trans hblock (steps_one hret), ⟨?_, ?_, ?_, fun r hr => ?_⟩, hbyte⟩
  · exact hreturn
  · rw [goTo_reg, dropWord_esp, goTo_reg, hend]
  · rw [goTo_reg, dropWord_of_ne (by decide), goTo_reg, heax]
  · rw [goTo_reg, dropWord_of_ne (ne_esp_of_calleeSaved hr), goTo_reg, hsaved r hr]

theorem fork_returns (h : Placed code at_ (fork g)) (hsys : Placed code place (sysHandler_ a))
    (hg : g.target = place 0) (hm : m.eip = at_ 0) :
    ∃ u, steps code 9 m = some u ∧
      Called a (place 3 :: 2 :: (u.reg .esp + 12) :: frame (forking m (at_ 6)) g) (forking m (at_ 6)) g u ∧
      ∀ w, Handled u w → (∀ r ∈ calleeSaved, w.reg r = u.reg r) →
        WordsAt w.byte (u.reg .esp + 12) (frame (forking m (at_ 6)) g) →
        WordsAt w.byte (m.reg .esp - 16) (forkWords m ++ [m.top]) →
        ∃ t, steps code 7 w = some t ∧ Answered (w.reg .eax) m t ∧ t.byte = w.byte := by
  obtain ⟨u, hentry, hcalled, hreturns⟩ := sysHandler_returns hsys hg (forking m (at_ 6))
  rw [forking_eax] at hcalled
  refine ⟨u, steps_trans (fork_enters h hm) hentry, hcalled, fun w hw hsaved hstack hwords => ?_⟩
  obtain ⟨t, hback, ⟨hreg, -, heip, -, -, -⟩, heax, hbyte⟩ := hreturns w hw hsaved hstack
  have hesp : t.reg .esp = m.reg .esp - 16 := (hreg .esp (by decide)).trans (forking_esp m _)
  rw [← hesp, ← hbyte] at hwords
  obtain ⟨v, hrun, hanswered, hbytev⟩ := fork_leaves h heip hesp hwords
  rw [heax] at hanswered
  exact ⟨v, steps_trans hback hrun, hanswered, hbytev.trans hbyte⟩

theorem fork_returns_ret : ∃ u t,
    steps (assemble (fork (exampleGate 11) ++ sysHandler_ 0x100)) 9 exampleProgram = some u ∧
      steps (assemble (fork (exampleGate 11) ++ sysHandler_ 0x100)) 7 (u.dropWord.goTo u.top) = some t ∧
      t.eip = 99 ∧ t.reg .esp = 0x9004 ∧ t.reg .ebx = 7 := by
  have hplaced : Placed (assemble (fork (exampleGate 11) ++ sysHandler_ 0x100)) UInt32.ofNat
      (fork (exampleGate 11) ++ sysHandler_ 0x100) := placed_assemble (by decide)
  obtain ⟨u, hrun, hcalled, hreturns⟩ :=
    fork_returns hplaced.of_append hplaced.append_right (m := exampleProgram) rfl rfl
  obtain ⟨-, -, -, hrest⟩ := hcalled.stack
  rw [add_three_words] at hrest
  have hesp : u.reg .esp = 0x4FE0 := esp_of_called hcalled (by decide) (by decide)
  have hwords : WordsAt u.byte (exampleProgram.reg .esp - 16) (forkWords exampleProgram ++ [exampleProgram.top]) := by
    have hbelow : Apart 0x4FE0 (4 * 8) 0x8FF0 20 := apart_of_le (by decide) (by decide)
    apply (forking_words exampleProgram (UInt32.ofNat 6)).congr
    intro x hx
    apply hcalled.byte
    rw [hesp]
    exact hbelow.symm x hx
  obtain ⟨t, hback, hanswered, -⟩ := hreturns _ (.ret u) (ret_saved u) hrest hwords
  exact ⟨u, t, hrun, hback, hanswered.eip.trans (by decide), hanswered.esp.trans (by decide),
    (hanswered.saved .ebx (by decide)).trans (by decide)⟩

/-- The child, from the call of `switchToUser` with the counter and the stack of the caller. Its memory has the
words that `fork` has left there, so it gets 0 and the registers of the caller. -/
theorem fork_child_returns {ss cs : UInt32} (h : Placed code at_ (fork g))
    (hswitch : Placed code place (switchToUser ss cs)) (hk : k.eip = place 0)
    (hlevel : level (load k.byte cs) ≠ level k.cs) (hapart : Apart cs 4 (k.reg .esp - 12) 12)
    (hpc : load k.byte (k.reg .esp + 4) = at_ 6) (hsp : load k.byte (k.reg .esp + 8) = m.reg .esp - 16)
    (hzero : load k.byte (k.reg .esp + 12) = 0)
    (hwords : WordsAt k.byte (m.reg .esp - 16) (forkWords m ++ [m.top]))
    (hstack : Apart (m.reg .esp - 16) 20 (k.reg .esp - 20) 20) :
    ∃ t, steps code 15 k = some t ∧ Answered 0 m t := by
  obtain ⟨s, hstart, hs⟩ := switchToUser_starts hswitch hk hlevel hapart
  have hesp : s.reg .esp = m.reg .esp - 16 := hs.esp.trans hsp
  have hkept : WordsAt s.byte (s.reg .esp) (forkWords m ++ [m.top]) := by
    rw [hesp]
    exact hwords.congr fun x hx => hs.byte x (hstack x hx)
  obtain ⟨t, hrun, hanswered, -⟩ := fork_leaves h (hs.eip.trans hpc) hesp hkept
  rw [hs.eax.trans hzero] at hanswered
  exact ⟨t, steps_trans hstart hrun, hanswered⟩

end

def exampleForkCode : Code := assemble (fork (exampleGate 100) ++ switchToUser 0x3004 0x3000)

def exampleChild : Machine where
  reg r := if r = .esp then 0x5000 else 1
  flags := ⟨false, false, false⟩
  cr2 := 0
  cr3 := 0x6000
  cs := 8
  ss := 24
  byte := storeFields (storeFields (storeFields (fun _ => 0) 0x5000 [(4, 6), (8, 0x8FF0), (12, 0)]) 0x3000
    [(0, 35), (4, 19)]) 0x8FF0 [(0, 7), (4, 7), (8, 7), (12, 7), (16, 99)]
  eip := UInt32.ofNat 11

theorem fork_child_returns_zero : ∃ t, steps exampleForkCode 15 exampleChild = some t ∧
    Answered 0 exampleProgram t := by
  have hplaced : Placed exampleForkCode UInt32.ofNat (fork (exampleGate 100) ++ switchToUser 0x3004 0x3000) :=
    placed_assemble (by decide)
  have hapart : Apart 0x3000 4 (exampleChild.reg .esp - 12) 12 := apart_of_le (by decide) (by decide)
  have hstack : Apart (exampleProgram.reg .esp - 16) 20 (exampleChild.reg .esp - 20) 20 :=
    (apart_of_le (by decide) (by decide)).symm
  exact fork_child_returns hplaced.of_append hplaced.append_right rfl (by decide) hapart (by decide) (by decide)
    (by decide) ⟨by decide, by decide, by decide, by decide, by decide, trivial⟩ hstack

end MMapKernel.SystemCalls
