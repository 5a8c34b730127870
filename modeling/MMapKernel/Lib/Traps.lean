import MMapKernel.Lib.X86

/-!
# Interrupt frames

What the hardware pushes on an interrupt, what `iret` takes from it, and the registers that `pusha` and `popa`
move. A frame that nothing has written to gives back the machine it was pushed for.
-/

open Words
namespace X86
open Machine

theorem Placed.append_right {code : Code} {at_ : ℕ → UInt32} {l text : List Instr}
    (h : Placed code at_ (l ++ text)) : Placed code (fun k => at_ (l.length + k)) text := by
  intro k i hi
  apply h (l.length + k) i
  rw [List.getElem?_append_right (Nat.le_add_right ..), Nat.add_sub_cancel_left, hi]

theorem ne_esp_of_calleeSaved {r : Reg} (hr : r ∈ calleeSaved) : r ≠ .esp := by
  rintro rfl
  exact absurd hr (by decide)

section
variable (m : Machine) (i : Instr) (l : List Instr) (a : UInt32) (r : Reg)

theorem block_nil : m.block [] = m := rfl

theorem block_cons : m.block (i :: l) = (m.effect i).block l := rfl

theorem effect_push (src : Operand) : m.effect (.push src) = m.pushWord (m.get src) := rfl

theorem effect_pop : m.effect (.pop r) = m.popWord r := rfl

theorem effect_pusha : m.effect .pusha = m.pushAll := rfl

theorem effect_popa : m.effect .popa = m.popAll := rfl

theorem effect_pushf : m.effect .pushf = m.pushWord m.flags.toWord := rfl

theorem effect_readCr2 : m.effect (.readCr2 r) = m.setReg r m.cr2 := rfl

theorem effect_add_reg : (m.effect (.add a r)).reg = (m.setReg r (m.reg r + a)).reg := rfl

theorem exec_int (g : Gate) : m.exec a (.int g) = (m.goTo a).enter g := rfl

theorem get_reg : m.get (.reg r) = m.reg r := rfl

theorem get_imm : m.get (.imm a) = a := rfl

theorem get_abs : m.get (.abs a) = load m.byte a := rfl

end

def Machine.pushWords (m : Machine) : List UInt32 → Machine
  | [] => m
  | w :: ws => (m.pushWords ws).pushWord w

def WordsAt (byte : UInt32 → UInt8) (a : UInt32) : List UInt32 → Prop
  | [] => True
  | w :: ws => load byte a = w ∧ WordsAt byte (a + 4) ws

section
variable {byte byte' : UInt32 → UInt8} {m : Machine} {a x : UInt32} {ws : List UInt32}

theorem WordsAt.congr (h : WordsAt byte a ws) (hb : ∀ x, Within a (4 * ws.length) x → byte' x = byte x) :
    WordsAt byte' a ws := by
  induction ws generalizing a with
  | nil => trivial
  | cons w ws ih =>
    rw [List.length_cons] at hb
    refine ⟨(load_congr fun x hx => hb x (hx.trans_le (by omega))).trans h.1, ih h.2 fun x hx => hb x (hx.sub ?_)⟩
    have hfour : (4 : UInt32).toNat = 4 := rfl
    omega

theorem WordsAt.append_iff {ws' : List UInt32} :
    WordsAt byte a (ws ++ ws') ↔ WordsAt byte a ws ∧ WordsAt byte (a + UInt32.ofNat (4 * ws.length)) ws' := by
  induction ws generalizing a with
  | nil =>
    have hzero : a + UInt32.ofNat (4 * ([] : List UInt32).length) = a := UInt32.add_zero a
    rw [hzero]
    exact (true_and _).symm.to_iff
  | cons w ws ih =>
    have hsum : 4 + UInt32.ofNat (4 * ws.length) = UInt32.ofNat (4 * (ws.length + 1)) := by
      rw [Nat.mul_succ, UInt32.ofNat_add, UInt32.add_comm]
      rfl
    rw [List.cons_append, WordsAt, WordsAt, ih, and_assoc, UInt32.add_assoc, hsum, List.length_cons]

theorem pushWords_esp (m : Machine) (ws : List UInt32) :
    (m.pushWords ws).reg .esp = m.reg .esp - UInt32.ofNat (4 * ws.length) := by
  induction ws with
  | nil => exact (UInt32.sub_zero _).symm
  | cons w ws ih =>
    have hsum : UInt32.ofNat (4 * ws.length) + 4 = UInt32.ofNat (4 * (ws.length + 1)) := by
      rw [Nat.mul_succ, UInt32.ofNat_add]
      rfl
    rw [pushWords, pushWord_esp, ih, sub_sub_of_eq hsum, List.length_cons]

theorem pushWords_reg {r : Reg} (hr : r ≠ .esp) (m : Machine) (ws : List UInt32) :
    (m.pushWords ws).reg r = m.reg r := by
  induction ws with
  | nil => rfl
  | cons w ws ih => rw [pushWords, pushWord_of_ne hr, ih]

theorem pushWords_same {rs : List Reg} (hr : .esp ∉ rs) (m : Machine) (ws : List UInt32) :
    Same rs m (m.pushWords ws) := by
  induction ws with
  | nil => exact .refl rs m
  | cons w ws ih => exact ih.trans (.pushWord hr _ w)

theorem pushWords_byte (h : ¬ Within ((m.pushWords ws).reg .esp) (4 * ws.length) x) :
    (m.pushWords ws).byte x = m.byte x := by
  induction ws with
  | nil => rfl
  | cons w ws ih =>
    rw [pushWords, pushWord_esp, List.length_cons] at h
    rw [pushWords, pushWord_byte, store_of_not_within fun hx => h (hx.trans_le (by omega))]
    apply ih
    intro hx
    apply h
    rw [← UInt32.sub_add_cancel ((m.pushWords ws).reg .esp) 4] at hx
    exact hx.sub le_rfl

theorem pushWords_at (ws : List UInt32) {fs : List UInt32} (hfs : WordsAt m.byte (m.reg .esp) fs)
    (h : 4 * (ws.length + fs.length) ≤ 2 ^ 32) :
    WordsAt (m.pushWords ws).byte ((m.pushWords ws).reg .esp) (ws ++ fs) := by
  induction ws with
  | nil => exact hfs
  | cons w ws ih =>
    rw [List.length_cons] at h
    rw [pushWords, pushWord_byte, pushWord_esp]
    refine ⟨load_store_self, ?_⟩
    rw [UInt32.sub_add_cancel]
    apply (ih (by omega)).congr
    intro x hx
    rw [List.length_append, ← UInt32.sub_add_cancel ((m.pushWords ws).reg .esp) 4] at hx
    have hfour : (4 : UInt32).toNat = 4 := rfl
    exact store_of_not_within (within_offset le_rfl (by omega) hx)

theorem effect_or_byte (m : Machine) (b : UInt32) (r : Reg) (d : UInt32) :
    (m.effect (.or b (.mem r d))).byte = store m.byte (m.reg r + d) (load m.byte (m.reg r + d) ||| b) := rfl

theorem or_top {b e : UInt32} {rest : List UInt32} (h : WordsAt m.byte (m.reg .esp) (b :: rest))
    (hlen : 4 * (rest.length + 1) ≤ 2 ^ 32) :
    WordsAt (m.effect (.or e (.mem .esp 0))).byte (m.reg .esp) ((b ||| e) :: rest) := by
  have hfour : (4 : UInt32).toNat = 4 := rfl
  rw [effect_or_byte, UInt32.add_zero, h.1]
  exact ⟨load_store_self, h.2.congr fun x hx => store_of_not_within (within_offset le_rfl (by omega) hx)⟩

theorem or_top_frame {e : UInt32} (hx : ¬ Within (m.reg .esp) 4 x) :
    (m.effect (.or e (.mem .esp 0))).byte x = m.byte x := by
  rw [effect_or_byte, UInt32.add_zero, store_of_not_within hx]

theorem effect_or_mem (m : Machine) (b : UInt32) (r : Reg) (d : UInt32) :
    m.effect (.or b (.mem r d)) = { m with
      byte := store m.byte (m.reg r + d) (load m.byte (m.reg r + d) ||| b)
      flags := { m.flags with sign := negative (load m.byte (m.reg r + d) ||| b), overflow := false } } := rfl

theorem or_same (p : Machine) (b : UInt32) (r : Reg) (d : UInt32) :
    (p.effect (.or b (.mem r d))).reg = p.reg ∧ (p.effect (.or b (.mem r d))).cs = p.cs ∧
      (p.effect (.or b (.mem r d))).cr3 = p.cr3 := by
  rw [effect_or_mem]
  exact ⟨rfl, rfl, rfl⟩

theorem pushWords_two_esp (m : Machine) (a b : UInt32) : (m.pushWords [a, b]).reg .esp = m.reg .esp - 8 := by
  have hsize : UInt32.ofNat (4 * [a, b].length) = 8 := rfl
  rw [pushWords_esp, hsize]

theorem pushWords_three_esp (m : Machine) (a b e : UInt32) :
    (m.pushWords [a, b, e]).reg .esp = m.reg .esp - 12 := by
  have hsize : UInt32.ofNat (4 * [a, b, e].length) = 12 := rfl
  rw [pushWords_esp, hsize]

end

def frame (m : Machine) (g : Gate) : List UInt32 :=
  m.eip :: m.cs :: m.flags.toWord :: if level m.cs = level g.cs then [] else [m.reg .esp, m.ss]

def Machine.onStack (m : Machine) (g : Gate) : Machine :=
  if level m.cs = level g.cs then m else { m.setReg .esp g.esp0 with ss := g.ss0 }

section
variable {byte byte' : UInt32 → UInt8} {m v w : Machine} {g : Gate} {a x : UInt32}

theorem length_frame_le (m : Machine) (g : Gate) : 4 * (frame m g).length ≤ 20 := by
  rw [frame]
  split <;> simp

theorem enter_eq (m : Machine) (g : Gate) :
    m.enter g = { (m.onStack g).pushWords (frame m g) with
      cs := g.cs
      eip := g.target
      flags := { m.flags with interrupt := m.flags.interrupt && !g.clears } } := by
  rw [enter, onStack, frame]
  split <;> rfl

theorem enter_reg (m : Machine) (g : Gate) : (m.enter g).reg = ((m.onStack g).pushWords (frame m g)).reg := by
  rw [enter_eq]

theorem enter_byte (m : Machine) (g : Gate) : (m.enter g).byte = ((m.onStack g).pushWords (frame m g)).byte := by
  rw [enter_eq]

theorem onStack_byte (m : Machine) (g : Gate) : (m.onStack g).byte = m.byte := by
  rw [onStack]
  split <;> rfl

theorem onStack_of_ne {r : Reg} (hr : r ≠ .esp) (m : Machine) (g : Gate) : (m.onStack g).reg r = m.reg r := by
  rw [onStack]
  split
  · rfl
  · exact setReg_of_ne hr m _

theorem enter_of_ne {r : Reg} (hr : r ≠ .esp) (m : Machine) (g : Gate) : (m.enter g).reg r = m.reg r := by
  rw [enter_reg, pushWords_reg hr, onStack_of_ne hr]

theorem enter_frame (m : Machine) (g : Gate) : WordsAt (m.enter g).byte ((m.enter g).reg .esp) (frame m g) := by
  rw [enter_byte, enter_reg]
  have hnil : WordsAt (m.onStack g).byte ((m.onStack g).reg .esp) [] := trivial
  have hat := pushWords_at (frame m g) hnil ((length_frame_le m g).trans (by decide))
  rwa [List.append_nil] at hat

theorem enter_byte_of_not_within (h : ¬ Within ((m.enter g).reg .esp) (4 * (frame m g).length) x) :
    (m.enter g).byte x = m.byte x := by
  rw [enter_reg] at h
  rw [enter_byte, pushWords_byte h, onStack_byte]

theorem enter_cr2 (m : Machine) (g : Gate) : (m.enter g).cr2 = m.cr2 := by
  rw [enter]
  split <;> rfl

theorem enter_cr3 (m : Machine) (g : Gate) : (m.enter g).cr3 = m.cr3 := by
  rw [enter]
  split <;> rfl

theorem enter_ss (m : Machine) (g : Gate) : (m.enter g).ss = (m.onStack g).ss := by
  rw [enter, onStack]
  split <;> rfl

theorem enter_esp (h : level m.cs = level g.cs) : (m.enter g).reg .esp + 12 = m.reg .esp := by
  rw [enter_reg, pushWords_esp, onStack, frame, if_pos h, if_pos h]
  exact UInt32.sub_add_cancel _ _

structure Resumed (m w t : Machine) : Prop where
  eip : t.eip = m.eip
  cs : t.cs = m.cs
  flags : t.flags = m.flags
  esp : t.reg .esp = m.reg .esp
  ss : t.ss = m.ss
  reg : ∀ r, r ≠ .esp → t.reg r = w.reg r
  byte : t.byte = w.byte
  cr3 : t.cr3 = w.cr3

theorem dropWord_top (m : Machine) : m.dropWord.top = load m.byte (m.reg .esp + 4) := by
  rw [top, dropWord_esp]
  rfl

theorem drop_three_esp (m : Machine) : m.dropWord.dropWord.dropWord.reg .esp = m.reg .esp + 4 + 4 + 4 := by
  rw [dropWord_esp, dropWord_esp, dropWord_esp]

theorem drop_three_of_ne {r : Reg} (hr : r ≠ .esp) (m : Machine) :
    m.dropWord.dropWord.dropWord.reg r = m.reg r := by
  rw [dropWord_of_ne hr, dropWord_of_ne hr, dropWord_of_ne hr]

theorem returnFromInterrupt_outward {eip cs fl esp ss : UInt32}
    (h : WordsAt w.byte (w.reg .esp) [eip, cs, fl, esp, ss]) (hlevel : level cs ≠ level w.cs) :
    w.returnFromInterrupt.eip = eip ∧ w.returnFromInterrupt.cs = cs ∧
      w.returnFromInterrupt.flags = .ofWord fl ∧ w.returnFromInterrupt.reg .esp = esp ∧
      w.returnFromInterrupt.ss = ss ∧ (∀ r, r ≠ .esp → w.returnFromInterrupt.reg r = w.reg r) ∧
      w.returnFromInterrupt.byte = w.byte ∧ w.returnFromInterrupt.cr3 = w.cr3 := by
  obtain ⟨heip, hcs, hflags, hesp, hss, -⟩ := h
  have htop : w.top = eip := heip
  have hsecond : w.dropWord.top = cs := (dropWord_top w).trans hcs
  have hthird : w.dropWord.dropWord.top = fl := by
    rw [dropWord_top, dropWord_esp, ← hflags]
    rfl
  have hfourth : w.dropWord.dropWord.dropWord.top = esp := by
    rw [dropWord_top, dropWord_esp, dropWord_esp]
    exact hesp
  have hfifth : w.dropWord.dropWord.dropWord.dropWord.top = ss := by
    rw [dropWord_top, drop_three_esp]
    exact hss
  rw [returnFromInterrupt, htop, hsecond, hthird, if_neg hlevel]
  refine ⟨rfl, rfl, rfl, ?_, hfifth, fun r hr => ?_, rfl, rfl⟩
  · simp only [setReg_self]
    exact hfourth
  · exact (setReg_of_ne hr _ _).trans (drop_three_of_ne hr w)

theorem returnFromInterrupt_resumed (h : WordsAt w.byte (w.reg .esp) (frame m g)) (hcs : w.cs = g.cs)
    (hesp : w.reg .esp = (m.enter g).reg .esp) (hss : w.ss = (m.onStack g).ss) :
    Resumed m w w.returnFromInterrupt := by
  by_cases hlevel : level m.cs = level g.cs
  · obtain ⟨heip, hcsw, hflags, -⟩ := h
    have htop : w.top = m.eip := heip
    have hsecond : w.dropWord.top = m.cs := (dropWord_top w).trans hcsw
    have hthird : w.dropWord.dropWord.top = m.flags.toWord := by
      rw [dropWord_top, dropWord_esp, ← hflags]
      rfl
    rw [onStack, if_pos hlevel] at hss
    have hend : w.reg .esp + 4 + 4 + 4 = m.reg .esp := by
      rw [← enter_esp hlevel, ← hesp, UInt32.add_assoc, UInt32.add_assoc]
      rfl
    rw [returnFromInterrupt, htop, hsecond, hthird, hcs, if_pos hlevel, Flags.ofWord_toWord]
    exact ⟨rfl, rfl, rfl, (drop_three_esp w).trans hend, hss, fun r hr => drop_three_of_ne hr w, rfl, rfl⟩
  · rw [frame, if_neg hlevel] at h
    rw [← hcs] at hlevel
    obtain ⟨heip, hcsw, hflags, hespw, hssw, hreg, hbyte, hcr3⟩ := returnFromInterrupt_outward h hlevel
    exact ⟨heip, hcsw, hflags.trans (Flags.ofWord_toWord _), hespw, hssw, hreg, hbyte, hcr3⟩

end

theorem Placed.irets {code : Code} {at_ : ℕ → UInt32} {text : List Instr} {v s : Machine} {k n : ℕ}
    (h : Placed code at_ text) (hi : text[k]? = some .iret) (hrun : steps code n v = some (s.goTo (at_ k))) :
    steps code (n + 1) v = some s.returnFromInterrupt := by
  have hiret := h.step (goTo_eip s _) hi
  rw [exec_iret, goTo_returnFromInterrupt] at hiret
  exact steps_trans hrun (steps_one hiret)

section
variable {m w : Machine}

def Machine.allWords (m : Machine) : List UInt32 :=
  [m.reg .edi, m.reg .esi, m.reg .ebp, m.reg .esp, m.reg .ebx, m.reg .edx, m.reg .ecx, m.reg .eax]

theorem pushAll_eq (m : Machine) : m.pushAll = m.pushWords m.allWords := rfl

theorem popAll_reg (h : WordsAt w.byte (w.reg .esp) m.allWords)
    (hesp : w.reg .esp = m.pushAll.reg .esp) : w.popAll.reg = m.reg := by
  obtain ⟨hedi, hesi, hebp, -, hebx, hedx, hecx, heax, -⟩ := h
  have hend : w.reg .esp + 4 + 4 + 4 + 4 + 4 + 4 + 4 + 4 = m.reg .esp := by
    rw [hesp, pushAll_eq, pushWords_esp]
    simp only [UInt32.add_assoc]
    exact UInt32.sub_add_cancel _ _
  clear hesp
  funext r
  cases r <;> simp [popAll, allRegs, popWord, dropWord, setReg, top, *]

theorem popAll_back {rest : List UInt32} (h : WordsAt w.byte (w.reg .esp) (m.allWords ++ rest))
    (hesp : w.reg .esp = m.pushAll.reg .esp) :
    w.popAll.reg = m.reg ∧ WordsAt w.byte (m.reg .esp) rest := by
  obtain ⟨hall, hrest⟩ := WordsAt.append_iff.mp h
  refine ⟨popAll_reg hall hesp, ?_⟩
  rwa [hesp, pushAll_eq, pushWords_esp, UInt32.sub_add_cancel] at hrest

end

end X86
