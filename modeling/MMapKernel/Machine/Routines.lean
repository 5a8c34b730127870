import MMapKernel.Lib.X86
import MMapKernel.Sys.Arguments

/-!
# The memory routines written in assembly

`memcpy` and `bzero` of the kernel, and `memcpy` and `memset` of the user library. Each counts a signed
register down, so it makes no turn for a size from `2 ^ 31` on. A text is given the addresses of its
instructions, for the targets of its jumps. The memory after a copy is that of `Ram.copy`, which the model
of `exec` uses.
-/

namespace MMapKernel.Routines
open Words X86 Sys

def copyText (at_ : ℕ → UInt32) : List Instr :=
  [.mov (.mem .esp 4) (.reg .eax), .mov (.mem .esp 8) (.reg .edx), .mov (.mem .esp 12) (.reg .ecx),
    .push (.reg .ebx), .add (-1) .ecx, .jl (at_ 11), .movb (.mem .edx 0) (.reg .ebx),
    .movb (.reg .ebx) (.mem .eax 0), .add 1 .edx, .add 1 .eax, .jmp (at_ 4), .pop .ebx]

def memcpy (at_ : ℕ → UInt32) : List Instr := copyText at_ ++ [.ret]

def userMemcpy (at_ : ℕ → UInt32) : List Instr := copyText at_ ++ [.mov (.mem .esp 4) (.reg .eax), .ret]

def bzero (at_ : ℕ → UInt32) : List Instr :=
  [.mov (.mem .esp 4) (.reg .eax), .mov (.mem .esp 8) (.reg .ecx), .add (-1) .ecx, .jl (at_ 7),
    .movb (.imm 0) (.mem .eax 0), .add 1 .eax, .jmp (at_ 2), .ret]

def memset (at_ : ℕ → UInt32) : List Instr :=
  [.mov (.mem .esp 4) (.reg .eax), .mov (.mem .esp 8) (.reg .ecx), .mov (.mem .esp 12) (.reg .edx),
    .add (-1) .edx, .jl (at_ 7), .movb (.reg .ecx) (.indexed .eax .edx), .jmp (at_ 3), .ret]

def copyBody : List Instr :=
  [.movb (.mem .edx 0) (.reg .ebx), .movb (.reg .ebx) (.mem .eax 0), .add 1 .edx, .add 1 .eax]

def clearBody : List Instr := [.movb (.imm 0) (.mem .eax 0), .add 1 .eax]

def setBody : List Instr := [.movb (.reg .ecx) (.indexed .eax .edx)]

def unused : List Reg := [.esp, .ebp, .esi, .edi]

variable {m : Machine} {r : Ram} {n : ℕ}

theorem ofNat_zero : UInt32.ofNat 0 = 0 := rfl

theorem copy_turn (m : Machine) :
    (m.turn .ecx copyBody).byte = Function.update m.byte (m.reg .eax) (m.byte (m.reg .edx)) ∧
      (m.turn .ecx copyBody).reg .eax = m.reg .eax + 1 ∧ (m.turn .ecx copyBody).reg .edx = m.reg .edx + 1 ∧
      Same unused m (m.turn .ecx copyBody) := by
  refine ⟨?_, ?_, ?_, .turn (by decide) rfl m⟩ <;>
    simp [Machine.turn, Machine.block, copyBody, Machine.effect, Machine.putByte, Machine.getByte,
      Machine.address, Machine.setReg]

theorem copy_turns (hr : r.byte = m.byte) (n : ℕ) :
    ((Machine.turn .ecx copyBody)^[n] m).byte = (r.copy (m.reg .eax) (m.reg .edx) n).byte ∧
      ((Machine.turn .ecx copyBody)^[n] m).reg .eax = m.reg .eax + UInt32.ofNat n ∧
      Same unused m ((Machine.turn .ecx copyBody)^[n] m) := by
  induction n generalizing m r with
  | zero =>
    refine ⟨hr.symm, ?_, .refl _ _⟩
    rw [Function.iterate_zero_apply, ofNat_zero, UInt32.add_zero]
  | succ n ih =>
    obtain ⟨hbyte, heax, hedx, hsame⟩ := copy_turn m
    have hstore : (r.store (m.reg .eax) (r.byte (m.reg .edx))).byte = (m.turn .ecx copyBody).byte := by
      rw [hbyte, ← hr, Ram.store]
    obtain ⟨hbytes, heaxs, hsames⟩ := ih hstore
    rw [Function.iterate_succ_apply]
    refine ⟨?_, ?_, hsame.trans hsames⟩
    · rw [hbytes, heax, hedx, Ram.copy]
    · rw [heaxs, heax, Ram.offset_succ]

theorem clear_turn (m : Machine) :
    (m.turn .ecx clearBody).byte = Function.update m.byte (m.reg .eax) 0 ∧
      (m.turn .ecx clearBody).reg .eax = m.reg .eax + 1 ∧
      Same (.ebx :: unused) m (m.turn .ecx clearBody) := by
  refine ⟨?_, ?_, .turn (by decide) rfl m⟩ <;>
    simp [Machine.turn, Machine.block, clearBody, Machine.effect, Machine.putByte, Machine.getByte,
      Machine.address, Machine.setReg]

theorem clear_turns (m : Machine) (n : ℕ) :
    ((Machine.turn .ecx clearBody)^[n] m).byte = fill m.byte (m.reg .eax) n 0 ∧
      ((Machine.turn .ecx clearBody)^[n] m).reg .eax = m.reg .eax + UInt32.ofNat n ∧
      Same (.ebx :: unused) m ((Machine.turn .ecx clearBody)^[n] m) := by
  induction n generalizing m with
  | zero =>
    refine ⟨fill_zero.symm, ?_, .refl _ _⟩
    rw [Function.iterate_zero_apply, ofNat_zero, UInt32.add_zero]
  | succ n ih =>
    obtain ⟨hbyte, heax, hsame⟩ := clear_turn m
    obtain ⟨hbytes, heaxs, hsames⟩ := ih (m.turn .ecx clearBody)
    rw [Function.iterate_succ_apply]
    refine ⟨?_, ?_, hsame.trans hsames⟩
    · rw [hbytes, hbyte, heax, fill_succ]
    · rw [heaxs, heax, Ram.offset_succ]

theorem set_turn (m : Machine) :
    (m.turn .edx setBody).byte =
        Function.update m.byte (m.reg .eax + (m.reg .edx + -1)) (m.reg .ecx).toUInt8 ∧
      (m.turn .edx setBody).reg .edx = m.reg .edx + -1 ∧
      Same (.eax :: .ecx :: .ebx :: unused) m (m.turn .edx setBody) := by
  refine ⟨?_, ?_, .turn (by decide) rfl m⟩ <;>
    simp [Machine.turn, Machine.block, setBody, Machine.effect, Machine.putByte, Machine.getByte,
      Machine.address, Machine.setReg]

theorem set_turns (hn : turns (m.reg .edx) = n) :
    ((Machine.turn .edx setBody)^[n] m).byte = fill m.byte (m.reg .eax) n (m.reg .ecx).toUInt8 ∧
      Same (.eax :: .ecx :: .ebx :: unused) m ((Machine.turn .edx setBody)^[n] m) := by
  induction n generalizing m with
  | zero => exact ⟨fill_zero.symm, .refl _ _⟩
  | succ n ih =>
    obtain ⟨hbyte, hcount, hsame⟩ := set_turn m
    have hturns : turns ((m.turn .edx setBody).reg .edx) = n := by
      rw [hcount, (less_of_turns_succ m.flags hn).2]
    have hlt : n < 2 ^ 32 := hturns ▸ turns_lt _
    obtain ⟨hbytes, hsames⟩ := ih hturns
    rw [Function.iterate_succ_apply]
    refine ⟨?_, hsame.trans hsames⟩
    rw [hbytes, hbyte, add_neg_one_of_turns_succ hn, hsame.reg .eax (by decide), hsame.reg .ecx (by decide),
      fill_succ_high hlt]

section
variable {code : Code} {at_ : ℕ → UInt32} {dst src size p q x : UInt32}

theorem copy_of_not_within (h : ¬ Within p n x) : (r.copy p q n).byte x = r.byte x := by
  induction n generalizing r p q with
  | zero => rfl
  | succ n ih =>
    obtain ⟨hne, hrest⟩ := not_or.mp (within_succ.not.mp h)
    rw [Ram.copy, ih hrest, Ram.store_ne r _ hne]

def copied (m : Machine) : Ram :=
  Ram.copy ⟨store m.byte (m.reg .esp - 4) (m.reg .ebx), []⟩ (m.get (.mem .esp 4)) (m.get (.mem .esp 8))
    (bzeroTurns (m.get (.mem .esp 12)))

theorem copied_of_not_within (h : ¬ Within (m.get (.mem .esp 4)) (bzeroTurns (m.get (.mem .esp 12))) x) :
    (copied m).byte x = store m.byte (m.reg .esp - 4) (m.reg .ebx) x := by
  rw [copied, copy_of_not_within h]

theorem copy_entry {rest : List Instr} (h : Placed code at_ (copyText at_ ++ rest)) (hm : m.eip = at_ 0) :
    ∃ s, Reaches code m (s.goTo (at_ 4)) ∧ s.reg .eax = m.get (.mem .esp 4) ∧ s.reg .edx = m.get (.mem .esp 8) ∧
      s.reg .ecx = m.get (.mem .esp 12) ∧ s.reg .esp = m.reg .esp - 4 ∧
      s.byte = store m.byte (m.reg .esp - 4) (m.reg .ebx) ∧ Same [.ebp, .esi, .edi] m s := by
  have hfirst := reaches_of_steps (h.block (k := 0) (l := (copyText at_).take 4) rfl rfl m)
  rw [goTo_of_eip hm] at hfirst
  refine ⟨_, hfirst, ?_, ?_, ?_, ?_, ?_, .block rfl m⟩ <;>
    simp [copyText, Machine.block, Machine.effect, Machine.put, Machine.get, Machine.address, Machine.setReg,
      Machine.pushWord]

theorem copy_loop {rest : List Instr} (h : Placed code at_ (copyText at_ ++ rest)) (m : Machine) :
    ∃ t, Reaches code (m.goTo (at_ 4)) (t.goTo (at_ 11)) ∧
      t.byte = (Ram.copy ⟨m.byte, []⟩ (m.reg .eax) (m.reg .edx) (bzeroTurns (m.reg .ecx))).byte ∧
      t.reg .eax = m.reg .eax + UInt32.ofNat (bzeroTurns (m.reg .ecx)) ∧ Same unused m t := by
  obtain ⟨hbyte, heax, hsame⟩ := copy_turns (r := ⟨m.byte, []⟩) (m := m) rfl (bzeroTurns (m.reg .ecx))
  have hlast := Same.effect (i := .add (-1) .ecx) (R := .eax :: unused) rfl
    ((Machine.turn .ecx copyBody)^[bzeroTurns (m.reg .ecx)] m)
  exact ⟨_, h.countdown (k := 4) (c := .ecx) (b := copyBody) rfl rfl (block_keeps rfl) m,
    (effect_add_byte _ _ _).trans hbyte, (hlast.reg .eax (by decide)).trans heax,
    hsame.trans (hlast.mono (by decide))⟩

theorem copyText_reaches {rest : List Instr} (h : Placed code at_ (copyText at_ ++ rest)) (hm : m.eip = at_ 0)
    (happart : Apart (m.get (.mem .esp 4)) (bzeroTurns (m.get (.mem .esp 12))) (m.reg .esp - 4) 4) :
    ∃ t, Reaches code m (t.goTo (at_ 12)) ∧ t.byte = (copied m).byte ∧
      t.reg .eax = m.get (.mem .esp 4) + UInt32.ofNat (bzeroTurns (m.get (.mem .esp 12))) ∧
      Same (.esp :: calleeSaved) m t := by
  obtain ⟨s, hfirst, heax, hedx, hecx, hesp, hbyte, hsame⟩ := copy_entry h hm
  obtain ⟨t, hloop, hbytes, heaxs, hsames⟩ := copy_loop h s
  have hcopied : t.byte = (copied m).byte := by
    rw [hbytes, heax, hedx, hecx, hbyte, copied]
  have hespt : t.reg .esp = m.reg .esp - 4 := by
    rw [hsames.reg .esp (by decide), hesp]
  have hsaved : load (copied m).byte (m.reg .esp - 4) = m.reg .ebx := by
    have hcongr : ∀ x, Within (m.reg .esp - 4) 4 x →
        (copied m).byte x = store m.byte (m.reg .esp - 4) (m.reg .ebx) x :=
      fun x hx => copied_of_not_within fun hin => happart x hin hx
    rw [load_congr hcongr, load_store_self]
  have htop : t.top = m.reg .ebx := by
    rw [Machine.top, hespt, hcopied, hsaved]
  have hpop := h.straight (k := 11) (i := .pop .ebx) rfl rfl t
  have hothers := (hsame.trans (hsames.mono (by decide))).trans (.effect (i := .pop .ebx) rfl t)
  refine ⟨t.popWord .ebx, (hfirst.trans hloop).tail hpop, hcopied, ?_, .cons ?_ (.cons ?_ hothers)⟩
  · rw [Machine.popWord_of_ne (by decide) (by decide), heaxs, heax, hecx]
  · rw [Machine.popWord_esp (by decide), hespt, UInt32.sub_add_cancel]
  · rw [Machine.popWord_self, htop]

theorem load_copied {k : ℕ} {d : UInt32}
    (happart : Apart (m.get (.mem .esp 4)) (bzeroTurns (m.get (.mem .esp 12))) (m.reg .esp - 4) k)
    (hd : 4 ≤ d.toNat) (hk : d.toNat + 4 ≤ k) (hk' : k ≤ 2 ^ 32) :
    load (copied m).byte (m.reg .esp - 4 + d) = load m.byte (m.reg .esp - 4 + d) := by
  have hcongr : ∀ x, Within (m.reg .esp - 4 + d) 4 x →
      (copied m).byte x = store m.byte (m.reg .esp - 4) (m.reg .ebx) x := by
    intro x hx
    exact copied_of_not_within fun hin => happart x hin (hx.sub (by omega))
  rw [load_congr hcongr, load_store_offset hd (by omega)]

theorem load_copied_top {k : ℕ}
    (happart : Apart (m.get (.mem .esp 4)) (bzeroTurns (m.get (.mem .esp 12))) (m.reg .esp - 4) k) (hk : 8 ≤ k)
    (hk' : k ≤ 2 ^ 32) :
    load (copied m).byte (m.reg .esp) = m.top := by
  have htop := load_copied (d := 4) happart (by decide) hk hk'
  rwa [UInt32.sub_add_cancel] at htop

/-- It copies upwards, byte by byte, and returns the address behind the copy. -/
theorem memcpy_returns (h : Placed code at_ (memcpy at_)) (hm : m.eip = at_ 0)
    (happart : Apart (m.get (.mem .esp 4)) (bzeroTurns (m.get (.mem .esp 12))) (m.reg .esp - 4) 8) :
    ∃ t, Reaches code m t ∧ Returned m t ∧ t.byte = (copied m).byte ∧
      t.reg .eax = m.get (.mem .esp 4) + UInt32.ofNat (bzeroTurns (m.get (.mem .esp 12))) := by
  obtain ⟨t, hrun, hbyte, heax, hsame⟩ := copyText_reaches h hm (happart.of_le (by decide))
  have htop : load t.byte (m.reg .esp) = m.top := by
    rw [hbyte, load_copied_top happart le_rfl (by decide)]
  obtain ⟨hruns, hreturned⟩ := h.returns (k := 12) rfl hrun hsame htop
  refine ⟨_, hruns, hreturned, hbyte, ?_⟩
  rw [goTo_reg, Machine.dropWord, Machine.setReg_of_ne (by decide), heax]

def exampleCaller (fields : List (UInt32 × UInt32)) : Machine where
  reg r := if r = .esp then 0x5000 else 1
  flags := ⟨false, false, true⟩
  cr2 := 0
  cr3 := 0
  cs := 8
  ss := 16
  byte := storeFields (storeFields (fun _ => 0) 0x5000 fields) 0x4000 [(0, 0x0807)]
  eip := UInt32.ofNat 0

def exampleCopy : Machine := exampleCaller [(0, 99), (4, 0x3000), (8, 0x4000), (12, 2)]

theorem memcpy_returns_two : ∃ t, Reaches (assemble (memcpy UInt32.ofNat)) exampleCopy t ∧ t.eip = 99 ∧
    t.byte 0x3001 = 8 ∧ t.reg .eax = 0x3002 := by
  obtain ⟨t, hrun, hreturned, hbyte, heax⟩ := memcpy_returns (m := exampleCopy)
    (placed_assemble (by decide)) rfl (apart_of_le (by decide) (by decide))
  refine ⟨t, hrun, hreturned.eip.trans (by decide), ?_, heax.trans (by decide)⟩
  rw [hbyte]
  decide

theorem userMemcpy_returns (h : Placed code at_ (userMemcpy at_)) (hm : m.eip = at_ 0)
    (happart : Apart (m.get (.mem .esp 4)) (bzeroTurns (m.get (.mem .esp 12))) (m.reg .esp - 4) 12) :
    ∃ t, Reaches code m t ∧ Returned m t ∧ t.byte = (copied m).byte ∧ t.reg .eax = m.get (.mem .esp 4) := by
  obtain ⟨t, hrun, hbyte, -, hsame⟩ := copyText_reaches h hm (happart.of_le (by decide))
  have hesp : t.reg .esp = m.reg .esp := hsame.reg .esp (by decide)
  have hdest : t.get (.mem .esp 4) = m.get (.mem .esp 4) := by
    have hload := load_copied (d := 4 + 4) happart (by decide) (by decide) (by decide)
    rw [← UInt32.add_assoc, UInt32.sub_add_cancel] at hload
    rw [Machine.get_mem, Machine.get_mem, hbyte, hesp, hload]
  have hmov := h.straight (k := 12) (i := .mov (.mem .esp 4) (.reg .eax)) rfl rfl t
  rw [effect_mov_reg] at hmov
  have hkeep : Same (.esp :: calleeSaved) t (t.setReg .eax (t.get (.mem .esp 4))) := .setReg (by decide) t _
  have htop : load t.byte (m.reg .esp) = m.top := by
    rw [hbyte, load_copied_top happart (by decide) (by decide)]
  obtain ⟨hruns, hreturned⟩ := h.returns (k := 13) rfl (hrun.tail hmov) (hsame.trans hkeep) htop
  refine ⟨_, hruns, hreturned, hbyte, ?_⟩
  rw [goTo_reg, Machine.dropWord, Machine.setReg_of_ne (by decide), Machine.setReg_self, hdest]

end

section
variable {code : Code} {at_ : ℕ → UInt32}

theorem bzero_entry (h : Placed code at_ (bzero at_)) (hm : m.eip = at_ 0) :
    ∃ s, Reaches code m (s.goTo (at_ 2)) ∧ s.reg .eax = m.get (.mem .esp 4) ∧ s.reg .ecx = m.get (.mem .esp 8) ∧
      s.byte = m.byte ∧ Same (.esp :: calleeSaved) m s := by
  have hfirst := reaches_of_steps (h.block (k := 0) (l := (bzero at_).take 2) rfl rfl m)
  rw [goTo_of_eip hm] at hfirst
  refine ⟨_, hfirst, ?_, ?_, ?_, .block rfl m⟩ <;>
    simp [bzero, Machine.block, Machine.effect, Machine.put, Machine.get, Machine.address, Machine.setReg]

theorem bzero_loop (h : Placed code at_ (bzero at_)) (m : Machine) :
    ∃ t, Reaches code (m.goTo (at_ 2)) (t.goTo (at_ 7)) ∧
      t.byte = fill m.byte (m.reg .eax) (bzeroTurns (m.reg .ecx)) 0 ∧ Same (.esp :: calleeSaved) m t := by
  obtain ⟨hbyte, -, hsame⟩ := clear_turns m (bzeroTurns (m.reg .ecx))
  have hlast := Same.effect (i := .add (-1) .ecx) (R := .esp :: calleeSaved) rfl
    ((Machine.turn .ecx clearBody)^[bzeroTurns (m.reg .ecx)] m)
  exact ⟨_, h.countdown (k := 2) (c := .ecx) (b := clearBody) rfl rfl (block_keeps rfl) m,
    (effect_add_byte _ _ _).trans hbyte, (hsame.mono (by decide)).trans hlast⟩

theorem bzero_returns (h : Placed code at_ (bzero at_)) (hm : m.eip = at_ 0)
    (happart : Apart (m.get (.mem .esp 4)) (bzeroTurns (m.get (.mem .esp 8))) (m.reg .esp) 4) :
    ∃ t, Reaches code m t ∧ Returned m t ∧
      t.byte = fill m.byte (m.get (.mem .esp 4)) (bzeroTurns (m.get (.mem .esp 8))) 0 := by
  obtain ⟨s, hfirst, heax, hecx, hbyte, hsame⟩ := bzero_entry h hm
  obtain ⟨t, hloop, hbytes, hsames⟩ := bzero_loop h s
  rw [hbyte, heax, hecx] at hbytes
  have htop : load t.byte (m.reg .esp) = m.top := by
    rw [hbytes, load_fill happart]
    rfl
  obtain ⟨hruns, hreturned⟩ := h.returns (k := 7) rfl (hfirst.trans hloop) (hsame.trans hsames) htop
  exact ⟨_, hruns, hreturned, hbytes⟩

theorem memset_entry (h : Placed code at_ (memset at_)) (hm : m.eip = at_ 0) :
    ∃ s, Reaches code m (s.goTo (at_ 3)) ∧ s.reg .eax = m.get (.mem .esp 4) ∧ s.reg .ecx = m.get (.mem .esp 8) ∧
      s.reg .edx = m.get (.mem .esp 12) ∧ s.byte = m.byte ∧ Same (.esp :: calleeSaved) m s := by
  have hfirst := reaches_of_steps (h.block (k := 0) (l := (memset at_).take 3) rfl rfl m)
  rw [goTo_of_eip hm] at hfirst
  refine ⟨_, hfirst, ?_, ?_, ?_, ?_, .block rfl m⟩ <;>
    simp [memset, Machine.block, Machine.effect, Machine.put, Machine.get, Machine.address, Machine.setReg]

theorem memset_loop (h : Placed code at_ (memset at_)) (m : Machine) :
    ∃ t, Reaches code (m.goTo (at_ 3)) (t.goTo (at_ 7)) ∧
      t.byte = fill m.byte (m.reg .eax) (bzeroTurns (m.reg .edx)) (m.reg .ecx).toUInt8 ∧
      t.reg .eax = m.reg .eax ∧ Same (.esp :: calleeSaved) m t := by
  obtain ⟨hbyte, hsame⟩ := set_turns (m := m) rfl
  have hlast := Same.effect (i := .add (-1) .edx) (R := .eax :: .ebx :: unused) rfl
    ((Machine.turn .edx setBody)^[bzeroTurns (m.reg .edx)] m)
  have hboth := (hsame.mono (by decide)).trans hlast
  exact ⟨_, h.countdown (k := 3) (c := .edx) (b := setBody) rfl rfl (block_keeps rfl) m,
    (effect_add_byte _ _ _).trans hbyte, hboth.reg .eax (by decide), hboth.mono (by decide)⟩

theorem memset_returns (h : Placed code at_ (memset at_)) (hm : m.eip = at_ 0)
    (happart : Apart (m.get (.mem .esp 4)) (bzeroTurns (m.get (.mem .esp 12))) (m.reg .esp) 4) :
    ∃ t, Reaches code m t ∧ Returned m t ∧ t.reg .eax = m.get (.mem .esp 4) ∧
      t.byte = fill m.byte (m.get (.mem .esp 4)) (bzeroTurns (m.get (.mem .esp 12)))
        (m.get (.mem .esp 8)).toUInt8 := by
  obtain ⟨s, hfirst, heax, hecx, hedx, hbyte, hsame⟩ := memset_entry h hm
  obtain ⟨t, hloop, hbytes, heaxs, hsames⟩ := memset_loop h s
  rw [hbyte, heax, hecx, hedx] at hbytes
  have htop : load t.byte (m.reg .esp) = m.top := by
    rw [hbytes, load_fill happart]
    rfl
  obtain ⟨hruns, hreturned⟩ := h.returns (k := 7) rfl (hfirst.trans hloop) (hsame.trans hsames) htop
  refine ⟨_, hruns, hreturned, ?_, hbytes⟩
  rw [goTo_reg, Machine.dropWord, Machine.setReg_of_ne (by decide), heaxs, heax]

def exampleFill : Machine := exampleCaller [(0, 99), (4, 0x4001), (8, 0x105), (12, 3)]

theorem memset_returns_three : ∃ t, Reaches (assemble (memset UInt32.ofNat)) exampleFill t ∧ t.eip = 99 ∧
    t.byte 0x4000 = 7 ∧ t.byte 0x4003 = 5 ∧ t.reg .eax = 0x4001 := by
  obtain ⟨t, hrun, hreturned, heax, hbyte⟩ := memset_returns (m := exampleFill)
    (placed_assemble (by decide)) rfl (apart_of_le (by decide) (by decide))
  refine ⟨t, hrun, hreturned.eip.trans (by decide), ?_, ?_, heax.trans (by decide)⟩
  · rw [hbyte]
    decide
  · rw [hbyte]
    decide

end

end MMapKernel.Routines
