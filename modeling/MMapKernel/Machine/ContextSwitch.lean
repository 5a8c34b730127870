import MMapKernel.Lib.X86

/-!
# The context switch

`gheith_contextSwitch` saves what its caller goes on with, takes over the stack and the address space of
another thread, calls a handler there and returns as that thread. All memory here is memory of the kernel,
which every address space maps alike.
-/

namespace MMapKernel.ContextSwitch
open Words X86

def contextSwitch : List Instr :=
  [.mov (.mem .esp 4) (.reg .eax), .mov (.mem .esp 8) (.reg .ecx), .mov (.mem .esp 12) (.reg .edx), .pushf,
    .mov (.reg .ebx) (.mem .eax 0), .mov (.reg .esp) (.mem .eax 4), .mov (.reg .ebp) (.mem .eax 8),
    .mov (.reg .esi) (.mem .eax 12), .mov (.reg .edi) (.mem .eax 16), .readCr2 .edi,
    .mov (.reg .edi) (.mem .eax 28), .cli, .mov (.imm 0) (.mem .eax 20), .mov (.imm 0) (.mem .ecx 20),
    .mov (.reg .esp) (.reg .eax), .mov (.mem .ecx 28) (.reg .edi), .writeCr2 .edi,
    .mov (.mem .ecx 32) (.reg .edi), .writeCr3 .edi, .mov (.mem .ecx 0) (.reg .ebx),
    .mov (.mem .ecx 4) (.reg .esp), .mov (.mem .ecx 8) (.reg .ebp), .mov (.mem .ecx 12) (.reg .esi),
    .mov (.mem .ecx 16) (.reg .edi), .push (.mem .eax 20), .push (.mem .eax 8), .call (.reg .edx), .add 8 .esp,
    .popf, .ret]

structure Context where
  ebx : UInt32
  esp : UInt32
  ebp : UInt32
  esi : UInt32
  edi : UInt32
  eip : UInt32
  flags : Flags
  cr2 : UInt32
  cr3 : UInt32
deriving DecidableEq, Repr

def Context.of (m : Machine) : Context :=
  ⟨m.reg .ebx, m.reg .esp, m.reg .ebp, m.reg .esi, m.reg .edi, m.eip, m.flags, m.cr2, m.cr3⟩

def Context.returning (m : Machine) (cr3 : UInt32) : Context :=
  ⟨m.reg .ebx, m.reg .esp + 4, m.reg .ebp, m.reg .esi, m.reg .edi, m.top, m.flags, m.cr2, cr3⟩

def suspended (byte : UInt32 → UInt8) (area : UInt32) : Context where
  ebx := load byte (area + 0)
  esp := load byte (area + 4) + 8
  ebp := load byte (area + 8)
  esi := load byte (area + 12)
  edi := load byte (area + 16)
  eip := load byte (load byte (area + 4) + 4)
  flags := .ofWord (load byte (load byte (area + 4) + 0))
  cr2 := load byte (area + 28)
  cr3 := load byte (area + 32)

section
variable {code : Code} {at_ : ℕ → UInt32} {m : Machine}

def savedFields (m : Machine) : List (UInt32 × UInt32) :=
  [(0, m.reg .ebx), (4, m.reg .esp - 4), (8, m.reg .ebp), (12, m.reg .esi), (16, m.reg .edi), (28, m.cr2), (20, 0)]

def saved (m : Machine) : UInt32 → UInt8 :=
  storeFields
    (storeFields (storeFields m.byte (m.reg .esp - 4) [(0, m.flags.toWord)]) (m.get (.mem .esp 4)) (savedFields m))
    (m.get (.mem .esp 8)) [(20, 0)]

theorem save (h : Placed code at_ contextSwitch) (hm : m.eip = at_ 0) :
    ∃ s : Machine, steps code 14 m = some (s.goTo (at_ 14)) ∧ s.byte = saved m ∧ s.reg .ecx = m.get (.mem .esp 8) ∧
      s.reg .edx = m.get (.mem .esp 12) ∧ s.reg .esp = m.reg .esp - 4 ∧ s.flags.interrupt = false := by
  have hblock := h.block (k := 0) (l := contextSwitch.take 14) rfl rfl m
  rw [goTo_of_eip hm] at hblock
  refine ⟨_, hblock, ?_, ?_, ?_, ?_, ?_⟩ <;>
    simp [contextSwitch, saved, savedFields, storeFields, Machine.block, Machine.effect, Machine.put, Machine.get,
      Machine.address, Machine.setReg, Machine.pushWord]

theorem restore (h : Placed code at_ contextSwitch) (m : Machine) :
    ∃ s : Machine, steps code 10 (m.goTo (at_ 14)) = some (s.goTo (at_ 24)) ∧ s.byte = m.byte ∧ s.flags = m.flags ∧
      s.reg .eax = m.reg .esp ∧ s.reg .edx = m.reg .edx ∧ s.reg .ebx = load m.byte (m.reg .ecx + 0) ∧
      s.reg .esp = load m.byte (m.reg .ecx + 4) ∧ s.reg .ebp = load m.byte (m.reg .ecx + 8) ∧
      s.reg .esi = load m.byte (m.reg .ecx + 12) ∧ s.reg .edi = load m.byte (m.reg .ecx + 16) ∧
      s.cr2 = load m.byte (m.reg .ecx + 28) ∧ s.cr3 = load m.byte (m.reg .ecx + 32) := by
  have hblock := h.block (k := 14) (l := (contextSwitch.drop 14).take 10) rfl rfl m
  refine ⟨_, hblock, ?_, ?_, ?_, ?_, ?_, ?_, ?_, ?_, ?_, ?_, ?_⟩ <;>
    simp [contextSwitch, Machine.block, Machine.effect, Machine.put, Machine.get, Machine.address, Machine.setReg]

theorem call (h : Placed code at_ contextSwitch) (m : Machine) :
    ∃ s : Machine, steps code 3 (m.goTo (at_ 24)) = some s ∧ s.eip = m.reg .edx ∧ s.flags = m.flags ∧ s.cr2 = m.cr2 ∧
      s.cr3 = m.cr3 ∧ s.reg .ebx = m.reg .ebx ∧ s.reg .ebp = m.reg .ebp ∧ s.reg .esi = m.reg .esi ∧
      s.reg .edi = m.reg .edi ∧ s.reg .esp = m.reg .esp - 4 - 4 - 4 ∧
      s.byte = store
        (store (store m.byte (m.reg .esp - 4) (load m.byte (m.reg .eax + 20))) (m.reg .esp - 4 - 4)
          (load (store m.byte (m.reg .esp - 4) (load m.byte (m.reg .eax + 20))) (m.reg .eax + 8)))
        (m.reg .esp - 4 - 4 - 4) (at_ 27) := by
  have hblock := h.block (k := 24) (l := (contextSwitch.drop 24).take 2) rfl rfl m
  have hcall := h.step (k := 26) (i := .call (.reg .edx)) (goTo_eip (m.block ((contextSwitch.drop 24).take 2)) _) rfl
  rw [exec_call] at hcall
  refine ⟨_, steps_trans hblock (steps_one hcall), ?_, ?_, ?_, ?_, ?_, ?_, ?_, ?_, ?_, ?_⟩ <;>
    simp [contextSwitch, Machine.block, Machine.effect, Machine.get, Machine.address,
      Machine.pushWord]

theorem leave (h : Placed code at_ contextSwitch) (m : Machine) :
    ∃ t : Machine, steps code 3 (m.goTo (at_ 27)) = some t ∧ t.byte = m.byte ∧ t.eip = load m.byte (m.reg .esp + 8 + 4) ∧
      t.flags = .ofWord (load m.byte (m.reg .esp + 8)) ∧ t.cr2 = m.cr2 ∧ t.cr3 = m.cr3 ∧
      t.reg .esp = m.reg .esp + 8 + 4 + 4 ∧ t.reg .ebx = m.reg .ebx ∧ t.reg .ebp = m.reg .ebp ∧
      t.reg .esi = m.reg .esi ∧ t.reg .edi = m.reg .edi := by
  have hblock := h.block (k := 27) (l := [.add 8 .esp, .popf]) rfl rfl m
  have hret := h.step (k := 29) (i := .ret) (goTo_eip (m.block [.add 8 .esp, .popf]) _) rfl
  rw [exec_ret] at hret
  refine ⟨_, steps_trans hblock (steps_one hret), ?_, ?_, ?_, ?_, ?_, ?_, ?_, ?_, ?_, ?_⟩ <;>
    simp [Machine.block, Machine.effect, Machine.dropWord, Machine.top, Machine.setReg]

structure Layout (m : Machine) : Prop where
  areas : Apart (m.get (.mem .esp 4)) 36 (m.get (.mem .esp 8)) 36
  source : Apart (m.get (.mem .esp 4)) 36 (m.reg .esp - 4) 24
  target : Apart (m.get (.mem .esp 8)) 36 (m.reg .esp - 4) 24
  sourceStack : Apart (m.get (.mem .esp 4)) 36 (load m.byte (m.get (.mem .esp 8) + 4) - 12) 20
  targetStack : Apart (m.get (.mem .esp 8)) 36 (load m.byte (m.get (.mem .esp 8) + 4) - 12) 20
  bothStacks : Apart (m.reg .esp - 4) 24 (load m.byte (m.get (.mem .esp 8) + 4) - 12) 20

def called (m : Machine) (a : UInt32) : UInt32 → UInt8 :=
  storeFields (saved m) (load m.byte (m.get (.mem .esp 8) + 4) - 12)
    [(8, m.get (.mem .esp 16)), (4, m.get (.mem .esp 4)), (0, a)]

section
variable {a b d w x : UInt32} {k : ℕ}

theorem savedFields_within : ∀ f ∈ savedFields m, 4 + f.1.toNat ≤ 36 := by
  simp [savedFields]

theorem saved_of_not_within (hflags : ¬ Within (m.reg .esp - 4) 4 x) (hsource : ¬ Within (m.get (.mem .esp 4)) 36 x)
    (htarget : ¬ Within (m.get (.mem .esp 8) + 20) 4 x) : saved m x = m.byte x := by
  rw [saved, storeFields, storeFields, store_of_not_within htarget,
    storeFields_of_not_within savedFields_within hsource, storeFields_of_not_within (n := 4) (by simp) hflags]

theorem load_saved_target (hl : Layout m) (hd : 4 + d.toNat ≤ 36) (hs : Spaced d 20) :
    load (saved m) (m.get (.mem .esp 8) + d) = load m.byte (m.get (.mem .esp 8) + d) := by
  rw [saved, load_storeFields_spaced (by simpa using hs),
    load_storeFields_apart savedFields_within hl.areas.symm hd,
    load_storeFields_apart (n := 24) (by simp) hl.target hd]

theorem load_saved_own (hl : Layout m) (hd : 4 + d.toNat ≤ 24) (hs : Spaced d 0) :
    load (saved m) (m.reg .esp - 4 + d) = load m.byte (m.reg .esp - 4 + d) := by
  rw [saved, load_storeFields_apart (n := 36) (by simp) hl.target.symm hd,
    load_storeFields_apart savedFields_within hl.source.symm hd, load_storeFields_spaced (by simpa using hs)]

theorem load_saved_stack (hl : Layout m) (hd : 4 + d.toNat ≤ 20) :
    load (saved m) (load m.byte (m.get (.mem .esp 8) + 4) - 12 + d) =
      load m.byte (load m.byte (m.get (.mem .esp 8) + 4) - 12 + d) := by
  rw [saved, load_storeFields_apart (n := 36) (by simp) hl.targetStack.symm hd,
    load_storeFields_apart savedFields_within hl.sourceStack.symm hd,
    load_storeFields_apart (n := 24) (by simp) hl.bothStacks.symm hd]

theorem load_saved_source (hl : Layout m) (hd : 4 + d.toNat ≤ 36) (hmem : (d, w) ∈ savedFields m) :
    load (saved m) (m.get (.mem .esp 4) + d) = w := by
  rw [saved, load_storeFields_apart (n := 36) (by simp) hl.areas hd, load_storeFields ?_ hmem]
  simp only [savedFields, List.pairwise_cons, List.forall_mem_cons, List.not_mem_nil, false_implies, implies_true,
    and_true, List.Pairwise.nil]
  decide

theorem load_saved_flags (hl : Layout m) : load (saved m) (m.reg .esp - 4 + 0) = m.flags.toWord := by
  rw [saved, load_storeFields_apart (n := 36) (by simp) hl.target.symm (by decide),
    load_storeFields_apart savedFields_within hl.source.symm (by decide),
    load_storeFields (by simp) (List.mem_singleton_self _)]

theorem load_called_apart (h : Apart b k (load m.byte (m.get (.mem .esp 8) + 4) - 12) 20) (hd : 4 + d.toNat ≤ k) :
    load (called m a) (b + d) = load (saved m) (b + d) := by
  rw [called, load_storeFields_apart (n := 20) (by simp) h hd]

theorem load_called_stack (hl : Layout m) (hd : 4 + d.toNat ≤ 20) (h8 : Spaced d 8) (h4 : Spaced d 4)
    (h0 : Spaced d 0) :
    load (called m a) (load m.byte (m.get (.mem .esp 8) + 4) - 12 + d) =
      load m.byte (load m.byte (m.get (.mem .esp 8) + 4) - 12 + d) := by
  rw [called, load_storeFields_spaced (by simp [h8, h4, h0]), load_saved_stack hl hd]

end

/-- The handler has been entered at `v`, for a call of `contextSwitch` that was entered at `m`: the caller is
suspended in what it will return to, both flags are cleared and nothing else is written but the stacks. -/
structure AtHandler (m v : Machine) : Prop where
  eip : v.eip = m.get (.mem .esp 12)
  interrupt : v.flags.interrupt = false
  source : v.get (.mem .esp 4) = m.get (.mem .esp 4)
  argument : v.get (.mem .esp 8) = m.get (.mem .esp 16)
  stack : v.reg .esp = load m.byte (m.get (.mem .esp 8) + 4) - 12
  cr3 : v.cr3 = load m.byte (m.get (.mem .esp 8) + 32)
  caller : suspended v.byte (m.get (.mem .esp 4)) =
    .returning m (load m.byte (m.get (.mem .esp 4) + 32))
  sourcePreempt : load v.byte (m.get (.mem .esp 4) + 20) = 0
  targetPreempt : load v.byte (m.get (.mem .esp 8) + 20) = 0
  frame : ∀ x, ¬ Within (m.reg .esp - 4) 4 x → ¬ Within (m.get (.mem .esp 4)) 36 x →
    ¬ Within (m.get (.mem .esp 8) + 20) 4 x →
    ¬ Within (load m.byte (m.get (.mem .esp 8) + 4) - 12) 12 x → v.byte x = m.byte x

theorem load_called_source (hl : Layout m) {a d w : UInt32} (hd : 4 + d.toNat ≤ 36) (hmem : (d, w) ∈ savedFields m) :
    load (called m a) (m.get (.mem .esp 4) + d) = w := by
  rw [load_called_apart hl.sourceStack hd, load_saved_source hl hd hmem]

theorem called_caller (hl : Layout m) (a : UInt32) :
    suspended (called m a) (m.get (.mem .esp 4)) = .returning m (load m.byte (m.get (.mem .esp 4) + 32)) := by
  have hspaced : ∀ f ∈ savedFields m, Spaced 32 f.1 := by
    simp only [savedFields, List.forall_mem_cons, List.not_mem_nil, false_implies, implies_true, and_true]
    decide
  have hebx : load (called m a) _ = m.reg .ebx := load_called_source hl (d := 0) (by decide) (by simp [savedFields])
  have hesp : load (called m a) _ = m.reg .esp - 4 :=
    load_called_source hl (d := 4) (by decide) (by simp [savedFields])
  have hebp : load (called m a) _ = m.reg .ebp := load_called_source hl (d := 8) (by decide) (by simp [savedFields])
  have hesi : load (called m a) _ = m.reg .esi := load_called_source hl (d := 12) (by decide) (by simp [savedFields])
  have hedi : load (called m a) _ = m.reg .edi := load_called_source hl (d := 16) (by decide) (by simp [savedFields])
  have hcr2 : load (called m a) _ = m.cr2 := load_called_source hl (d := 28) (by decide) (by simp [savedFields])
  have hcr3 : load (called m a) (m.get (.mem .esp 4) + 32) = load m.byte (m.get (.mem .esp 4) + 32) := by
    rw [load_called_apart hl.sourceStack (by decide), saved,
      load_storeFields_apart (n := 36) (by simp) hl.areas (by decide), load_storeFields_spaced hspaced,
      load_storeFields_apart (n := 24) (by simp) hl.source (by decide)]
  have htop : load (called m a) (m.reg .esp - 4 + 4) = m.top := by
    rw [load_called_apart hl.bothStacks (by decide), load_saved_own hl (by decide) (by decide), UInt32.sub_add_cancel,
      Machine.top]
  have hflags : load (called m a) (m.reg .esp - 4 + 0) = m.flags.toWord := by
    rw [load_called_apart hl.bothStacks (by decide), load_saved_flags hl]
  have hreturn : m.reg .esp - 4 + 8 = m.reg .esp + 4 := sub_add_of_le (f := 4) rfl _
  rw [suspended, hebx, hesp, hebp, hesi, hedi, hcr2, hcr3, htop, hflags, hreturn, Flags.ofWord_toWord,
    Context.returning]

theorem load_called_argument {a d w : UInt32}
    (hmem : (d, w) ∈ [((8 : UInt32), m.get (.mem .esp 16)), (4, m.get (.mem .esp 4)), (0, a)]) :
    load (called m a) (load m.byte (m.get (.mem .esp 8) + 4) - 12 + d) = w := by
  rw [called, load_storeFields ?_ hmem]
  simp only [List.pairwise_cons, List.forall_mem_cons, List.not_mem_nil, false_implies, implies_true, and_true,
    List.Pairwise.nil]
  decide

theorem called_frame {a x : UInt32} (hflags : ¬ Within (m.reg .esp - 4) 4 x)
    (hsource : ¬ Within (m.get (.mem .esp 4)) 36 x) (htarget : ¬ Within (m.get (.mem .esp 8) + 20) 4 x)
    (hstack : ¬ Within (load m.byte (m.get (.mem .esp 8) + 4) - 12) 12 x) : called m a x = m.byte x := by
  rw [called, storeFields_of_not_within (n := 12) (by simp) hstack, saved_of_not_within hflags hsource htarget]

theorem called_eq (hl : Layout m) {u : Machine} (hbyte : u.byte = saved m)
    (hsp : u.reg .esp = load m.byte (m.get (.mem .esp 8) + 4)) (heax : u.reg .eax = m.reg .esp - 4) (a : UInt32) :
    store (store (store u.byte (u.reg .esp - 4) (load u.byte (u.reg .eax + 20))) (u.reg .esp - 4 - 4)
        (load (store u.byte (u.reg .esp - 4) (load u.byte (u.reg .eax + 20))) (u.reg .eax + 8)))
      (u.reg .esp - 4 - 4 - 4) a = called m a := by
  have harg : load u.byte (u.reg .eax + 20) = m.get (.mem .esp 16) := by
    rw [hbyte, heax, load_saved_own hl (by decide) (by decide), sub_add_of_le (e := 20) (f := 16) rfl,
      Machine.get_mem]
  have hfirst : u.reg .esp - 4 = u.reg .esp - 12 + 8 := (sub_add_of_ge (d := 12) (e := 8) (f := 4) rfl _).symm
  have hsecond : u.reg .esp - 4 - 4 = u.reg .esp - 12 + 4 :=
    (sub_sub_of_eq (d := 4) (e := 4) (f := 8) rfl _).trans (sub_add_of_ge (d := 12) (e := 4) (f := 8) rfl _).symm
  have hthird : u.reg .esp - 4 - 4 - 4 = u.reg .esp - 12 + 0 := by
    rw [sub_sub_of_eq (d := 4) (e := 4) (f := 8) rfl, sub_sub_of_eq (d := 4) (e := 8) (f := 12) rfl, UInt32.add_zero]
  have hapart : Apart (m.reg .esp - 4 + 8) 4 (u.reg .esp - 12 + 8) 4 := by
    rw [hsp]
    exact ((hl.bothStacks.sub (by decide)).symm.sub (by decide)).symm
  have hsource : load (store u.byte (u.reg .esp - 12 + 8) (m.get (.mem .esp 16))) (u.reg .eax + 8) =
      m.get (.mem .esp 4) := by
    rw [heax, load_store_apart hapart, hbyte, load_saved_own hl (by decide) (by decide),
      sub_add_of_le (e := 8) (f := 4) rfl, Machine.get_mem]
  rw [harg, hthird, hsecond, hfirst, hsource, hbyte, hsp, called, storeFields, storeFields, storeFields, storeFields]

theorem contextSwitch_enters (h : Placed code at_ contextSwitch) (hm : m.eip = at_ 0) (hl : Layout m) :
    ∃ v, steps code 27 m = some v ∧ AtHandler m v ∧ v.byte = called m (at_ 27) ∧
      v.reg .ebx = load m.byte (m.get (.mem .esp 8) + 0) ∧ v.reg .ebp = load m.byte (m.get (.mem .esp 8) + 8) ∧
      v.reg .esi = load m.byte (m.get (.mem .esp 8) + 12) ∧ v.reg .edi = load m.byte (m.get (.mem .esp 8) + 16) ∧
      v.cr2 = load m.byte (m.get (.mem .esp 8) + 28) := by
  obtain ⟨s, hsave, hbyte, hecx, hedx, hesp, hint⟩ := save h hm
  obtain ⟨u, hrestore, hbytes, hflags, heax, hedxs, hebx, hesps, hebp, hesi, hedi, hcr2, hcr3⟩ := restore h s
  obtain ⟨v, hcall, heip, hflagsv, hcr2v, hcr3v, hebxv, hebpv, hesiv, hediv, hespv, hbytev⟩ := call h u
  have hfield : ∀ d : UInt32, 4 + d.toNat ≤ 36 → Spaced d 20 →
      load s.byte (s.reg .ecx + d) = load m.byte (m.get (.mem .esp 8) + d) := fun d hd hs => by
    rw [hbyte, hecx, load_saved_target hl hd hs]
  have hsp : u.reg .esp = load m.byte (m.get (.mem .esp 8) + 4) := by
    rw [hesps, hfield 4 (by decide) (by decide)]
  have hcalled : v.byte = called m (at_ 27) := by
    rw [hbytev, called_eq hl (hbytes.trans hbyte) hsp (heax.trans hesp)]
  have hstack : v.reg .esp = load m.byte (m.get (.mem .esp 8) + 4) - 12 := by
    rw [hespv, hsp, sub_sub_of_eq (d := 4) (e := 4) (f := 8) rfl, sub_sub_of_eq (d := 4) (e := 8) (f := 12) rfl]
  have hrun : steps code 27 m = some v := by
    rw [steps_add (n := 14) (k := 13) hsave, steps_add (n := 10) (k := 3) hrestore, hcall]
  refine ⟨v, hrun, ⟨?_, ?_, ?_, ?_, hstack, ?_, ?_, ?_, ?_, ?_⟩, hcalled, ?_, ?_, ?_, ?_, ?_⟩
  · rw [heip, hedxs, hedx]
  · rw [hflagsv, hflags, hint]
  · rw [Machine.get_mem, hstack, hcalled]
    exact load_called_argument (by simp)
  · rw [Machine.get_mem, hstack, hcalled]
    exact load_called_argument (by simp)
  · rw [hcr3v, hcr3, hfield 32 (by decide) (by decide)]
  · rw [hcalled, called_caller hl]
  · rw [hcalled]
    exact load_called_source hl (by decide) (by simp [savedFields])
  · rw [hcalled, load_called_apart hl.targetStack (by decide), saved,
      load_storeFields (by simp) (List.mem_singleton_self _)]
  · rw [hcalled]
    exact fun x => called_frame
  · rw [hebxv, hebx, hfield 0 (by decide) (by decide)]
  · rw [hebpv, hebp, hfield 8 (by decide) (by decide)]
  · rw [hesiv, hesi, hfield 12 (by decide) (by decide)]
  · rw [hediv, hedi, hfield 16 (by decide) (by decide)]
  · rw [hcr2v, hcr2, hfield 28 (by decide) (by decide)]

/-- What the switch asks of a handler that was entered at `v`: that it keeps to the calling convention, and
leaves the two words that the thread it runs on returns with. -/
structure Handled (v w : Machine) : Prop where
  returned : Returned v w
  stack : ∀ x, Within (v.reg .esp + 12) 8 x → w.byte x = v.byte x

theorem add_four_eight : (4 : UInt32) + 8 = 12 := rfl

theorem leaves (h : Placed code at_ contextSwitch) (hl : Layout m) {v w : Machine} (hv : AtHandler m v)
    (hbyte : v.byte = called m (at_ 27)) (hebx : v.reg .ebx = load m.byte (m.get (.mem .esp 8) + 0))
    (hebp : v.reg .ebp = load m.byte (m.get (.mem .esp 8) + 8))
    (hesi : v.reg .esi = load m.byte (m.get (.mem .esp 8) + 12))
    (hedi : v.reg .edi = load m.byte (m.get (.mem .esp 8) + 16))
    (hcr2 : v.cr2 = load m.byte (m.get (.mem .esp 8) + 28)) (hw : Handled v w) :
    ∃ t, steps code 3 w = some t ∧ t.byte = w.byte ∧ Context.of t = suspended m.byte (m.get (.mem .esp 8)) := by
  obtain ⟨⟨heip, hesp, hsame⟩, hstack⟩ := hw
  have htop : v.top = at_ 27 := by
    rw [Machine.top, hv.stack, hbyte, ← UInt32.add_zero (_ - 12)]
    exact load_called_argument (by simp)
  obtain ⟨t, hrun, hbytes, heipt, hflags, hcr2t, hcr3t, hespt, hebxt, hebpt, hesit, hedit⟩ := leave h w
  rw [goTo_of_eip (heip.trans htop)] at hrun
  have hflagsw : load w.byte (w.reg .esp + 8) = load m.byte (load m.byte (m.get (.mem .esp 8) + 4) + 0) := by
    have hcongr := load_congr fun x (hx : Within (v.reg .esp + 12) 4 x) => hstack x (hx.trans (by decide))
    rw [hesp, UInt32.add_assoc, add_four_eight, hcongr, hv.stack, hbyte,
      load_called_stack hl (by decide) (by decide) (by decide) (by decide), UInt32.sub_add_cancel, UInt32.add_zero]
  have heipw : load w.byte (w.reg .esp + 8 + 4) = load m.byte (load m.byte (m.get (.mem .esp 8) + 4) + 4) := by
    have hcongr := load_congr fun x (hx : Within (v.reg .esp + 12 + 4) 4 x) => hstack x (hx.sub (by decide))
    rw [hesp, UInt32.add_assoc _ 4 8, add_four_eight, hcongr, hv.stack, UInt32.add_assoc _ 12 4, hbyte,
      load_called_stack hl (by decide) (by decide) (by decide) (by decide), sub_add_of_le (d := 12) (f := 4) rfl]
  have hespw : w.reg .esp + 8 + 4 + 4 = load m.byte (m.get (.mem .esp 8) + 4) + 8 := by
    rw [hesp, hv.stack, UInt32.add_assoc _ 4 8, add_four_eight, UInt32.sub_add_cancel, UInt32.add_assoc _ 4 4]
    rfl
  refine ⟨t, hrun, hbytes, ?_⟩
  rw [Context.of, suspended, hebxt, hespt, hebpt, hesit, hedit, heipt, hflags, hcr2t, hcr3t, hflagsw, heipw, hespw,
    hsame.reg .ebx (by decide), hsame.reg .ebp (by decide), hsame.reg .esi (by decide), hsame.reg .edi (by decide),
    hsame.cr2, hsame.cr3, hebx, hebp, hesi, hedi, hcr2, hv.cr3]

/-- The call of `contextSwitch` enters the handler, and three instructions after the return of a handler that
keeps to its convention the core goes on as the other thread, in the context in which that was suspended. -/
theorem contextSwitch_switches (h : Placed code at_ contextSwitch) (hm : m.eip = at_ 0) (hl : Layout m) :
    ∃ v, steps code 27 m = some v ∧ AtHandler m v ∧ ∀ w, Handled v w → ∃ t, steps code 3 w = some t ∧
      t.byte = w.byte ∧ Context.of t = suspended m.byte (m.get (.mem .esp 8)) := by
  obtain ⟨v, hrun, hv, hbyte, hebx, hebp, hesi, hedi, hcr2⟩ := contextSwitch_enters h hm hl
  exact ⟨v, hrun, hv, fun w => leaves h hl hv hbyte hebx hebp hesi hedi hcr2⟩

end

/-- The constructors of `TCB` and `TCBWithStack`, for a process with the page directory `pd`. -/
def tcbWithStack (byte : UInt32 → UInt8) (area stack tcb pd entry : UInt32) : UInt32 → UInt8 :=
  storeFields (storeFields (storeFields byte area [(24, tcb), (32, pd)]) stack [(8184, 0x200), (8188, entry)]) area
    [(20, 0), (4, stack + 8184)]

section
variable {byte : UInt32 → UInt8} {area stack tcb pd entry : UInt32}

theorem tcbWithStack_esp : load (tcbWithStack byte area stack tcb pd entry) (area + 4) = stack + 8184 :=
  load_storeFields (by simp; decide) (by simp)

theorem tcbWithStack_stack (h : Apart area 36 stack 8192) {d w : UInt32} (hd : 4 + d.toNat ≤ 8192)
    (hmem : (d, w) ∈ [((8184 : UInt32), (0x200 : UInt32)), (8188, entry)]) :
    load (tcbWithStack byte area stack tcb pd entry) (stack + d) = w := by
  have hpair : [((8184 : UInt32), (0x200 : UInt32)), (8188, entry)].Pairwise fun f g => Spaced f.1 g.1 := by
    simp
    decide
  have hin : ∀ f ∈ [((20 : UInt32), (0 : UInt32)), (4, stack + 8184)], 4 + f.1.toNat ≤ 36 := by simp
  rw [tcbWithStack, load_storeFields_apart hin h.symm hd, load_storeFields hpair hmem]

theorem tcbWithStack_cr3 (h : Apart area 36 stack 8192) :
    load (tcbWithStack byte area stack tcb pd entry) (area + 32) = pd := by
  have hspaced : ∀ f ∈ [((20 : UInt32), (0 : UInt32)), (4, stack + 8184)], Spaced 32 f.1 := by
    simp only [List.forall_mem_cons, List.not_mem_nil, false_implies, implies_true, and_true]
    decide
  have hpair : [((24 : UInt32), tcb), (32, pd)].Pairwise fun f g => Spaced f.1 g.1 := by
    simp
    decide
  have hin : ∀ f ∈ [((8184 : UInt32), (0x200 : UInt32)), (8188, entry)], 4 + f.1.toNat ≤ 8192 := by
    simp only [List.forall_mem_cons, List.not_mem_nil, false_implies, implies_true, and_true]
    decide
  rw [tcbWithStack, load_storeFields_spaced hspaced, load_storeFields_apart hin h (by decide)]
  exact load_storeFields hpair (by simp)

theorem tcbWithStack_suspended (h : Apart area 36 stack 8192) :
    let c := suspended (tcbWithStack byte area stack tcb pd entry) area
    c.eip = entry ∧ c.flags = ⟨false, false, true⟩ ∧ c.esp = stack + 8192 ∧ c.cr3 = pd := by
  have hentry : load (tcbWithStack byte area stack tcb pd entry) (stack + 8188) = entry :=
    tcbWithStack_stack h (by decide) (by simp)
  have hflags : load (tcbWithStack byte area stack tcb pd entry) (stack + 8184) = 0x200 :=
    tcbWithStack_stack h (by decide) (by simp)
  simp only [suspended, tcbWithStack_esp, tcbWithStack_cr3 h, UInt32.add_assoc]
  exact ⟨hentry, hflags ▸ rfl, rfl, trivial⟩

end

end MMapKernel.ContextSwitch
