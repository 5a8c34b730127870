import MMapKernel.Lib.Transition
import MMapKernel.Machine.ContextSwitch

/-!
# The threads of one core

Every thread has a save area and a stack. The one that runs makes and deletes others, and leaves what they go on
with alone, until it calls `contextSwitch`. `left` is kept beside the memory: what each thread was to go on with
when it last called, or when it was made. A switch is the instructions up to the handler, those of the handler,
and the three behind it.
-/

namespace MMapKernel.Resume
open Words X86 Transition ContextSwitch

variable {ι : Type*}

structure Regions (ι : Type*) where
  area : ι → UInt32
  stack : ι → UInt32
  size : ι → ℕ
  areas : ∀ i j, i ≠ j → Apart (area i) 36 (area j) 36
  areaStack : ∀ i j, Apart (area i) 36 (stack j) (size j)
  stackStack : ∀ i j, i ≠ j → Apart (stack i) (size i) (stack j) (size j)

def Room (stack : UInt32) (size : ℕ) (sp : UInt32) (below above : ℕ) : Prop :=
  below ≤ (sp - stack).toNat ∧ (sp - stack).toNat + above ≤ size

/-- The save area but for `no_preempt`, and the two words at the saved stack pointer, are the same. -/
def Kept (byte byte' : UInt32 → UInt8) (area : UInt32) : Prop :=
  ∀ x, Within area 20 x ∨ Within (area + 24) 12 x ∨ Within (load byte (area + 4)) 8 x → byte' x = byte x

structure State (ι : Type*) where
  machine : Machine
  running : ι
  made : Set ι
  left : ι → Context

inductive Act (ι : Type*) where
  | compute
  | create (new : ι)
  | delete (old : ι)
  | switch (next : ι)

/-- The end of `block`: the switch is called with both `no_preempt` flags set. -/
structure Calls (R : Regions ι) (at_ : ℕ → UInt32) (s : State ι) (j : ι) : Prop where
  made : j ∈ s.made
  other : j ≠ s.running
  eip : s.machine.eip = at_ 0
  source : s.machine.get (.mem .esp 4) = R.area s.running
  target : s.machine.get (.mem .esp 8) = R.area j
  sourcePreempt : load s.machine.byte (R.area s.running + 20) = 1
  targetPreempt : load s.machine.byte (R.area j + 20) = 1
  room : Room (R.stack s.running) (R.size s.running) (s.machine.reg .esp) 16 20

/-- `v` and `w` are the states at the call of the handler and at its return. -/
structure Switching [DecidableEq ι] (R : Regions ι) (code : Code) (at_ : ℕ → UInt32) (s t : State ι) (j : ι)
    (v w : Machine) : Prop extends Calls R at_ s j where
  enters : steps code 27 s.machine = some v
  runs : Reaches code v w
  handled : Handled v w
  keeps : ∀ k ∈ s.made, k ≠ j → Kept v.byte w.byte (R.area k)
  leaves : steps code 3 w = some t.machine
  running : t.running = j
  stays : t.made = s.made
  left : t.left = Function.update s.left s.running
    (.returning s.machine (load s.machine.byte (R.area s.running + 32)))

/-- The memory of thread `j`, which was no thread, is filled in by the constructors. -/
structure Creating [DecidableEq ι] (R : Regions ι) (s t : State ι) (j : ι) (tcb pd entry : UInt32) : Prop where
  new : j ∉ s.made
  size : 8192 ≤ R.size j
  byte : t.machine.byte = tcbWithStack s.machine.byte (R.area j) (R.stack j) tcb pd entry
  running : t.running = s.running
  made : t.made = insert j s.made
  left : t.left = Function.update s.left j (suspended t.machine.byte (R.area j))

def Suspended (R : Regions ι) (s : State ι) : Prop :=
  ∀ j ∈ s.made, j ≠ s.running → suspended s.machine.byte (R.area j) = s.left j ∧
    Room (R.stack j) (R.size j) (load s.machine.byte (R.area j + 4)) 12 8

structure Consistent (R : Regions ι) (s : State ι) : Prop where
  runs : s.running ∈ s.made
  suspended : Suspended R s

def system [DecidableEq ι] (R : Regions ι) (code : Code) (at_ : ℕ → UInt32) : System (State ι) (Act ι) where
  init := Consistent R
  step
    | s, .compute, t => t.running = s.running ∧ t.made = s.made ∧ t.left = s.left ∧
        ∀ j ∈ s.made, j ≠ s.running → Kept s.machine.byte t.machine.byte (R.area j)
    | s, .create j, t => ∃ tcb pd entry, Creating R s t j tcb pd entry
    | s, .delete j, t => j ≠ s.running ∧ t = { s with made := s.made \ {j} }
    | s, .switch j, t => ∃ v w, Switching R code at_ s t j v w

section
variable {byte byte' byte'' : UInt32 → UInt8} {area stack sp d x : UInt32} {size below above k : ℕ}

theorem Kept.load_area (h : Kept byte byte' area) (hd : 4 + d.toNat ≤ 20) :
    load byte' (area + d) = load byte (area + d) :=
  load_congr fun x hx => h x (Or.inl (hx.sub hd))

theorem Kept.load_end (h : Kept byte byte' area) (hd : 4 + d.toNat ≤ 12) :
    load byte' (area + 24 + d) = load byte (area + 24 + d) :=
  load_congr fun x hx => h x (Or.inr (Or.inl (hx.sub hd)))

theorem Kept.load_stack (h : Kept byte byte' area) (hd : 4 + d.toNat ≤ 8) :
    load byte' (load byte (area + 4) + d) = load byte (load byte (area + 4) + d) :=
  load_congr fun x hx => h x (Or.inr (Or.inr (hx.sub hd)))

theorem Kept.suspended (h : Kept byte byte' area) : suspended byte' area = suspended byte area := by
  have hcr2 : load byte' (area + 28) = load byte (area + 28) := by
    have hend := h.load_end (d := 4) (by decide)
    rwa [UInt32.add_assoc] at hend
  have hcr3 : load byte' (area + 32) = load byte (area + 32) := by
    have hend := h.load_end (d := 8) (by decide)
    rwa [UInt32.add_assoc] at hend
  rw [ContextSwitch.suspended, ContextSwitch.suspended, h.load_area (by decide), h.load_area (by decide),
    h.load_area (by decide), h.load_area (by decide), h.load_area (by decide), hcr2, hcr3,
    h.load_stack (by decide), h.load_stack (by decide)]

theorem Kept.trans (h : Kept byte byte' area) (h' : Kept byte' byte'' area) : Kept byte byte'' area := by
  intro x hx
  rw [h' x (hx.imp_right (Or.imp_right fun hs => by rwa [h.load_area (by decide)])), h x hx]

theorem Room.within (h : Room stack size sp below above) (hd : d.toNat ≤ below) (hk : k ≤ d.toNat + above)
    (hx : Within (sp - d) k x) : Within stack size x := by
  obtain ⟨hbelow, habove⟩ := h
  unfold Within at *
  rw [UInt32.toNat_sub] at *
  rw [UInt32.toNat_sub] at hx
  have h1 := stack.toNat_lt
  have h2 := sp.toNat_lt
  have h3 := x.toNat_lt
  have h4 := d.toNat_lt
  omega

theorem Room.within_self (h : Room stack size sp below above) (hk : k ≤ above) (hx : Within sp k x) :
    Within stack size x := by
  apply h.within (d := 0) (Nat.zero_le _) (by simpa using hk)
  rwa [UInt32.sub_zero]

theorem Room.sub_four (h : Room stack size sp 16 above) : Room stack size (sp - 4) 12 above := by
  obtain ⟨hbelow, habove⟩ := h
  have hsub : (sp - 4 - stack).toNat = (sp - stack).toNat - 4 := by
    rw [UInt32.toNat_sub, UInt32.toNat_sub] at *
    have h4 : (4 : UInt32).toNat = 4 := rfl
    have h1 := stack.toNat_lt
    have h2 := sp.toNat_lt
    rw [UInt32.toNat_sub, h4]
    omega
  constructor <;> omega

theorem Kept.of_frame (hroom : Room stack size (load byte (area + 4)) 12 8)
    (harea : ∀ x, Within area 20 x ∨ Within (area + 24) 12 x → byte' x = byte x)
    (hstack : ∀ x, Within stack size x → byte' x = byte x) : Kept byte byte' area := by
  rintro x (hx | hx | hx)
  · exact harea x (Or.inl hx)
  · exact harea x (Or.inr hx)
  · exact hstack x (hroom.within_self le_rfl hx)

theorem tcbWithStack_frame {tcb pd entry : UInt32} (harea : ¬Within area 36 x) (hstack : ¬Within stack 8192 x) :
    tcbWithStack byte area stack tcb pd entry x = byte x := by
  have hfields : ∀ f ∈ [((8184 : UInt32), (0x200 : UInt32)), (8188, entry)], 4 + f.1.toNat ≤ 8192 := by
    simp only [List.forall_mem_cons, List.not_mem_nil, false_implies, implies_true, and_true]
    decide
  rw [tcbWithStack, storeFields_of_not_within (n := 36) (by simp) harea, storeFields_of_not_within hfields hstack,
    storeFields_of_not_within (n := 36) (by simp) harea]

end

section
variable {R : Regions ι} {at_ : ℕ → UInt32} {s : State ι} {j : ι} {x : UInt32}

theorem Regions.within_area (h : Within (R.area j) 20 x ∨ Within (R.area j + 24) 12 x) : Within (R.area j) 36 x := by
  rcases h with hx | hx
  · exact hx.trans_le (by decide)
  · exact hx.sub (by decide)

theorem kept_preempt (R : Regions ι) (j : ι) {k : ι} {byte : UInt32 → UInt8} (w : UInt32)
    (hroom : Room (R.stack k) (R.size k) (load byte (R.area k + 4)) 12 8) :
    Kept byte (store byte (R.area j + 20) w) (R.area k) := by
  refine Kept.of_frame hroom (fun x hx => store_of_not_within fun hflag => ?_) fun x hx =>
    store_of_not_within fun hflag => R.areaStack j k x (hflag.sub (by decide)) hx
  by_cases hkj : k = j
  · subst hkj
    unfold Within at hx hflag
    rw [UInt32.toNat_sub, UInt32.toNat_add] at hflag
    rw [UInt32.toNat_sub, UInt32.toNat_sub, UInt32.toNat_add] at hx
    simp only [UInt32.reduceToNat] at hx hflag
    have h1 := (R.area k).toNat_lt
    have h2 := x.toNat_lt
    omega
  · exact R.areas k j hkj x (Regions.within_area hx) (hflag.sub (by decide))

theorem Calls.layout (h : Calls R at_ s j) (hs : Suspended R s) : Layout s.machine := by
  have hroom := (hs j h.made h.other).2
  have hframe : ∀ x, Within (s.machine.reg .esp - 4) 24 x → Within (R.stack s.running) (R.size s.running) x :=
    fun x => h.room.within (by decide) (by decide)
  have hsaved : ∀ x, Within (load s.machine.byte (R.area j + 4) - 12) 20 x → Within (R.stack j) (R.size j) x :=
    fun x => hroom.within (by decide) (by decide)
  constructor
  · rw [h.source, h.target]
    exact R.areas _ _ h.other.symm
  · rw [h.source]
    exact fun x hx hx' => R.areaStack _ _ x hx (hframe x hx')
  · rw [h.target]
    exact fun x hx hx' => R.areaStack _ _ x hx (hframe x hx')
  · rw [h.source, h.target]
    exact fun x hx hx' => R.areaStack _ _ x hx (hsaved x hx')
  · rw [h.target]
    exact fun x hx hx' => R.areaStack _ _ x hx (hsaved x hx')
  · rw [h.target]
    exact fun x hx hx' => R.stackStack _ _ h.other.symm x (hframe x hx) (hsaved x hx')

end

section
variable [DecidableEq ι] {R : Regions ι} {code : Code} {at_ : ℕ → UInt32} {s t : State ι} {j : ι} {v w : Machine}

theorem Suspended.calling (hs : Suspended R s) {m : Machine} {sp : UInt32} {fields : List (UInt32 × UInt32)}
    (hin : ∀ f ∈ fields, 4 + f.1.toNat ≤ 20)
    (hsp : ∀ x, Within sp 20 x → Within (R.stack s.running) (R.size s.running) x)
    (hm : m.byte = store (store (storeFields s.machine.byte sp fields) (R.area s.running + 20) 1)
      (R.area j + 20) 1) : (system R code at_).step s .compute { s with machine := m } := by
  refine ⟨rfl, rfl, rfl, fun k hk hother => ?_⟩
  obtain ⟨-, hroom⟩ := hs k hk hother
  have hframe : Kept s.machine.byte (storeFields s.machine.byte sp fields) (R.area k) := by
    refine Kept.of_frame hroom (fun x hx => storeFields_of_not_within hin fun hx' => ?_) fun x hx =>
      storeFields_of_not_within hin fun hx' => R.stackStack _ _ hother x hx (hsp x hx')
    exact R.areaStack _ _ x (Regions.within_area hx) (hsp x hx')
  have hroom₁ := hframe.load_area (d := 4) (by decide) ▸ hroom
  have hflag := kept_preempt R s.running 1 hroom₁
  have hroom₂ := hflag.load_area (d := 4) (by decide) ▸ hroom₁
  rw [hm]
  exact (hframe.trans hflag).trans (kept_preempt R j 1 hroom₂)

theorem Switching.spec (h : Switching R code at_ s t j v w) (hcode : Placed code at_ contextSwitch)
    (hs : Suspended R s) : AtHandler s.machine v ∧ t.machine.byte = w.byte ∧ Context.of t.machine = s.left j := by
  obtain ⟨v', henters, hv, hleaves⟩ := contextSwitch_switches hcode h.eip (h.toCalls.layout hs)
  cases h.enters.symm.trans henters
  obtain ⟨t', hrun, hbyte, hcontext⟩ := hleaves w h.handled
  cases h.leaves.symm.trans hrun
  rw [h.target, (hs j h.made h.other).1] at hcontext
  exact ⟨hv, hbyte, hcontext⟩

theorem Switching.kept (h : Switching R code at_ s t j v w) (hs : Suspended R s) (hv : AtHandler s.machine v) {k : ι}
    (hmade : k ∈ s.made) (hk : k ≠ s.running) (hkj : k ≠ j) : Kept s.machine.byte v.byte (R.area k) := by
  have hroom := (hs j h.made h.other).2
  have hframe : ∀ x, Within (s.machine.reg .esp - 4) 4 x → Within (R.stack s.running) (R.size s.running) x :=
    fun x => h.room.within (by decide) (by decide)
  have hsaved : ∀ x, Within (load s.machine.byte (R.area j + 4) - 12) 12 x → Within (R.stack j) (R.size j) x :=
    fun x => hroom.within (by decide) (by decide)
  have hflag : ∀ x, Within (R.area j + 20) 4 x → Within (R.area j) 36 x := fun x hx => hx.sub (by decide)
  refine Kept.of_frame (hs k hmade hk).2 (fun x hx => ?_) fun x hx => ?_
  · have harea := Regions.within_area hx
    apply hv.frame
    · exact fun hx' => R.areaStack _ _ x harea (hframe x hx')
    · rw [h.source]
      exact R.areas _ _ hk x harea
    · rw [h.target]
      exact fun hx' => R.areas _ _ hkj x harea (hflag x hx')
    · rw [h.target]
      exact fun hx' => R.areaStack _ _ x harea (hsaved x hx')
  · apply hv.frame
    · exact fun hx' => R.stackStack _ _ hk x hx (hframe x hx')
    · rw [h.source]
      exact fun hx' => R.areaStack _ _ x hx' hx
    · rw [h.target]
      exact fun hx' => R.areaStack _ _ x (hflag x hx') hx
    · rw [h.target]
      exact fun hx' => R.stackStack _ _ hkj x hx (hsaved x hx')

theorem Switching.caller (h : Switching R code at_ s t j v w) (hv : AtHandler s.machine v) :
    suspended v.byte (R.area s.running) = t.left s.running ∧
      Room (R.stack s.running) (R.size s.running) (load v.byte (R.area s.running + 4)) 12 8 := by
  have hcaller := hv.caller
  rw [h.source] at hcaller
  have hesp : load v.byte (R.area s.running + 4) = s.machine.reg .esp - 4 := by
    have hsum : load v.byte (R.area s.running + 4) + 8 = s.machine.reg .esp + 4 := congrArg Context.esp hcaller
    rwa [← sub_add_of_le (d := 4) (e := 8) (f := 4) rfl (s.machine.reg .esp), UInt32.add_left_inj] at hsum
  refine ⟨?_, ?_⟩
  · rw [h.left, Function.update_self, hcaller]
  · rw [hesp]
    exact ⟨h.room.sub_four.1, by have := h.room.sub_four.2; omega⟩

theorem Switching.suspended (h : Switching R code at_ s t j v w) (hcode : Placed code at_ contextSwitch)
    (hs : Suspended R s) : Suspended R t := by
  obtain ⟨hv, hbyte, -⟩ := h.spec hcode hs
  intro k hmade hk
  rw [h.stays] at hmade
  rw [h.running] at hk
  have hhandler := h.keeps k hmade hk
  rw [hbyte, hhandler.suspended, hhandler.load_area (by decide)]
  by_cases hrun : k = s.running
  · rw [hrun]
    exact h.caller hv
  · have hkept := h.kept hs hv hmade hrun hk
    rw [hkept.suspended, hkept.load_area (by decide), h.left, Function.update_of_ne hrun]
    exact hs k hmade hrun

theorem Creating.suspended {tcb pd entry : UInt32} (h : Creating R s t j tcb pd entry) (hs : Suspended R s) :
    Suspended R t := by
  intro k hmade hk
  rw [h.running] at hk
  rw [h.left]
  by_cases hkj : k = j
  · subst hkj
    refine ⟨by rw [Function.update_self], ?_⟩
    have hsize := h.size
    have hsub : (8184 : UInt32).toNat = 8184 := rfl
    rw [h.byte, tcbWithStack_esp, Room, UInt32.add_comm, UInt32.add_sub_cancel, hsub]
    omega
  · have hold : k ∈ s.made := (h.made ▸ hmade).resolve_left hkj
    obtain ⟨hcontext, hroom⟩ := hs k hold hk
    have hkept : Kept s.machine.byte t.machine.byte (R.area k) := by
      rw [h.byte]
      refine Kept.of_frame hroom (fun x hx => ?_) fun x hx => ?_
      · have harea := Regions.within_area hx
        exact tcbWithStack_frame (R.areas _ _ hkj x harea) fun hx' =>
          R.areaStack _ _ x harea (hx'.trans_le h.size)
      · exact tcbWithStack_frame (fun hx' => R.areaStack _ _ x hx' hx) fun hx' =>
          R.stackStack _ _ hkj x hx (hx'.trans_le h.size)
    rw [hkept.suspended, hkept.load_area (by decide), Function.update_of_ne hkj]
    exact ⟨hcontext, hroom⟩

theorem consistent_inductive (hcode : Placed code at_ contextSwitch) :
    (system R code at_).Inductive (Consistent R) where
  init _ hs := hs
  step s a t hs hstep := by
    cases a with
    | compute =>
      obtain ⟨hrun, hmade, hleft, hkept⟩ := hstep
      refine ⟨by rw [hrun, hmade]; exact hs.runs, fun j hj hother => ?_⟩
      rw [hmade] at hj
      rw [hrun] at hother
      rw [(hkept j hj hother).suspended, (hkept j hj hother).load_area (by decide), hleft]
      exact hs.suspended j hj hother
    | create j =>
      obtain ⟨tcb, pd, entry, h⟩ := hstep
      exact ⟨by rw [h.running, h.made]; exact Or.inr hs.runs, h.suspended hs.suspended⟩
    | delete j =>
      obtain ⟨hother, rfl⟩ := hstep
      exact ⟨⟨hs.runs, fun h => hother h.symm⟩, fun k hk => hs.suspended k hk.1⟩
    | switch j =>
      obtain ⟨v, w, h⟩ := hstep
      exact ⟨by rw [h.running, h.stays]; exact h.made, h.suspended hcode hs.suspended⟩

/-- In every run, a switch to a thread goes on with what that thread was to go on with when it last called
`contextSwitch`, or when it was made: its callee-saved registers, its stack, its flags and its address space,
behind that call. -/
theorem switch_resumes (hcode : Placed code at_ contextSwitch) (hs : Reachable (system R code at_) s)
    (hstep : (system R code at_).step s (.switch j) t) :
    Context.of t.machine = s.left j ∧ ∀ i ∈ s.made, i ≠ j →
      suspended t.machine.byte (R.area i) = if i = s.running then
        .returning s.machine (load s.machine.byte (R.area s.running + 32)) else s.left i := by
  have hsuspended := (hs.invariant (consistent_inductive hcode)).suspended
  obtain ⟨v, w, h⟩ := hstep
  refine ⟨(h.spec hcode hsuspended).2.2, fun i hmade hi => ?_⟩
  rw [(h.suspended hcode hsuspended i (h.stays ▸ hmade) (h.running ▸ hi)).1, h.left]
  by_cases hrun : i = s.running
  · rw [if_pos hrun, hrun, Function.update_self]
  · rw [if_neg hrun, Function.update_of_ne hrun]

theorem Calls.switch (h : Calls R at_ s j) (hcode : Placed code at_ contextSwitch) (hs : Suspended R s)
    (hhandler : ∀ v : Machine, v.eip = s.machine.get (.mem .esp 12) →
      ∃ w, Reaches code v w ∧ Handled v w ∧ w.byte = v.byte) :
    ∃ t, (system R code at_).step s (.switch j) t ∧ t.running = j ∧ t.made = s.made ∧
      t.left = Function.update s.left s.running
        (.returning s.machine (load s.machine.byte (R.area s.running + 32))) := by
  obtain ⟨v, henters, hv, hleaves⟩ := contextSwitch_switches hcode h.eip (h.layout hs)
  obtain ⟨w, hruns, hhandled, hbyte⟩ := hhandler v hv.eip
  obtain ⟨m, hlast, -, -⟩ := hleaves w hhandled
  refine ⟨⟨m, j, s.made, _⟩, ⟨v, w, { h with
    enters := henters
    runs := hruns
    handled := hhandled
    keeps := fun k _ _ x _ => congrFun hbyte x
    leaves := hlast
    running := rfl
    stays := rfl
    left := rfl }⟩, rfl, rfl, rfl⟩

end

def frameOf (source target back : UInt32) : List (UInt32 × UInt32) :=
  [(0, back), (4, source), (8, target), (12, 30), (16, 5)]

def calling (byte : UInt32 → UInt8) (sp source target back : UInt32) : Machine where
  reg r := if r = .esp then sp else 1
  flags := ⟨false, false, true⟩
  cr2 := 0
  cr3 := 0x6000
  cs := 8
  ss := 16
  byte := store (store (storeFields byte sp (frameOf source target back)) (source + 20) 1) (target + 20) 1
  eip := 0

theorem calling_load {byte : UInt32 → UInt8} {sp source target back d w : UInt32}
    (hsource : Apart sp 20 (source + 20) 4) (htarget : Apart sp 20 (target + 20) 4)
    (h : (d, w) ∈ frameOf source target back) :
    load (calling byte sp source target back).byte (sp + d) = w := by
  have hd : 4 + d.toNat ≤ 20 := by
    have hall : ∀ f ∈ frameOf source target back, 4 + f.1.toNat ≤ 20 := by simp [frameOf]
    exact hall _ h
  have hspaced : (frameOf source target back).Pairwise fun f g => Spaced f.1 g.1 := by
    simp only [frameOf, List.pairwise_cons, List.forall_mem_cons, List.not_mem_nil, false_implies, implies_true,
      and_true, List.Pairwise.nil]
    decide
  rw [calling, load_store_apart (htarget.sub hd), load_store_apart (hsource.sub hd), load_storeFields hspaced h]

def exampleRegions : Regions Bool where
  area i := if i then 0x3000 else 0x2000
  stack i := if i then 0x5000 else 0x8000
  size i := if i then 0x2000 else 0x1000
  areas i j h := by
    cases i <;> cases j
    · exact absurd rfl h
    · exact apart_of_le (by decide) (by decide)
    · exact (apart_of_le (by decide) (by decide)).symm
    · exact absurd rfl h
  areaStack i j := by
    cases i <;> cases j <;> exact apart_of_le (by decide) (by decide)
  stackStack i j h := by
    cases i <;> cases j
    · exact absurd rfl h
    · exact (apart_of_le (by decide) (by decide)).symm
    · exact apart_of_le (by decide) (by decide)
    · exact absurd rfl h

def exampleStack (i : Bool) : UInt32 := if i then 0x6800 else 0x8800

def exampleCode : Code := assemble (contextSwitch ++ [.ret])

theorem example_placed : Placed exampleCode UInt32.ofNat (contextSwitch ++ [.ret]) :=
  placed_assemble (by decide)

theorem example_handled {v : Machine} (hv : v.eip = 30) :
    ∃ w, Reaches exampleCode v w ∧ Handled v w ∧ w.byte = v.byte := by
  have hrun : Reaches exampleCode v (v.goTo (UInt32.ofNat 30)) := by
    have hentry : v.eip = UInt32.ofNat 30 := hv
    rw [goTo_of_eip hentry]
    exact .refl
  obtain ⟨hreaches, hreturned⟩ := example_placed.returns (k := 30) rfl hrun (.refl _ v) rfl
  exact ⟨_, hreaches, ⟨hreturned, fun _ _ => rfl⟩, rfl⟩

theorem example_turn {s : State Bool} (hs : Consistent exampleRegions s) (back : UInt32)
    (hother : (!s.running) ∈ s.made) :
    let m := calling s.machine.byte (exampleStack s.running) (exampleRegions.area s.running)
      (exampleRegions.area (!s.running)) back
    (system exampleRegions exampleCode UInt32.ofNat).step s .compute { s with machine := m } ∧
      m.top = back ∧ ∃ t, (system exampleRegions exampleCode UInt32.ofNat).step { s with machine := m }
        (.switch !s.running) t ∧ t.running = (!s.running) ∧ t.made = s.made ∧
        t.left = Function.update s.left s.running
          (.returning m (load m.byte (exampleRegions.area s.running + 32))) := by
  have hstack : ∀ i x, Within (exampleStack i) 20 x → Within (exampleRegions.stack i) (exampleRegions.size i) x := by
    intro i x hx
    cases i
    · exact Within.sub (d := 0x800) hx (by decide)
    · exact Within.sub (d := 0x1800) hx (by decide)
  have hflags : ∀ i j, Apart (exampleStack i) 20 (exampleRegions.area j + 20) 4 := by
    intro i j
    cases i <;> cases j <;> exact (apart_of_le (by decide) (by decide)).symm
  have hboth : ∀ i, Apart (exampleRegions.area i + 20) 4 (exampleRegions.area (!i) + 20) 4 := by
    intro i
    cases i
    · exact apart_of_le (by decide) (by decide)
    · exact (apart_of_le (by decide) (by decide)).symm
  have hroom : ∀ i, Room (exampleRegions.stack i) (exampleRegions.size i) (exampleStack i) 16 20 := by
    intro i
    cases i <;> exact ⟨by decide, by decide⟩
  intro m
  have hframe : ∀ d w, (d, w) ∈ frameOf (exampleRegions.area s.running) (exampleRegions.area (!s.running)) back →
      m.get (.mem .esp d) = w := fun d w => calling_load (hflags _ _) (hflags _ _)
  have hstep : (system exampleRegions exampleCode UInt32.ofNat).step s .compute { s with machine := m } :=
    hs.suspended.calling (j := !s.running) (by simp [frameOf]) (hstack s.running) rfl
  have hcalls : Calls exampleRegions UInt32.ofNat { s with machine := m } (!s.running) :=
    { made := hother
      other := Bool.not_ne_self _
      eip := rfl
      source := hframe 4 _ (by simp [frameOf])
      target := hframe 8 _ (by simp [frameOf])
      sourcePreempt := (load_store_apart (hboth s.running)).trans load_store_self
      targetPreempt := load_store_self
      room := hroom s.running }
  have hnext := (consistent_inductive example_placed.of_append).step s .compute _ hs hstep
  refine ⟨hstep, ?_, hcalls.switch example_placed.of_append hnext.suspended fun v hv => ?_⟩
  · have htop := hframe 0 back (by simp [frameOf])
    rwa [Machine.get_mem, UInt32.add_zero] at htop
  · exact example_handled (hv.trans (hframe 12 30 (by simp [frameOf])))

def exampleState : State Bool where
  machine := calling (fun _ => 0) 0x8800 0x2000 0x3000 99
  running := false
  made := {false}
  left _ := suspended (fun _ => 0) 0x3000

def createdState : State Bool where
  machine :=
    { exampleState.machine with
      byte := tcbWithStack exampleState.machine.byte 0x3000 0x5000 0x3000 0x7000 77 }
  running := false
  made := insert true {false}
  left := Function.update exampleState.left true
    (suspended (tcbWithStack exampleState.machine.byte 0x3000 0x5000 0x3000 0x7000 77) 0x3000)

theorem switch_resumes_both : ∃ s t : State Bool, Reachable (system exampleRegions exampleCode UInt32.ofNat) s ∧
    (system exampleRegions exampleCode UInt32.ofNat).step s (.switch false) t ∧ s.running = true ∧
    t.machine.eip = 99 ∧ t.machine.reg .esp = 0x8804 ∧ t.machine.flags.interrupt = true := by
  have hinit : Consistent exampleRegions exampleState :=
    ⟨Set.mem_singleton _, fun j hj hother => absurd hj hother⟩
  have hcreate : (system exampleRegions exampleCode UInt32.ofNat).step exampleState (.create true) createdState :=
    ⟨0x3000, 0x7000, 77, ⟨by simp [exampleState], by decide, rfl, rfl, rfl, rfl⟩⟩
  have hmade : Reachable (system exampleRegions exampleCode UInt32.ofNat) createdState := .next (.start hinit) hcreate
  have hinv := consistent_inductive (R := exampleRegions) example_placed.of_append
  obtain ⟨hcall, htop, t₁, hswitch, hrun, hall, hleft⟩ :=
    example_turn (hmade.invariant hinv) 99 (show true ∈ createdState.made from Set.mem_insert _ _)
  have hback := (hmade.next hcall).next hswitch
  have hfalse : (!t₁.running) = false := by rw [hrun]; rfl
  obtain ⟨hcall₂, -, t₂, hswitch₂, -, -, -⟩ := example_turn (hback.invariant hinv) 55 (by
    rw [hfalse, hall]
    exact Or.inr rfl)
  rw [hfalse] at hswitch₂ hcall₂
  have hresumes := (switch_resumes example_placed.of_append (hback.next hcall₂) hswitch₂).1
  have hcontext : t₁.left false = .returning _ _ := (congrFun hleft false).trans (Function.update_self _ _ _)
  refine ⟨_, t₂, hback.next hcall₂, hswitch₂, hrun, ?_, ?_, ?_⟩
  · exact (congrArg Context.eip (hresumes.trans hcontext)).trans htop
  · exact congrArg Context.esp (hresumes.trans hcontext)
  · exact congrArg (fun c => c.flags.interrupt) (hresumes.trans hcontext)

end MMapKernel.Resume
