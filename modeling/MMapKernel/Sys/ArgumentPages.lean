import MMapKernel.Sys.Arguments
import MMapKernel.Sys.ElfImage

/-!
# The pages of the argument stack

`exec` maps the stack and stores the arguments below its top, and a page that is not there faults. The
region of the stack starts within a page, which it does not hold: arguments that reach down to that
page end the process.
-/

namespace MMapKernel.Sys
open Fs Vmm Ram

/-- `SYS::exec` behind `ELF::load`, with the arguments in the kernel memory `byte`: the stack pointer and
the state in which `switchToUser` is reached. -/
def pushStack (cfg : Config) (inode : ℕ → Node) (word : NodePtr) (pid : ℕ) (byte : UInt32 → UInt8)
    (argv : List UInt32) (k : Kernel) : Option (UInt32 × Kernel) :=
  (mapIn cfg pid (stackArgs word) k).bind fun k =>
    (pushArguments ⟨byte, []⟩ argv).bind fun t =>
      (writeAll inode pid k (t.2.log.map fun w => ⟨false, w.1, w.2⟩)).map fun k => (t.1, k)

def withStack (cfg : Config) (maps : List VMEntry) : List VMEntry :=
  afterCall cfg maps (.mmap (stackArgs .null))

section
variable {cfg : Config} {inode : ℕ → Node} {pid total : ℕ} {maps : List VMEntry} {r : Residency}
  {k k' : Kernel} {p : Process} {word : NodePtr} {ram ram' : Ram} {args : List (UInt32 × ℕ)} {sp : UInt32}
  {byte : UInt32 → UInt8}

theorem argStores_all {ptr val : UInt32} (hs : ∀ a ∈ args, KernelString ram a.1 a.2)
    (harr : ptr.toNat + 4 * (args.length + 1) ≤ val.toNat)
    (hval : val.toNat + stringBytes args < 2 ^ 32) {a : UInt32}
    (ha : In ptr (4 * (args.length + 1)) a ∨ In val (stringBytes args) a) :
    a ∈ argStores (stackLengths args) ptr val := by
  induction args generalizing ptr val with
  | nil =>
    have hin : In ptr 4 a := by
      rcases ha with ha | ha
      · exact ha
      · unfold In at ha
        simp only [stringBytes, List.map_nil, List.sum_nil] at ha
        omega
    exact hin.mem_range
  | cons arg args ih =>
    obtain ⟨p, n⟩ := arg
    have hcons : ∀ l, stringBytes ((p, n) :: l) = padded n + stringBytes l := stringBytes_cons (p, n)
    rw [hcons] at hval ha
    rw [List.length_cons] at harr ha
    have hlow : p.toNat + n < 0x80000000 := (hs (p, n) List.mem_cons_self).low
    have hlen := argLength_toNat (n := n) (by omega)
    have hptr' : (ptr + 4).toNat = ptr.toNat + 4 := add_four_toNat (by omega)
    have hval' : (val + argLength (UInt32.ofNat n)).toNat = val.toNat + padded n := by
      rw [UInt32.toNat_add, hlen]
      omega
    have hlens : stackLengths ((p, n) :: args) = UInt32.ofNat n :: stackLengths args := rfl
    have hih := @ih (ptr + 4) (val + argLength (UInt32.ofNat n)) (fun b hb => hs b (List.mem_cons_of_mem _ hb))
      (by omega) (by omega)
    rw [hlens, argStores, hlen]
    by_cases hptr : In ptr 4 a
    · simp only [List.mem_append]
      exact Or.inl (Or.inl (Or.inl hptr.mem_range))
    by_cases hstring : In val (padded n) a
    · simp only [List.mem_append]
      exact Or.inl (Or.inl (Or.inr hstring.mem_range))
    refine List.mem_append_right _ (hih ?_)
    unfold In at *
    omega

theorem mem_stackStores_iff (hs : ∀ a ∈ args, KernelString ram a.1 a.2) (hfit : totalBytes args ≤ 4000000)
    {x : UInt32} :
    x ∈ stackStores (stackLengths args) ↔ stackTop.toNat ≤ x.toNat + totalBytes args ∧ x < stackTop := by
  have hl := stackPointer_layout hs hfit
  have hlen : (stackLengths args).length = args.length := List.length_map ..
  rw [stackStores]
  simp only [hlen]
  generalize stackTop - (12 + 4 * UInt32.ofNat args.length + ((stackLengths args).map argLength).sum) = sp at hl ⊢
  have htotal := hl.total
  have hroom := hl.room
  have hval := hl.values
  have h4 : (sp + 4).toNat = sp.toNat + 4 := hl.add (by change 4 ≤ _; omega)
  have h8 : (sp + 8).toNat = sp.toNat + 8 := hl.add (by change 8 ≤ _; omega)
  have htop : stackTop.toNat = 0xefffe000 := rfl
  rw [UInt32.lt_iff_toNat_lt, htop, totalBytes]
  simp only [List.mem_append]
  constructor
  · rintro ((hx | hx) | hx)
    · have hin := mem_range (by omega) hx
      unfold In at hin
      omega
    · have hin := mem_range (by omega) hx
      unfold In at hin
      omega
    · have hin := argStores_within hs (by omega) (by omega) x hx
      unfold In at hin
      omega
  · rintro ⟨hlow, hhigh⟩
    by_cases h₁ : In sp 4 x
    · exact Or.inl (Or.inl h₁.mem_range)
    by_cases h₂ : In (sp + 4) 4 x
    · exact Or.inl (Or.inr h₂.mem_range)
    refine Or.inr (argStores_all hs (by omega) (by omega) ?_)
    unfold In at *
    omega

theorem stack_returns (h : Resides pid maps total r k) (word : NodePtr) {xs : List UInt32}
    {f : Kernel → Option Kernel}
    (hf : ∀ k₁, Resides pid (withStack cfg maps) total r k₁ →
      ComesTo pid (withStack cfg maps) total (xs.foldl (Residency.touch (withStack cfg maps)) r)
        ((∀ x ∈ xs, r.Serves (withStack cfg maps) x) ∧
          r.QuietAll inode (withStack cfg maps) (xs.map fun x => (false, x))) (f k₁)) :
    (∃ k', (mapIn cfg pid (stackArgs word) k).bind f = some k') ↔
      ((∀ x ∈ xs, r.Serves (withStack cfg maps) x) ∧
        r.QuietAll inode (withStack cfg maps) (xs.map fun x => (false, x))) ∧
      (xs.foldl (Residency.touch (withStack cfg maps)) r).taken ≤ total := by
  obtain ⟨k₁, hmap, h₁⟩ := h.mapIn cfg (a := stackArgs word) rfl not_fixed
  rw [hmap, Option.bind_some]
  exact (hf k₁ h₁).returns

theorem stack_writes (h : Resides pid maps total r k) (word : NodePtr) {ws : List Write} {xs : List UInt32}
    (hws : ws.map Write.transfer = xs.map fun x => (false, x)) :
    (∃ k', ((mapIn cfg pid (stackArgs word) k).bind fun k => writeAll inode pid k ws) = some k') ↔
      ((∀ x ∈ xs, r.Serves (withStack cfg maps) x) ∧
        r.QuietAll inode (withStack cfg maps) (xs.map fun x => (false, x))) ∧
      (xs.foldl (Residency.touch (withStack cfg maps)) r).taken ≤ total := by
  have haddress : ws.map Write.address = xs := by
    have hsnd := congrArg (List.map Prod.snd) hws
    rw [List.map_map, List.map_map] at hsnd
    exact hsnd.trans (List.map_id xs)
  refine stack_returns h word fun k₁ h₁ => ?_
  have hspec := writeAll_spec inode h₁ ws
  rwa [haddress, hws] at hspec

theorem stack_stores (h : Resides pid maps total r k) (word : NodePtr) (xs : List UInt32) :
    (∃ k', ((mapIn cfg pid (stackArgs word) k).bind fun k => storeAll inode pid k xs) = some k') ↔
      ((∀ x ∈ xs, r.Serves (withStack cfg maps) x) ∧
        r.QuietAll inode (withStack cfg maps) (xs.map fun x => (false, x))) ∧
      (xs.foldl (Residency.touch (withStack cfg maps)) r).taken ≤ total := by
  have hsnd : (xs.map fun x => (false, x)).map Prod.snd = xs := List.map_map.trans (List.map_id xs)
  refine stack_returns h word fun k₁ h₁ => ?_
  have hspec := storeEach_spec inode h₁ (xs.map fun x => (false, x))
  rwa [hsnd, ← storeAll_eq] at hspec

theorem pushStack_eq (hpush : pushArguments ⟨byte, []⟩ (args.map Prod.fst) = some (sp, ram')) :
    pushStack cfg inode word pid byte (args.map Prod.fst) k =
      ((mapIn cfg pid (stackArgs word) k).bind fun k =>
        writeAll inode pid k (ram'.log.map fun w => ⟨false, w.1, w.2⟩)).map fun k => (sp, k) := by
  simp only [pushStack, hpush, Option.bind_some, Option.map_bind]
  rfl

theorem log_transfers (hstack : ArgumentStack ⟨byte, []⟩ ram' args sp) :
    (ram'.log.map fun w => (⟨false, w.1, w.2⟩ : Write)).map Write.transfer =
      (stackStores (stackLengths args)).map fun x => (false, x) := by
  rw [← hstack.stored.trans (List.nil_append _), Ram.stored, List.map_map, List.map_map]
  rfl

theorem Owning.stack (h : Owning cfg pid k) (hclear : Clear cfg (stackTop - 4000000) 4000000)
    (hs : ∀ a ∈ args, KernelString ⟨byte, []⟩ a.1 a.2) (hfit : totalBytes args ≤ 4000000)
    (hpush : pushArguments ⟨byte, []⟩ (args.map Prod.fst) = some (sp, ram'))
    (hstack : ArgumentStack ⟨byte, []⟩ ram' args sp)
    (hk : ((Sys.mapIn cfg pid (stackArgs word) k).bind fun k =>
      Sys.writeAll inode pid k (ram'.log.map fun w => ⟨false, w.1, w.2⟩)) = some k') {x : UInt32} (hlow : sp ≤ x)
    (hhigh : x < stackTop) : k'.byteAt pid x = some (ram'.byte x) := by
  obtain ⟨k₁, hmap, hwrites⟩ := Option.bind_eq_some_iff.mp hk
  have hlogged : Logged byte ram' := pushArguments_logged (r := ⟨byte, []⟩) rfl hpush
  have haddress : (ram'.log.map fun w => (⟨false, w.1, w.2⟩ : Write)).map Write.address =
      stackStores (stackLengths args) := List.map_map.trans (hstack.stored.trans (List.nil_append _))
  have hentry : (ram'.log.map fun w => (⟨false, w.1, w.2⟩ : Write)).map Write.entry = ram'.log :=
    List.map_map.trans (List.map_id _)
  have hsize := hstack.size
  have huser : ∀ y ∈ stackStores (stackLengths args), UserByte cfg y := fun y hy => by
    obtain ⟨hfrom, hto⟩ := (mem_stackStores_iff hs hfit).mp hy
    rw [UInt32.lt_iff_toNat_lt] at hto
    have htop : stackTop.toNat = 0xefffe000 := rfl
    have hbottom : (stackTop - 4000000).toNat = 0xefffe000 - 4000000 := rfl
    exact hclear.userByte (mem_addresses_of_le (by rw [hbottom]; omega) (by rw [hbottom]; omega))
  obtain ⟨-, hbytes, -⟩ := (h.mapIn (a := stackArgs word) rfl not_fixed hmap).1.replay (fun w hw =>
    huser _ (haddress ▸ List.mem_map_of_mem hw)) byte hwrites
  rw [haddress, hentry] at hbytes
  rw [hbytes x ((mem_stackStores_iff hs hfit).mpr ⟨?_, hhigh⟩), hlogged]
  rw [UInt32.le_iff_toNat_le] at hlow
  omega

theorem loadProgram_resides {file : Node} {words : ℕ → NodePtr} {k₀ : Kernel} (hp : k₀.procs[pid]? = some p)
    (hlive : p.status = .live) (hw : k₀.phys.Whole) (hnamed : ∀ n ∈ k₀.nodeList, n < k₀.nodes.length)
    (hload : loadProgram cfg inode file words pid k₀ = .loaded k) :
    ∃ bytes maps total r, file.io.readThing 0 52 = some bytes ∧ Resides pid maps total r k := by
  cases hread : file.io.readThing 0 52 with
  | none => simp [loadProgram, hread] at hload
  | some bytes =>
    by_cases ha : (ElfHeader.ofBytes bytes).accepted = true
    · rw [loadProgram_accepted hread ha hp] at hload
      cases hloop : loadIntoLoop cfg inode file pid (ElfHeader.ofBytes bytes).phentsize.toUInt32 words
          (ElfHeader.ofBytes bytes).phnum.toNat (ElfHeader.ofBytes bytes).phoff (cleared cfg pid p k₀) with
      | none => simp [hloop] at hload
      | some k₁ =>
        simp only [hloop, ExecResult.loaded.injEq] at hload
        rw [loadIntoLoop_eq] at hloop
        have hspec := (headerLoop_spec (fun _ _ _ word ph => loadInto_spec cfg inode file word ph) _ words _ _
          (cleared_resides cfg hp hlive hw hnamed)).resides k₁ hloop
        exact ⟨bytes, _, _, _, rfl, hload ▸ hspec⟩
    · rw [Bool.not_eq_true] at ha
      simp [loadProgram, hread, ha] at hload

theorem exec_returns_iff {file : Node} {words : ℕ → NodePtr} {k₀ : Kernel} (hp : k₀.procs[pid]? = some p)
    (hlive : p.status = .live) (hw : k₀.phys.Whole) (hnamed : ∀ n ∈ k₀.nodeList, n < k₀.nodes.length)
    (hload : loadProgram cfg inode file words pid k₀ = .loaded k) (word : NodePtr)
    (hs : ∀ a ∈ args, KernelString ⟨byte, []⟩ a.1 a.2) (hfit : totalBytes args ≤ 4000000) :
    (∃ k', exec cfg inode file words pid (stackLengths args) k₀ = some k') ↔
      ∃ t, pushStack cfg inode word pid byte (args.map Prod.fst) k = some t := by
  obtain ⟨bytes, maps, total, r, hread, hr⟩ := loadProgram_resides hp hlive hw hnamed hload
  obtain ⟨sp, ram', hpush, hstack⟩ := pushArguments_spec ⟨byte, []⟩ args hs hfit
  simp only [exec_eq, hload, hread, Option.bind_some, pushStack_eq hpush, Option.map_eq_some_iff]
  rw [stack_stores hr, ← stack_writes hr word (log_transfers hstack)]
  exact ⟨fun ⟨k', hk'⟩ => ⟨_, k', hk', rfl⟩, fun ⟨_, k', hk', _⟩ => ⟨k', hk'⟩⟩

end

end MMapKernel.Sys
