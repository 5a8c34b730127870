import MMapKernel.Lib.Ram
import MMapKernel.Sys.Exec

/-!
# The argument stack of `SYS::exec`

`exec` writes the count, the pointers and the strings below the top of the stack, byte by byte.
The strings it copies lie in kernel memory, where the handler of `execl` has put them; what
follows a string there fills it up to whole words and is not known.
-/

namespace MMapKernel.Sys
open Fs Vmm Ram

def strlenLoop (byte : UInt32 → UInt8) : ℕ → UInt32 → UInt32 → Option UInt32
  | 0, _, _ => none
  | turns + 1, str, n => if byte str ≠ 0 then strlenLoop byte turns (str + 1) (n + 1) else some n

def strlen (r : Ram) (str : UInt32) : Option UInt32 := strlenLoop r.byte (2 ^ 32) str 0

def storeWord (r : Ram) (a w : UInt32) : Ram := r.storeBytes a (wordBytes w)

def wordAt (r : Ram) (a : UInt32) : UInt32 := word (r.load a 4) 0

/-- The loop over the arguments, each with the bytes it takes on the stack. The loop in `memcpy`
counts its signed register down as that of `bzero` does. -/
def pushLoop : List (UInt32 × UInt32) → UInt32 → UInt32 → Ram → Option Ram
  | [], argvPtr, _, r => some (storeWord r argvPtr 0)
  | (arg, length) :: rest, argvPtr, argvVal, r =>
    let r := (storeWord r argvPtr argvVal).copy argvVal arg (bzeroTurns length)
    (strlen r arg).bind fun n =>
      pushLoop rest (argvPtr + 4) (argvVal + length) (r.store (argvVal + n) 0)

def pushArguments (r : Ram) (argv : List UInt32) : Option (UInt32 × Ram) :=
  (argv.mapM fun arg => (strlen r arg).map argLength).bind fun lengths =>
    let argc := UInt32.ofNat argv.length
    let sp := stackTop - (12 + 4 * argc + lengths.sum)
    let r := storeWord (storeWord r sp argc) (sp + 4) (sp + 8)
    (pushLoop (argv.zip lengths) (sp + 8) (sp + 8 + 4 * (argc + 1)) r).map fun r => (sp, r)

theorem length_wordBytes (w : UInt32) : (wordBytes w).length = 4 := rfl

section Words
variable {r : Ram} {a p w : UInt32}

theorem storeWord_stored (r : Ram) (a w : UInt32) :
    (storeWord r a w).stored = r.stored ++ addresses a 4 := storeBytes_stored r a _

theorem storeWord_frame (h : p.toNat + 4 ≤ 2 ^ 32) (ha : ¬In p 4 a) :
    (storeWord r p w).byte a = r.byte a := storeBytes_frame h ha

theorem wordAt_storeWord (r : Ram) (p w : UInt32) : wordAt (storeWord r p w) p = w := by
  rw [wordAt, storeWord, ← length_wordBytes w, load_storeBytes (by rw [length_wordBytes]; decide),
    word_wordBytes]

theorem wordAt_congr {r' : Ram} (h : p.toNat + 4 ≤ 2 ^ 32)
    (hb : ∀ a, In p 4 a → r'.byte a = r.byte a) : wordAt r' p = wordAt r p := by
  rw [wordAt, wordAt, load_congr h hb]

end Words

/-- A string of `n` characters and its null byte, below the user half. -/
structure KernelString (r : Ram) (p : UInt32) (n : ℕ) : Prop where
  low : p.toNat + n < 0x80000000
  chars : ∀ j < n, r.byte (p + UInt32.ofNat j) ≠ 0
  ends : r.byte (p + UInt32.ofNat n) = 0

theorem strlenLoop_spec {byte : UInt32 → UInt8} {n : ℕ} {p : UInt32}
    (hchars : ∀ j < n, byte (p + UInt32.ofNat j) ≠ 0) (hend : byte (p + UInt32.ofNat n) = 0)
    {turns : ℕ} (hturns : n < turns) (m : UInt32) :
    strlenLoop byte turns p m = some (m + UInt32.ofNat n) := by
  induction n generalizing p turns m with
  | zero =>
    obtain ⟨turns, rfl⟩ : ∃ t, turns = t + 1 := ⟨turns - 1, by omega⟩
    have hp : byte p = 0 := by simpa using hend
    simp [strlenLoop, hp]
  | succ n ih =>
    obtain ⟨turns, rfl⟩ : ∃ t, turns = t + 1 := ⟨turns - 1, by omega⟩
    have hp : byte p ≠ 0 := by simpa using hchars 0 (by omega)
    rw [strlenLoop, if_pos hp, ih (fun j hj => by
      rw [← offset_succ]
      exact hchars (j + 1) (by omega)) (by rw [← offset_succ]; exact hend) (by omega), offset_succ]

theorem KernelString.strlen {r : Ram} {p : UInt32} {n : ℕ} (h : KernelString r p n) :
    Sys.strlen r p = some (UInt32.ofNat n) := by
  have hlow := h.low
  rw [Sys.strlen, strlenLoop_spec h.chars h.ends (by omega), UInt32.zero_add]

theorem KernelString.congr {r r' : Ram} {p : UInt32} {n : ℕ} (h : KernelString r p n)
    (hb : ∀ a : UInt32, a.toNat < 0x80000000 → r'.byte a = r.byte a) : KernelString r' p n := by
  have hlow := h.low
  refine ⟨h.low, fun j hj => ?_, ?_⟩
  · rw [hb _ (by rw [toNat_offset (by omega)]; omega)]
    exact h.chars j hj
  · rw [hb _ (by rw [toNat_offset (by omega)]; omega)]
    exact h.ends

def padded (n : ℕ) : ℕ := (n + 4) / 4 * 4

theorem add_four_toNat {p : UInt32} (h : p.toNat + 4 < 2 ^ 32) : (p + 4).toNat = p.toNat + 4 := by
  rw [UInt32.toNat_add]
  change (p.toNat + 4) % 2 ^ 32 = _
  omega

theorem argLength_toNat {n : ℕ} (h : n < 0x80000000) : (argLength (UInt32.ofNat n)).toNat = padded n := by
  have h₁ : (UInt32.ofNat n + 1).toNat = n + 1 := by
    rw [UInt32.toNat_add, UInt32.toNat_ofNat', UInt32.toNat_one]
    omega
  have h₂ : ((UInt32.ofNat n + 1) % 4).toNat = (n + 1) % 4 := by
    rw [UInt32.toNat_mod, h₁]
    rfl
  have h₃ : (4 - (UInt32.ofNat n + 1) % 4).toNat = 4 - (n + 1) % 4 := by
    rw [UInt32.toNat_sub_of_le, h₂]
    · rfl
    · rw [UInt32.le_iff_toNat_le, h₂]
      change (n + 1) % 4 ≤ 4
      omega
  rw [argLength, UInt32.toNat_add, h₁, UInt32.toNat_mod, h₃, padded]
  change (n + 1 + (4 - (n + 1) % 4) % 4) % 2 ^ 32 = _
  omega

def stringBytes (args : List (UInt32 × ℕ)) : ℕ := (args.map fun a => padded a.2).sum

def totalBytes (args : List (UInt32 × ℕ)) : ℕ := 12 + 4 * args.length + stringBytes args

theorem stringBytes_cons (a : UInt32 × ℕ) (args : List (UInt32 × ℕ)) :
    stringBytes (a :: args) = padded a.2 + stringBytes args := rfl

theorem stringBytes_mod (args : List (UInt32 × ℕ)) : stringBytes args % 4 = 0 := by
  induction args with
  | nil => rfl
  | cons a args ih =>
    rw [stringBytes_cons, padded]
    omega

theorem padded_pos (n : ℕ) : n < padded n := by
  unfold padded
  omega

theorem padded_le (n : ℕ) : padded n ≤ n + 4 := by
  unfold padded
  omega

/-- What the loop leaves for its arguments: the pointers from `ptr` on, closed by a null
pointer, and the strings from `val` on. -/
structure Pushed (r r' : Ram) (args : List (UInt32 × ℕ)) (ptr val : UInt32) : Prop where
  frame : ∀ a, ¬In ptr (4 * (args.length + 1)) a → ¬In val (stringBytes args) a →
    r'.byte a = r.byte a
  null : wordAt r' (ptr + 4 * UInt32.ofNat args.length) = 0
  strings : ∀ i (hi : i < args.length),
    (wordAt r' (ptr + 4 * UInt32.ofNat i)).toNat = val.toNat + stringBytes (args.take i) ∧
    ∀ j ≤ args[i].2, r'.byte (wordAt r' (ptr + 4 * UInt32.ofNat i) + UInt32.ofNat j) =
      r.byte (args[i].1 + UInt32.ofNat j)
  stored : r'.stored = r.stored ++ argStores (args.map fun a => UInt32.ofNat a.2) ptr val

theorem four_mul_succ (ptr : UInt32) (i : ℕ) :
    ptr + 4 * UInt32.ofNat (i + 1) = ptr + 4 + 4 * UInt32.ofNat i := by
  apply UInt32.toNat_inj.mp
  simp only [UInt32.toNat_add, UInt32.toNat_mul, UInt32.toNat_ofNat', UInt32.reduceToNat]
  omega

section Loop
variable {r : Ram} {args : List (UInt32 × ℕ)} {ptr val : UInt32}

structure Turned (r r₃ : Ram) (p : UInt32) (n : ℕ) (ptr val : UInt32) : Prop where
  frame : ∀ a, ¬In ptr 4 a → ¬In val (padded n) a → r₃.byte a = r.byte a
  pointer : wordAt r₃ ptr = val
  string : ∀ j ≤ n, r₃.byte (val + UInt32.ofNat j) = r.byte (p + UInt32.ofNat j)

theorem turn_spec {p : UInt32} {n : ℕ} (hs : KernelString r p n) (hptr : 0x80000000 ≤ ptr.toNat)
    (harr : ptr.toNat + 4 ≤ val.toNat) (hval : val.toNat + padded n ≤ 2 ^ 32) :
    Turned r (((storeWord r ptr val).copy val p (padded n)).store (val + UInt32.ofNat n) 0) p n
      ptr val := by
  have hn := padded_pos n
  have hpad := padded_le n
  have hlow := hs.low
  have hend : (val + UInt32.ofNat n).toNat = val.toNat + n := toNat_offset (by omega)
  refine ⟨fun a ha hb => ?_, ?_, fun j hj => ?_⟩
  · have hne : a ≠ val + UInt32.ofNat n := fun he => hb ⟨by rw [he, hend]; omega, by rw [he, hend]; omega⟩
    rw [store_ne _ _ hne, copy_frame hval hb, storeWord_frame (by omega) ha]
  · rw [wordAt_congr (r := storeWord r ptr val) (by omega) fun a ha => ?_, wordAt_storeWord]
    have ha₂ := ha.2
    have hne : a ≠ val + UInt32.ofNat n := fun he => by
      rw [he, hend] at ha₂
      omega
    rw [store_ne _ _ hne, copy_frame hval fun hb => by have := hb.1; omega]
  · have hsrc : p.toNat + padded n ≤ val.toNat := by omega
    by_cases hjn : j = n
    · rw [hjn, store_self, hs.ends]
    · have hne : val + UInt32.ofNat j ≠ val + UInt32.ofNat n := fun he => by
        have := congrArg UInt32.toNat he
        rw [hend, toNat_offset (by omega)] at this
        omega
      have hp : (p + UInt32.ofNat j).toNat = p.toNat + j := toNat_offset (by omega)
      rw [store_ne _ _ hne, copy_byte hval hsrc (by omega), storeWord_frame (by omega) fun ha => by
        have := ha.1
        omega]

section Cons
variable {r₁ r' : Ram} {p : UInt32} {n : ℕ}

theorem Turned.kernel (hturn : Turned r r₁ p n ptr val) (hptr : 0x80000000 ≤ ptr.toNat)
    (harr : ptr.toNat ≤ val.toNat) (a : UInt32) (ha : a.toNat < 0x80000000) : r₁.byte a = r.byte a :=
  hturn.frame a (fun h => by have := h.1; omega) fun h => by have := h.1; omega

theorem Pushed.first {val' : UInt32} (hrest : Pushed r₁ r' args (ptr + 4) val')
    (hptr : (ptr + 4).toNat = ptr.toNat + 4) (hval : val'.toNat = val.toNat + padded n)
    (harr : ptr.toNat + 4 * (args.length + 2) ≤ val.toNat) {a : UInt32}
    (ha : In ptr 4 a ∨ In val (padded n) a) : r'.byte a = r₁.byte a := by
  unfold In at ha
  refine hrest.frame a (fun h => ?_) fun h => ?_
  · obtain ⟨h₁, h₂⟩ := h
    omega
  · obtain ⟨h₁, h₂⟩ := h
    omega

theorem pushLoop_cons (hs : KernelString r p n) (hptr : 0x80000000 ≤ ptr.toNat)
    (harr : ptr.toNat + 4 ≤ val.toNat) (hval : val.toNat + padded n ≤ 2 ^ 32)
    (rest : List (UInt32 × UInt32)) :
    pushLoop ((p, argLength (UInt32.ofNat n)) :: rest) ptr val r =
      pushLoop rest (ptr + 4) (val + argLength (UInt32.ofNat n))
        (((storeWord r ptr val).copy val p (padded n)).store (val + UInt32.ofNat n) 0) := by
  have hn := padded_pos n
  have hlow := hs.low
  have hlen := argLength_toNat (n := n) (by omega)
  have hturns : bzeroTurns (argLength (UInt32.ofNat n)) = padded n := by
    have hsmall : argLength (UInt32.ofNat n) < 0x80000000 := by
      rw [UInt32.lt_iff_toNat_lt, hlen]
      change padded n < 0x80000000
      omega
    rw [bzeroTurns, if_pos hsmall, hlen]
  -- the stores are in the user half, so the string is still there
  have hstrlen : Sys.strlen ((storeWord r ptr val).copy val p (padded n)) p = some (UInt32.ofNat n) := by
    refine (hs.congr fun a ha => ?_).strlen
    rw [copy_frame hval fun h => by have := h.1; omega,
      storeWord_frame (by omega) fun h => by have := h.1; omega]
  simp only [pushLoop, hturns, hstrlen, Option.bind_some]

theorem Turned.pushed (hturn : Turned r r₁ p n ptr val) {val' : UInt32}
    (hrest : Pushed r₁ r' args (ptr + 4) val') (hs : ∀ a ∈ args, KernelString r a.1 a.2)
    (hptr : 0x80000000 ≤ ptr.toNat) (harr : ptr.toNat + 4 * (args.length + 2) ≤ val.toNat)
    (hval : val.toNat + padded n < 2 ^ 32) (hval' : val'.toNat = val.toNat + padded n)
    (hstored : r'.stored =
      r.stored ++ argStores (((p, n) :: args).map fun a => UInt32.ofNat a.2) ptr val) :
    Pushed r r' ((p, n) :: args) ptr val := by
  have hn := padded_pos n
  have hptr' : (ptr + 4).toNat = ptr.toNat + 4 := add_four_toNat (by omega)
  have hfirst : ∀ a, In ptr 4 a ∨ In val (padded n) a → r'.byte a = r₁.byte a :=
    fun a ha => hrest.first hptr' hval' harr ha
  refine ⟨fun a ha hb => ?_, ?_, fun i hi => ?_, hstored⟩
  · have hbytes : stringBytes ((p, n) :: args) = padded n + stringBytes args := stringBytes_cons (p, n) args
    rw [hbytes] at hb
    rw [List.length_cons] at ha
    unfold In at ha hb
    rw [hrest.frame a (by unfold In; omega) (by unfold In; omega),
      hturn.frame a (by unfold In; omega) (by unfold In; omega)]
  · rw [List.length_cons, four_mul_succ]
    exact hrest.null
  · cases i with
    | zero =>
      have hz : ptr + 4 * UInt32.ofNat 0 = ptr := by simp
      have hword : wordAt r' ptr = val := by
        rw [wordAt_congr (by omega) fun a ha => hfirst a (Or.inl ha), hturn.pointer]
      rw [hz, hword]
      refine ⟨by simp [stringBytes], fun j hj => ?_⟩
      have hj : j ≤ n := hj
      have hoffset : (val + UInt32.ofNat j).toNat = val.toNat + j := toNat_offset (by omega)
      rw [hfirst _ (Or.inr ⟨by rw [hoffset]; omega, by rw [hoffset]; omega⟩)]
      exact hturn.string j hj
    | succ i =>
      have hi : i < args.length := by simpa using hi
      obtain ⟨hword, hbytes⟩ := hrest.strings i hi
      rw [four_mul_succ, List.take_succ_cons, stringBytes_cons]
      refine ⟨by rw [hword, hval', Nat.add_assoc], fun j hj => ?_⟩
      have hj : j ≤ args[i].2 := hj
      have harg := (hs args[i] (List.getElem_mem hi)).low
      rw [hbytes j hj]
      exact hturn.kernel hptr (by omega) _ (by rw [toNat_offset (by omega)]; omega)

end Cons

theorem pushLoop_spec (hs : ∀ a ∈ args, KernelString r a.1 a.2) (hptr : 0x80000000 ≤ ptr.toNat)
    (harr : ptr.toNat + 4 * (args.length + 1) ≤ val.toNat)
    (hval : val.toNat + stringBytes args < 2 ^ 32) :
    ∃ r', pushLoop (args.map fun a => (a.1, argLength (UInt32.ofNat a.2))) ptr val r = some r' ∧
      Pushed r r' args ptr val := by
  induction args generalizing r ptr val with
  | nil =>
    have hz : ptr + 4 * UInt32.ofNat 0 = ptr := by simp
    refine ⟨_, rfl, fun a ha _ => storeWord_frame (by omega) ha, ?_, by simp, ?_⟩
    · rw [List.length_nil, hz]
      exact wordAt_storeWord _ _ _
    · exact storeWord_stored r ptr 0
  | cons arg args ih =>
    obtain ⟨p, n⟩ := arg
    rw [stringBytes_cons] at hval
    dsimp only at hval
    rw [List.length_cons] at harr
    have hstring : KernelString r p n := hs (p, n) List.mem_cons_self
    have hargs : ∀ a ∈ args, KernelString r a.1 a.2 := fun a ha => hs a (List.mem_cons_of_mem _ ha)
    have hlow := hstring.low
    have hn := padded_pos n
    have hlen := argLength_toNat (n := n) (by omega)
    have hturn : Turned r _ p n ptr val := turn_spec hstring hptr (by omega) (by omega)
    have hptr' : (ptr + 4).toNat = ptr.toNat + 4 := add_four_toNat (by omega)
    have hval' : (val + argLength (UInt32.ofNat n)).toNat = val.toNat + padded n := by
      rw [UInt32.toNat_add, hlen]
      omega
    obtain ⟨r', hloop, hrest⟩ := @ih _ (ptr + 4) (val + argLength (UInt32.ofNat n))
      (fun a ha => (hargs a ha).congr (hturn.kernel hptr (by omega))) (by omega) (by omega) (by omega)
    refine ⟨r', ?_, hturn.pushed hrest hargs hptr harr (by omega) hval' ?_⟩
    · rw [List.map_cons, pushLoop_cons hstring hptr (by omega) (by omega)]
      exact hloop
    · rw [hrest.stored, store_stored, copy_stored, storeWord_stored, List.map_cons, argStores, hlen]
      simp only [List.append_assoc]
      rfl

end Loop

def stackLengths (args : List (UInt32 × ℕ)) : List UInt32 := args.map fun a => UInt32.ofNat a.2

/-- The memory `r'` holds the arguments from `sp` up to the top of the stack, and is `r`
elsewhere. The list `stored` shows that nothing else was written. -/
structure ArgumentStack (r r' : Ram) (args : List (UInt32 × ℕ)) (sp : UInt32) : Prop where
  aligned : sp.toNat % 4 = 0
  size : sp.toNat + totalBytes args = stackTop.toNat
  argc : (wordAt r' sp).toNat = args.length
  argv : wordAt r' (sp + 4) = sp + 8
  null : wordAt r' (wordAt r' (sp + 4) + 4 * UInt32.ofNat args.length) = 0
  strings : ∀ i (hi : i < args.length),
    (wordAt r' (wordAt r' (sp + 4) + 4 * UInt32.ofNat i)).toNat =
      sp.toNat + 12 + 4 * args.length + stringBytes (args.take i) ∧
    ∀ j ≤ args[i].2,
      r'.byte (wordAt r' (wordAt r' (sp + 4) + 4 * UInt32.ofNat i) + UInt32.ofNat j) =
        r.byte (args[i].1 + UInt32.ofNat j)
  stored : r'.stored = r.stored ++ stackStores (stackLengths args)
  within : ∀ a ∈ stackStores (stackLengths args), sp ≤ a ∧ a < stackTop
  frame : ∀ a, ¬(sp ≤ a ∧ a < stackTop) → r'.byte a = r.byte a

section Stack
variable {r : Ram} {args : List (UInt32 × ℕ)}

theorem strlens_eq (hs : ∀ a ∈ args, KernelString r a.1 a.2) :
    (args.map Prod.fst).mapM (fun arg => (strlen r arg).map argLength) =
      some ((stackLengths args).map argLength) := by
  induction args with
  | nil => rfl
  | cons a args ih =>
    have ha := (hs a List.mem_cons_self).strlen
    have ih := ih fun b hb => hs b (List.mem_cons_of_mem _ hb)
    simp only [List.map_cons, List.mapM_cons, ha, ih, stackLengths]
    rfl

theorem lengths_sum (hs : ∀ a ∈ args, KernelString r a.1 a.2) (hfit : stringBytes args < 2 ^ 32) :
    ((stackLengths args).map argLength).sum.toNat = stringBytes args := by
  induction args with
  | nil => rfl
  | cons a args ih =>
    have hlow := (hs a List.mem_cons_self).low
    rw [stringBytes_cons] at hfit ⊢
    have ih := ih (fun b hb => hs b (List.mem_cons_of_mem _ hb)) (by omega)
    rw [stackLengths, List.map_cons, List.map_cons, List.sum_cons, UInt32.toNat_add,
      argLength_toNat (by omega)]
    rw [stackLengths] at ih
    rw [ih]
    omega

theorem argStores_within {ptr val : UInt32} (hs : ∀ a ∈ args, KernelString r a.1 a.2)
    (harr : ptr.toNat + 4 * (args.length + 1) ≤ val.toNat)
    (hval : val.toNat + stringBytes args < 2 ^ 32) :
    ∀ a ∈ argStores (stackLengths args) ptr val,
      In ptr (4 * (args.length + 1)) a ∨ In val (stringBytes args) a := by
  induction args generalizing ptr val with
  | nil =>
    intro a ha
    exact Or.inl (mem_range (by omega) ha)
  | cons arg args ih =>
    obtain ⟨p, n⟩ := arg
    have hcons : ∀ l, stringBytes ((p, n) :: l) = padded n + stringBytes l := stringBytes_cons (p, n)
    rw [hcons] at hval
    rw [List.length_cons] at harr
    have hlow : p.toNat + n < 0x80000000 := (hs (p, n) List.mem_cons_self).low
    have hn := padded_pos n
    have hlen := argLength_toNat (n := n) (by omega)
    have hptr' : (ptr + 4).toNat = ptr.toNat + 4 := add_four_toNat (by omega)
    have hval' : (val + argLength (UInt32.ofNat n)).toNat = val.toNat + padded n := by
      rw [UInt32.toNat_add, hlen]
      omega
    have hlens : stackLengths ((p, n) :: args) = UInt32.ofNat n :: stackLengths args := rfl
    intro a ha
    rw [hlens, argStores, hlen] at ha
    rw [hcons, List.length_cons]
    unfold In
    rcases List.mem_append.mp ha with ha | ha
    · rcases List.mem_append.mp ha with ha | ha
      · rcases List.mem_append.mp ha with ha | ha
        · have hin := mem_range (by omega) ha
          unfold In at hin
          omega
        · have hin := mem_range (by omega) ha
          unfold In at hin
          omega
      · rw [List.mem_singleton.mp ha, toNat_offset (by omega)]
        omega
    · have hin := ih (fun b hb => hs b (List.mem_cons_of_mem _ hb)) (by omega) (by omega) a ha
      unfold In at hin
      omega

structure Layout (args : List (UInt32 × ℕ)) (sp : UInt32) : Prop where
  total : sp.toNat + 12 + 4 * args.length + stringBytes args = 0xefffe000
  room : 12 + 4 * args.length + stringBytes args ≤ 4000000

theorem Layout.add {sp : UInt32} (hl : Layout args sp) {c : UInt32}
    (hc : c.toNat ≤ 12 + 4 * args.length) : (sp + c).toNat = sp.toNat + c.toNat := by
  have := hl.total
  rw [UInt32.toNat_add]
  omega

theorem Layout.values {sp : UInt32} (hl : Layout args sp) :
    (sp + 8 + 4 * (UInt32.ofNat args.length + 1)).toNat = sp.toNat + 12 + 4 * args.length := by
  have := hl.total
  have h8 : (sp + 8).toNat = sp.toNat + 8 := hl.add (by change 8 ≤ _; omega)
  have hone : (UInt32.ofNat args.length + 1).toNat = args.length + 1 := by
    rw [UInt32.toNat_add, UInt32.toNat_ofNat', UInt32.toNat_one]
    omega
  rw [UInt32.toNat_add, UInt32.toNat_mul, hone, h8]
  change (sp.toNat + 8 + 4 * (args.length + 1) % 2 ^ 32) % 2 ^ 32 = _
  omega

theorem stackPointer_layout (hs : ∀ a ∈ args, KernelString r a.1 a.2)
    (hfit : totalBytes args ≤ 4000000) : Layout args
      (stackTop - (12 + 4 * UInt32.ofNat args.length + ((stackLengths args).map argLength).sum)) := by
  unfold totalBytes at hfit
  have hfour : (4 * UInt32.ofNat args.length).toNat = 4 * args.length := by
    rw [UInt32.toNat_mul, UInt32.toNat_ofNat']
    change 4 * (args.length % 2 ^ 32) % 2 ^ 32 = _
    omega
  have htotal : (12 + 4 * UInt32.ofNat args.length + ((stackLengths args).map argLength).sum).toNat =
      12 + 4 * args.length + stringBytes args := by
    rw [UInt32.toNat_add, UInt32.toNat_add, hfour, lengths_sum hs (by omega)]
    change ((12 + 4 * args.length) % 2 ^ 32 + stringBytes args) % 2 ^ 32 = _
    omega
  refine ⟨?_, hfit⟩
  rw [UInt32.toNat_sub_of_le _ _ (by rw [UInt32.le_iff_toNat_le, htotal]; change _ ≤ 0xefffe000; omega),
    htotal]
  change 0xefffe000 - (12 + 4 * args.length + stringBytes args) + 12 + 4 * args.length +
    stringBytes args = _
  omega

def withHeader (r : Ram) (sp argc : UInt32) : Ram := storeWord (storeWord r sp argc) (sp + 4) (sp + 8)

theorem withHeader_frame {sp argc a : UInt32} (h : sp.toNat + 8 ≤ 2 ^ 32) (ha : ¬In sp 8 a) :
    (withHeader r sp argc).byte a = r.byte a := by
  have h4 : (sp + 4).toNat = sp.toNat + 4 := add_four_toNat (by omega)
  unfold In at ha
  rw [withHeader, storeWord_frame (by omega) (by unfold In; omega),
    storeWord_frame (by omega) (by unfold In; omega)]

theorem withHeader_words {sp argc : UInt32} (h : sp.toNat + 8 ≤ 2 ^ 32) :
    wordAt (withHeader r sp argc) sp = argc ∧ wordAt (withHeader r sp argc) (sp + 4) = sp + 8 := by
  have h4 : (sp + 4).toNat = sp.toNat + 4 := add_four_toNat (by omega)
  refine ⟨?_, wordAt_storeWord _ _ _⟩
  rw [withHeader, wordAt_congr (r := storeWord r sp argc) (by omega) fun a ha => ?_,
    wordAt_storeWord]
  have := ha.2
  exact storeWord_frame (by omega) fun hb => by
    have := hb.1
    omega

theorem Layout.argumentStack {sp : UInt32} (hl : Layout args sp)
    (hs : ∀ a ∈ args, KernelString r a.1 a.2)
    (hsp : sp = stackTop - (12 + 4 * UInt32.ofNat args.length + ((stackLengths args).map argLength).sum))
    {r' : Ram} (hp : Pushed (withHeader r sp (UInt32.ofNat args.length)) r' args (sp + 8)
      (sp + 8 + 4 * (UInt32.ofNat args.length + 1))) : ArgumentStack r r' args sp := by
  have htotal := hl.total
  have hroom := hl.room
  have h4 : (sp + 4).toNat = sp.toNat + 4 := hl.add (by change 4 ≤ _; omega)
  have h8 : (sp + 8).toNat = sp.toNat + 8 := hl.add (by change 8 ≤ _; omega)
  have hval := hl.values
  have hheader : ∀ a : UInt32, ¬In sp 8 a →
      (withHeader r sp (UInt32.ofNat args.length)).byte a = r.byte a := fun a ha =>
    withHeader_frame (by omega) ha
  have hkeep : ∀ a : UInt32, In sp 8 a →
      r'.byte a = (withHeader r sp (UInt32.ofNat args.length)).byte a := fun a ha => by
    unfold In at ha
    exact hp.frame a (by unfold In; omega) (by unfold In; omega)
  obtain ⟨hargc, hargv⟩ := @withHeader_words r sp (UInt32.ofNat args.length) (by omega)
  have hargv' : wordAt r' (sp + 4) = sp + 8 := by
    rw [wordAt_congr (by omega) fun a ha => hkeep a (by unfold In at *; omega), hargv]
  have hstores : r'.stored = r.stored ++ stackStores (stackLengths args) := by
    have hlen : (stackLengths args).length = args.length := List.length_map ..
    rw [hp.stored, withHeader, storeWord_stored, storeWord_stored, stackStores]
    simp only [hlen, ← hsp, List.append_assoc]
    rfl
  refine ⟨?_, ?_, ?_, hargv', ?_, fun i hi => ?_, hstores, fun a ha => ?_, fun a ha => ?_⟩
  · have := stringBytes_mod args
    omega
  · change _ = 0xefffe000
    unfold totalBytes
    omega
  · rw [wordAt_congr (by omega) fun a ha => hkeep a (by unfold In at *; omega), hargc,
      UInt32.toNat_ofNat']
    omega
  · rw [hargv']
    exact hp.null
  · obtain ⟨hword, hbytes⟩ := hp.strings i hi
    rw [hargv']
    refine ⟨by omega, fun j hj => ?_⟩
    have hlow := (hs args[i] (List.getElem_mem hi)).low
    rw [hbytes j hj, hheader]
    unfold In
    rw [toNat_offset (by omega)]
    omega
  · rw [UInt32.le_iff_toNat_le, UInt32.lt_iff_toNat_lt]
    change _ ∧ a.toNat < 0xefffe000
    have hlen : (stackLengths args).length = args.length := List.length_map ..
    rw [stackStores] at ha
    simp only [hlen, ← hsp] at ha
    rcases List.mem_append.mp ha with ha | ha
    · rcases List.mem_append.mp ha with ha | ha
      · have := mem_range (by omega) ha
        unfold In at this
        omega
      · have := mem_range (by omega) ha
        unfold In at this
        omega
    · have := argStores_within hs (by omega) (by omega) a ha
      unfold In at this
      omega
  · rw [UInt32.le_iff_toNat_le, UInt32.lt_iff_toNat_lt] at ha
    have ha : ¬(sp.toNat ≤ a.toNat ∧ a.toNat < 0xefffe000) := ha
    rw [hp.frame a (by unfold In; omega) (by unfold In; omega), hheader a (by unfold In; omega)]

end Stack

/-- What is written at `sp` decodes to the count, the pointers with a null pointer behind them, and
copies of the strings, and nothing else is written. -/
theorem pushArguments_spec (r : Ram) (args : List (UInt32 × ℕ)) (hs : ∀ a ∈ args, KernelString r a.1 a.2)
    (hfit : totalBytes args ≤ (stackArgs .null).length.toNat) :
    ∃ sp r', pushArguments r (args.map Prod.fst) = some (sp, r') ∧ ArgumentStack r r' args sp := by
  have hl := stackPointer_layout hs hfit
  generalize hsp : stackTop - (12 + 4 * UInt32.ofNat args.length +
    ((stackLengths args).map argLength).sum) = sp at hl
  have htotal := hl.total
  have hroom := hl.room
  have hval := hl.values
  have h8 : (sp + 8).toNat = sp.toNat + 8 := hl.add (by change 8 ≤ _; omega)
  have hs' : ∀ a ∈ args, KernelString (withHeader r sp (UInt32.ofNat args.length)) a.1 a.2 :=
    fun a ha => (hs a ha).congr fun b hb => withHeader_frame (by omega) fun h => by
      have := h.1
      omega
  obtain ⟨r', hloop, hpushed⟩ := @pushLoop_spec _ args (sp + 8)
    (sp + 8 + 4 * (UInt32.ofNat args.length + 1)) hs' (by omega) (by omega) (by omega)
  refine ⟨sp, r', ?_, hl.argumentStack hs hsp.symm hpushed⟩
  have hzip : (args.map Prod.fst).zip ((stackLengths args).map argLength) =
      args.map fun a => (a.1, argLength (UInt32.ofNat a.2)) := by
    rw [stackLengths, List.map_map, List.zip_map']
    rfl
  rw [pushArguments, strlens_eq hs, Option.bind_some, hzip]
  simp only [List.length_map, hsp]
  rw [withHeader] at hloop
  rw [hloop, Option.map_some]

theorem pushLoop_logged {byte : UInt32 → UInt8} {args : List (UInt32 × UInt32)} {ptr val : UInt32} {r r' : Ram}
    (h : Logged byte r) (hp : pushLoop args ptr val r = some r') : Logged byte r' := by
  induction args generalizing ptr val r with
  | nil =>
    cases hp
    exact h.storeBytes ptr _
  | cons arg args ih =>
    obtain ⟨p, length⟩ := arg
    obtain ⟨n, -, hrest⟩ := Option.bind_eq_some_iff.mp hp
    exact ih (((h.storeBytes ptr _).copy val p _).store _ _) hrest

theorem pushArguments_logged {byte : UInt32 → UInt8} {argv : List UInt32} {r r' : Ram} {sp : UInt32}
    (h : Logged byte r) (hp : pushArguments r argv = some (sp, r')) : Logged byte r' := by
  simp only [pushArguments, Option.bind_eq_some_iff, Option.map_eq_some_iff, Prod.mk.injEq] at hp
  obtain ⟨lengths, -, r₁, hloop, -, rfl⟩ := hp
  exact pushLoop_logged ((h.storeBytes _ _).storeBytes _ _) hloop

end MMapKernel.Sys
