import MMapKernel.Fs.Directory
import MMapKernel.Fs.PathWalk

/-!
# The loops of `find`

`find` walks through its path with one index. It skips slashes, copies the bytes up to the next
slash or to the end into the array `part`, ends them with a NUL and looks them up. Here are these
loops with the index and the array, and the lookups as a fold over the components of the path.
-/

namespace MMapKernel.Fs

structure Part where
  bytes : ℕ → UInt8
  stored : List ℕ

namespace Part

def set (part : Part) (i : ℕ) (c : UInt8) : Part where
  bytes := Function.update part.bytes i c
  stored := part.stored ++ [i]

def setAll (part : Part) (i : ℕ) : List UInt8 → Part
  | [] => part
  | c :: cs => setAll (part.set i c) (i + 1) cs

def string (part : Part) : List UInt8 := cString ((List.range 257).map part.bytes)

def Bounded (part : Part) : Prop := ∀ i ∈ part.stored, i ≤ 256

theorem Bounded.set {part : Part} (h : part.Bounded) {i : ℕ} (hi : i ≤ 256) (c : UInt8) :
    (part.set i c).Bounded := by
  intro k hk
  rcases List.mem_append.mp hk with hk | hk
  · exact h k hk
  · rw [List.mem_singleton.mp hk]
    exact hi

theorem setAll_before (part : Part) {i k : ℕ} (cs : List UInt8) (hk : k < i) :
    (part.setAll i cs).bytes k = part.bytes k := by
  induction cs generalizing part i with
  | nil => rfl
  | cons c cs ih =>
    rw [setAll, ih _ (by omega)]
    exact Function.update_of_ne hk.ne _ _

theorem setAll_bytes (part : Part) {i k : ℕ} (cs : List UInt8) (hk : k < cs.length) :
    (part.setAll i cs).bytes (i + k) = cs[k] := by
  induction cs generalizing part i k with
  | nil => exact absurd hk (Nat.not_lt_zero k)
  | cons c cs ih =>
    rw [setAll]
    cases k with
    | zero =>
      exact (setAll_before (part.set i c) cs (Nat.lt_add_one i)).trans (Function.update_self _ _ _)
    | succ k =>
      rw [List.length_cons] at hk
      rw [show i + (k + 1) = i + 1 + k by omega, ih _ (by omega)]
      rfl

theorem string_setAll (part : Part) {cs : List UInt8} (hlen : cs.length ≤ 256) (hcs : 0 ∉ cs) :
    ((part.setAll 0 cs).set cs.length 0).string = cs := by
  obtain ⟨m, hm⟩ := Nat.exists_eq_add_of_le hlen
  have hfront : (List.range cs.length).map ((part.setAll 0 cs).set cs.length 0).bytes = cs := by
    refine List.ext_getElem (by simp) fun k hk hk' => ?_
    have hbyte := part.setAll_bytes (i := 0) cs hk'
    rw [Nat.zero_add] at hbyte
    rw [List.getElem_map, List.getElem_range, ← hbyte]
    exact Function.update_of_ne hk'.ne _ _
  have hall : ∀ c ∈ cs, decide (c ≠ 0) = true := fun c hc =>
    decide_eq_true fun hz => hcs (hz ▸ hc)
  rw [string, show 257 = cs.length + (1 + m) by omega, List.range_add, List.map_append, hfront,
    Nat.add_comm 1 m, List.range_succ_eq_map, List.map_cons, List.map_cons, Nat.add_zero, cString,
    List.takeWhile_append_of_pos hall, List.takeWhile_cons_of_neg, List.append_nil]
  simp [set]

end Part

namespace Ext2

def skipSlashes (path : List UInt8) : ℕ → ℕ → ℕ
  | 0, idx => idx
  | turns + 1, idx => if path.getD idx 0 = slash then skipSlashes path turns (idx + 1) else idx

def copyPart (path : List UInt8) : ℕ → ℕ → ℕ → Part → Option (ℕ × ℕ) × Part
  | 0, idx, i, part => (some (idx, i), part)
  | turns + 1, idx, i, part =>
    let c := path.getD idx 0
    if c = 0 ∨ c = slash then (some (idx, i), part)
    else if ¬ i < 256 then (none, part)
    else copyPart path turns (idx + 1) (i + 1) (part.set i c)

def lookup (fs : Ext2) (turns : ℕ) (node : Node) (name : List UInt8) : Outcome (Option Node) :=
  (node.find turns name).bind fun number =>
    if number = 0 then .returned none
    else (Outcome.ofOption (fs.getNode number)).bind fun next => .returned (some next)

/-- The loop of `find` from index `idx` on. The path is the array with its NUL; its inner loops get
more turns than it has bytes. -/
def findAt (fs : Ext2) (path : List UInt8) :
    ℕ → Option Node → ℕ → Part → Outcome (Option Node) × Part
  | turns, current, idx, part =>
    let idx := skipSlashes path (path.length + 1) idx
    match current with
    | none => (.returned none, part)
    | some node =>
      if path.getD idx 0 = 0 then (.returned (some node), part)
      else
        match turns with
        | 0 => (.running, part)
        | turns + 1 =>
          match copyPart path (path.length + 1) idx 0 part with
          | (none, part) => (.failed, part)
          | (some (idx, i), part) =>
            let part := part.set i 0
            match fs.lookup turns node part.string with
            | .returned none => (.returned none, part)
            | .returned (some next) => findAt fs path turns (some next) idx part
            | .failed => (.failed, part)
            | .nullNode => (.nullNode, part)
            | .running => (.running, part)

def step (fs : Ext2) (turns : ℕ) (current : Outcome (Option Node)) (name : List UInt8) :
    Outcome (Option Node) :=
  current.bind fun
    | none => .returned none
    | some node => fs.lookup turns node name

def resolve (fs : Ext2) (turns : ℕ) (start : Node) (names : List (List UInt8)) :
    Outcome (Option Node) :=
  names.foldl (fs.step turns) (.returned (some start))

def At (path : List UInt8) (idx : ℕ) (rest : List UInt8) : Prop :=
  idx ≤ (cString path).length ∧ (cString path).drop idx = rest

variable {path rest : List UInt8} {idx i turns : ℕ}

theorem at_zero (path : List UInt8) : At path 0 (cString path) := ⟨Nat.zero_le _, List.drop_zero⟩

theorem getD_cString (h : idx ≤ (cString path).length) :
    path.getD idx 0 = ((cString path).drop idx).headD 0 := by
  induction path generalizing idx with
  | nil => simp [cString]
  | cons c path ih =>
    by_cases hc : c = 0
    · subst hc
      have hnil : cString (0 :: path) = [] := by simp [cString]
      rw [hnil] at h ⊢
      obtain rfl : idx = 0 := Nat.le_zero.mp h
      rfl
    · have hcons : cString (c :: path) = c :: cString path := by simp [cString, hc]
      rw [hcons] at h ⊢
      cases idx with
      | zero => rfl
      | succ idx => exact ih (Nat.le_of_succ_le_succ h)

theorem At.char (h : At path idx rest) : path.getD idx 0 = rest.headD 0 := by
  rw [getD_cString h.1, h.2]

theorem At.next {c : UInt8} (h : At path idx (c :: rest)) : At path (idx + 1) rest := by
  obtain ⟨hle, hdrop⟩ := h
  have hlen := congrArg List.length hdrop
  rw [List.length_drop, List.length_cons] at hlen
  exact ⟨by omega, by rw [← List.drop_drop, hdrop]; rfl⟩

theorem At.notMem (h : At path idx rest) : 0 ∉ rest := by
  intro hmem
  rw [← h.2] at hmem
  simpa using List.mem_takeWhile_imp (List.mem_of_mem_drop hmem)

theorem At.length_le (h : At path idx rest) : rest.length ≤ path.length := by
  rw [← h.2, List.length_drop]
  exact (Nat.sub_le _ _).trans (List.takeWhile_prefix _).length_le

theorem skipSlashes_at (h : At path idx rest) (ht : rest.length ≤ turns) :
    At path (skipSlashes path turns idx) (rest.dropWhile (· = slash)) := by
  induction turns generalizing idx rest with
  | zero =>
    rw [List.length_eq_zero_iff.mp (Nat.le_zero.mp ht)] at h ⊢
    exact h
  | succ turns ih =>
    rw [skipSlashes, h.char]
    cases rest with
    | nil => exact h
    | cons c rest =>
      by_cases hc : c = slash
      · rw [List.headD_cons, if_pos hc, List.dropWhile_cons_of_pos (by simpa using hc)]
        exact ih h.next (Nat.le_of_succ_le_succ ht)
      · rw [List.headD_cons, if_neg hc, List.dropWhile_cons_of_neg (by simpa using hc)]
        exact h

section
variable {part : Part}

theorem copyPart_stop (h : path.getD idx 0 = 0 ∨ path.getD idx 0 = slash) :
    copyPart path turns idx i part = (some (idx, i), part) := by
  cases turns with
  | zero => rfl
  | succ turns => exact if_pos h

theorem copyPart_store (hz : path.getD idx 0 ≠ 0) (hs : path.getD idx 0 ≠ slash) (hi : i < 256) :
    copyPart path (turns + 1) idx i part =
      copyPart path turns (idx + 1) (i + 1) (part.set i (path.getD idx 0)) := by
  rw [copyPart]
  simp only [hz, hs, or_self, if_false, hi, not_true_eq_false]

theorem copyPart_full (hz : path.getD idx 0 ≠ 0) (hs : path.getD idx 0 ≠ slash) (hi : ¬ i < 256) :
    copyPart path (turns + 1) idx i part = (none, part) := by
  rw [copyPart]
  simp only [hz, hs, or_self, if_false, hi, not_false_eq_true, if_true]

end

theorem takeWhile_component {c : UInt8} (hc : c ≠ slash) (rest : List UInt8) :
    (c :: rest).takeWhile (· ≠ slash) = c :: rest.takeWhile (· ≠ slash) := by
  simp [hc]

theorem dropWhile_component {c : UInt8} (hc : c ≠ slash) (rest : List UInt8) :
    (c :: rest).dropWhile (· ≠ slash) = rest.dropWhile (· ≠ slash) := by
  simp [hc]

theorem copyPart_at (h : At path idx rest) (ht : rest.length < turns) (part : Part)
    (hlen : i + (rest.takeWhile (· ≠ slash)).length ≤ 256) :
    ∃ idx', copyPart path turns idx i part =
        (some (idx', i + (rest.takeWhile (· ≠ slash)).length),
          part.setAll i (rest.takeWhile (· ≠ slash))) ∧
      At path idx' (rest.dropWhile (· ≠ slash)) := by
  induction turns generalizing idx i rest part with
  | zero => exact absurd ht (Nat.not_lt_zero _)
  | succ turns ih =>
    have hchar := h.char
    cases rest with
    | nil => exact ⟨idx, copyPart_stop (.inl hchar), h⟩
    | cons c rest =>
      rw [List.headD_cons] at hchar
      by_cases hc : c = slash
      · subst hc
        exact ⟨idx, copyPart_stop (.inr hchar), h⟩
      · have hz : c ≠ 0 := fun hz => h.notMem (hz ▸ List.mem_cons_self)
        rw [takeWhile_component hc] at hlen ⊢
        rw [dropWhile_component hc]
        rw [List.length_cons] at hlen ht
        have hlt : i < 256 := by omega
        obtain ⟨idx', hcopy, hat⟩ := ih h.next (by omega) (part.set i c)
          (show i + 1 + (rest.takeWhile (· ≠ slash)).length ≤ 256 by omega)
        refine ⟨idx', ?_, hat⟩
        rw [copyPart_store (hchar ▸ hz) (hchar ▸ hc) hlt, hchar, hcopy, List.length_cons,
          Nat.add_assoc, Nat.add_comm 1]
        rfl

theorem copyPart_long (h : At path idx rest) (ht : rest.length < turns) (part : Part)
    (hi : i ≤ 256) (hlen : 256 < i + (rest.takeWhile (· ≠ slash)).length) :
    (copyPart path turns idx i part).1 = none := by
  induction turns generalizing idx i rest part with
  | zero => exact absurd ht (Nat.not_lt_zero _)
  | succ turns ih =>
    have hchar := h.char
    cases rest with
    | nil => exact absurd hlen (not_lt.mpr hi)
    | cons c rest =>
      rw [List.headD_cons] at hchar
      by_cases hc : c = slash
      · subst hc
        exact absurd hlen (not_lt.mpr hi)
      · have hz : c ≠ 0 := fun hz => h.notMem (hz ▸ List.mem_cons_self)
        rw [takeWhile_component hc, List.length_cons] at hlen
        rw [List.length_cons] at ht
        by_cases hlt : i < 256
        · rw [copyPart_store (hchar ▸ hz) (hchar ▸ hc) hlt]
          exact ih h.next (by omega) _ hlt (by omega)
        · rw [copyPart_full (hchar ▸ hz) (hchar ▸ hc) hlt]

theorem copyPart_bounded {part : Part} (h : part.Bounded) (turns idx : ℕ) :
    (copyPart path turns idx i part).2.Bounded := by
  induction turns generalizing idx i part with
  | zero => exact h
  | succ turns ih =>
    unfold copyPart
    dsimp only
    split_ifs with hend hlt
    · exact h
    · exact ih (h.set hlt.le _) _
    · exact h

theorem copyPart_index {part part' : Part} {idx' i' : ℕ} (hi : i ≤ 256)
    (h : copyPart path turns idx i part = (some (idx', i'), part')) : i' ≤ 256 := by
  induction turns generalizing idx i part with
  | zero =>
    simp only [copyPart, Prod.mk.injEq, Option.some.injEq] at h
    omega
  | succ turns ih =>
    unfold copyPart at h
    dsimp only at h
    split_ifs at h with hend hlt
    · simp only [Prod.mk.injEq, Option.some.injEq] at h
      omega
    · exact ih hlt h
    · cases h

variable {fs : Ext2} {node : Node} {part : Part}

theorem findAt_bounded (h : part.Bounded) (fs : Ext2) (path : List UInt8) (turns : ℕ)
    (current : Option Node) (idx : ℕ) : (fs.findAt path turns current idx part).2.Bounded := by
  induction turns generalizing current idx part with
  | zero =>
    unfold findAt
    cases current with
    | none => exact h
    | some node =>
      dsimp only
      split_ifs
      · exact h
      · exact h
  | succ turns ih =>
    unfold findAt
    cases current with
    | none => exact h
    | some node =>
      dsimp only
      split_ifs
      · exact h
      · have hcopy : (copyPart path (path.length + 1) (skipSlashes path (path.length + 1) idx) 0
            part).2.Bounded := copyPart_bounded h _ _
        split
        case h_1 heq =>
          rw [heq] at hcopy
          exact hcopy
        case h_2 heq =>
          rw [heq] at hcopy
          have hset := hcopy.set (copyPart_index (Nat.zero_le _) heq) 0
          split
          case h_1 => exact hset
          case h_2 => exact ih hset _ _
          case h_3 => exact hset
          case h_4 => exact hset
          case h_5 => exact hset

theorem lookup_bind {α : Type} (f : Option Node → Outcome α) (name : List UInt8) :
    (fs.lookup turns node name).bind f = (node.find turns name).bind fun number =>
      if number = 0 then f none
      else (Outcome.ofOption (fs.getNode number)).bind fun next => f (some next) := by
  unfold lookup
  cases node.find turns name with
  | returned number =>
    simp only [Outcome.bind_returned]
    split
    case isTrue => rfl
    case isFalse => cases fs.getNode number <;> rfl
  | failed => rfl
  | nullNode => rfl
  | running => rfl

theorem findLoop_none (fs : Ext2) (turns : ℕ) (rest : List UInt8) :
    fs.findLoop turns none rest = .returned none := by
  unfold findLoop
  rfl

theorem findLoop_end (hr : rest.dropWhile (· = slash) = []) :
    fs.findLoop turns (some node) rest = .returned (some node) := by
  unfold findLoop
  rw [hr]

theorem findLoop_component {c : UInt8} {more : List UInt8} (hr : rest.dropWhile (· = slash) = c :: more) :
    fs.findLoop (turns + 1) (some node) rest =
      if 256 < ((c :: more).takeWhile (· ≠ slash)).length then .failed
      else (fs.lookup turns node ((c :: more).takeWhile (· ≠ slash))).bind fun next =>
        fs.findLoop turns next ((c :: more).dropWhile (· ≠ slash)) := by
  simp only [lookup_bind, findLoop_none]
  conv_lhs => unfold findLoop
  rw [hr]

theorem At.skipped (h : At path idx rest) :
    At path (skipSlashes path (path.length + 1) idx) (rest.dropWhile (· = slash)) :=
  skipSlashes_at h (h.length_le.trans (Nat.le_succ _))

theorem findAt_none (fs : Ext2) (turns : ℕ) (part : Part) :
    fs.findAt path turns none idx part = (.returned none, part) := by
  unfold findAt
  rfl

theorem findAt_end (h : At path idx rest) (hr : rest.dropWhile (· = slash) = []) (part : Part) :
    fs.findAt path turns (some node) idx part = (.returned (some node), part) := by
  have hchar := h.skipped.char
  rw [hr] at hchar
  unfold findAt
  exact if_pos hchar

theorem char_ne_zero (h : At path idx rest) {c : UInt8} {more : List UInt8}
    (hr : rest.dropWhile (· = slash) = c :: more) :
    path.getD (skipSlashes path (path.length + 1) idx) 0 ≠ 0 := by
  have hskip := h.skipped
  rw [hr] at hskip
  rw [hskip.char]
  exact fun hz => hskip.notMem (hz ▸ List.mem_cons_self)

theorem findAt_running (h : At path idx rest) {c : UInt8} {more : List UInt8}
    (hr : rest.dropWhile (· = slash) = c :: more) (part : Part) :
    fs.findAt path 0 (some node) idx part = (.running, part) := by
  unfold findAt
  exact if_neg (char_ne_zero h hr)

theorem findAt_long (h : At path idx rest) {c : UInt8} {more : List UInt8}
    (hr : rest.dropWhile (· = slash) = c :: more)
    (hlen : 256 < ((c :: more).takeWhile (· ≠ slash)).length) (part : Part) :
    (fs.findAt path (turns + 1) (some node) idx part).1 = .failed := by
  have hskip := h.skipped
  rw [hr] at hskip
  have hlong := copyPart_long (i := 0) hskip (Nat.lt_succ_of_le hskip.length_le) part (Nat.zero_le _)
    (by omega)
  unfold findAt
  dsimp only
  rw [if_neg (char_ne_zero h hr)]
  cases hcopy : copyPart path (path.length + 1) (skipSlashes path (path.length + 1) idx) 0 part with
  | mk out part' =>
    rw [hcopy] at hlong
    rw [show out = none from hlong]

theorem findAt_component (h : At path idx rest) {c : UInt8} {more : List UInt8}
    (hr : rest.dropWhile (· = slash) = c :: more)
    (hlen : ((c :: more).takeWhile (· ≠ slash)).length ≤ 256) (part : Part) :
    ∃ idx' part', At path idx' ((c :: more).dropWhile (· ≠ slash)) ∧
      (fs.findAt path (turns + 1) (some node) idx part).1 =
        (fs.lookup turns node ((c :: more).takeWhile (· ≠ slash))).bind fun next =>
          (fs.findAt path turns next idx' part').1 := by
  have hskip := h.skipped
  rw [hr] at hskip
  obtain ⟨idx', hcopy, hat⟩ := copyPart_at (i := 0) hskip (Nat.lt_succ_of_le hskip.length_le) part
    (by omega)
  have hname : 0 ∉ (c :: more).takeWhile (· ≠ slash) := fun hm =>
    hskip.notMem ((List.takeWhile_prefix _).subset hm)
  refine ⟨idx', (part.setAll 0 ((c :: more).takeWhile (· ≠ slash))).set
    ((c :: more).takeWhile (· ≠ slash)).length 0, hat, ?_⟩
  conv_lhs => unfold findAt
  dsimp only
  rw [if_neg (char_ne_zero h hr), hcopy]
  dsimp only
  rw [Nat.zero_add, Part.string_setAll part hlen hname]
  cases fs.lookup turns node ((c :: more).takeWhile (· ≠ slash)) with
  | returned next =>
    cases next with
    | none => rw [Outcome.bind_returned, findAt_none]
    | some next => rfl
  | failed => rfl
  | nullNode => rfl
  | running => rfl

theorem findAt_eq_findLoop (fs : Ext2) {turns : ℕ} {current : Option Node} (h : At path idx rest)
    (part : Part) : (fs.findAt path turns current idx part).1 = fs.findLoop turns current rest := by
  induction turns generalizing current idx rest part with
  | zero =>
    cases current with
    | none => rw [findAt_none, findLoop_none]
    | some node =>
      cases hr : rest.dropWhile (· = slash) with
      | nil => rw [findAt_end h hr, findLoop_end hr]
      | cons c more =>
        rw [findAt_running h hr]
        unfold findLoop
        rw [hr]
  | succ turns ih =>
    cases current with
    | none => rw [findAt_none, findLoop_none]
    | some node =>
      cases hr : rest.dropWhile (· = slash) with
      | nil => rw [findAt_end h hr, findLoop_end hr]
      | cons c more =>
        rw [findLoop_component hr]
        by_cases hlen : 256 < ((c :: more).takeWhile (· ≠ slash)).length
        · rw [if_pos hlen, findAt_long h hr hlen]
        · obtain ⟨idx', part', hat, hturn⟩ := findAt_component h hr (not_lt.mp hlen) part
          rw [if_neg hlen, hturn]
          simp only [ih hat]

variable {c : List UInt8} {cs : List (List UInt8)}

theorem foldl_step (fs : Ext2) (turns : ℕ) (cs : List (List UInt8)) (x : Outcome (Option Node)) :
    cs.foldl (fs.step turns) x = x.bind fun current => cs.foldl (fs.step turns) (.returned current) := by
  cases x with
  | returned current => rfl
  | failed =>
    induction cs with
    | nil => rfl
    | cons c cs ih => exact ih
  | nullNode =>
    induction cs with
    | nil => rfl
    | cons c cs ih => exact ih
  | running =>
    induction cs with
    | nil => rfl
    | cons c cs ih => exact ih

theorem foldl_step_none (fs : Ext2) (turns : ℕ) (cs : List (List UInt8)) :
    cs.foldl (fs.step turns) (.returned none) = .returned none := by
  induction cs with
  | nil => rfl
  | cons c cs ih => exact ih

theorem resolve_cons : fs.resolve turns node (c :: cs) = (fs.lookup turns node c).bind fun
    | none => .returned none
    | some next => fs.resolve turns next cs := by
  rw [resolve, List.foldl_cons, foldl_step]
  refine congrArg (Outcome.bind _) (funext fun current => ?_)
  cases current with
  | none => exact foldl_step_none fs turns cs
  | some next => rfl

theorem walk_cons (hc : c.length ≤ 256) :
    fs.walk (turns + 1) node (c :: cs) = (fs.lookup turns node c).bind fun
      | none => .returned none
      | some next => fs.walk turns next cs := by
  rw [walk, if_neg (not_lt.mpr hc), lookup_bind]

theorem lookup_grows (fs : Ext2) (node : Node) (c : List UInt8) :
    Outcome.Grows fun turns => fs.lookup turns node c :=
  fun turns => (node.find_grows c turns).bind fun _ => .refl _

theorem resolve_grows (fs : Ext2) (node : Node) (cs : List (List UInt8)) :
    Outcome.Grows fun turns => fs.resolve turns node cs := by
  intro turns
  induction cs generalizing node with
  | nil => exact .refl _
  | cons c cs ih =>
    simp only [resolve_cons]
    refine (fs.lookup_grows node c turns).bind fun current => ?_
    cases current with
    | none => exact .refl _
    | some next => exact ih next

theorem walk_le_resolve (fs : Ext2) (turns : ℕ) (node : Node) (hcs : ∀ c ∈ cs, c.length ≤ 256) :
    (fs.walk turns node cs).Le (fs.resolve turns node cs) := by
  induction cs generalizing turns node with
  | nil => exact .inr (by simp [walk, resolve])
  | cons c cs ih =>
    cases turns with
    | zero => exact .inl rfl
    | succ turns =>
      rw [walk_cons (hcs c List.mem_cons_self), resolve_cons]
      refine (fs.lookup_grows node c turns).bind fun current => ?_
      cases current with
      | none => exact .refl _
      | some next =>
        exact (ih turns next fun d hd => hcs d (List.mem_cons_of_mem _ hd)).trans
          (fs.resolve_grows next cs turns)

theorem resolve_le_walk (fs : Ext2) (turns : ℕ) (node : Node) (hcs : ∀ c ∈ cs, c.length ≤ 256) :
    (fs.resolve turns node cs).Le (fs.walk (turns + cs.length) node cs) := by
  induction cs generalizing node with
  | nil => exact .inr (by simp [walk, resolve])
  | cons c cs ih =>
    rw [resolve_cons, List.length_cons, ← Nat.add_assoc, walk_cons (hcs c List.mem_cons_self)]
    refine Outcome.Le.bind ((fs.lookup_grows node c).le (Nat.le_add_right turns _)) fun current => ?_
    cases current with
    | none => exact .refl _
    | some next => exact ih next fun d hd => hcs d (List.mem_cons_of_mem _ hd)

theorem walk_iff_resolve (fs : Ext2) (node : Node) (hcs : ∀ c ∈ cs, c.length ≤ 256)
    {x : Outcome (Option Node)} (hx : x ≠ .running) :
    (∃ turns, fs.walk turns node cs = x) ↔ ∃ turns, fs.resolve turns node cs = x := by
  constructor
  · rintro ⟨turns, rfl⟩
    exact ⟨turns, ((fs.walk_le_resolve turns node hcs).resolve_left hx).symm⟩
  · rintro ⟨turns, rfl⟩
    exact ⟨turns + cs.length, ((fs.resolve_le_walk turns node hcs).resolve_left hx).symm⟩

theorem passable_of_prefixes (hcs : ∀ c ∈ cs, c.length ≤ 256)
    (h : ∀ xs c ys, cs = xs ++ c :: ys → ∀ n, fs.Leads node xs n → fs.Searchable n c) :
    fs.Passable node cs := by
  induction cs generalizing node with
  | nil => trivial
  | cons c cs ih =>
    refine ⟨hcs c List.mem_cons_self, h [] c cs rfl node .here, fun next hnext => ?_⟩
    refine ih (fun d hd => hcs d (List.mem_cons_of_mem _ hd)) fun xs d ys hys n hn => ?_
    exact h (c :: xs) d ys (by rw [hys]; rfl) n (.down hnext hn)

theorem findAt_eq_walk (fs : Ext2) (start : Node) (path : List UInt8) (turns : ℕ) (part : Part) :
    (fs.findAt path turns (some start) 0 part).1 =
      fs.walk turns start (components (cString path)) := by
  rw [findAt_eq_findLoop fs (at_zero path), findLoop_eq_walk]

/-- For every image, every node to start from and every path whose components have at most 256 bytes:
`find` comes to an answer exactly if the fold of the lookups over the components does, and it is the
same, so slashes beyond those that separate components make no difference. If every proper prefix
leads to a directory that can be searched, or nowhere, there is an answer; without a component it is
the first node. Whatever the path, only the first 257 bytes of `part` are stored to. -/
theorem find_resolves (fs : Ext2) (start : Node) (path : List UInt8) (bytes : ℕ → UInt8)
    (hcs : ∀ c ∈ components (cString path), c.length ≤ 256) :
    (∀ x ≠ .running, (∃ turns, (fs.findAt path turns (some start) 0 ⟨bytes, []⟩).1 = x) ↔
      ∃ turns, fs.resolve turns start (components (cString path)) = x) ∧
    ((∀ xs c ys, components (cString path) = xs ++ c :: ys →
        ∀ n, fs.Leads start xs n → fs.Searchable n c) →
      ∃ turns out, (fs.findAt path turns (some start) 0 ⟨bytes, []⟩).1 = .returned out) ∧
    (components (cString path) = [] →
      ∀ turns, (fs.findAt path turns (some start) 0 ⟨bytes, []⟩).1 = .returned (some start)) ∧
    ∀ turns, ∀ i ∈ (fs.findAt path turns (some start) 0 ⟨bytes, []⟩).2.stored, i ≤ 256 := by
  simp only [findAt_eq_walk]
  refine ⟨fun x hx => fs.walk_iff_resolve start hcs hx, fun hdirs => ?_, fun hnil turns => ?_,
    fun turns => ?_⟩
  · have hpass := passable_of_prefixes hcs hdirs
    by_cases hex : ∃ n, fs.Leads start (components (cString path)) n
    · obtain ⟨n, hn⟩ := hex
      obtain ⟨turns, h⟩ := walk_returned.mpr ⟨hpass, fun m => ⟨fun hm => (Option.some.inj hm) ▸ hn,
        fun hm => congrArg some (hn.unique hm)⟩⟩
      exact ⟨turns, _, h⟩
    · rw [not_exists] at hex
      obtain ⟨turns, h⟩ : ∃ turns, fs.walk turns start (components (cString path)) = .returned none :=
        walk_returned.mpr ⟨hpass, fun m => ⟨nofun, fun hm => absurd hm (hex m)⟩⟩
      exact ⟨turns, none, h⟩
  · rw [hnil]
    simp [walk]
  · exact findAt_bounded (fun i hi => absurd hi List.not_mem_nil) fs path turns (some start) 0

theorem lookup_absent (fs : Ext2) : fs.lookup 3 directoryNode [103] = .returned none := by
  have hentries : directoryNode.entries 3 = _ := directoryNode_lists.entries_eq le_rfl
  have hfind : directoryNode.find 3 [103] = .returned 0 := by
    rw [Node.find, hentries, Outcome.bind_returned, Outcome.returned.injEq]
    decide
  rw [lookup, hfind]
  rfl

theorem missing_directory :
    ∃ turns, (smallFs.findAt [47, 103, 47, 47, 102] turns (some directoryNode) 0
      ⟨fun _ => 0, []⟩).1 = .returned none := by
  have hcs : components (cString [47, 103, 47, 47, 102]) = [[103], [102]] := by decide
  have hwalk := find_resolves smallFs directoryNode [47, 103, 47, 47, 102] (fun _ => 0) (by rw [hcs]; decide)
  refine (hwalk.1 (.returned none) nofun).mpr ⟨3, ?_⟩
  rw [hcs, resolve_cons, lookup_absent]
  rfl

end Ext2
end MMapKernel.Fs
