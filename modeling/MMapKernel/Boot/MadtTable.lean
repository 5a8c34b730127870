import MMapKernel.Boot.MadtLoop

/-!
# The configuration against the table

A well-formed table is a list of entries that ends where the header says. The loop inspects all of
them but the first, and what is behind them. `Unnoticed` says when the result is still that of the
table.
-/

namespace MMapKernel.Boot
open Fs (Outcome)

variable {mem mem' : Memory} {p madt old : UInt32} {n : ℕ} {s t : Scan} {config : Config}
  {entries seen : List UInt32}

/-- The table has `n` entries, none of length 0, and they fill exactly its length. -/
structure Filled (mem : Memory) (madt : UInt32) (n : ℕ) : Prop where
  length : (field mem (madt + 4)).toNat = 44 + covered mem (madt + 44) n
  lens : ∀ i < n, mem (cursor mem (madt + 44) i + 1) ≠ 0

def entriesOf (mem : Memory) (p : UInt32) (n : ℕ) : List UInt32 := (List.range n).map (cursor mem p)

/-- The configuration holds what the entries say: the processors in order, and the address in the last
I/O APIC entry. -/
structure Matches (mem : Memory) (entries : List UInt32) (old : UInt32) (config : Config) : Prop where
  count : config.nOtherProcs.toNat = (infos mem entries).length
  room : (infos mem entries).length ≤ MAX_PROCS
  apicInfo : ∀ i info, (infos mem entries)[i]? = some info → config.apicInfo (UInt32.ofNat i) = info
  ioAPIC : config.ioAPIC = lastIoApic mem entries old

/-- It makes no difference that the first of `n + 1` entries is left out for what is behind the last. -/
structure Unnoticed (mem : Memory) (p : UInt32) (n : ℕ) (old : UInt32) : Prop where
  processors : ¬ IsProcessor mem p ∧ ¬ IsProcessor mem (cursor mem p (n + 1)) ∨
    IsProcessor mem p ∧ IsProcessor mem (cursor mem p (n + 1)) ∧
      ∀ info ∈ infos mem (entriesOf mem p (n + 1)), info = infoAt mem (cursor mem p (n + 1))
  room : (infos mem (entriesOf mem p (n + 1))).length ≤ MAX_PROCS
  behind : IsIoApic mem (cursor mem p (n + 1)) →
    field mem (cursor mem p (n + 1) + 4) = lastIoApic mem (entriesOf mem p (n + 1)) old
  first : ¬ IsIoApic mem (cursor mem p (n + 1)) → IsIoApic mem p → field mem (p + 4) ≠ old →
    ∃ entry ∈ inspected mem p n, IsIoApic mem entry

theorem entriesOf_succ (mem : Memory) (p : UInt32) (n : ℕ) :
    entriesOf mem p (n + 1) = p :: inspected mem p n := by
  rw [entriesOf, List.range_succ_eq_map, List.map_cons, List.map_map]
  rfl

theorem infos_cons (mem : Memory) (entry : UInt32) (entries : List UInt32) :
    infos mem (entry :: entries) =
      if IsProcessor mem entry then infoAt mem entry :: infos mem entries else infos mem entries := by
  by_cases h : IsProcessor mem entry
  · rw [if_pos h, infos, List.filter_cons_of_pos (by simpa using h), List.map_cons]
    rfl
  · rw [if_neg h, infos, List.filter_cons_of_neg (by simpa using h)]
    rfl

theorem infos_concat (mem : Memory) (entries : List UInt32) (entry : UInt32) :
    infos mem (entries ++ [entry]) =
      if IsProcessor mem entry then infos mem entries ++ [infoAt mem entry] else infos mem entries := by
  by_cases h : IsProcessor mem entry
  · rw [if_pos h, infos_concat_processor h]
  · rw [if_neg h, infos_concat_other h]

theorem length_infos_le (mem : Memory) (entries : List UInt32) :
    (infos mem entries).length ≤ entries.length := by
  rw [infos, List.length_map]
  exact List.length_filter_le _ _

theorem concat_eq_cons_iff {α : Type*} {a b : α} {l : List α} :
    l ++ [b] = a :: l ↔ ∀ x ∈ a :: l, x = b := by
  induction l generalizing a with
  | nil => simp [eq_comm]
  | cons x l ih =>
    rw [List.cons_append, List.cons.injEq, ih]
    constructor
    · intro ⟨hx, hall⟩ y hy
      rcases List.mem_cons.mp hy with rfl | hy
      · exact hx ▸ hall x List.mem_cons_self
      · exact hall y hy
    · intro hall
      have hx := hall x (List.mem_cons_of_mem _ List.mem_cons_self)
      exact ⟨hx.trans (hall a List.mem_cons_self).symm, fun y hy => hall y (List.mem_cons_of_mem _ hy)⟩

theorem lastIoApic_cons (mem : Memory) (entry old : UInt32) (entries : List UInt32) :
    lastIoApic mem (entry :: entries) old =
      lastIoApic mem entries (if IsIoApic mem entry then field mem (entry + 4) else old) := rfl

theorem lastIoApic_eq_iff {first second : UInt32} :
    lastIoApic mem entries first = lastIoApic mem entries second ↔
      first = second ∨ ∃ entry ∈ entries, IsIoApic mem entry := by
  induction entries generalizing first second with
  | nil => simp [lastIoApic]
  | cons entry entries ih =>
    rw [lastIoApic_cons, lastIoApic_cons, ih, List.exists_mem_cons_iff]
    by_cases h : IsIoApic mem entry
    · rw [if_pos h, if_pos h]
      exact iff_of_true (.inl rfl) (.inr (.inl h))
    · rw [if_neg h, if_neg h]
      constructor
      · intro hor
        exact hor.imp id .inr
      · intro hor
        rcases hor with heq | hhere | hthere
        · exact .inl heq
        · exact absurd hhere h
        · exact .inr hthere

theorem Recorded.matches_iff (h : Recorded mem seen old s) (hlen : seen.length < 2 ^ 32)
    (hc : config.nOtherProcs = s.config.nOtherProcs) (ha : config.apicInfo = s.config.apicInfo)
    (hio : config.ioAPIC = s.config.ioAPIC) :
    Matches mem entries old config ↔
      infos mem seen = infos mem entries ∧ (infos mem entries).length ≤ MAX_PROCS ∧
        lastIoApic mem seen old = lastIoApic mem entries old := by
  have hshort := length_infos_le mem seen
  have hcount : config.nOtherProcs.toNat = (infos mem seen).length := by
    rw [hc, h.count, UInt32.toNat_ofNat', Nat.mod_eq_of_lt (by omega)]
  have hinfo : ∀ i info, (infos mem seen)[i]? = some info →
      config.apicInfo (UInt32.ofNat i) = info := by
    rw [ha]
    exact h.apicInfo (by omega)
  constructor
  · intro hm
    refine ⟨List.ext_getElem (hcount.symm.trans hm.count) fun i h₁ h₂ => ?_, hm.room, ?_⟩
    · have hleft := hinfo i _ (List.getElem?_eq_getElem h₁)
      have hright := hm.apicInfo i _ (List.getElem?_eq_getElem h₂)
      exact hleft.symm.trans hright
    · rw [← h.ioAPIC, ← hio]
      exact hm.ioAPIC
  · intro ⟨hinfos, hroom, hlast⟩
    rw [hinfos] at hcount hinfo
    exact ⟨hcount, hroom, hinfo, hio.trans (h.ioAPIC.trans hlast)⟩

theorem infos_inspected_iff : infos mem (inspected mem p (n + 1)) = infos mem (entriesOf mem p (n + 1)) ↔
    ¬ IsProcessor mem p ∧ ¬ IsProcessor mem (cursor mem p (n + 1)) ∨
    IsProcessor mem p ∧ IsProcessor mem (cursor mem p (n + 1)) ∧
      ∀ info ∈ infos mem (entriesOf mem p (n + 1)), info = infoAt mem (cursor mem p (n + 1)) := by
  rw [inspected_succ, infos_concat, entriesOf_succ, infos_cons]
  by_cases hfirst : IsProcessor mem p <;> by_cases hbehind : IsProcessor mem (cursor mem p (n + 1))
  · rw [if_pos hfirst, if_pos hbehind, concat_eq_cons_iff]
    simp only [hfirst, hbehind, not_true_eq_false, false_and, false_or, true_and]
  · rw [if_pos hfirst, if_neg hbehind]
    simp only [hfirst, hbehind, not_true_eq_false, false_and, and_false, or_false, iff_false]
    exact fun heq => absurd (congrArg List.length heq) (by simp)
  · rw [if_neg hfirst, if_pos hbehind]
    simp only [hfirst, hbehind, not_true_eq_false, false_and, and_false, or_false, iff_false]
    exact fun heq => absurd (congrArg List.length heq) (by simp)
  · rw [if_neg hfirst, if_neg hbehind]
    simp only [hfirst, hbehind, not_false_eq_true, and_self, true_or]

theorem lastIoApic_inspected_iff :
    lastIoApic mem (inspected mem p (n + 1)) old = lastIoApic mem (entriesOf mem p (n + 1)) old ↔
      (IsIoApic mem (cursor mem p (n + 1)) →
        field mem (cursor mem p (n + 1) + 4) = lastIoApic mem (entriesOf mem p (n + 1)) old) ∧
      (¬ IsIoApic mem (cursor mem p (n + 1)) → IsIoApic mem p → field mem (p + 4) ≠ old →
        ∃ entry ∈ inspected mem p n, IsIoApic mem entry) := by
  rw [inspected_succ, lastIoApic_concat]
  by_cases hbehind : IsIoApic mem (cursor mem p (n + 1))
  · rw [if_pos hbehind]
    simp only [hbehind, not_true_eq_false, false_imp_iff, true_imp_iff, and_true]
  · rw [if_neg hbehind, entriesOf_succ, lastIoApic_cons, lastIoApic_eq_iff]
    simp only [hbehind, not_false_eq_true, false_imp_iff, true_imp_iff, true_and]
    by_cases hfirst : IsIoApic mem p
    · rw [if_pos hfirst]
      simp only [hfirst, true_imp_iff]
      rw [ne_comm, ← or_iff_not_imp_left]
    · rw [if_neg hfirst]
      simp only [hfirst, false_imp_iff, true_or]

namespace Filled

theorem bytesForEntries_eq (h : Filled mem madt n) : bytesForEntries mem madt =
    if covered mem (madt + 44) n < 2 ^ 31 then (covered mem (madt + 44) n : ℤ)
    else (covered mem (madt + 44) n : ℤ) - 2 ^ 32 := by
  have hlt := (field mem (madt + 4)).toNat_lt
  have hlength := h.length
  have hle : (44 : UInt32) ≤ field mem (madt + 4) := by
    rw [UInt32.le_iff_toNat_le, hlength]
    exact Nat.le_add_right _ _
  have hsub : (field mem (madt + 4) - 44).toNat = covered mem (madt + 44) n := by
    rw [UInt32.toNat_sub_of_le _ _ hle, hlength]
    exact Nat.add_sub_cancel_left _ _
  rw [bytesForEntries, BitVec.toInt_eq_toNat_cond]
  change (if 2 * (field mem (madt + 4) - 44).toNat < 2 ^ 32 then
    ((field mem (madt + 4) - 44).toNat : ℤ) else _) = _
  change (if 2 * (field mem (madt + 4) - 44).toNat < 2 ^ 32 then
    ((field mem (madt + 4) - 44).toNat : ℤ) else ((field mem (madt + 4) - 44).toNat : ℤ) - 2 ^ 32) = _
  rw [hsub]
  split_ifs <;> omega

theorem covered_lt (h : Filled mem madt n) {i : ℕ} (hi : i < n) :
    covered mem (madt + 44) i < covered mem (madt + 44) n := by
  have hpos : (mem (cursor mem (madt + 44) i + 1)).toNat ≠ 0 := fun hz =>
    h.lens i hi (UInt8.toNat_inj.mp hz)
  have hsucc := covered_mono mem (madt + 44) (Nat.succ_le_of_lt hi)
  rw [covered] at hsucc
  omega

theorem entries_le (h : Filled mem madt n) : n ≤ covered mem (madt + 44) n := le_covered h.lens

end Filled

/-- The entries that a whole run inspects: none if the length does not fit an `int32_t`. -/
def inspections (mem : Memory) (madt : UInt32) (n : ℕ) : List UInt32 :=
  if covered mem (madt + 44) n < 2 ^ 31 then inspected mem (madt + 44) n else []

theorem entryLoop_returned (h : Walk.after (turn mem) n s = some t) (ht : turn mem t = none)
    {turns : ℕ} (hle : n ≤ turns) : entryLoop mem turns s = .returned t := by
  induction n generalizing s turns with
  | zero =>
    cases h
    exact entryLoop_done ht turns
  | succ n ih =>
    rw [Walk.after] at h
    obtain ⟨u, hu, hrest⟩ := Option.bind_eq_some_iff.mp h
    obtain ⟨k, rfl⟩ : ∃ k, turns = k + 1 := ⟨turns - 1, by omega⟩
    rw [entryLoop_succ hu]
    exact ih hrest (by omega)

theorem Filled.run (h : Filled mem madt n) (config : Config) :
    ∃ t, Recorded mem (inspections mem madt n) config.ioAPIC t ∧
      ∀ turns, n ≤ turns → entryLoop mem turns (scanStart mem madt config) = .returned t := by
  have hstart := scanned_start mem madt config
  have hbytes := h.bytesForEntries_eq
  unfold inspections
  split
  case isTrue hlt =>
    rw [if_pos hlt] at hbytes
    obtain ⟨t, ht⟩ := hstart.after_isSome.mpr fun i hi => by
      rw [hbytes]
      exact Int.ofNat_lt.mpr (h.covered_lt hi)
    have hscanned := hstart.after ht
    have hend : turn mem t = none := turn_eq_none.mpr (by rw [hscanned.bytesForEntries, hbytes]; omega)
    exact ⟨t, hscanned.recorded, fun turns hle => entryLoop_returned ht hend hle⟩
  case isFalse hge =>
    rw [if_neg hge] at hbytes
    have hlt := (field mem (madt + 4)).toNat_lt
    have hlength := h.length
    have hend : turn mem (scanStart mem madt config) = none := turn_eq_none.mpr (by
      rw [hstart.bytesForEntries, hbytes, covered]
      omega)
    exact ⟨_, hstart.recorded, fun turns _ => entryLoop_done hend turns⟩

def Scan.result (s : Scan) : Config := { s.config with totalProcs := s.config.nOtherProcs + 1 }

theorem scanMadt_returned {turns : ℕ} (h : entryLoop mem turns (scanStart mem madt config) = .returned t) :
    scanMadt mem turns madt config = .returned t.result := by
  rw [scanMadt, h]
  rfl

theorem result_ioAPIC (s : Scan) : s.result.ioAPIC = s.config.ioAPIC := by
  obtain ⟨_, _, config, _⟩ := s
  cases config
  rfl

theorem result_processors (s : Scan) :
    s.result.nOtherProcs = s.config.nOtherProcs ∧ s.result.apicInfo = s.config.apicInfo := by
  obtain ⟨_, _, config, _⟩ := s
  cases config
  exact ⟨rfl, rfl⟩

theorem configInit_eq {memInfo : MemInfo} (h : memAbove1M memInfo ≠ none) (mem : Memory)
    (config : Config) : ∃ found : Config, found.ioAPIC = config.ioAPIC ∧
      ∀ turns, configInit memInfo mem turns config = scanMadt mem turns (findMadt mem) found := by
  obtain ⟨above, habove⟩ := Option.ne_none_iff_exists'.mp h
  unfold configInit
  rw [habove]
  by_cases hrsd : findRSD mem = 0
  · simp only [hrsd, ne_eq, not_true_eq_false, if_false]
    refine ⟨_, ?_, fun _ => rfl⟩
    cases config
    rfl
  · simp only [ne_eq, hrsd, not_false_eq_true, if_true]
    refine ⟨_, ?_, fun _ => rfl⟩
    cases config
    rfl

def SameTable (mem mem' : Memory) (madt : UInt32) : Prop :=
  ∀ i < (field mem (madt + 4)).toNat, mem' (madt + UInt32.ofNat i) = mem (madt + UInt32.ofNat i)

theorem SameTable.field_eq (h : SameTable mem mem' madt) {i : ℕ}
    (hi : i + 4 ≤ (field mem (madt + 4)).toNat) :
    field mem' (madt + UInt32.ofNat i) = field mem (madt + UInt32.ofNat i) := by
  have hbyte : ∀ k < 4, mem' (madt + UInt32.ofNat i + UInt32.ofNat k) =
      mem (madt + UInt32.ofNat i + UInt32.ofNat k) := by
    intro k hk
    rw [UInt32.add_assoc, ← UInt32.ofNat_add]
    exact h (i + k) (by omega)
  have h0 := h i (by omega)
  have h1 := hbyte 1 (by decide)
  have h2 := hbyte 2 (by decide)
  have h3 := hbyte 3 (by decide)
  unfold field
  rw [h0]
  exact congrArg UInt32.ofNat (congrArg₂ _ (congrArg₂ _ (congrArg₂ _ rfl
    (congrArg (fun b : UInt8 => b.toNat * 2 ^ 8) h1)) (congrArg (fun b : UInt8 => b.toNat * 2 ^ 16) h2))
    (congrArg (fun b : UInt8 => b.toNat * 2 ^ 24) h3))

theorem cursor_eq (mem : Memory) (p : UInt32) (n : ℕ) :
    cursor mem p n = p + UInt32.ofNat (covered mem p n) := by
  induction n with
  | zero => exact (UInt32.add_zero p).symm
  | succ n ih =>
    rw [cursor, covered, UInt32.ofNat_add, ← UInt32.add_assoc, ← ih, UInt32.ofNat_uInt8ToNat]

theorem cursor_congr (h : ∀ i < n, mem' (cursor mem p i + 1) = mem (cursor mem p i + 1)) :
    cursor mem' p n = cursor mem p n ∧ covered mem' p n = covered mem p n := by
  induction n with
  | zero => exact ⟨rfl, rfl⟩
  | succ n ih =>
    obtain ⟨hcursor, hcovered⟩ := ih fun i hi => h i (Nat.lt_succ_of_lt hi)
    rw [cursor, covered, hcursor, hcovered, h n n.lt_succ_self]
    exact ⟨rfl, rfl⟩

def Independent (mem : Memory) (madt : UInt32) : Prop :=
  ∀ mem', SameTable mem mem' madt → ∀ turns config,
    scanMadt mem' turns madt config = scanMadt mem turns madt config

theorem SameTable.start_eq (h : SameTable mem mem' madt) (hlen : 44 ≤ (field mem (madt + 4)).toNat)
    (config : Config) : scanStart mem' madt config = scanStart mem madt config := by
  have hlength : field mem' (madt + 4) = field mem (madt + 4) := h.field_eq (i := 4) (by omega)
  have haddress : field mem' (madt + 36) = field mem (madt + 36) := h.field_eq (i := 36) (by omega)
  have hflags : field mem' (madt + 40) = field mem (madt + 40) := h.field_eq (i := 40) (by omega)
  unfold scanStart bytesForEntries
  rw [hlength, haddress, hflags]

theorem independent_of_done (hlen : 44 ≤ (field mem (madt + 4)).toNat) (hdone : bytesForEntries mem madt ≤ 0) :
    Independent mem madt := by
  intro mem' hsame turns config
  have hstart := hsame.start_eq hlen config
  have hbytes : ¬ 0 < (scanStart mem madt config).bytesForEntries := not_lt.mpr hdone
  have hend : turn mem (scanStart mem madt config) = none := turn_eq_none.mpr hbytes
  have hend' : turn mem' (scanStart mem' madt config) = none := by
    rw [hstart]
    exact turn_eq_none.mpr hbytes
  rw [scanMadt_returned (entryLoop_done hend turns), scanMadt_returned (entryLoop_done hend' turns), hstart]

/-- The memory with an I/O APIC entry at `place`, whose address has the low byte `b`. -/
def planted (mem : Memory) (place : UInt32) (b : UInt8) : Memory :=
  Function.update (Function.update mem (place + 4) b) place 1

theorem planted_other {place a : UInt32} (b : UInt8) (h : a ≠ place) (h4 : a ≠ place + 4) :
    planted mem place b a = mem a := by
  rw [planted, Function.update_of_ne h, Function.update_of_ne h4]

theorem planted_place (mem : Memory) (place : UInt32) (b : UInt8) : planted mem place b place = 1 :=
  Function.update_self ..

theorem field_mod (mem : Memory) (a : UInt32) : (field mem a).toNat % 256 = (mem a).toNat := by
  have hlt := (mem a).toNat_lt
  rw [field, UInt32.toNat_ofNat']
  omega

theorem planted_low (mem : Memory) (place : UInt32) (b : UInt8) :
    (field (planted mem place b) (place + 4)).toNat % 256 = b.toNat := by
  have hne : place + 4 ≠ place := by
    intro h
    have hzero : (4 : UInt32) = 0 := (UInt32.add_right_inj place).mp (h.trans (UInt32.add_zero place).symm)
    exact absurd hzero (by decide)
  rw [field_mod, planted, Function.update_of_ne hne, Function.update_self]

namespace Filled

theorem behind_ne (hlt : covered mem (madt + 44) n < 2 ^ 31) {i : ℕ}
    (hi : i < 44 + covered mem (madt + 44) n) :
    madt + UInt32.ofNat i ≠ cursor mem (madt + 44) n ∧ madt + UInt32.ofNat i ≠ cursor mem (madt + 44) n + 4 := by
  have hplace : cursor mem (madt + 44) n = madt + UInt32.ofNat (44 + covered mem (madt + 44) n) := by
    rw [cursor_eq, UInt32.ofNat_add, UInt32.add_assoc]
    rfl
  have hplace4 : cursor mem (madt + 44) n + 4 =
      madt + UInt32.ofNat (44 + covered mem (madt + 44) n + 4) := by
    rw [hplace, UInt32.ofNat_add _ 4, UInt32.add_assoc]
    rfl
  rw [hplace4, hplace]
  exact ⟨fun he => ofNat_ne hi (by omega) ((UInt32.add_right_inj madt).mp he),
    fun he => ofNat_ne (Nat.lt_add_right 4 hi) (by omega) ((UInt32.add_right_inj madt).mp he)⟩

theorem same_planted (h : Filled mem madt n) (hlt : covered mem (madt + 44) n < 2 ^ 31) (b : UInt8) :
    SameTable mem (planted mem (cursor mem (madt + 44) n) b) madt := by
  intro i hi
  rw [h.length] at hi
  obtain ⟨hne, hne4⟩ := behind_ne hlt hi
  exact planted_other b hne hne4

theorem len_planted (h : Filled mem madt n) (hlt : covered mem (madt + 44) n < 2 ^ 31) (b : UInt8)
    {i : ℕ} (hi : i < n) : planted mem (cursor mem (madt + 44) n) b (cursor mem (madt + 44) i + 1) =
      mem (cursor mem (madt + 44) i + 1) := by
  have hcovered := h.covered_lt hi
  have hplace : cursor mem (madt + 44) i + 1 =
      madt + UInt32.ofNat (44 + (covered mem (madt + 44) i + 1)) := by
    rw [cursor_eq, UInt32.ofNat_add, UInt32.ofNat_add, UInt32.add_assoc, UInt32.add_assoc]
    rfl
  rcases Nat.lt_or_ge (covered mem (madt + 44) i + 1) (covered mem (madt + 44) n) with hin | hat
  · rw [hplace]
    exact h.same_planted hlt b _ (by rw [h.length]; omega)
  · have hsucc := covered_mono mem (madt + 44) (Nat.succ_le_of_lt hi)
    have hpos : (mem (cursor mem (madt + 44) i + 1)).toNat ≠ 0 := fun hz =>
      h.lens i hi (UInt8.toNat_inj.mp hz)
    rw [covered] at hsucc
    have hone : mem (cursor mem (madt + 44) i + 1) = 1 := by
      rw [← UInt8.toNat_inj]
      change _ = 1
      omega
    have hend : cursor mem (madt + 44) i + 1 = cursor mem (madt + 44) n := by
      rw [hplace, cursor_eq mem _ n, UInt32.ofNat_add, ← UInt32.add_assoc]
      exact congrArg (fun k => madt + 44 + UInt32.ofNat k) (by omega)
    rw [hone, hend, planted_place]

theorem not_independent (h : Filled mem madt n) (hlt : covered mem (madt + 44) n < 2 ^ 31) (hn : n ≠ 0) :
    ¬ Independent mem madt := by
  intro hindependent
  obtain ⟨k, rfl⟩ : ∃ k, n = k + 1 := ⟨n - 1, by omega⟩
  obtain ⟨t, -, hreturn⟩ := h.run noConfig
  have hscan := scanMadt_returned (hreturn _ le_rfl)
  let b : UInt8 := UInt8.ofNat (t.config.ioAPIC.toNat + 1)
  have hsame := h.same_planted hlt b
  obtain ⟨hcursor, hcovered⟩ := cursor_congr fun i hi => h.len_planted hlt b hi
  have hfilled : Filled (planted mem (cursor mem (madt + 44) (k + 1)) b) madt (k + 1) := by
    refine ⟨?_, fun i hi => ?_⟩
    · have hlength : field (planted mem (cursor mem (madt + 44) (k + 1)) b) (madt + 4) =
          field mem (madt + 4) := hsame.field_eq (i := 4) (by rw [h.length]; omega)
      rw [hlength, hcovered, h.length]
    · rw [(cursor_congr fun j hj => h.len_planted hlt b (hj.trans hi)).1, h.len_planted hlt b hi]
      exact h.lens i hi
  obtain ⟨t', hrecorded, hreturn'⟩ := hfilled.run noConfig
  have hscan' := scanMadt_returned (hreturn' _ le_rfl)
  rw [hindependent _ hsame (k + 1) noConfig, hscan] at hscan'
  have hresult : t.result = t'.result := Outcome.returned.inj hscan'
  have hio : t.config.ioAPIC = t'.config.ioAPIC := by
    rw [← result_ioAPIC, hresult, result_ioAPIC]
  rw [hrecorded.ioAPIC, inspections, hcovered, if_pos hlt, inspected_succ, lastIoApic_concat, hcursor,
    if_pos (show IsIoApic _ _ from planted_place ..)] at hio
  have hlow := planted_low mem (cursor mem (madt + 44) (k + 1)) b
  rw [← hio, UInt8.toNat_ofNat'] at hlow
  omega

theorem independent_iff (h : Filled mem madt n) :
    Independent mem madt ↔ n = 0 ∨ 2 ^ 31 ≤ covered mem (madt + 44) n := by
  have hbytes := h.bytesForEntries_eq
  have hlen : 44 ≤ (field mem (madt + 4)).toNat := by
    rw [h.length]
    exact Nat.le_add_right _ _
  constructor
  · intro hindependent
    by_contra hnot
    obtain ⟨hn, hlt⟩ := not_or.mp hnot
    exact h.not_independent (Nat.lt_of_not_le hlt) hn hindependent
  · intro hor
    apply independent_of_done hlen
    rcases hor with rfl | hge
    · rw [hbytes]
      exact le_rfl
    · have hlt := (field mem (madt + 4)).toNat_lt
      have hlength := h.length
      rw [hbytes, if_neg (not_lt.mpr hge)]
      omega

theorem inspections_length_lt (h : Filled mem madt n) : (inspections mem madt n).length < 2 ^ 32 := by
  have hn := h.entries_le
  unfold inspections
  split
  case isTrue hlt =>
    rw [inspected, List.length_map, List.length_range]
    omega
  case isFalse => exact Nat.two_pow_pos 32

end Filled

/-- When the result is that of the table: it has no entries, or it makes no difference that the first
one is left out, or it is so long that none is inspected, and they say nothing. -/
inductive Unnoticeable (mem : Memory) (madt : UInt32) (old : UInt32) : ℕ → Prop
  | empty : Unnoticeable mem madt old 0
  | replaced {n : ℕ} (hfits : covered mem (madt + 44) (n + 1) < 2 ^ 31)
      (h : Unnoticed mem (madt + 44) n old) : Unnoticeable mem madt old (n + 1)
  | unread {n : ℕ} (hlong : 2 ^ 31 ≤ covered mem (madt + 44) n)
      (hnone : infos mem (entriesOf mem (madt + 44) n) = [])
      (hsame : lastIoApic mem (entriesOf mem (madt + 44) n) old = old) : Unnoticeable mem madt old n

theorem unnoticeable_iff : Unnoticeable mem madt old n ↔
    infos mem (inspections mem madt n) = infos mem (entriesOf mem (madt + 44) n) ∧
      (infos mem (entriesOf mem (madt + 44) n)).length ≤ MAX_PROCS ∧
      lastIoApic mem (inspections mem madt n) old = lastIoApic mem (entriesOf mem (madt + 44) n) old := by
  unfold inspections
  constructor
  · intro h
    cases h with
    | empty => exact ⟨rfl, Nat.zero_le _, rfl⟩
    | replaced hfits h =>
      rw [if_pos hfits, infos_inspected_iff, lastIoApic_inspected_iff]
      exact ⟨h.processors, h.room, h.behind, h.first⟩
    | unread hlong hnone hsame =>
      rw [if_neg (not_lt.mpr hlong), hnone, hsame]
      exact ⟨rfl, Nat.zero_le _, rfl⟩
  · intro h
    by_cases hfits : covered mem (madt + 44) n < 2 ^ 31
    · rw [if_pos hfits] at h
      cases n with
      | zero => exact .empty
      | succ n =>
        rw [infos_inspected_iff, lastIoApic_inspected_iff] at h
        obtain ⟨hprocessors, hroom, hbehind, hfirst⟩ := h
        exact .replaced hfits ⟨hprocessors, hroom, hbehind, hfirst⟩
    · rw [if_neg hfits] at h
      obtain ⟨hnone, -, hsame⟩ := h
      exact .unread (Nat.le_of_not_lt hfits) hnone.symm hsame.symm

theorem Filled.configInit_returns {memInfo : MemInfo} (hinfo : memAbove1M memInfo ≠ none) (config : Config)
    (h : Filled mem (findMadt mem) n) : ∃ result,
      (∀ turns, n ≤ turns → configInit memInfo mem turns config = .returned result) ∧
      (Matches mem (entriesOf mem (findMadt mem + 44) n) config.ioAPIC result ↔
        Unnoticeable mem (findMadt mem) config.ioAPIC n) := by
  obtain ⟨found, hold, hinit⟩ := configInit_eq hinfo mem config
  obtain ⟨t, hrecorded, hreturn⟩ := h.run found
  obtain ⟨hcount, happend⟩ := result_processors t
  refine ⟨t.result, fun turns hle => (hinit turns).trans (scanMadt_returned (hreturn turns hle)), ?_⟩
  rw [← hold, unnoticeable_iff]
  exact hrecorded.matches_iff h.inspections_length_lt hcount happend (result_ioAPIC t)

/-- For every well-formed table: `configInit` returns, its result is that of the table exactly if it
makes no difference that the first entry is left out for what is behind the last, and it does not depend
on what is outside the table exactly if no entry is inspected. -/
theorem configInit_matches_iff (memInfo : MemInfo) (mem : Memory) (config : Config) (n : ℕ)
    (hinfo : memAbove1M memInfo ≠ none) (hfill : Filled mem (findMadt mem) n) :
    (∃ result, (∀ turns, n ≤ turns → configInit memInfo mem turns config = .returned result) ∧
      (Matches mem (entriesOf mem (findMadt mem + 44) n) config.ioAPIC result ↔
        Unnoticeable mem (findMadt mem) config.ioAPIC n)) ∧
    (Independent mem (findMadt mem) ↔ n = 0 ∨ 2 ^ 31 ≤ covered mem (findMadt mem + 44) n) :=
  ⟨hfill.configInit_returns hinfo config, hfill.independent_iff⟩

def ordinary : MemInfo := ⟨15 * 1024, 0, 0, 0⟩

/-- A root pointer at the start of the BIOS area, which leads to a table at 0x1000 with the entry
0x2000, and there a MADT: processors with these ids, and an I/O APIC. -/
def firmware (first second : UInt8) : Memory := fun a =>
  let bytes := fun (start : UInt32) (bs : List UInt8) => bs.getD (a - start).toNat 0
  if 0xE0000 ≤ a then
    bytes 0xE0000 (ascii ['R', 'S', 'D', ' ', 'P', 'T', 'R', ' '] ++ [0, 0, 0, 0, 0, 0, 0, 0, 0, 0x10])
  else if 0x2000 ≤ a then
    bytes 0x2000 (ascii ['A', 'P', 'I', 'C'] ++ [72] ++ List.replicate 39 0 ++
      [0, 8, first, 0, 1, 0, 0, 0] ++ [0, 8, second, 1, 1, 0, 0, 0] ++
      [1, 12, 2, 0, 0, 0, 0xC0, 0xFE, 0, 0, 0, 0])
  else if 0x1000 ≤ a then bytes 0x1000 ([0, 0, 0, 0, 40] ++ List.replicate 31 0 ++ [0, 0x20])
  else 0

theorem firmware_filled : Filled (firmware 0 1) (findMadt (firmware 0 1)) 3 := by
  have hfound : findMadt (firmware 0 1) = 0x2000 := by decide +kernel
  rw [hfound]
  exact ⟨by decide +kernel, by decide +kernel⟩

theorem firmware_matches : ∃ result,
    (∀ turns, 3 ≤ turns → configInit ordinary (firmware 0 1) turns noConfig = .returned result) ∧
    Matches (firmware 0 1) (entriesOf (firmware 0 1) (0x2000 + 44) 3) 0 result := by
  have hfound : findMadt (firmware 0 1) = 0x2000 := by decide +kernel
  obtain ⟨⟨result, hreturn, hmatches⟩, -⟩ :=
    configInit_matches_iff ordinary (firmware 0 1) noConfig 3 (by decide) firmware_filled
  rw [hfound] at hmatches
  refine ⟨result, hreturn, hmatches.mpr (.replaced (by decide +kernel) ⟨?_, ?_, ?_, ?_⟩)⟩
  · exact .inl (by decide +kernel)
  · decide +kernel
  · exact fun h => absurd h (by decide +kernel)
  · exact fun _ h => absurd h (by decide +kernel)

/-- A processor in the first entry is not found, and what is behind the table is taken for an entry. -/
theorem configInit_skips_first :
    (¬ ∀ memInfo mem config n, memAbove1M memInfo ≠ none → Filled mem (findMadt mem) n →
      ∃ result, (∀ turns, n ≤ turns → configInit memInfo mem turns config = .returned result) ∧
        Matches mem (entriesOf mem (findMadt mem + 44) n) config.ioAPIC result) ∧
    ¬ ∀ mem n, Filled mem (findMadt mem) n → Independent mem (findMadt mem) := by
  constructor
  · intro h
    have hfound : findMadt (firmware 1 2) = 0x2000 := by decide +kernel
    have hfilled : Filled (firmware 1 2) (findMadt (firmware 1 2)) 3 := by
      rw [hfound]
      exact ⟨by decide +kernel, by decide +kernel⟩
    obtain ⟨result, hreturn, hmatches⟩ := h ordinary (firmware 1 2) noConfig 3 (by decide) hfilled
    have hinfo : memAbove1M ordinary ≠ none := by decide
    obtain ⟨result', hreturn', hiff⟩ := hfilled.configInit_returns hinfo noConfig
    have hsame := (hreturn 3 le_rfl).symm.trans (hreturn' 3 le_rfl)
    rw [← Outcome.returned.inj hsame, hfound] at hiff
    rw [hfound] at hmatches
    have hcounts := (unnoticeable_iff.mp (hiff.mp hmatches)).1
    exact absurd (congrArg List.length hcounts) (by decide +kernel)
  · intro h
    rcases firmware_filled.independent_iff.mp (h _ 3 firmware_filled) with hempty | hlong
    · exact absurd hempty (by decide)
    · exact absurd hlong (by decide +kernel)

end MMapKernel.Boot
