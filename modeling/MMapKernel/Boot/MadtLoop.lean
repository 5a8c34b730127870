import MMapKernel.Boot.Config

/-!
# The loop over the entries of the MADT

Each turn goes to the next entry and then inspects what it finds there, so the first `n` turns inspect
the entries behind the first one, and the last of them what is behind the table. Nothing bounds the
stores into `apicInfo`, and an entry of length 0 is never left.
-/

namespace MMapKernel.Boot
open Fs (Outcome)

variable {mem : Memory} {p entry : UInt32} {s t : Scan} {m n : ℕ} {entries : List UInt32} {old : UInt32}

namespace Scan

theorem record_place (s : Scan) (info : ApicInfo) : (s.record info).entryPtr = s.entryPtr ∧
    (s.record info).bytesForEntries = s.bytesForEntries := by
  cases s
  exact ⟨rfl, rfl⟩

theorem record_count (s : Scan) (info : ApicInfo) :
    (s.record info).config.nOtherProcs = s.config.nOtherProcs + 1 := rfl

theorem record_stored (s : Scan) (info : ApicInfo) :
    (s.record info).stored = s.stored ++ [s.config.nOtherProcs] := rfl

theorem record_apicInfo (s : Scan) (info : ApicInfo) : (s.record info).config.apicInfo =
    Function.update s.config.apicInfo s.config.nOtherProcs info := rfl

theorem record_ioAPIC (s : Scan) (info : ApicInfo) :
    (s.record info).config.ioAPIC = s.config.ioAPIC := by
  obtain ⟨_, _, config, _⟩ := s
  cases config
  rfl

theorem setIoAPIC_place (s : Scan) (address : UInt32) :
    (s.setIoAPIC address).entryPtr = s.entryPtr ∧
      (s.setIoAPIC address).bytesForEntries = s.bytesForEntries := ⟨rfl, rfl⟩

theorem setIoAPIC_rest (s : Scan) (address : UInt32) :
    (s.setIoAPIC address).config.nOtherProcs = s.config.nOtherProcs ∧
    (s.setIoAPIC address).config.apicInfo = s.config.apicInfo ∧
    (s.setIoAPIC address).stored = s.stored ∧ (s.setIoAPIC address).config.ioAPIC = address :=
  ⟨rfl, rfl, rfl, rfl⟩

theorem advance_rest (s : Scan) (len : UInt8) :
    (s.advance len).config = s.config ∧ (s.advance len).stored = s.stored := by
  cases s
  exact ⟨rfl, rfl⟩

end Scan

def infos (mem : Memory) (entries : List UInt32) : List ApicInfo :=
  (entries.filter (IsProcessor mem)).map (infoAt mem)

def lastIoApic (mem : Memory) (entries : List UInt32) (old : UInt32) : UInt32 :=
  entries.foldl (fun out entry => if IsIoApic mem entry then field mem (entry + 4) else out) old

structure Recorded (mem : Memory) (entries : List UInt32) (old : UInt32) (s : Scan) : Prop where
  count : s.config.nOtherProcs = UInt32.ofNat (infos mem entries).length
  stored : s.stored = (List.range (infos mem entries).length).map UInt32.ofNat
  apicInfo : (infos mem entries).length ≤ 2 ^ 32 → ∀ i info, (infos mem entries)[i]? = some info →
    s.config.apicInfo (UInt32.ofNat i) = info
  ioAPIC : s.config.ioAPIC = lastIoApic mem entries old

theorem infos_concat_processor (h : IsProcessor mem entry) :
    infos mem (entries ++ [entry]) = infos mem entries ++ [infoAt mem entry] := by
  rw [infos, List.filter_append, List.filter_cons_of_pos (by simpa using h), List.map_append]
  rfl

theorem infos_concat_other (h : ¬ IsProcessor mem entry) :
    infos mem (entries ++ [entry]) = infos mem entries := by
  rw [infos, List.filter_append, List.filter_cons_of_neg (by simpa using h), List.filter_nil,
    List.append_nil]
  rfl

theorem ofNat_ne {i j : ℕ} (hij : i < j) (hj : j < 2 ^ 32) : UInt32.ofNat i ≠ UInt32.ofNat j := by
  intro he
  have hmod := congrArg UInt32.toNat he
  rw [UInt32.toNat_ofNat', UInt32.toNat_ofNat', Nat.mod_eq_of_lt (hij.trans hj), Nat.mod_eq_of_lt hj] at hmod
  omega

theorem lastIoApic_concat (mem : Memory) (entries : List UInt32) (entry old : UInt32) :
    lastIoApic mem (entries ++ [entry]) old =
      if IsIoApic mem entry then field mem (entry + 4) else lastIoApic mem entries old := by
  rw [lastIoApic, List.foldl_concat]
  rfl

theorem not_ioApic (h : mem entry = 0) : ¬ IsIoApic mem entry := by
  intro h1
  rw [IsIoApic, h] at h1
  exact absurd h1 (by decide)

theorem inspect_processor (hp : IsProcessor mem entry) :
    inspect mem s entry = s.record (infoAt mem entry) := by
  rw [inspect, if_pos hp.1, if_neg hp.2, infoAt]

theorem inspect_ioApic (h : IsIoApic mem entry) :
    inspect mem s entry = s.setIoAPIC (field mem (entry + 4)) := by
  have h0 : ¬ mem entry = 0 := fun hz => not_ioApic hz h
  rw [inspect, if_neg h0, if_pos (show mem entry = 1 from h)]

theorem inspect_rest (hp : ¬ IsProcessor mem entry) (h1 : ¬ IsIoApic mem entry) :
    inspect mem s entry = s := by
  by_cases h0 : mem entry = 0
  · rw [inspect, if_pos h0, if_pos (by_contra fun hne => hp ⟨h0, hne⟩)]
  · rw [inspect, if_neg h0, if_neg (show ¬ mem entry = 1 from h1)]

namespace Recorded

theorem processor (h : Recorded mem entries old s) (hp : IsProcessor mem entry) :
    Recorded mem (entries ++ [entry]) old (s.record (infoAt mem entry)) := by
  refine ⟨?_, ?_, fun hle i info hi => ?_, ?_⟩
  · rw [Scan.record_count, h.count, infos_concat_processor hp, List.length_append, List.length_singleton,
      UInt32.ofNat_add, UInt32.ofNat_one]
  · rw [Scan.record_stored, h.stored, h.count, infos_concat_processor hp, List.length_append,
      List.length_singleton, List.range_succ, List.map_append, List.map_singleton]
  · rw [infos_concat_processor hp] at hle hi
    rw [List.length_append, List.length_singleton] at hle
    rw [Scan.record_apicInfo, h.count]
    rcases Nat.lt_or_ge i (infos mem entries).length with hlt | hge
    · rw [Function.update_of_ne (ofNat_ne hlt (by omega))]
      rw [List.getElem?_append_left hlt] at hi
      exact h.apicInfo (by omega) i info hi
    · obtain ⟨hlast, -⟩ := List.getElem?_eq_some_iff.mp hi
      rw [List.length_append, List.length_singleton] at hlast
      obtain rfl : i = (infos mem entries).length := by omega
      rw [List.getElem?_concat_length] at hi
      rw [Function.update_self, Option.some.inj hi]
  · rw [Scan.record_ioAPIC, lastIoApic_concat, if_neg (not_ioApic hp.1)]
    exact h.ioAPIC

theorem other (h : Recorded mem entries old s) (hp : ¬ IsProcessor mem entry)
    (hc : t.config.nOtherProcs = s.config.nOtherProcs) (ha : t.config.apicInfo = s.config.apicInfo)
    (hs : t.stored = s.stored)
    (hio : t.config.ioAPIC = if IsIoApic mem entry then field mem (entry + 4) else s.config.ioAPIC) :
    Recorded mem (entries ++ [entry]) old t := by
  refine ⟨?_, ?_, ?_, ?_⟩
  · rw [hc, infos_concat_other hp]
    exact h.count
  · rw [hs, infos_concat_other hp]
    exact h.stored
  · rw [ha, infos_concat_other hp]
    exact h.apicInfo
  · rw [hio, lastIoApic_concat, h.ioAPIC]

theorem step (h : Recorded mem entries old s) (entry : UInt32) :
    Recorded mem (entries ++ [entry]) old (inspect mem s entry) := by
  by_cases hp : IsProcessor mem entry
  · rw [inspect_processor hp]
    exact h.processor hp
  by_cases hio : IsIoApic mem entry
  · rw [inspect_ioApic hio]
    obtain ⟨hc, ha, hs, haddress⟩ := s.setIoAPIC_rest (field mem (entry + 4))
    apply h.other hp hc ha hs
    rw [if_pos hio, haddress]
  · rw [inspect_rest hp hio]
    exact h.other hp rfl rfl rfl (if_neg hio).symm

theorem congr (h : Recorded mem entries old s) (hc : t.config = s.config) (hs : t.stored = s.stored) :
    Recorded mem entries old t := by
  refine ⟨?_, ?_, ?_, ?_⟩
  · rw [hc]
    exact h.count
  · rw [hs]
    exact h.stored
  · rw [hc]
    exact h.apicInfo
  · rw [hc]
    exact h.ioAPIC

end Recorded

structure Scanned (mem : Memory) (p : UInt32) (bytes : ℤ) (old : UInt32) (n : ℕ) (t : Scan) : Prop where
  entryPtr : t.entryPtr = cursor mem p n
  bytesForEntries : t.bytesForEntries = bytes - covered mem p n
  recorded : Recorded mem (inspected mem p n) old t

theorem inspect_place (mem : Memory) (s : Scan) (entry : UInt32) :
    (inspect mem s entry).entryPtr = s.entryPtr ∧
      (inspect mem s entry).bytesForEntries = s.bytesForEntries := by
  by_cases hp : IsProcessor mem entry
  · rw [inspect_processor hp]
    exact s.record_place _
  by_cases hio : IsIoApic mem entry
  · rw [inspect_ioApic hio]
    exact s.setIoAPIC_place _
  · rw [inspect_rest hp hio]
    exact ⟨rfl, rfl⟩

theorem turn_eq_none : turn mem s = none ↔ ¬ 0 < s.bytesForEntries := by
  unfold turn
  split
  case isTrue h => exact iff_of_false nofun (not_not.mpr h)
  case isFalse h => exact iff_of_true rfl h

theorem Scanned.next {bytes : ℤ} (h : Scanned mem p bytes old n s) (ht : turn mem s = some t) :
    Scanned mem p bytes old (n + 1) t := by
  simp only [turn, Option.ite_none_right_eq_some, Option.some.injEq] at ht
  obtain ⟨-, rfl⟩ := ht
  have hentry : (s.advance (mem (s.entryPtr + 1))).entryPtr = cursor mem p (n + 1) := by
    rw [Scan.advance, h.entryPtr, cursor]
  have hbytes : (s.advance (mem (s.entryPtr + 1))).bytesForEntries = bytes - covered mem p (n + 1) := by
    rw [Scan.advance, h.entryPtr, h.bytesForEntries, covered, Nat.cast_add]
    exact sub_sub _ _ _
  obtain ⟨hconfig, hstored⟩ := s.advance_rest (mem (s.entryPtr + 1))
  obtain ⟨hptr', hbytes'⟩ := inspect_place mem (s.advance (mem (s.entryPtr + 1)))
    (s.advance (mem (s.entryPtr + 1))).entryPtr
  refine ⟨hptr'.trans hentry, hbytes'.trans hbytes, ?_⟩
  rw [inspected_succ, ← hentry]
  exact (h.recorded.congr hconfig hstored).step _

theorem scanned_start (mem : Memory) (madt : UInt32) (config : Config) :
    Scanned mem (madt + 44) (bytesForEntries mem madt) config.ioAPIC 0 (scanStart mem madt config) where
  entryPtr := rfl
  bytesForEntries := by simp [covered, scanStart]
  recorded :=
    { count := rfl
      stored := rfl
      apicInfo := fun _ i info hi => by simp [infos, inspected] at hi
      ioAPIC := rfl }

section
variable {bytes : ℤ}

theorem Scanned.after (h : Scanned mem p bytes old 0 s) (ht : Walk.after (turn mem) n s = some t) :
    Scanned mem p bytes old n t := by
  induction n generalizing t with
  | zero =>
    cases ht
    exact h
  | succ n ih =>
    rw [Walk.after_succ] at ht
    obtain ⟨u, hu, hturn⟩ := Option.bind_eq_some_iff.mp ht
    exact (ih hu).next hturn

theorem Scanned.after_isSome (h : Scanned mem p bytes old 0 s) :
    (∃ t, Walk.after (turn mem) n s = some t) ↔ ∀ i < n, (covered mem p i : ℤ) < bytes := by
  induction n with
  | zero => exact iff_of_true ⟨s, rfl⟩ fun i hi => absurd hi (Nat.not_lt_zero i)
  | succ n ih =>
    have hnext : (∃ t, Walk.after (turn mem) (n + 1) s = some t) ↔
        (∃ t, Walk.after (turn mem) n s = some t) ∧ (covered mem p n : ℤ) < bytes := by
      rw [Walk.after_succ]
      cases hu : Walk.after (turn mem) n s with
      | none => exact iff_of_false (by rintro ⟨t, ht⟩; cases ht) (by rintro ⟨⟨t, ht⟩, -⟩; cases ht)
      | some u =>
        have hbytes := (h.after hu).bytesForEntries
        rw [Option.bind_some, ← Option.ne_none_iff_exists', Ne, turn_eq_none, not_not, hbytes, sub_pos]
        exact ⟨fun hlt => ⟨⟨u, rfl⟩, hlt⟩, fun hlt => hlt.2⟩
    rw [hnext, ih]
    constructor
    · rintro ⟨hall, hlast⟩ i hi
      rcases Nat.lt_succ_iff_lt_or_eq.mp hi with hlt | rfl
      · exact hall i hlt
      · exact hlast
    · intro hall
      exact ⟨fun i hi => hall i (Nat.lt_succ_of_lt hi), hall n n.lt_succ_self⟩

theorem entryLoop_done (h : turn mem s = none) (n : ℕ) : entryLoop mem n s = .returned s := by
  unfold entryLoop
  rw [h]

theorem entryLoop_zero (h : turn mem s = some t) : entryLoop mem 0 s = .running := by
  unfold entryLoop
  rw [h]

theorem entryLoop_succ (h : turn mem s = some t) (n : ℕ) :
    entryLoop mem (n + 1) s = entryLoop mem n t := by
  conv_lhs => unfold entryLoop
  rw [h]

theorem entryLoop_running_iff :
    entryLoop mem n s = .running ↔ ∃ t, Walk.after (turn mem) (n + 1) s = some t := by
  induction n generalizing s with
  | zero =>
    rw [Walk.after_one]
    cases hs : turn mem s with
    | none =>
      rw [entryLoop_done hs]
      exact iff_of_false (by rintro ⟨⟩) (by rintro ⟨t, ⟨⟩⟩)
    | some t =>
      rw [entryLoop_zero hs]
      exact iff_of_true rfl ⟨t, rfl⟩
  | succ n ih =>
    rw [Walk.after]
    cases hs : turn mem s with
    | none =>
      rw [entryLoop_done hs]
      exact iff_of_false (by rintro ⟨⟩) (by rintro ⟨t, ⟨⟩⟩)
    | some t =>
      rw [entryLoop_succ hs, Option.bind_some]
      exact ih

theorem covered_eq_of_zero (h : mem (cursor mem p m + 1) = 0) (hmn : m ≤ n) :
    cursor mem p n = cursor mem p m ∧ covered mem p n = covered mem p m := by
  induction n, hmn using Nat.le_induction with
  | base => exact ⟨rfl, rfl⟩
  | succ n _ ih =>
    obtain ⟨hcursor, hcovered⟩ := ih
    rw [cursor, covered, hcursor, h, hcovered]
    exact ⟨UInt32.add_zero _, rfl⟩

theorem le_covered (h : ∀ i < n, mem (cursor mem p i + 1) ≠ 0) : n ≤ covered mem p n := by
  induction n with
  | zero => exact Nat.zero_le _
  | succ n ih =>
    have hle := ih fun i hi => h i (Nat.lt_succ_of_lt hi)
    have hpos : (mem (cursor mem p n + 1)).toNat ≠ 0 := fun hz => h n n.lt_succ_self (UInt8.toNat_inj.mp hz)
    rw [covered]
    omega

theorem Scanned.ends_iff (h : Scanned mem p bytes old 0 s) :
    (∃ turns, entryLoop mem turns s ≠ .running) ↔
      ∀ n, (covered mem p n : ℤ) < bytes → mem (cursor mem p n + 1) ≠ 0 := by
  constructor
  · rintro ⟨turns, hends⟩ n hn hz
    refine hends (entryLoop_running_iff.mpr (h.after_isSome.mpr fun i _ => ?_))
    refine lt_of_le_of_lt ?_ hn
    rcases le_total n i with hle | hle
    · rw [(covered_eq_of_zero hz hle).2]
    · exact Int.ofNat_le.mpr (covered_mono mem p hle)
  · intro hlens
    refine ⟨bytes.toNat, fun hrun => ?_⟩
    have hall := h.after_isSome.mp (entryLoop_running_iff.mp hrun)
    have hle : bytes.toNat ≤ covered mem p bytes.toNat :=
      le_covered fun i hi => hlens i (hall i (Nat.lt_succ_of_lt hi))
    have hlt := hall bytes.toNat (Nat.lt_succ_self _)
    omega

theorem Recorded.stored_lt_iff (h : Recorded mem entries old s) :
    (∀ i ∈ s.stored, i.toNat < MAX_PROCS) ↔ (infos mem entries).length ≤ MAX_PROCS := by
  rw [h.stored]
  constructor
  · intro hall
    by_contra hlt
    have hmem : UInt32.ofNat MAX_PROCS ∈ (List.range (infos mem entries).length).map UInt32.ofNat :=
      List.mem_map_of_mem (List.mem_range.mpr (Nat.lt_of_not_le hlt))
    exact absurd (hall _ hmem) (by decide)
  · intro hle i hi
    obtain ⟨k, hk, rfl⟩ := List.mem_map.mp hi
    rw [List.mem_range] at hk
    rw [UInt32.toNat_ofNat', Nat.mod_eq_of_lt (by rw [MAX_PROCS] at hle; omega)]
    exact hk.trans_le hle

end

theorem stores_iff (mem : Memory) (madt : UInt32) (config : Config) :
    (∀ n t, Walk.after (turn mem) n (scanStart mem madt config) = some t →
        ∀ i ∈ t.stored, i.toNat < MAX_PROCS) ↔
      ∀ n, (∀ i < n, (covered mem (madt + 44) i : ℤ) < bytesForEntries mem madt) →
        (infos mem (inspected mem (madt + 44) n)).length ≤ MAX_PROCS := by
  have hstart := scanned_start mem madt config
  constructor
  · intro hstored n hn
    obtain ⟨t, ht⟩ := hstart.after_isSome.mpr hn
    exact (hstart.after ht).recorded.stored_lt_iff.mp (hstored n t ht)
  · intro hfew n t ht
    exact (hstart.after ht).recorded.stored_lt_iff.mpr (hfew n (hstart.after_isSome.mp ⟨t, ht⟩))

/-- For all contents of the memory: the loop ends exactly if no entry that it comes to has length 0,
and stores to the elements of `apicInfo` only exactly if, as long as there are bytes left, no more than
`MAX_PROCS` of the entries behind the first are those of a processor, the one behind the table
included. -/
theorem madt_loop_safe_iff (mem : Memory) (madt : UInt32) (config : Config) :
    ((∃ turns, entryLoop mem turns (scanStart mem madt config) ≠ .running) ↔
      ∀ n, (covered mem (madt + 44) n : ℤ) < bytesForEntries mem madt →
        mem (cursor mem (madt + 44) n + 1) ≠ 0) ∧
    ((∀ n t, Walk.after (turn mem) n (scanStart mem madt config) = some t →
        ∀ i ∈ t.stored, i.toNat < MAX_PROCS) ↔
      ∀ n, (∀ i < n, (covered mem (madt + 44) i : ℤ) < bytesForEntries mem madt) →
        (infos mem (inspected mem (madt + 44) n)).length ≤ MAX_PROCS) :=
  ⟨(scanned_start mem madt config).ends_iff, stores_iff mem madt config⟩

def zeroLengths : Memory := fun a => if a = 4 then 100 else 0

def manyProcessors : Memory := fun a =>
  if a < 44 then if a = 4 then 188 else 0
  else if a % 8 = 5 then 8
  else if a % 8 = 6 then 1
  else 0

def noConfig : Config := ⟨0, 0, 0, 0, 0, 0, fun _ => ⟨0, 0, 0⟩, []⟩

/-- The loop may run forever, and it may store behind the array. -/
theorem madt_loop_unsafe :
    (¬ ∀ mem madt config, ∃ turns, entryLoop mem turns (scanStart mem madt config) ≠ .running) ∧
    ¬ ∀ mem madt config n t, Walk.after (turn mem) n (scanStart mem madt config) = some t →
      ∀ i ∈ t.stored, i.toNat < MAX_PROCS := by
  constructor
  · intro h
    have hlens := (scanned_start zeroLengths 0 noConfig).ends_iff.mp (h zeroLengths 0 noConfig)
    exact hlens 0 (by decide) (by decide)
  · intro h
    have hfew := (stores_iff manyProcessors 0 noConfig).mp (h manyProcessors 0 noConfig) 17
      (by decide +kernel)
    exact absurd hfew (by decide +kernel)

end MMapKernel.Boot
