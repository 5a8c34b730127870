import MMapKernel.Lib.Transition
import MMapKernel.Sys.Descriptor

/-!
# Reads that fail

`FileDescriptor::read` keeps the 64-bit count of `read_all` in 32 bits without a sign, so the
answer -1 of a read from behind the end moves the offset by `2 ^ 32 - 1`, one back. A file of
`2 ^ 32 - 1` bytes that is read in one call has that number as its count.
-/

open Transition
namespace MMapKernel.Sys
open Fs
open BlockIO (readAll)

def FailsAlone (c : UInt8) (file : File) : FileCall → Prop
  | .read n => (file.read c n).1.result = some (-1) →
      (file.read c n).2 = file ∧ ∀ k, ((fun f => (f.read c n).2)^[k] file).read c n = file.read c n
  | .seek _ => True

def Countable : File → FileCall → Prop
  | .descriptor node offset, .read n =>
    n = 0 ∨ (offset ≤ node.data.sizeLow ∧ node.io.room offset n < 2 ^ 32 - 1)
  | _, _ => True

variable {node : Node} {offset n : UInt32} {c : UInt8} {file : File} {call : FileCall}

theorem failsAlone_of_same (h : (file.read c n).1.result = some (-1) → (file.read c n).2 = file) :
    FailsAlone c file (.read n) := by
  intro hr
  refine ⟨h hr, fun k => ?_⟩
  rw [Function.iterate_fixed (h hr)]

theorem add_all_ones_ne (offset : UInt32) : offset + 0xFFFFFFFF ≠ offset := by
  intro h
  have hlt := offset.toNat_lt
  have := congrArg UInt32.toNat h
  rw [UInt32.toNat_add, show UInt32.toNat 0xFFFFFFFF = 4294967295 from rfl] at this
  omega

theorem descriptor_read_past (h : node.data.sizeLow < offset) (hn : n ≠ 0) :
    (File.descriptor node offset).read c n =
      (.returns [] (-1), .descriptor node (offset + 0xFFFFFFFF)) := by
  obtain ⟨k, hk⟩ : ∃ k, n.toNat = k + 1 :=
    ⟨n.toNat - 1, by have := mt UInt32.toNat_inj.mp hn; rw [UInt32.toNat_zero] at this; omega⟩
  have hall : node.io.readAll offset n = .returns [] (-1) := by
    rw [readAll, hk]
    exact BlockIO.readLoop_past hn h
  simp only [File.read, hall, Transfer.returns]
  rfl

theorem descriptor_read_zero :
    (File.descriptor node offset).read c 0 = (.returns [] 0, .descriptor node offset) := by
  have hall : node.io.readAll offset 0 = .returns [] 0 := BlockIO.readLoop_zero 0 0
  simp only [File.read, hall, Transfer.returns]
  rfl

theorem ofNat_eq_neg_one {k : ℕ} (hk : k < 2 ^ 32) : UInt32.ofNat k = -1 ↔ ¬ k < 2 ^ 32 - 1 := by
  rw [← UInt32.toNat_inj, UInt32.toNat_ofNat', show UInt32.toNat (-1) = 4294967295 from rfl]
  omega

theorem failsAlone_iff (hcall : ((File.descriptor node offset).call c call) ≠ none) :
    FailsAlone c (.descriptor node offset) call ↔ Countable (.descriptor node offset) call := by
  cases call with
  | seek o => exact Iff.rfl
  | read n =>
    rcases eq_or_ne n 0 with rfl | hn
    · refine iff_of_true (failsAlone_of_same fun _ => ?_) (Or.inl rfl)
      rw [descriptor_read_zero]
    rcases Nat.lt_or_ge node.data.sizeLow.toNat offset.toNat with hpast | h
    · rw [← UInt32.lt_iff_toNat_lt] at hpast
      have hread := descriptor_read_past (c := c) hpast hn
      refine iff_of_false (fun hf => ?_) fun hc => UInt32.not_le.mpr hpast (hc.resolve_left hn).1
      have hkept := (hf (by rw [hread]; rfl)).1
      rw [hread] at hkept
      exact add_all_ones_ne offset (File.descriptor.inj hkept).2
    · rw [ge_iff_le, ← UInt32.le_iff_toNat_le] at h
      have hr : node.io.Readable offset n := by
        refine (descriptor_read_returns_iff (c := c)).mp fun hnone => hcall ?_
        rw [File.call, hnone, Option.map_none]
      have hlt : node.io.room offset n < 2 ^ 32 := (min_le_left _ _).trans_lt n.toNat_lt
      have hread := descriptor_read (c := c) h hr
      by_cases hroom : node.io.room offset n < 2 ^ 32 - 1
      · refine iff_of_true (failsAlone_of_same fun hres => ?_) (Or.inr ⟨h, hroom⟩)
        rw [hread] at hres
        exact absurd hroom ((ofNat_eq_neg_one hlt).mp (Option.some.inj hres))
      · have hall : UInt32.ofNat (node.io.room offset n) = -1 := (ofNat_eq_neg_one hlt).mpr hroom
        refine iff_of_false (fun hf => ?_) fun hc => hroom (hc.resolve_left hn).2
        have hkept := (hf (by rw [hread, hall]; rfl)).1
        rw [hread, hall] at hkept
        exact add_all_ones_ne offset (File.descriptor.inj hkept).2

theorem call_descriptor {t : File} (h : (File.descriptor node offset).call c call = some t) :
    ∃ offset', t = .descriptor node offset' := by
  cases call with
  | seek o => exact ⟨o, (Option.some.inj h).symm⟩
  | read n =>
    obtain ⟨r, -, rfl⟩ := Option.map_eq_some_iff.mp h
    simp only [File.read]
    split
    case h_1 => exact ⟨_, rfl⟩
    case h_2 => exact ⟨_, rfl⟩

/-- For every file and every sequence of seeks and reads: each read that returns -1 leaves the
descriptor as it was, however often it is repeated, exactly if no read of at least one byte starts
behind the end or has a count of `2 ^ 32 - 1`. -/
theorem failed_reads_keep_iff (node : Node) (c : UInt8) (start : UInt32) (calls : List FileCall) :
    Throughout (File.call c) (FailsAlone c) (.descriptor node start) calls ↔
      Throughout (File.call c) Countable (.descriptor node start) calls := by
  refine throughout_congr (I := fun file => ∃ offset, file = .descriptor node offset)
    (fun s i t hs ht => ?_) (fun s i t hs ht => ?_) ⟨start, rfl⟩ calls
  · obtain ⟨offset, rfl⟩ := hs
    exact call_descriptor ht
  · obtain ⟨offset, rfl⟩ := hs
    exact failsAlone_iff (by rw [ht]; exact Option.some_ne_none t)

/-- The first read past the end fails and brings the offset to the end: the second one returns 0. -/
theorem failed_read_moves_back : ¬ ∀ (node : Node) (c : UInt8) (start : UInt32) (calls : List FileCall),
    Throughout (File.call c) (FailsAlone c) (.descriptor node start) calls := by
  intro h
  have hpast : (smallFs.node 1 0).data.sizeLow < 6 := by decide
  have hread := descriptor_read_past (c := 0) hpast (n := 1) (by decide)
  have hseek := h (smallFs.node 1 0) 0 0 [.seek 6, .read 1] (.descriptor (smallFs.node 1 0) 6) rfl
  have hfails : FailsAlone 0 (.descriptor (smallFs.node 1 0) 6) (.read 1) :=
    (hseek.2 _ (by rw [File.call, hread]; rfl)).1
  have hkept := (hfails (by rw [hread]; rfl)).1
  rw [hread] at hkept
  exact add_all_ones_ne 6 (File.descriptor.inj hkept).2

end MMapKernel.Sys
