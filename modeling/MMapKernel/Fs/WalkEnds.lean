import MMapKernel.Lib.Walk
import MMapKernel.Fs.Directory

/-!
# Does the walk over a directory end?

`entries` goes from record to record by the sizes that it reads from the disk, with an offset of 32
bits. Nothing checks them.
-/

namespace MMapKernel.Fs
open BlockIO (bytesFrom_first)
namespace Node

variable {node : Node} {offset : UInt32} {turns : ℕ}

def nextRecord (node : Node) (offset : UInt32) : Option UInt32 :=
  if offset < node.data.sizeLow then
    (node.readEntry offset).map fun e => offset + e.2.1.toUInt32
  else none

def recordAt (node : Node) (n : ℕ) : Option UInt32 := Walk.after node.nextRecord n 0

theorem entriesLoop_running_iff : node.entriesLoop turns offset = .running ↔
    ∃ o, Walk.after node.nextRecord turns offset = some o ∧ o < node.data.sizeLow := by
  induction turns generalizing offset with
  | zero =>
    by_cases h : offset < node.data.sizeLow
    · rw [entriesLoop_zero h]
      exact iff_of_true rfl ⟨offset, rfl, h⟩
    · rw [entriesLoop_done h]
      refine iff_of_false (by rintro ⟨⟩) ?_
      rintro ⟨o, ho, hlt⟩
      exact h (Option.some.inj ho ▸ hlt)
  | succ turns ih =>
    by_cases h : offset < node.data.sizeLow
    · rw [entriesLoop_succ h, Walk.after, nextRecord, if_pos h]
      cases hread : node.readEntry offset with
      | none => exact iff_of_false (by rintro ⟨⟩) (by rintro ⟨o, ho, -⟩; cases ho)
      | some e =>
        rw [Option.map_some, Option.bind_some, ← ih, Outcome.ofOption_some, Outcome.bind_returned]
        cases node.entriesLoop turns (offset + e.2.1.toUInt32) with
        | running => exact iff_of_true rfl rfl
        | returned es => exact iff_of_false (by rintro ⟨⟩) (by rintro ⟨⟩)
        | failed => exact iff_of_false (by rintro ⟨⟩) (by rintro ⟨⟩)
        | nullNode => exact iff_of_false (by rintro ⟨⟩) (by rintro ⟨⟩)
    · rw [entriesLoop_done h, Walk.after, nextRecord, if_neg h]
      exact iff_of_false (by rintro ⟨⟩) (by rintro ⟨o, ho, -⟩; cases ho)

theorem entriesLoop_ends_iff :
    (∃ turns, node.entriesLoop turns offset ≠ .running) ↔ Walk.Ends node.nextRecord offset := by
  constructor
  · rintro ⟨turns, h⟩
    rw [Ne, entriesLoop_running_iff] at h
    refine ⟨turns + 1, ?_⟩
    rw [Walk.after_succ]
    cases ho : Walk.after node.nextRecord turns offset with
    | none => rfl
    | some o =>
      have hend : ¬ o < node.data.sizeLow := fun hlt => h ⟨o, ho, hlt⟩
      rw [Option.bind_some, nextRecord, if_neg hend]
  · rintro ⟨turns, h⟩
    refine ⟨turns, ?_⟩
    rw [Ne, entriesLoop_running_iff]
    rintro ⟨o, ho, -⟩
    rw [h] at ho
    cases ho

theorem nextRecord_eq_some {next : UInt32} : node.nextRecord offset = some next ↔
    offset < node.data.sizeLow ∧ ∃ e, node.readEntry offset = some e ∧ offset + e.2.1.toUInt32 = next := by
  rw [nextRecord, Option.ite_none_right_eq_some, Option.map_eq_some_iff]

def Sized (node : Node) : Prop :=
  ∀ n offset e, node.recordAt n = some offset → offset < node.data.sizeLow →
    node.readEntry offset = some e → e.2.1 ≠ 0

theorem sized_of_ends (h : Walk.Ends node.nextRecord 0) : node.Sized := by
  intro n offset e hn ho he hz
  have hback : Walk.after node.nextRecord (n + 1) 0 = some offset := by
    rw [Walk.after_succ, show Walk.after node.nextRecord n 0 = some offset from hn, Option.bind_some]
    refine nextRecord_eq_some.mpr ⟨ho, e, he, ?_⟩
    rw [hz]
    exact UInt32.add_zero offset
  exact Walk.Returns.not_ends ⟨n, n + 1, offset, n.lt_succ_self, hn, hback⟩ h

theorem recordAt_ge (hsmall : node.data.sizeLow.toNat ≤ 2 ^ 32 - 2 ^ 16) (hs : node.Sized) {n : ℕ}
    {offset : UInt32} (h : node.recordAt n = some offset) : n ≤ offset.toNat := by
  induction n generalizing offset with
  | zero => exact Nat.zero_le _
  | succ n ih =>
    rw [recordAt, Walk.after_succ] at h
    obtain ⟨before, hn, hnext⟩ := Option.bind_eq_some_iff.mp h
    obtain ⟨ho, e, he, rfl⟩ := nextRecord_eq_some.mp hnext
    have hle := ih hn
    have hsize := e.2.1.toNat_lt
    have hpos : e.2.1.toNat ≠ 0 := fun hz => hs n before e hn ho he (UInt16.toNat_inj.mp hz)
    rw [UInt32.lt_iff_toNat_lt] at ho
    rw [UInt32.toNat_add, UInt16.toNat_toUInt32]
    omega

theorem ends_of_sized (hsmall : node.data.sizeLow.toNat ≤ 2 ^ 32 - 2 ^ 16) (hs : node.Sized) :
    Walk.Ends node.nextRecord 0 := by
  by_contra hgoes
  obtain ⟨offset, ho⟩ : ∃ offset, node.recordAt (2 ^ 32) = some offset :=
    Option.ne_none_iff_exists'.mp fun hn => hgoes ⟨2 ^ 32, hn⟩
  have hge := recordAt_ge hsmall hs ho
  have hlt := offset.toNat_lt
  omega

theorem finite_offsets : Finite UInt32 := Finite.of_injective UInt32.toFin fun _ _ => UInt32.toFin_inj.mp

theorem entries_returns_iff (hdir : node.data.isDir) :
    (∃ turns, node.entries turns ≠ .running) ↔ Walk.Ends node.nextRecord 0 := by
  rw [← entriesLoop_ends_iff]
  simp only [entries, hdir, if_true]

/-- For every directory and all its bytes: `entries` ends, with its records or in an assertion that
fails, exactly if the walk does not come back to an offset. Where the directory is too small for an
offset to wrap around, it does so exactly if no record that it comes to has size 0. -/
theorem entries_ends_iff (node : Node) (hdir : node.data.isDir) :
    ((∃ turns, node.entries turns ≠ .running) ↔
      ∀ m n offset, m < n → node.recordAt m = some offset → node.recordAt n ≠ some offset) ∧
    (node.data.sizeLow.toNat ≤ 2 ^ 32 - 2 ^ 16 →
      ((∃ turns, node.entries turns ≠ .running) ↔ node.Sized)) := by
  have hends := entries_returns_iff hdir
  have := finite_offsets
  refine ⟨?_, fun hsmall => hends.trans ⟨sized_of_ends, ends_of_sized hsmall⟩⟩
  rw [hends, Walk.ends_iff_not_returns]
  constructor
  · intro h m n offset hmn hm hn
    exact h ⟨m, n, offset, hmn, hm, hn⟩
  · rintro h ⟨m, n, offset, hmn, hm, hn⟩
    exact h m n offset hmn hm hn

end Node

theorem three_records_end : (∃ turns, directoryNode.entries turns ≠ .running) ∧ directoryNode.Sized := by
  have hends : ∃ turns, directoryNode.entries turns ≠ .running := by
    refine ⟨3, ?_⟩
    have hentries : directoryNode.entries 3 = _ := directoryNode_lists.entries_eq le_rfl
    rw [hentries]
    exact nofun
  exact ⟨hends, ((Node.entries_ends_iff directoryNode directoryNode_lists.dir).2 (by decide)).mp hends⟩

def blankDirectory : Node where
  disk := ⟨List.replicate 2048 0, by rw [List.length_replicate]⟩
  number := 2
  blockSize := 1024
  positive := kibibyte_pos
  data :=
    { mode := 0x41ED, sizeLow := 1024, nSectors := 2, direct := fun i => if i.val = 0 then 1 else 0
      indirect1 := 0, indirect2 := 0, indirect3 := 0 }

theorem blankDirectory_block :
    blankDirectory.io.readBlock 0 = .returns (List.replicate 1024 0) () := by
  have hlen : blankDirectory.disk.bytes.length = 2048 := List.length_replicate
  have hblock : blankDirectory.disk.block blankDirectory.blockSize.toNat (UInt32.toNat 1) =
      List.replicate 1024 0 := by
    change ((List.replicate 2048 (0 : UInt8)).drop (1 * 1024)).take 1024 = _
    rw [List.drop_replicate, List.take_replicate]
    exact congrArg (fun k => List.replicate k 0) (by decide)
  have hread : blankDirectory.readBlock 0 =
      .returns (blankDirectory.disk.block blankDirectory.blockSize.toNat (UInt32.toNat 1)) () :=
    Node.readBlock_eq_inside (by decide) (by decide) ⟨hlen.ge, by decide⟩
  rw [Node.io_readBlock, hread, hblock]

theorem blankDirectory_entry : blankDirectory.readEntry 0 = some (0, 0, []) := by
  have hc : blankDirectory.io.Complete :=
    BlockIO.complete_of_first (by rw [blankDirectory_block]; rfl) le_rfl
  have hb : blankDirectory.io.bytesFrom 0 8 = List.replicate 8 0 := by
    rw [bytesFrom_first blankDirectory_block (by decide), List.take_replicate]
    rfl
  have hend : 0 + 8 ≤ blankDirectory.io.sizeInBytes.toNat := by decide
  have hinode : blankDirectory.io.readThing 0 4 = some [0, 0, 0, 0] :=
    hc.readThing_field [] hend hb rfl rfl
  have htotal : blankDirectory.io.readThing 4 2 = some [0, 0] :=
    hc.readThing_field [0, 0, 0, 0] hend hb rfl rfl
  have hlength : blankDirectory.io.readThing 6 1 = some [0] :=
    hc.readThing_field [0, 0, 0, 0, 0, 0] hend hb rfl rfl
  have hname : blankDirectory.io.readThing 8 0 = some [] :=
    hc.readThing_field [0, 0, 0, 0, 0, 0, 0, 0] hend hb rfl rfl
  simp only [Node.readEntry, UInt32.zero_add, hinode, htotal, hlength, Option.bind_some]
  rw [show ([0] : List UInt8).getD 0 0 = 0 from rfl, show UInt8.toUInt32 0 = 0 from rfl, hname]
  rfl

theorem blank_directory_runs_forever :
    ¬ ∀ node : Node, node.data.isDir → ∃ turns, node.entries turns ≠ .running := by
  intro h
  have hends := h blankDirectory (by decide)
  have hsized : blankDirectory.Sized := Node.sized_of_ends ((Node.entries_returns_iff (by decide)).mp hends)
  exact hsized 0 0 _ rfl (by decide) blankDirectory_entry rfl

end MMapKernel.Fs
