import MMapKernel.Fs.ByteRead
import MMapKernel.Fs.FileRead
import MMapKernel.Fs.PathWalk

/-!
# Directories as byte sequences

A directory is a sequence of records, each with the number of an i-node, its own size, the length
of its name, a type and the name, padded to its size. `entries` fetches the four fields it needs
with one read each, wherever the blocks end. A record whose number is 0 has been deleted; `find`
does not look at that.
-/

namespace MMapKernel.Fs
open BlockIO (bytesFrom_length bytesFrom_first)

def halfWordBytes (w : UInt16) : List UInt8 := [UInt8.ofNat w.toNat, UInt8.ofNat (w.toNat / 2 ^ 8)]

theorem halfWord_halfWordBytes (w : UInt16) : halfWord (halfWordBytes w) 0 = w := by
  have := w.toNat_lt
  apply UInt16.toNat_inj.mp
  simp only [halfWord, halfWordBytes, List.getD_cons_zero, List.getD_cons_succ, UInt16.toNat_ofNat',
    UInt8.toNat_ofNat']
  omega

structure Record where
  inode : UInt32
  totalSize : UInt16
  type : UInt8
  name : List UInt8
  padding : List UInt8
  short : name.length ≤ 255
  string : 0 ∉ name
  size : totalSize.toNat = 8 + name.length + padding.length

namespace Record

def encode (r : Record) : List UInt8 :=
  wordBytes r.inode ++ (halfWordBytes r.totalSize ++ ([UInt8.ofNat r.name.length] ++ ([r.type] ++
    (r.name ++ r.padding))))

def entry (r : Record) : UInt32 × List UInt8 := (r.inode, r.name)

theorem encode_length (r : Record) : r.encode.length = r.totalSize.toNat := by
  rw [r.size]
  simp only [encode, wordBytes, halfWordBytes, List.length_append, List.length_cons, List.length_nil]
  omega

end Record

namespace BlockIO
variable {io : BlockIO}

theorem Complete.readThing (h : io.Complete) {offset size : UInt32}
    (hs : offset.toNat + size.toNat ≤ io.sizeInBytes.toNat) :
    io.readThing offset size = some (io.bytesFrom offset.toNat size.toNat) := by
  have hroom : io.room offset size = size.toNat := by
    unfold room
    omega
  have hread := readAll_bytes (n := size) (UInt32.le_iff_toNat_le.mpr (by omega)) (h.readable offset size)
  rw [hroom] at hread
  simp [hread, BlockIO.readThing, Transfer.returns]

theorem Complete.readThing_field (h : io.Complete) {offset n : ℕ} {at' size : UInt32}
    (front : List UInt8) {field back : List UInt8} (hend : offset + n ≤ io.sizeInBytes.toNat)
    (hb : io.bytesFrom offset n = front ++ (field ++ back)) (hat : at'.toNat = offset + front.length)
    (hsize : size.toNat = field.length) : io.readThing at' size = some field := by
  have hlen := congrArg List.length hb
  simp only [bytesFrom_length, List.length_append] at hlen
  rw [h.readThing (by omega), hat, hsize]
  have hsplit : io.bytesFrom offset n = io.bytesFrom offset front.length ++
      (io.bytesFrom (offset + front.length) field.length ++
        io.bytesFrom (offset + front.length + field.length) back.length) := by
    rw [hlen, bytesFrom_add, bytesFrom_add]
  obtain ⟨-, hrest⟩ := List.append_inj (hsplit.symm.trans hb) (io.bytesFrom_length _ _)
  exact congrArg some (List.append_inj hrest (io.bytesFrom_length _ _)).1

end BlockIO

namespace Node
variable {node : Node}

theorem io_readBlock (node : Node) (index : UInt32) :
    node.io.readBlock index = node.readBlock index := rfl

structure Lists (node : Node) (rs : List Record) : Prop where
  dir : node.data.isDir
  complete : node.io.Complete
  bytes : node.io.bytesFrom 0 node.data.sizeLow.toNat = rs.flatMap Record.encode

theorem Lists.size_eq {rs : List Record} (h : node.Lists rs) :
    node.data.sizeLow.toNat = (rs.map fun r => r.totalSize.toNat).sum := by
  have hlen := congrArg List.length h.bytes
  rw [bytesFrom_length, List.length_flatMap] at hlen
  simpa only [Record.encode_length] using hlen

def entryCount (node : Node) (turns : ℕ) : Outcome UInt32 :=
  if node.data.isDir then
    (node.entries turns).bind fun es => .returned (es.foldl (fun count _ => count + 1) 0)
  else .failed

theorem readEntry_record (h : node.io.Complete) {offset : UInt32} {r : Record} {rest : List UInt8}
    {n : ℕ} (hend : offset.toNat + n = node.data.sizeLow.toNat)
    (hb : node.io.bytesFrom offset.toNat n = r.encode ++ rest) :
    node.readEntry offset = some (r.inode, r.totalSize, r.name) := by
  have hlt := node.data.sizeLow.toNat_lt
  have hshort := r.short
  have hlen := congrArg List.length hb
  rw [bytesFrom_length, List.length_append, r.encode_length, r.size] at hlen
  have hsum {k : UInt32} (hk : k.toNat ≤ 8) : (offset + k).toNat = offset.toNat + k.toNat := by
    rw [UInt32.toNat_add]
    omega
  simp only [Record.encode, List.append_assoc] at hb
  have hinode : node.io.readThing offset 4 = some (wordBytes r.inode) :=
    h.readThing_field [] hend.le hb rfl rfl
  have htotal : node.io.readThing (offset + 4) 2 = some (halfWordBytes r.totalSize) :=
    h.readThing_field (wordBytes r.inode) hend.le hb (hsum (by decide)) rfl
  have hlength : node.io.readThing (offset + 6) 1 = some [UInt8.ofNat r.name.length] := by
    rw [← List.append_assoc] at hb
    exact h.readThing_field (wordBytes r.inode ++ halfWordBytes r.totalSize) hend.le hb
      (hsum (by decide)) rfl
  have hname : node.io.readThing (offset + 8) (UInt8.ofNat r.name.length).toUInt32 = some r.name := by
    rw [← List.append_assoc, ← List.append_assoc, ← List.append_assoc] at hb
    refine h.readThing_field (wordBytes r.inode ++ halfWordBytes r.totalSize ++
      [UInt8.ofNat r.name.length] ++ [r.type]) hend.le hb (hsum (by decide)) ?_
    rw [UInt8.toNat_toUInt32, UInt8.toNat_ofNat']
    omega
  simp only [readEntry, hinode, htotal, hlength, hname, Option.bind_some, Option.map_some,
    List.getD_cons_zero, word_wordBytes, halfWord_halfWordBytes]

theorem entriesLoop_records (h : node.io.Complete) {rs : List Record} {turns : ℕ} {offset : UInt32}
    (ht : rs.length ≤ turns) {n : ℕ} (hend : offset.toNat + n = node.data.sizeLow.toNat)
    (hb : node.io.bytesFrom offset.toNat n = rs.flatMap Record.encode) :
    node.entriesLoop turns offset = .returned (rs.map Record.entry) := by
  have hlt := node.data.sizeLow.toNat_lt
  induction rs generalizing turns offset n with
  | nil =>
    obtain rfl : n = 0 := by
      have := congrArg List.length hb
      rwa [bytesFrom_length] at this
    apply entriesLoop_done
    rw [UInt32.lt_iff_toNat_lt]
    omega
  | cons r rs ih =>
    obtain ⟨turns, rfl⟩ : ∃ t, turns = t + 1 :=
      ⟨turns - 1, by rw [List.length_cons] at ht; omega⟩
    rw [List.flatMap_cons] at hb
    have hsize := r.size
    have hlen := congrArg List.length hb
    rw [bytesFrom_length, List.length_append, r.encode_length] at hlen
    have ho : offset < node.data.sizeLow := by
      rw [UInt32.lt_iff_toNat_lt]
      omega
    have hnext : (offset + r.totalSize.toUInt32).toNat = offset.toNat + r.totalSize.toNat := by
      rw [UInt32.toNat_add, UInt16.toNat_toUInt32]
      omega
    have hrest : node.io.bytesFrom (offset + r.totalSize.toUInt32).toNat
        (rs.flatMap Record.encode).length = rs.flatMap Record.encode := by
      rw [hlen, BlockIO.bytesFrom_add] at hb
      rw [hnext]
      exact (List.append_inj hb (by rw [bytesFrom_length, r.encode_length])).2
    rw [entriesLoop_succ ho, readEntry_record h hend hb, Outcome.ofOption_some, Outcome.bind_returned,
      ih (by simpa using ht) (by omega) hrest]
    rfl

theorem Lists.entries_eq {rs : List Record} (h : node.Lists rs) {turns : ℕ} (ht : rs.length ≤ turns) :
    node.entries turns = .returned (rs.map Record.entry) := by
  rw [entries, if_pos h.dir]
  exact entriesLoop_records h.complete ht (Nat.zero_add _) h.bytes

theorem Lists.length_lt {rs : List Record} (h : node.Lists rs) : rs.length < 2 ^ 32 := by
  have hlt := node.data.sizeLow.toNat_lt
  have hle := List.card_nsmul_le_sum (rs.map fun r => r.totalSize.toNat) 8 fun n hn => by
    obtain ⟨r, -, rfl⟩ := List.mem_map.mp hn
    have := r.size
    omega
  rw [← h.size_eq, List.length_map, smul_eq_mul] at hle
  omega

theorem foldl_count {α : Type*} (es : List α) (count : UInt32) :
    es.foldl (fun count _ => count + 1) count = count + UInt32.ofNat es.length := by
  induction es generalizing count with
  | nil => simp
  | cons e es ih =>
    rw [List.foldl_cons, ih, List.length_cons, Ram.offset_succ]

/-- For every list of records that a readable directory consists of, wherever its blocks end:
`entries` ends and fails no assertion, it calls `work` with the number and the name of each record,
in order, and `entry_count` counts them. -/
theorem entries_returns_records (node : Node) (rs : List Record) (h : node.Lists rs) :
    ∀ turns, rs.length ≤ turns →
      node.entries turns = .returned (rs.map fun r => (r.inode, r.name)) ∧
      ∃ count, node.entryCount turns = .returned count ∧ count.toNat = rs.length := by
  intro turns ht
  have hentries := h.entries_eq ht
  refine ⟨hentries, UInt32.ofNat rs.length, ?_, ?_⟩
  · rw [entryCount, if_pos h.dir, hentries, Outcome.bind_returned, foldl_count, List.length_map]
    simp
  · rw [UInt32.toNat_ofNat', Nat.mod_eq_of_lt h.length_lt]

end Node

def liveRecord (rs : List Record) (name : List UInt8) : Option Record :=
  rs.find? fun r => r.inode ≠ 0 ∧ r.name = name

def Distinct (rs : List Record) : Prop := ((rs.filter fun r => r.inode ≠ 0).map Record.name).Nodup

def Unshadowed (rs : List Record) (name : List UInt8) : Prop :=
  ∀ xs r ys, rs = xs ++ r :: ys → r.inode ≠ 0 → r.name = name → ∀ d ∈ ys, d.inode = 0 → d.name ≠ name

theorem cString_of_notMem {bytes : List UInt8} (h : 0 ∉ bytes) : cString bytes = bytes := by
  refine List.takeWhile_eq_self_iff.mpr fun b hb => ?_
  simpa using fun hz : b = 0 => h (hz ▸ hb)

theorem streq_record (name : List UInt8) (r : Record) :
    streq name r.entry.2 = true ↔ r.name = cString name := by
  rw [streq, beq_iff_eq, Record.entry, cString_of_notMem r.string, eq_comm]

theorem numberOf_append (xs ys : List (UInt32 × List UInt8)) (name : List UInt8) :
    numberOf (xs ++ ys) name =
      ys.foldl (fun out e => if streq name e.2 then e.1 else out) (numberOf xs name) := by
  rw [numberOf, List.foldl_append]
  rfl

theorem foldl_deleted {rs : List Record} {name : List UInt8}
    (h : ∀ r ∈ rs, r.name = cString name → r.inode = 0) (out : UInt32) :
    (rs.map Record.entry).foldl (fun out e => if streq name e.2 then e.1 else out) out =
      if ∃ r ∈ rs, r.name = cString name then 0 else out := by
  induction rs generalizing out with
  | nil => simp
  | cons r rs ih =>
    have ih := ih fun d hd => h d (List.mem_cons_of_mem _ hd)
    rw [List.map_cons, List.foldl_cons]
    by_cases hr : r.name = cString name
    · have hz : r.entry.1 = 0 := h r List.mem_cons_self hr
      rw [if_pos ((streq_record name r).mpr hr), hz, ih, ite_self]
      exact (if_pos ⟨r, List.mem_cons_self, hr⟩).symm
    · have hex : (∃ d ∈ r :: rs, d.name = cString name) ↔ ∃ d ∈ rs, d.name = cString name := by
        simp [hr]
      rw [if_neg fun hs => hr ((streq_record name r).mp hs), ih]
      simp only [hex]

theorem live_split {rs : List Record} {name : List UInt8} {r : Record} (hd : Distinct rs)
    (h : liveRecord rs name = some r) : r.inode ≠ 0 ∧ r.name = name ∧ ∃ xs ys, rs = xs ++ r :: ys ∧
      (∀ d ∈ xs, d.name = name → d.inode = 0) ∧ ∀ d ∈ ys, d.name = name → d.inode = 0 := by
  obtain ⟨hr, xs, ys, rfl, hxs⟩ := List.find?_eq_some_iff_append.mp h
  obtain ⟨hlive, hname⟩ := of_decide_eq_true hr
  refine ⟨hlive, hname, xs, ys, rfl, fun d hmem hdn => ?_, fun d hmem hdn => ?_⟩
  · by_contra hz
    simpa [hz, hdn] using hxs d hmem
  · by_contra hz
    unfold Distinct at hd
    rw [List.filter_append, List.filter_cons_of_pos (by simpa using hlive), List.map_append,
      List.map_cons, List.nodup_append] at hd
    apply (List.nodup_cons.mp hd.2.1).1
    rw [hname, ← hdn]
    exact List.mem_map_of_mem (List.mem_filter.mpr ⟨hmem, by simpa using hz⟩)

theorem mem_behind {α : Type} {xs ys xs' ys' : List α} {r r' d : α}
    (h : xs ++ r :: ys = xs' ++ r' :: ys') (hr : r' ∉ xs) (hd : d ∈ ys') : d ∈ ys := by
  induction xs generalizing xs' with
  | nil =>
    cases xs' with
    | nil =>
      rw [List.nil_append, List.nil_append, List.cons.injEq] at h
      exact h.2 ▸ hd
    | cons x' xs' =>
      rw [List.nil_append, List.cons_append, List.cons.injEq] at h
      exact h.2 ▸ List.mem_append_right _ (List.mem_cons_of_mem _ hd)
  | cons x xs ih =>
    cases xs' with
    | nil =>
      rw [List.nil_append, List.cons_append, List.cons.injEq] at h
      exact absurd (h.1 ▸ List.mem_cons_self) hr
    | cons x' xs' =>
      rw [List.cons_append, List.cons_append, List.cons.injEq] at h
      exact ih h.2 fun hm => hr (List.mem_cons_of_mem _ hm)

theorem unshadowed_iff {xs ys : List Record} {r : Record} {name : List UInt8} (hlive : r.inode ≠ 0)
    (hname : r.name = name) (hxs : ∀ d ∈ xs, d.name = name → d.inode = 0)
    (hys : ∀ d ∈ ys, d.name = name → d.inode = 0) :
    Unshadowed (xs ++ r :: ys) name ↔ ¬ ∃ d ∈ ys, d.name = name := by
  constructor
  · rintro hun ⟨d, hmem, hdn⟩
    exact hun xs r ys rfl hlive hname d hmem (hys d hmem hdn) hdn
  · intro hnot xs' r' ys' hrs hlive' hname' d hmem _ hdn
    exact hnot ⟨d, mem_behind hrs (fun hm => hlive' (hxs r' hm hname')) hmem, hdn⟩

theorem numberOf_records (rs : List Record) (name : List UInt8) (hd : Distinct rs) :
    numberOf (rs.map Record.entry) name = ((liveRecord rs (cString name)).map Record.inode).getD 0 ↔
      Unshadowed rs (cString name) := by
  cases hl : liveRecord rs (cString name) with
  | none =>
    have hnone : ∀ r ∈ rs, r.name = cString name → r.inode = 0 := by
      intro r hr hname
      simpa [hname] using List.find?_eq_none.mp hl r hr
    refine iff_of_true ?_ fun xs r ys hrs hlive hname => ?_
    · rw [numberOf, foldl_deleted hnone, ite_self]
      rfl
    · exact absurd (hnone r (by rw [hrs]; simp) hname) hlive
  | some r =>
    obtain ⟨hlive, hname, xs, ys, rfl, hxs, hys⟩ := live_split hd hl
    have hstart : numberOf ((xs ++ [r]).map Record.entry) name = r.inode := by
      rw [List.map_append, numberOf_append, List.map_singleton, List.foldl_cons, List.foldl_nil,
        if_pos ((streq_record name r).mpr hname), Record.entry]
    have hnumber : numberOf ((xs ++ r :: ys).map Record.entry) name =
        if ∃ d ∈ ys, d.name = cString name then 0 else r.inode := by
      rw [List.append_cons, List.map_append, numberOf_append, hstart, foldl_deleted hys]
    rw [hnumber, Option.map_some, Option.getD_some, unshadowed_iff hlive hname hxs hys]
    by_cases hex : ∃ d ∈ ys, d.name = cString name
    · rw [if_pos hex]
      exact iff_of_false hlive.symm (not_not.mpr hex)
    · rw [if_neg hex]
      exact iff_of_true rfl hex

/-- For every readable directory whose records in use have different names, and every name: `find`
returns the number of the record in use with that name, and 0 if there is none, exactly if no deleted
record stands behind it that has kept the name. -/
theorem find_live_iff (node : Node) (rs : List Record) (h : node.Lists rs) (hd : Distinct rs)
    (name : List UInt8) (turns : ℕ) (ht : rs.length ≤ turns) :
    node.find turns name = .returned (((liveRecord rs (cString name)).map Record.inode).getD 0) ↔
      Unshadowed rs (cString name) := by
  rw [Node.find, h.entries_eq ht, Outcome.bind_returned, Outcome.returned.injEq]
  exact numberOf_records rs name hd

/-- The directory itself, a file `f`, and a record that has been deleted but kept that name. -/
def reusedName : List Record :=
  [⟨2, 12, 2, [46], [0, 0, 0], by decide, by decide, by decide⟩,
    ⟨11, 12, 1, [102], [0, 0, 0], by decide, by decide, by decide⟩,
    ⟨0, 1000, 1, [102], List.replicate 991 0, by decide, by decide,
      by rw [List.length_replicate]; decide⟩]

theorem reusedName_length : (reusedName.flatMap Record.encode).length = 1024 := by
  rw [List.length_flatMap]
  simp only [Record.encode_length]
  decide

def directoryDisk : Disk where
  bytes := List.replicate 1024 0 ++ reusedName.flatMap Record.encode
  sectors := by
    rw [List.length_append, List.length_replicate, reusedName_length]

def directoryNode : Node where
  disk := directoryDisk
  number := 2
  blockSize := 1024
  positive := kibibyte_pos
  data :=
    { mode := 0x41ED, sizeLow := 1024, nSectors := 2, direct := fun i => if i.val = 0 then 1 else 0
      indirect1 := 0, indirect2 := 0, indirect3 := 0 }

theorem directoryNode_block :
    directoryNode.io.readBlock 0 = .returns (reusedName.flatMap Record.encode) () := by
  have hlen : directoryDisk.bytes.length = 2048 := by
    rw [directoryDisk, List.length_append, List.length_replicate, reusedName_length]
  have hblock : directoryNode.disk.block directoryNode.blockSize.toNat (UInt32.toNat 1) =
      reusedName.flatMap Record.encode := by
    change directoryDisk.block 1024 1 = _
    rw [Disk.block, directoryDisk, Nat.one_mul, List.drop_left' List.length_replicate,
      List.take_of_length_le reusedName_length.le]
  have hread : directoryNode.readBlock 0 =
      .returns (directoryNode.disk.block directoryNode.blockSize.toNat (UInt32.toNat 1)) () :=
    Node.readBlock_eq_inside (by decide) (by decide) ⟨hlen.ge, by decide⟩
  rw [Node.io_readBlock, hread, hblock]

theorem directoryNode_lists : directoryNode.Lists reusedName where
  dir := by decide
  complete := BlockIO.complete_of_first (by rw [directoryNode_block]; rfl) le_rfl
  bytes := (bytesFrom_first directoryNode_block le_rfl).trans
    (List.take_of_length_le reusedName_length.le)

theorem reusedName_distinct : Distinct reusedName := by
  unfold Distinct
  decide

theorem three_entries : ∃ count, directoryNode.entryCount 3 = .returned count ∧ count.toNat = 3 :=
  (Node.entries_returns_records directoryNode reusedName directoryNode_lists 3 le_rfl).2

theorem dot_found : directoryNode.find 3 [46] = .returned 2 := by
  refine (find_live_iff directoryNode reusedName directoryNode_lists reusedName_distinct [46] 3
    le_rfl).mpr ?_
  intro xs r ys hrs hlive hname d hmem hz hdn
  have hd : d ∈ reusedName := by rw [hrs]; simp [hmem]
  have hnone : ∀ d ∈ reusedName, d.inode = 0 → d.name ≠ cString [46] := by decide
  exact hnone d hd hz hdn

/-- The deleted record makes the file disappear. -/
theorem reused_name_lost : ¬ ∀ (node : Node) (rs : List Record), node.Lists rs → Distinct rs →
    ∀ (name : List UInt8) (turns : ℕ), rs.length ≤ turns →
      node.find turns name = .returned (((liveRecord rs (cString name)).map Record.inode).getD 0) := by
  intro h
  have hfind := h directoryNode reusedName directoryNode_lists reusedName_distinct [102] 3 le_rfl
  have hentries : directoryNode.entries 3 = _ := directoryNode_lists.entries_eq le_rfl
  rw [Node.find, hentries, Outcome.bind_returned, Outcome.returned.injEq] at hfind
  exact absurd hfind (by decide)

end MMapKernel.Fs
