import MMapKernel.Fs.FileRead
import MMapKernel.Sys.UserBytes

/-!
# The memory that `ELF::load` leaves

The loader with the bytes that it stores, for a process without any region. If it comes to its end
then every segment has its bytes of the file, and zeros behind them. Whether it does depends on
where `mmap` has put the regions, which the loader does not look at.
-/

namespace MMapKernel.Sys
open Fs Vmm
open BlockIO (readAll_returns_iff)

def ProgramHeader.fillInto (cfg : Config) (inode : ℕ → Node) (file : Node) (pid : ℕ)
    (word : NodePtr) (ph : ProgramHeader) (k : Kernel) : Option Kernel :=
  (mapIn cfg pid (ph.mmapArgs word) k).bind fun k =>
    let r := file.io.readAll ph.offset ph.filesz
    (writeAll inode pid k (((readTransfers file ph.offset ph.filesz ph.vaddr).zip r.stored).map
      fun t => ⟨t.1.1, t.1.2, t.2⟩)).bind fun k =>
      match r.result with
      | none => none
      | some _ =>
        writeAll inode pid k
          ((addresses (ph.vaddr + ph.filesz) (bzeroTurns (ph.memsz - ph.filesz))).map fun x => ⟨false, x, 0⟩)

/-- `ELF::load`. No result: an `ASSERT` fails, there are no more frames, a fault ends the process or
takes the lock of the driver again. -/
def elfLoad (cfg : Config) (inode : ℕ → Node) (file : Node) (words : ℕ → NodePtr) (pid : ℕ)
    (k : Kernel) : Option (UInt32 × Kernel) :=
  (file.io.readThing 0 52).bind fun bytes =>
    let hdr := ElfHeader.ofBytes bytes
    (headerLoop file.io hdr.phentsize.toUInt32 words (fun word ph => ph.fillInto cfg inode file pid word)
      hdr.phnum.toNat hdr.phoff k).map fun k => (hdr.entry, k)

def ProgramHeader.writes (file : Node) (ph : ProgramHeader) : List Write :=
  (((readTransfers file ph.offset ph.filesz ph.vaddr).zip (file.io.readAll ph.offset ph.filesz).stored).map
      fun t => ⟨t.1.1, t.1.2, t.2⟩) ++
    (addresses (ph.vaddr + ph.filesz) (bzeroTurns (ph.memsz - ph.filesz))).map fun x => ⟨false, x, 0⟩

section
variable {cfg : Config} {inode : ℕ → Node} {file : Node} {pid total : ℕ} {maps : List VMEntry}
  {r : Residency} {k k' : Kernel} {ph : ProgramHeader} {word : NodePtr} {p : UInt32} {n : ℕ}

theorem addresses_length (p : UInt32) (n : ℕ) : (addresses p n).length = n := by simp [addresses]

theorem addresses_nodup (hn : n ≤ 2 ^ 32) : (addresses p n).Nodup := by
  refine List.Nodup.map_on (fun i hi j hj h => ?_) List.nodup_range
  rw [List.mem_range] at hi hj
  have hval := congrArg UInt32.toNat (add_left_cancel h)
  rw [UInt32.toNat_ofNat', UInt32.toNat_ofNat', Nat.mod_eq_of_lt (by omega), Nat.mod_eq_of_lt (by omega)] at hval
  exact hval

theorem readTransfers_length (file : Node) (offset n p : UInt32) :
    (readTransfers file offset n p).length = (file.io.readAll offset n).stored.length := by
  rw [← List.length_map (f := Prod.snd), readTransfers, transfers_snd, file.storesOf_readAllActions,
    addresses_length]

theorem writes_transfer (file : Node) (ph : ProgramHeader) :
    (ph.writes file).map Write.transfer = ph.transfers file := by
  rw [ProgramHeader.writes, ProgramHeader.transfers, List.map_append, List.map_map, List.map_map]
  exact congrArg₂ _ (List.map_fst_zip (readTransfers_length ..).le) rfl

theorem writes_address (hr : file.io.Readable ph.offset ph.filesz) :
    (ph.writes file).map Write.address = ph.stored file.io := by
  rw [← transfers_stored hr, ← writes_transfer, List.map_map]
  rfl

theorem fillInto_eq (ph : ProgramHeader) (word : NodePtr) (k : Kernel) :
    ph.fillInto cfg inode file pid word k = (mapIn cfg pid (ph.mmapArgs word) k).bind fun k =>
      if file.io.Readable ph.offset ph.filesz then writeAll inode pid k (ph.writes file) else none := by
  unfold ProgramHeader.fillInto
  congr 1
  funext k
  dsimp only
  cases hr : (file.io.readAll ph.offset ph.filesz).result with
  | none =>
    rw [if_neg fun h => BlockIO.readAll_returns_iff.mpr h hr]
    simp
  | some c =>
    rw [if_pos (readAll_returns_iff.mp (by simp [hr])), ProgramHeader.writes, writeAll, writeAll,
      List.foldlM_append]
    rfl

theorem fillInto_spec (cfg : Config) (inode : ℕ → Node) (file : Node) (word : NodePtr) (ph : ProgramHeader)
    (h : Resides pid maps total r k) :
    SegmentComesTo cfg inode file pid total maps r ph (ph.fillInto cfg inode file pid word k) := by
  rw [fillInto_eq]
  refine h.segment fun hr k₁ h₁ => ?_
  rw [← writes_address hr, ← writes_transfer]
  exact writeAll_spec inode h₁ (ph.writes file)

theorem quietAll_anonymous (h : ∀ e ∈ maps, e.file = none) (ts : List (Bool × UInt32)) :
    r.QuietAll inode maps ts := by
  induction ts generalizing r with
  | nil => trivial
  | cons t ts ih =>
    refine ⟨Or.inr (Or.inr fun e he number offset hread => ?_), ih⟩
    have hfile : e.sharedFile = none := by rw [VMEntry.sharedFile, h e (List.mem_of_find?_eq_some he), ite_self]
    rw [Residency.fetch, hfile] at hread
    cases hread

theorem anonymous_place {es : List VMEntry} {a : MmapArgs} {va : UInt32} (h : ∀ e ∈ es, e.file = none) :
    ∀ e ∈ (place es a.size a.hint).2.1 ++ a.newEntry none va :: (place es a.size a.hint).2.2, e.file = none := by
  rw [← place_split es a.size a.hint, List.forall_mem_append] at h
  rw [List.forall_mem_append, List.forall_mem_cons]
  exact ⟨h.1, rfl, h.2⟩

theorem anonymous_withSegment (h : ∀ e ∈ maps, e.file = none) : ∀ e ∈ withSegment cfg maps ph, e.file = none := by
  rw [withSegment, afterCall, mmap_anonymous cfg maps rfl not_fixed]
  by_cases hs : isSpecial cfg (ph.mmapArgs .null).hint = true
  · rwa [if_pos hs]
  · rw [if_neg hs]
    exact anonymous_place h

theorem allQuiet_anonymous {segs : List ProgramHeader} (h : ∀ e ∈ maps, e.file = none) :
    AllQuiet cfg inode file maps r segs := by
  induction segs generalizing maps r with
  | nil => trivial
  | cons ph segs ih => exact ⟨quietAll_anonymous (anonymous_withSegment h) _, ih (anonymous_withSegment h)⟩

theorem Owning.mapIn {a : MmapArgs} (h : Owning cfg pid k) (hfd : a.fd = .negative) (hflags : a.flags &&& 2 ≠ 2)
    (hs : Sys.mapIn cfg pid a k = some k') : Owning cfg pid k' ∧ Keeps cfg pid k k' fun _ => True := by
  obtain ⟨p, hp, hlive, hown⟩ := h
  rw [Sys.mapIn, hp, Option.map_some, Option.some.injEq] at hs
  have hlt := (List.getElem?_eq_some_iff.mp hp).1
  have hanon := mmap_anonymous cfg p.entryList hfd hflags
  by_cases hspecial : isSpecial cfg a.hint = true
  · simp only [Kernel.mmap, hanon, hspecial, if_true] at hs
    subst hs
    exact ⟨⟨p, hp, hlive, hown⟩, fun _ _ _ _ hc => hc⟩
  · simp only [Kernel.mmap, hanon, hspecial, Bool.false_eq_true, if_false] at hs
    subst hs
    have hget := List.getElem?_set_self (a := { p with entryList :=
      (place p.entryList a.size a.hint).2.1 ++ a.newEntry none (place p.entryList a.size a.hint).1 ::
        (place p.entryList a.size a.hint).2.2 }) hlt
    refine ⟨⟨_, hget, hlive, anonymous_place hown.anonymous, hown.kept, hown.distinct, hown.whole, hown.ledger⟩,
      fun y hy _ c hc => ?_⟩
    rw [Kernel.byteAt, frameOf_user hy hp] at hc
    rw [Kernel.byteAt, frameOf_user hy hget]
    exact hc

theorem Owning.fillInto (h : Owning cfg pid k) (huser : ∀ w ∈ ph.writes file, UserByte cfg w.address)
    (hnd : ((ph.writes file).map Write.address).Nodup) (hs : ph.fillInto cfg inode file pid word k = some k') :
    Owning cfg pid k' ∧ (∀ w ∈ ph.writes file, k'.byteAt pid w.address = some w.byte) ∧
      Keeps cfg pid k k' fun y => y ∉ (ph.writes file).map Write.address := by
  rw [fillInto_eq] at hs
  obtain ⟨k₁, hk₁, hs⟩ := Option.bind_eq_some_iff.mp hs
  rw [Option.ite_none_right_eq_some] at hs
  obtain ⟨hown₁, hkeep₁⟩ := h.mapIn rfl not_fixed hk₁
  obtain ⟨hown, hbytes, hkeep⟩ := hown₁.writeAll huser hnd hs.2
  exact ⟨hown, hbytes, fun y hy hout c hc => hkeep y hy hout c (hkeep₁ y hy trivial c hc)⟩

theorem Owning.headerLoop {phentsize : UInt32} {words : ℕ → NodePtr} {left : ℕ} {hoff : UInt32}
    (h : Owning cfg pid k)
    (huser : ∀ ph ∈ segments file.io phentsize left hoff, ∀ w ∈ ph.writes file, UserByte cfg w.address)
    (hnd : ∀ ph ∈ segments file.io phentsize left hoff, ((ph.writes file).map Write.address).Nodup)
    (hdis : (segments file.io phentsize left hoff).Pairwise fun a b =>
      ((a.writes file).map Write.address).Disjoint ((b.writes file).map Write.address))
    (hs : Sys.headerLoop file.io phentsize words (fun word ph => ph.fillInto cfg inode file pid word) left hoff k =
      some k') :
    Owning cfg pid k' ∧
      (∀ ph ∈ segments file.io phentsize left hoff, ∀ w ∈ ph.writes file, k'.byteAt pid w.address = some w.byte) ∧
      Keeps cfg pid k k' fun y =>
        ∀ ph ∈ segments file.io phentsize left hoff, y ∉ (ph.writes file).map Write.address := by
  induction left generalizing k hoff with
  | zero =>
    cases hs
    exact ⟨h, by simp [segments, programHeaders], fun _ _ _ _ hc => hc⟩
  | succ left ih =>
    unfold Sys.headerLoop at hs
    unfold segments programHeaders at huser hnd hdis ⊢
    cases hread : file.io.readThing hoff 32 with
    | none => simp [hread] at hs
    | some bytes =>
      simp only [hread] at hs huser hnd hdis ⊢
      obtain ⟨k₁, hk₁, hrest⟩ := Option.bind_eq_some_iff.mp hs
      by_cases ht : (ProgramHeader.ofBytes bytes).type = 1
      · rw [if_pos ht] at hk₁
        rw [List.filter_cons_of_pos (by simpa using ht)] at huser hnd hdis ⊢
        rw [List.forall_mem_cons] at huser hnd
        rw [List.pairwise_cons] at hdis
        obtain ⟨hown₁, hbytes₁, hkeep₁⟩ := h.fillInto huser.1 hnd.1 hk₁
        obtain ⟨hown, hbytes, hkeep⟩ := ih hown₁ huser.2 hnd.2 hdis.2 hrest
        refine ⟨hown, ?_, fun y hy hout c hc => ?_⟩
        · rw [List.forall_mem_cons]
          refine ⟨fun w hw => hkeep w.address (huser.1 w hw) (fun ph hph hmem => ?_) w.byte (hbytes₁ w hw), hbytes⟩
          exact hdis.1 ph hph (List.mem_map_of_mem hw) hmem
        · obtain ⟨hfirst, hlater⟩ := List.forall_mem_cons.mp hout
          exact hkeep y hy hlater c (hkeep₁ y hy hfirst c hc)
      · rw [if_neg ht] at hk₁
        cases hk₁
        rw [List.filter_cons_of_neg (by simpa using ht)] at huser hnd hdis ⊢
        exact ih h huser hnd hdis hrest

end

/-- The memory size is not below the file size, the file has the bytes, and the segment lies in user
memory off the device pages. -/
structure ProgramHeader.Proper (cfg : Config) (file : BlockIO) (ph : ProgramHeader) : Prop where
  sizes : ph.filesz ≤ ph.memsz
  inFile : ph.filesz.toNat ≤ file.sizeInBytes.toNat - ph.offset.toNat
  user : Clear cfg ph.vaddr ph.memsz.toNat

def ProgramHeader.range (ph : ProgramHeader) : List UInt32 := addresses ph.vaddr ph.memsz.toNat

/-- The file is `data`, has a header and all entries of the table, and its segments are proper and
have different addresses. -/
structure ElfFile (cfg : Config) (file : BlockIO) (data : List UInt8) (hdr : ElfHeader) : Prop where
  holds : file.Holds data
  whole : file.sizeInBytes.toNat ≤ data.length
  header : ∃ bytes, file.readThing 0 52 = some bytes ∧ ElfHeader.ofBytes bytes = hdr
  table : ∀ i < hdr.phnum.toNat,
    (hdr.phoff + UInt32.ofNat i * hdr.phentsize.toUInt32).toNat + 32 ≤ file.sizeInBytes.toNat
  proper : ∀ ph ∈ loadSegments file, ph.Proper cfg file
  disjoint : (loadSegments file).Pairwise fun a b => a.range.Disjoint b.range

structure ImageLoaded (file : BlockIO) (data : List UInt8) (pid : ℕ) (k : Kernel) : Prop where
  bytes : ∀ ph ∈ loadSegments file, ∀ i < ph.filesz.toNat,
    ∃ b, data[ph.offset.toNat + i]? = some b ∧ k.byteAt pid (ph.vaddr + UInt32.ofNat i) = some b
  zeros : ∀ ph ∈ loadSegments file, ∀ i < ph.memsz.toNat, ph.filesz.toNat ≤ i →
    k.byteAt pid (ph.vaddr + UInt32.ofNat i) = some 0

structure Mapped (cfg : Config) (file : BlockIO) (p : Process) (k : Kernel) : Prop where
  regions : ∀ front ph back, loadSegments file = front ++ ph :: back → ∀ x ∈ ph.range,
    Covered ((front ++ [ph]).foldl (withSegment cfg) []) (pageOf x)
  frames : (loadResidency cfg file [] (residencyOf p.pd k) (loadSegments file)).taken ≤ k.phys.room

section
variable {cfg : Config} {files : FileSystem} {file : BlockIO} {data : List UInt8} {hdr : ElfHeader}
  {ph : ProgramHeader} {pid : ℕ} {p : Process} {k k' : Kernel} {words : ℕ → NodePtr} {i : ℕ}

theorem Clear.lt_half {start : UInt32} {n : ℕ} (h : Clear cfg start n) : n < 2 ^ 31 := by
  rcases h with rfl | ⟨hstart, hend, hio, -⟩
  · decide
  · have hdev := cfg.io_user
    have htop := cfg.ioAPIC.toNat_lt
    unfold Misses at hio
    rw [UInt32.le_iff_toNat_le] at hstart hdev
    simp only [UInt32.reduceToNat] at hstart hdev
    omega

theorem ProgramHeader.Proper.turns (h : ph.Proper cfg file) :
    bzeroTurns (ph.memsz - ph.filesz) = ph.memsz.toNat - ph.filesz.toNat := by
  have hlt := h.user.lt_half
  have hsub : (ph.memsz - ph.filesz).toNat = ph.memsz.toNat - ph.filesz.toNat := UInt32.toNat_sub_of_le _ _ h.sizes
  rw [bzeroTurns, if_pos, hsub]
  rw [UInt32.lt_iff_toNat_lt, hsub]
  simp only [UInt32.reduceToNat]
  omega

theorem ProgramHeader.Proper.room (h : ph.Proper cfg file) : file.room ph.offset ph.filesz = ph.filesz.toNat :=
  Nat.min_eq_left h.inFile

theorem ProgramHeader.Proper.stored (h : ph.Proper cfg file) : ph.stored file = ph.range := by
  have hle := UInt32.le_iff_toNat_le.mp h.sizes
  have happ := addresses_append ph.vaddr ph.filesz.toNat (ph.memsz.toNat - ph.filesz.toNat)
  rw [UInt32.ofNat_toNat, Nat.add_sub_cancel' hle] at happ
  rw [ProgramHeader.stored, h.room, h.turns, ← happ]
  rfl

theorem ElfFile.readAll (h : ElfFile cfg file data hdr) (hph : ph.Proper cfg file) (hi : i < ph.filesz.toNat) :
    (file.readAll ph.offset ph.filesz).stored = (data.drop ph.offset.toNat).take ph.filesz.toNat := by
  have hin := hph.inFile
  have hsize := h.whole
  have ho : ph.offset ≤ file.sizeInBytes := UInt32.le_iff_toNat_le.mpr (by omega)
  rw [h.holds.readAll ho (by rw [hph.room]; omega), hph.room]
  rfl

theorem ElfFile.range_user (h : ElfFile cfg file data hdr) (hph : ph ∈ loadSegments file) {x : UInt32}
    (hx : x ∈ ph.range) : UserByte cfg x := (h.proper ph hph).user.userByte hx

end

section
variable {cfg : Config} {inode : ℕ → Node} {file : Node} {data : List UInt8} {hdr : ElfHeader}
  {ph : ProgramHeader} {pid : ℕ} {p : Process} {k k' : Kernel} {words : ℕ → NodePtr} {i : ℕ}

theorem ElfFile.mem_writes_file (h : ElfFile cfg file.io data hdr) (hph : ph.Proper cfg file.io)
    (hi : i < ph.filesz.toNat) : ∃ b, data[ph.offset.toNat + i]? = some b ∧
      ∃ w ∈ ph.writes file, w.address = ph.vaddr + UInt32.ofNat i ∧ w.byte = b := by
  have hin := hph.inFile
  have hsize := h.whole
  have hlt : ph.offset.toNat + i < data.length := by omega
  have hstored := h.readAll hph hi
  have hlen : i < (file.io.readAll ph.offset ph.filesz).stored.length := by
    rw [hstored, List.length_take, List.length_drop]
    omega
  have htransfer : i < (readTransfers file ph.offset ph.filesz ph.vaddr).length := by
    rwa [readTransfers_length]
  have haddress : (readTransfers file ph.offset ph.filesz ph.vaddr)[i].2 = ph.vaddr + UInt32.ofNat i := by
    have hmap := readTransfers_stored (n := ph.filesz) (p := ph.vaddr) (h.holds.readable h.whole ph.offset ph.filesz)
    rw [← List.getElem_map Prod.snd (h := by rwa [List.length_map])]
    simp [hmap, addresses]
  refine ⟨data[ph.offset.toNat + i], List.getElem?_eq_getElem hlt, _, List.mem_append_left _
    (List.mem_map_of_mem (List.getElem_mem (n := i) ?_)), ?_, ?_⟩
  · rw [List.length_zip]
    exact lt_min htransfer hlen
  · rw [List.getElem_zip]
    exact haddress
  · simp [List.getElem_zip, hstored]

theorem mem_writes_zero (hph : ph.Proper cfg file.io) (hi : i < ph.memsz.toNat) (hle : ph.filesz.toNat ≤ i) :
    ⟨false, ph.vaddr + UInt32.ofNat i, 0⟩ ∈ ph.writes file := by
  refine List.mem_append_right _ (List.mem_map_of_mem (f := fun x => (⟨false, x, 0⟩ : Write)) ?_)
  rw [hph.turns, addresses, List.mem_map]
  refine ⟨i - ph.filesz.toNat, List.mem_range.mpr (by omega), ?_⟩
  have hsplit := UInt32.ofNat_add ph.filesz.toNat (i - ph.filesz.toNat)
  rw [Nat.add_sub_cancel' hle, UInt32.ofNat_toNat] at hsplit
  rw [hsplit, UInt32.add_assoc]

theorem ElfFile.writes_address (h : ElfFile cfg file.io data hdr) (hph : ph ∈ loadSegments file.io) :
    (ph.writes file).map Write.address = ph.range := by
  rw [Sys.writes_address (h.holds.readable h.whole _ _), (h.proper ph hph).stored]

theorem ElfFile.elfLoad_eq (h : ElfFile cfg file.io data hdr) (inode : ℕ → Node) (words : ℕ → NodePtr)
    (pid : ℕ) (k : Kernel) :
    loadSegments file.io = segments file.io hdr.phentsize.toUInt32 hdr.phnum.toNat hdr.phoff ∧
    elfLoad cfg inode file words pid k =
      (Sys.headerLoop file.io hdr.phentsize.toUInt32 words (fun word ph => ph.fillInto cfg inode file pid word)
        hdr.phnum.toNat hdr.phoff k).map fun k => (hdr.entry, k) := by
  obtain ⟨bytes, hread, rfl⟩ := h.header
  refine ⟨?_, ?_⟩
  · simp only [loadSegments, hread]
  · rw [elfLoad, hread, Option.bind_some]

theorem owning_of_empty (hp : k.procs[pid]? = some p) (hlive : p.status = .live) (hnil : p.entryList = [])
    (hnone : ∀ g, UserPage cfg g → p.pd.lookup g = none) (hw : k.phys.Whole) (hl : Ledger k.phys []) :
    Owning cfg pid k := by
  refine ⟨p, hp, hlive, by simp [hnil], fun g pte hg hpte => ?_, fun g _ pte _ hg _ hpte => ?_, hw, hl⟩
  · rw [hnone g hg] at hpte
    cases hpte
  · rw [hnone g hg] at hpte
    cases hpte

theorem ElfFile.image (h : ElfFile cfg file.io data hdr) (hown : Owning cfg pid k)
    (hload : elfLoad cfg inode file words pid k = some (hdr.entry, k')) : ImageLoaded file.io data pid k' := by
  obtain ⟨hsegs, heq⟩ := h.elfLoad_eq inode words pid k
  rw [heq, Option.map_eq_some_iff] at hload
  obtain ⟨k₁, hloop, hk₁⟩ := hload
  cases hk₁
  have huser : ∀ ph ∈ loadSegments file.io, ∀ w ∈ ph.writes file, UserByte cfg w.address := fun ph hph w hw =>
    h.range_user hph (h.writes_address hph ▸ List.mem_map_of_mem hw)
  have hnd : ∀ ph ∈ loadSegments file.io, ((ph.writes file).map Write.address).Nodup := fun ph hph => by
    rw [h.writes_address hph]
    exact addresses_nodup ph.memsz.toNat_lt.le
  have hdis : (loadSegments file.io).Pairwise fun a b =>
      ((a.writes file).map Write.address).Disjoint ((b.writes file).map Write.address) :=
    h.disjoint.imp_of_mem fun ha hb hab => by rwa [h.writes_address ha, h.writes_address hb]
  rw [hsegs] at huser hnd hdis
  obtain ⟨-, hbytes, -⟩ := hown.headerLoop huser hnd hdis hloop
  rw [← hsegs] at hbytes
  refine ⟨fun ph hph i hi => ?_, fun ph hph i hi hle => ?_⟩
  · obtain ⟨b, hb, w, hw, haddress, rfl⟩ := h.mem_writes_file (h.proper ph hph) hi
    exact ⟨w.byte, hb, haddress ▸ hbytes ph hph w hw⟩
  · exact hbytes ph hph _ (mem_writes_zero (h.proper ph hph) hi hle)

theorem ElfFile.returns_iff (h : ElfFile cfg file.io data hdr) (inode : ℕ → Node) (words : ℕ → NodePtr)
    (hp : k.procs[pid]? = some p) (hlive : p.status = .live) (hnil : p.entryList = [])
    (hnone : ∀ g, UserPage cfg g → p.pd.lookup g = none) (hw : k.phys.Whole)
    (hnamed : ∀ n ∈ k.nodeList, n < k.nodes.length) :
    (∃ k', elfLoad cfg inode file words pid k = some (hdr.entry, k')) ↔ Mapped cfg file.io p k := by
  obtain ⟨hsegs, heq⟩ := h.elfLoad_eq inode words pid k
  have hstart : Resides pid [] k.phys.room (residencyOf p.pd k) k :=
    ⟨⟨p, hp, hlive, by rw [hnil]; rfl, fun _ => rfl, fun _ => rfl⟩, fun _ => rfl, hnamed, hw, rfl⟩
  have hspec := (headerLoop_spec (fun _ _ _ word ph => fillInto_spec cfg inode file word ph)
    hdr.phentsize.toUInt32 words hdr.phnum.toNat hdr.phoff hstart).returns
  rw [← hsegs] at hspec
  have hreadable : ∀ offset n, file.io.Readable offset n := h.holds.readable h.whole
  have hsegsReadable : ∀ ph ∈ loadSegments file.io, file.io.Readable ph.offset ph.filesz := fun _ _ => hreadable _ _
  have hserved : AllServed cfg file.io [] (residencyOf p.pd k) (loadSegments file.io) ↔
      ∀ front ph back, loadSegments file.io = front ++ ph :: back → ∀ x ∈ ph.range,
        Covered ((front ++ [ph]).foldl (withSegment cfg) []) (pageOf x) := by
    refine forall_congr' fun front => forall_congr' fun ph => forall_congr' fun back =>
      forall_congr' fun hsplit => ?_
    have hph : ph ∈ loadSegments file.io := by simp [hsplit]
    rw [(h.proper ph hph).stored]
    exact forall_congr' fun x => forall_congr' fun hx => serves_iff_covered hnone (h.range_user hph hx)
  have hmapped : Mapped cfg file.io p k ↔ (∀ front ph back, loadSegments file.io = front ++ ph :: back →
      ∀ x ∈ ph.range, Covered ((front ++ [ph]).foldl (withSegment cfg) []) (pageOf x)) ∧
      (loadResidency cfg file.io [] (residencyOf p.pd k) (loadSegments file.io)).taken ≤ k.phys.room :=
    ⟨fun h => ⟨h.regions, h.frames⟩, fun h => ⟨h.1, h.2⟩⟩
  have htable : ∀ i < hdr.phnum.toNat,
      HeaderAt file.io (hdr.phoff + UInt32.ofNat i * hdr.phentsize.toUInt32) := fun i hi =>
    ⟨h.table i hi, hreadable _ _⟩
  rw [hmapped, ← hserved, heq]
  simp only [Option.map_eq_some_iff, Prod.mk.injEq, true_and, exists_eq_right]
  rw [hspec, and_iff_right htable, and_iff_right hsegsReadable,
    and_iff_left (allQuiet_anonymous (List.forall_mem_nil _))]

end

/-- For every executable, and every process without regions and user pages: the loader leaves the
image and answers with the entry point if and only if each byte is in a region when it is stored, and
there are enough frames. -/
theorem elf_image_loaded_iff (cfg : Config) (inode : ℕ → Node) (file : Node) (data : List UInt8)
    (hdr : ElfHeader) (words : ℕ → NodePtr) (pid : ℕ) (k : Kernel) (p : Process)
    (hfile : ElfFile cfg file.io data hdr) (hp : k.procs[pid]? = some p) (hlive : p.status = .live)
    (hnil : p.entryList = []) (hnone : ∀ g, UserPage cfg g → p.pd.lookup g = none)
    (hw : k.phys.Whole) (hl : Ledger k.phys []) (hnamed : ∀ n ∈ k.nodeList, n < k.nodes.length) :
    (∃ k', elfLoad cfg inode file words pid k = some (hdr.entry, k') ∧ ImageLoaded file.io data pid k') ↔
      Mapped cfg file.io p k := by
  have hown := owning_of_empty hp hlive hnil hnone hw hl
  rw [← hfile.returns_iff inode words hp hlive hnil hnone hw hnamed]
  constructor
  · rintro ⟨k', hload, -⟩
    exact ⟨k', hload⟩
  · rintro ⟨k', hload⟩
    exact ⟨k', hload, hfile.image hown hload⟩

theorem UserByte.notSpecial {cfg : Config} {x : UInt32} (h : UserByte cfg x) : isSpecial cfg x = false := by
  have hself : ∀ base : UInt32, InPage base base := fun base => ⟨le_rfl, by omega⟩
  simp only [isSpecial, Bool.or_eq_false_iff, decide_eq_false_iff_not, beq_eq_false_iff_ne]
  exact ⟨⟨UInt32.not_lt.mpr h.user, fun heq => h.io (heq ▸ hself _)⟩, fun heq => h.apic (heq ▸ hself _)⟩

theorem ElfFile.regions_of_ascending {cfg : Config} {file : BlockIO} {data : List UInt8} {hdr : ElfHeader}
    (h : ElfFile cfg file data hdr)
    (hstart : ∀ ph ∈ loadSegments file, ph.vaddr.toNat % 4096 = 0 ∧ ph.vaddr.toNat + ph.memsz.toNat ≤ 0xFFFFF000)
    (hasc : (loadSegments file).Pairwise fun a b => a.vaddr ≤ b.vaddr)
    (hnonzero : ∀ ph ∈ loadSegments file, ph.memsz ≠ 0) {front back : List ProgramHeader} {ph : ProgramHeader}
    (hsegs : loadSegments file = front ++ ph :: back) {x : UInt32} (hx : x ∈ ph.range) :
    Covered ((front ++ [ph]).foldl (withSegment cfg) []) (pageOf x) := by
  have hmem : ∀ a ∈ front ++ [ph], a ∈ loadSegments file := fun a ha => by
    rw [hsegs, ← List.singleton_append, ← List.append_assoc]
    exact List.mem_append_left _ ha
  have huser : ∀ a ∈ loadSegments file, UserByte cfg a.vaddr := fun a ha => by
    have hpos : a.memsz.toNat ≠ 0 := fun h0 => hnonzero a ha (UInt32.toNat_inj.mp h0)
    exact h.range_user ha (mem_addresses_of_le le_rfl (by omega))
  have hhint : ∀ a ∈ loadSegments file, (a.mmapArgs .null).hint = a.vaddr := fun a ha => by
    refine if_neg fun h0 => ?_
    have hlow := (huser a ha).user
    rw [show a.vaddr = 0 from h0] at hlow
    exact absurd hlow (by decide)
  have hph := hmem ph (by simp)
  have hreq : (front ++ [ph]).foldl (withSegment cfg) [] =
      mapAll cfg [] ((front ++ [ph]).map fun a => a.mmapArgs .null) := by
    rw [mapAll, List.foldl_map]
    rfl
  have hascending : ((front ++ [ph]).map fun a => a.mmapArgs .null).Pairwise fun a b => a.hint ≤ b.hint := by
    rw [hsegs, ← List.singleton_append, ← List.append_assoc] at hasc
    refine List.pairwise_map.mpr ((List.pairwise_append.mp hasc).1.imp_of_mem fun ha hb hab => ?_)
    rw [hhint _ (hmem _ ha), hhint _ (hmem _ hb)]
    exact hab
  have hanon : ∀ a ∈ (front ++ [ph]).map fun a => a.mmapArgs .null, a.fd = .negative ∧ a.flags &&& 2 ≠ 2 := by
    rintro _ ha
    obtain ⟨a, -, rfl⟩ := List.mem_map.mp ha
    exact ⟨rfl, not_fixed⟩
  rw [hreq, mapAll_ascending cfg hanon hascending (List.forall_mem_nil _), List.nil_append]
  refine ⟨(ph.mmapArgs .null).newEntry none ph.vaddr, List.mem_map.mpr ⟨ph.mmapArgs .null, ?_, ?_⟩, ?_⟩
  · refine List.mem_filter.mpr ⟨List.mem_map_of_mem (by simp), ?_⟩
    simpa [hhint ph hph] using (huser ph hph).notSpecial
  · rw [hhint ph hph]
  · obtain ⟨hpage, htop⟩ := hstart ph hph
    obtain ⟨i, hi, hxi⟩ := mem_addresses.mp hx
    have hle : ph.memsz ≤ 0xFFFFF000 := UInt32.le_iff_toNat_le.mpr (by
      simp only [UInt32.reduceToNat]
      omega)
    have hsize : (ph.mmapArgs .null).size.toNat = (ph.memsz.toNat + 4095) / 4096 * 4096 := frameup_toNat hle
    rw [addressOf_pageOf_eq, VMEntry.holds_iff, framedown_toNat, VMEntry.stop, UInt32.toNat_add]
    simp only [MmapArgs.newEntry, hsize]
    omega

theorem tinyDisk_length (vaddr size : UInt32) : (tinyDisk vaddr size).bytes.length = 2048 := by
  simp only [tinyDisk, tinyElf, wordBytes, List.length_append, List.length_replicate, List.length_cons,
    List.length_nil]

theorem tinyNode_sizes (vaddr size : UInt32) : (tinyNode vaddr size).data.sizeLow.toNat = 84 ∧
    (tinyNode vaddr size).blockSize.toNat = 1024 ∧ (tinyNode vaddr size).blockCount = 1 := by
  have hlow : (tinyNode vaddr size).data.sizeLow.toNat = 84 := rfl
  have hsize : (tinyNode vaddr size).blockSize.toNat = 1024 := rfl
  refine ⟨hlow, hsize, ?_⟩
  rw [Node.blockCount, hlow, hsize]

theorem tiny_allocated (vaddr size : UInt32) : (tinyNode vaddr size).Allocated := by
  obtain ⟨-, hsize, hcount⟩ := tinyNode_sizes vaddr size
  refine ⟨by rw [hsize], by rw [hcount, hsize]; decide, ?_, fun h => ?_, fun i hi => ?_⟩
  · rw [hcount, hsize]
    exact show 1 * (1024 / 512) ≤ 2 by decide
  · rw [hcount] at h
    exact absurd h (by decide)
  · rw [hcount, Nat.lt_one_iff] at hi
    subst hi
    rw [Node.InImage, hsize]
    exact (show 1 * 1024 + 1024 ≤ 2048 by decide).trans_eq (tinyDisk_length vaddr size).symm

def tinyHeader : ElfHeader :=
  ⟨[0x7F, 0x45, 0x4C, 0x46], 1, 1, 0, 2, 1, 0x80000000, 52, 32, 1⟩

theorem tiny_elfFile {vaddr : UInt32}
    (hheader : ((tinyNode vaddr 4).io.readThing 0 52).map ElfHeader.ofBytes = some tinyHeader)
    (hsegs : loadSegments (tinyNode vaddr 4).io = [⟨1, 0, vaddr, 4, 4⟩]) (huser : Clear qemu vaddr 4) :
    ElfFile qemu (tinyNode vaddr 4).io (tinyNode vaddr 4).content tinyHeader where
  holds := Node.io_holds ((tinyDisk_length vaddr 4).trans_lt (by decide)) (tiny_allocated vaddr 4)
  whole := by
    obtain ⟨hlow, hsize, hcount⟩ := tinyNode_sizes vaddr 4
    rw [Node.content_length (tiny_allocated vaddr 4), hsize, hcount]
    exact hlow.trans_le (by decide)
  header := Option.map_eq_some_iff.mp hheader
  table := show ∀ i < 1, ((52 : UInt32) + UInt32.ofNat i * 32).toNat + 32 ≤ 84 by decide
  proper := by
    rw [hsegs, List.forall_mem_singleton]
    exact ⟨UInt32.le_refl _, show 4 ≤ 84 - 0 by decide, huser⟩
  disjoint := by
    rw [hsegs]
    exact List.pairwise_singleton _ _

theorem tiny_image_loaded : ∃ k p k', bootKernel.run qemu (fun _ => []) [.spawn] = some k ∧ Spawned k p ∧
    elfLoad qemu (fun _ => tinyNode 0x80000000 4) (tinyNode 0x80000000 4) noWords 0 k = some (0x80000000, k') ∧
    ImageLoaded (tinyNode 0x80000000 4).io (tinyNode 0x80000000 4).content 0 k' := by
  have hsegs : loadSegments (tinyNode 0x80000000 4).io = [⟨1, 0, 0x80000000, 4, 4⟩] := by decide +kernel
  have hfile : ElfFile qemu (tinyNode 0x80000000 4).io (tinyNode 0x80000000 4).content tinyHeader :=
    tiny_elfFile (by decide +kernel) hsegs (.inr ⟨by decide, by decide, .inl (by decide), .inl (by decide)⟩)
  have hframes : (bootKernel.run qemu (fun _ => []) [.spawn]).all (fun k => k.procs.all fun p =>
      (loadResidency qemu (tinyNode 0x80000000 4).io [] (residencyOf p.pd k)
        (loadSegments (tinyNode 0x80000000 4).io)).taken ≤ k.phys.room) = true := by decide +kernel
  obtain ⟨k, p, hk, hs⟩ := spawned
  rw [hk, Option.all_some, List.all_eq_true] at hframes
  have hmapped : Mapped qemu (tinyNode 0x80000000 4).io p k := by
    refine ⟨fun front ph back hsplit x hx => hfile.regions_of_ascending ?_ ?_ ?_ hsplit hx, ?_⟩
    · rw [hsegs, List.forall_mem_singleton]
      decide
    · rw [hsegs]
      exact List.pairwise_singleton _ _
    · rw [hsegs, List.forall_mem_singleton]
      decide
    · simpa using hframes p (List.mem_of_getElem? hs.running)
  obtain ⟨k', hload, himage⟩ := (elf_image_loaded_iff qemu (fun _ => tinyNode 0x80000000 4) _ _ tinyHeader noWords 0 k p hfile
    hs.running hs.live hs.noEntry hs.noPage hs.whole hs.ledger hs.named).mpr hmapped
  exact ⟨k, p, k', hk, hs, hload, himage⟩

/-- A segment that starts within a page: the page is not in the region, and the first byte ends the
process. And of three segments in descending order the last is mapped elsewhere. -/
theorem unaligned_segment_ends_process :
    (∃ k p, bootKernel.run qemu (fun _ => []) [.spawn] = some k ∧ Spawned k p ∧
      ElfFile qemu (tinyNode 0x80000010 4).io (tinyNode 0x80000010 4).content tinyHeader ∧
      ¬∃ k', elfLoad qemu (fun _ => tinyNode 0x80000010 4) (tinyNode 0x80000010 4) noWords 0 k = some (tinyHeader.entry, k') ∧
        ImageLoaded (tinyNode 0x80000010 4).io (tinyNode 0x80000010 4).content 0 k') ∧
    ¬Covered ([⟨1, 0, 0x80004000, 4, 4⟩, ⟨1, 0, 0x80002000, 4, 4⟩, ⟨1, 0, 0x80000000, 4, 4⟩].foldl
      (withSegment qemu) []) (pageOf 0x80000000) := by
  constructor
  · have hfile : ElfFile qemu (tinyNode 0x80000010 4).io (tinyNode 0x80000010 4).content tinyHeader :=
      tiny_elfFile (by decide +kernel) (by decide +kernel)
        (.inr ⟨by decide, by decide, .inl (by decide), .inl (by decide)⟩)
    have hnone : (bootKernel.run qemu (fun _ => []) [.spawn]).all (fun k =>
        (elfLoad qemu (fun _ => tinyNode 0x80000010 4) (tinyNode 0x80000010 4) noWords 0 k).isNone) = true := by decide +kernel
    obtain ⟨k, p, hk, hs⟩ := spawned
    rw [hk, Option.all_some, Option.isNone_iff_eq_none] at hnone
    refine ⟨k, p, hk, hs, hfile, ?_⟩
    rintro ⟨k', hload, -⟩
    rw [hnone] at hload
    cases hload
  · unfold Covered
    decide +kernel

end MMapKernel.Sys
