import MMapKernel.Fs.Readable
import MMapKernel.Sys.Open
import MMapKernel.Sys.Residency

/-!
# What `SYS::exec` makes of a file

Between the header and the end of `ELF::load` the call has three ends: it returns -1, it has loaded
every segment, or it is stopped by an `ASSERT`, by a panic of the allocator or by a fault that no
region answers. Which one it is can be told from the file, the regions of the process and the number
of frames.
-/

namespace MMapKernel.Sys
open Fs Vmm
open BlockIO (readAll_returns_iff)

inductive ExecResult where
  | refused (k : Kernel)
  | loaded (k : Kernel)
  | stopped

def loadProgram (cfg : Config) (inode : ℕ → Node) (file : Node) (words : ℕ → NodePtr) (pid : ℕ)
    (k : Kernel) : ExecResult :=
  match file.io.readThing 0 52 with
  | none => .stopped
  | some bytes =>
    let hdr := ElfHeader.ofBytes bytes
    if hdr.accepted = false then .refused k
    else match k.procs[pid]? with
      | none => .stopped
      | some p =>
        let (pd, phys) := p.pd.deletePrivate cfg k.phys
        let k := { k with phys := phys }.put pid { p with pd := pd }
        match loadIntoLoop cfg inode file pid hdr.phentsize.toUInt32 words hdr.phnum.toNat hdr.phoff k with
        | none => .stopped
        | some k => .loaded k

theorem exec_eq (cfg : Config) (inode : ℕ → Node) (file : Node) (words : ℕ → NodePtr) (pid : ℕ)
    (lens : List UInt32) (k : Kernel) :
    exec cfg inode file words pid lens k =
      match loadProgram cfg inode file words pid k with
      | .refused _ | .stopped => none
      | .loaded k =>
        (file.io.readThing 0 52).bind fun bytes =>
          (mapIn cfg pid (stackArgs (words (ElfHeader.ofBytes bytes).phnum.toNat)) k).bind
            fun k => storeAll inode pid k (stackStores lens) := by
  unfold exec loadProgram
  cases file.io.readThing 0 52 with
  | none => rfl
  | some bytes =>
    simp only [Option.bind_some]
    by_cases ha : (ElfHeader.ofBytes bytes).accepted = false
    · rw [if_pos ha, if_pos ha]
    · rw [if_neg ha, if_neg ha]
      cases k.procs[pid]? with
      | none => rfl
      | some p =>
        rw [Option.bind_some]
        dsimp only
        cases loadIntoLoop cfg inode file pid _ words _ _ _ with
        | none => rfl
        | some k => rw [Option.bind_some]

def ProgramHeader.stored (file : BlockIO) (ph : ProgramHeader) : List UInt32 :=
  addresses ph.vaddr (file.room ph.offset ph.filesz) ++
    addresses (ph.vaddr + ph.filesz) (bzeroTurns (ph.memsz - ph.filesz))

def ProgramHeader.transfers (file : Node) (ph : ProgramHeader) : List (Bool × UInt32) :=
  readTransfers file ph.offset ph.filesz ph.vaddr ++
    (addresses (ph.vaddr + ph.filesz) (bzeroTurns (ph.memsz - ph.filesz))).map fun x => (false, x)

theorem readTransfers_stored {file : Node} {offset n p : UInt32} (hr : file.io.Readable offset n) :
    (readTransfers file offset n p).map Prod.snd = addresses p (file.io.room offset n) := by
  obtain ⟨c, hc⟩ := Option.ne_none_iff_exists'.mp (readAll_returns_iff.mpr hr)
  rw [readTransfers, transfers_snd, file.storesOf_readAllActions, BlockIO.readAll_stored_eq hc]

theorem transfers_stored {file : Node} {ph : ProgramHeader} (hr : file.io.Readable ph.offset ph.filesz) :
    (ph.transfers file).map Prod.snd = ph.stored file.io := by
  rw [ProgramHeader.transfers, List.map_append, readTransfers_stored hr, List.map_map]
  exact congrArg _ (List.map_id _)

def HeaderAt (file : BlockIO) (hoff : UInt32) : Prop :=
  hoff.toNat + 32 ≤ file.sizeInBytes.toNat ∧ file.Readable hoff 32

theorem headerAt_iff {file : BlockIO} {hoff : UInt32} :
    (∃ bytes, file.readThing hoff 32 = some bytes) ↔ HeaderAt file hoff :=
  BlockIO.readThing_iff (by decide)

theorem programHeaders_length_iff {file : BlockIO} {phentsize : UInt32} {left : ℕ} {hoff : UInt32} :
    (programHeaders file phentsize left hoff).length = left ↔
      ∀ i < left, HeaderAt file (hoff + UInt32.ofNat i * phentsize) := by
  induction left generalizing hoff with
  | zero => simp [programHeaders]
  | succ left ih =>
    have hshift : ∀ i, hoff + phentsize + UInt32.ofNat i * phentsize =
        hoff + UInt32.ofNat (i + 1) * phentsize := fun i => by
      rw [UInt32.ofNat_add, UInt32.add_mul, UInt32.add_assoc, UInt32.add_comm phentsize]
      simp
    have hrest : (∀ i < left + 1, HeaderAt file (hoff + UInt32.ofNat i * phentsize)) ↔
        HeaderAt file hoff ∧ ∀ i < left, HeaderAt file (hoff + phentsize + UInt32.ofNat i * phentsize) := by
      rw [Nat.forall_lt_succ_left]
      simp only [hshift]
      simp
    rw [hrest, programHeaders, ← headerAt_iff]
    cases hread : file.readThing hoff 32 with
    | none => simp
    | some bytes => simp [ih]

section
variable {cfg : Config} {inode : ℕ → Node} {file : Node} {pid total : ℕ} {maps : List VMEntry}
  {r : Residency} {k k' : Kernel} {segs : List ProgramHeader}

theorem covered_afterCall {a : MmapArgs} {g : Page} (hfd : a.fd = .negative) (hflags : a.flags &&& 2 ≠ 2)
    (h : Covered maps g) : Covered (afterCall cfg maps (.mmap a)) g := by
  obtain ⟨e, he, hg⟩ := h
  refine ⟨e, ?_, hg⟩
  simp only [afterCall, mmap_anonymous cfg maps hfd hflags]
  by_cases hs : isSpecial cfg a.hint = true
  · simpa only [hs, if_true] using he
  · simp only [hs, Bool.false_eq_true, if_false]
    rw [← place_split maps a.size a.hint, List.mem_append] at he
    simpa only [List.mem_append, List.mem_cons] using he.imp_right Or.inr

theorem Resides.mapIn (cfg : Config) {a : MmapArgs} (h : Resides pid maps total r k) (hfd : a.fd = .negative)
    (hflags : a.flags &&& 2 ≠ 2) : ∃ k', Sys.mapIn cfg pid a k = some k' ∧
      Resides pid (afterCall cfg maps (.mmap a.plain)) total r k' := by
  obtain ⟨p, hp, hlive, hmaps, hpages, htables⟩ := h.running
  have hlt := (List.getElem?_eq_some_iff.mp hp).1
  have hanon := mmap_anonymous cfg p.entryList hfd hflags
  refine ⟨k.mmap cfg pid p a, by rw [Sys.mapIn, hp, Option.map_some], ?_⟩
  rw [← hmaps, ← afterCall_mapping]
  simp only [afterCall, Kernel.mmap, hanon]
  by_cases hs : isSpecial cfg a.hint = true
  · simp only [hs, if_true]
    exact ⟨⟨p, hp, hlive, rfl, hpages, htables⟩, h.nodes, h.named, h.whole, h.room⟩
  · simp only [hs, Bool.false_eq_true, if_false]
    exact ⟨⟨_, List.getElem?_set_self hlt, hlive, rfl, hpages, htables⟩, h.nodes, h.named, h.whole, h.room⟩

def withSegment (cfg : Config) (maps : List VMEntry) (ph : ProgramHeader) : List VMEntry :=
  afterCall cfg maps (.mmap (ph.mmapArgs .null))

theorem loadInto_eq (ph : ProgramHeader) (word : NodePtr) (k : Kernel) :
    ph.loadInto cfg inode file pid word k = (mapIn cfg pid (ph.mmapArgs word) k).bind fun k =>
      if file.io.Readable ph.offset ph.filesz then storeEach inode pid k (ph.transfers file) else none := by
  unfold ProgramHeader.loadInto
  congr 1
  funext k
  rw [perform_readAll]
  cases hr : (file.io.readAll ph.offset ph.filesz).result with
  | none =>
    rw [if_neg fun h => BlockIO.readAll_returns_iff.mpr h hr]
    simp
  | some c =>
    rw [if_pos (readAll_returns_iff.mp (by simp [hr])), ProgramHeader.transfers, storeEach, storeEach,
      List.foldlM_append]
    exact congrArg _ (funext fun k => storeAll_eq inode pid k _)

def SegmentComesTo (cfg : Config) (inode : ℕ → Node) (file : Node) (pid total : ℕ) (maps : List VMEntry)
    (r : Residency) (ph : ProgramHeader) (result : Option Kernel) : Prop :=
  ComesTo pid (withSegment cfg maps ph) total
    ((ph.stored file.io).foldl (Residency.touch (withSegment cfg maps ph)) r)
    (file.io.Readable ph.offset ph.filesz ∧ (∀ x ∈ ph.stored file.io, r.Serves (withSegment cfg maps ph) x) ∧
      r.QuietAll inode (withSegment cfg maps ph) (ph.transfers file)) result

theorem Resides.segment {F : Kernel → Option Kernel} {word : NodePtr} {ph : ProgramHeader}
    (h : Resides pid maps total r k)
    (hF : file.io.Readable ph.offset ph.filesz → ∀ k₁, Resides pid (withSegment cfg maps ph) total r k₁ →
      ComesTo pid (withSegment cfg maps ph) total
        ((ph.stored file.io).foldl (Residency.touch (withSegment cfg maps ph)) r)
        ((∀ x ∈ ph.stored file.io, r.Serves (withSegment cfg maps ph) x) ∧
          r.QuietAll inode (withSegment cfg maps ph) (ph.transfers file)) (F k₁)) :
    SegmentComesTo cfg inode file pid total maps r ph
      ((Sys.mapIn cfg pid (ph.mmapArgs word) k).bind fun k =>
        if file.io.Readable ph.offset ph.filesz then F k else none) := by
  obtain ⟨k₁, hmap, h₁⟩ := h.mapIn cfg (a := ph.mmapArgs word) rfl not_fixed
  rw [hmap, Option.bind_some]
  by_cases hr : file.io.Readable ph.offset ph.filesz
  · obtain ⟨hreturns, hresides⟩ := hF hr k₁ h₁
    rw [if_pos hr]
    refine ⟨hreturns.trans ?_, hresides⟩
    rw [and_iff_right hr]
  · rw [if_neg hr]
    exact ⟨iff_of_false (by simp) fun hh => hr hh.1.1, fun k' hk' => by cases hk'⟩

theorem loadInto_spec (cfg : Config) (inode : ℕ → Node) (file : Node) (word : NodePtr) (ph : ProgramHeader)
    (h : Resides pid maps total r k) :
    SegmentComesTo cfg inode file pid total maps r ph (ph.loadInto cfg inode file pid word k) := by
  rw [loadInto_eq]
  refine h.segment fun hr k₁ h₁ => ?_
  rw [← transfers_stored hr]
  exact storeEach_spec inode h₁ (ph.transfers file)

def loadResidency (cfg : Config) (file : BlockIO) :
    List VMEntry → Residency → List ProgramHeader → Residency
  | _, r, [] => r
  | maps, r, ph :: segs =>
    loadResidency cfg file (withSegment cfg maps ph)
      ((ph.stored file).foldl (Residency.touch (withSegment cfg maps ph)) r) segs

def AllServed (cfg : Config) (file : BlockIO) (maps : List VMEntry) (r : Residency)
    (segs : List ProgramHeader) : Prop :=
  ∀ front ph back, segs = front ++ ph :: back → ∀ x ∈ ph.stored file,
    r.Serves ((front ++ [ph]).foldl (withSegment cfg) maps) x

def AllQuiet (cfg : Config) (inode : ℕ → Node) (file : Node) :
    List VMEntry → Residency → List ProgramHeader → Prop
  | _, _, [] => True
  | maps, r, ph :: segs =>
    r.QuietAll inode (withSegment cfg maps ph) (ph.transfers file) ∧
      AllQuiet cfg inode file (withSegment cfg maps ph)
        ((ph.stored file.io).foldl (Residency.touch (withSegment cfg maps ph)) r) segs

theorem allServed_cons {io : BlockIO} {ph : ProgramHeader} : AllServed cfg io maps r (ph :: segs) ↔
    (∀ x ∈ ph.stored io, r.Serves (withSegment cfg maps ph) x) ∧
      AllServed cfg io (withSegment cfg maps ph) r segs := by
  constructor
  · intro h
    refine ⟨h [] ph segs rfl, fun front ph' back hsegs => ?_⟩
    exact h (ph :: front) ph' back (by rw [hsegs, List.cons_append])
  · rintro ⟨hfirst, hrest⟩ front ph' back hsegs
    cases front with
    | nil =>
      cases hsegs
      exact hfirst
    | cons ph₁ front =>
      cases hsegs
      exact hrest front ph' back rfl

theorem covered_segments {g : Page} (h : Covered maps g) :
    Covered (segs.foldl (withSegment cfg) maps) g := by
  induction segs generalizing maps with
  | nil => exact h
  | cons ph segs ih => exact ih (covered_afterCall rfl not_fixed h)

theorem allServed_touches {io : BlockIO} {xs : List UInt32} :
    AllServed cfg io maps (xs.foldl (Residency.touch maps) r) segs ↔ AllServed cfg io maps r segs := by
  unfold AllServed Residency.Serves
  refine forall_congr' fun front => forall_congr' fun ph => forall_congr' fun back =>
    forall_congr' fun _ => forall_congr' fun x => forall_congr' fun _ => or_congr_right ?_
  rw [Residency.touches_pages]
  constructor
  · rintro ((h | ⟨y, -, -, hxy, hc⟩) | h)
    · exact Or.inl h
    · rw [hxy]
      exact Or.inr (covered_segments hc)
    · exact Or.inr h
  · rintro (h | h)
    · exact Or.inl (Or.inl h)
    · exact Or.inr h

theorem loadResidency_taken_le (cfg : Config) (file : BlockIO) (maps : List VMEntry) (r : Residency)
    (segs : List ProgramHeader) :
    r.taken ≤ (loadResidency cfg file maps r segs).taken := by
  induction segs generalizing maps r with
  | nil => exact le_rfl
  | cons ph segs ih => exact (Residency.touches_taken_le _ r _).trans (ih _ _)

def headerLoop (file : BlockIO) (phentsize : UInt32) (words : ℕ → NodePtr)
    (turn : NodePtr → ProgramHeader → Kernel → Option Kernel) : ℕ → UInt32 → Kernel → Option Kernel
  | 0, _, k => some k
  | left + 1, hoff, k =>
    match file.readThing hoff 32 with
    | none => none
    | some bytes =>
      let ph := ProgramHeader.ofBytes bytes
      (if ph.type = 1 then turn (words left) ph k else some k).bind
        fun k => headerLoop file phentsize words turn left (hoff + phentsize) k

theorem loadIntoLoop_eq (cfg : Config) (inode : ℕ → Node) (file : Node) (pid : ℕ) (phentsize : UInt32)
    (words : ℕ → NodePtr) (left : ℕ) (hoff : UInt32) (k : Kernel) :
    loadIntoLoop cfg inode file pid phentsize words left hoff k =
      headerLoop file.io phentsize words (fun word ph => ph.loadInto cfg inode file pid word) left hoff k := by
  induction left generalizing hoff k with
  | zero => rfl
  | succ left ih =>
    unfold loadIntoLoop headerLoop
    cases file.io.readThing hoff 32 with
    | none => rfl
    | some bytes => simp only [ih]

/-- The loop comes to its end if the table and the segments can be read, every byte is served, no store
is caught in the driver, and there are frames for all pages. -/
theorem headerLoop_spec {turn : NodePtr → ProgramHeader → Kernel → Option Kernel}
    (hturn : ∀ maps r k word ph, Resides pid maps total r k →
      SegmentComesTo cfg inode file pid total maps r ph (turn word ph k))
    (phentsize : UInt32) (words : ℕ → NodePtr) (left : ℕ) (hoff : UInt32) (h : Resides pid maps total r k) :
    let segs := segments file.io phentsize left hoff
    ComesTo pid (segs.foldl (withSegment cfg) maps) total (loadResidency cfg file.io maps r segs)
      ((∀ i < left, HeaderAt file.io (hoff + UInt32.ofNat i * phentsize)) ∧
        (∀ ph ∈ segs, file.io.Readable ph.offset ph.filesz) ∧ AllServed cfg file.io maps r segs ∧
          AllQuiet cfg inode file maps r segs)
      (headerLoop file.io phentsize words turn left hoff k) := by
  simp only [← programHeaders_length_iff]
  induction left generalizing hoff maps r k with
  | zero =>
    refine h.comesTo.congr (iff_of_true trivial ⟨rfl, by simp [segments, programHeaders], ?_, trivial⟩)
    intro front ph back hnil
    simp [segments, programHeaders] at hnil
  | succ left ih =>
    unfold headerLoop segments programHeaders
    cases hread : file.io.readThing hoff 32 with
    | none => exact ⟨iff_of_false (by simp) (by simp), fun k' hk' => by simp at hk'⟩
    | some bytes =>
      simp only [List.length_cons, Nat.succ_inj]
      by_cases ht : (ProgramHeader.ofBytes bytes).type = 1
      · rw [if_pos ht, List.filter_cons_of_pos (by simpa using ht)]
        refine ((hturn maps r k (words left) (.ofBytes bytes) h).bind (fun k₁ h₁ => ih (hoff + phentsize) h₁)
          (loadResidency_taken_le ..)).congr ?_
        rw [List.forall_mem_cons, allServed_cons, AllQuiet, allServed_touches]
        constructor
        · rintro ⟨⟨hr, hs, hq⟩, hlen, hrs, hss, hqs⟩
          exact ⟨hlen, ⟨hr, hrs⟩, ⟨hs, hss⟩, hq, hqs⟩
        · rintro ⟨hlen, ⟨hr, hrs⟩, ⟨hs, hss⟩, hq, hqs⟩
          exact ⟨⟨hr, hs, hq⟩, hlen, hrs, hss, hqs⟩
      · rw [if_neg ht, List.filter_cons_of_neg (by simpa using ht)]
        exact ih (hoff + phentsize) h

end

def cleared (cfg : Config) (pid : ℕ) (p : Process) (k : Kernel) : Kernel :=
  { k with phys := (p.pd.deletePrivate cfg k.phys).2 }.put pid
    { p with pd := (p.pd.deletePrivate cfg k.phys).1 }

def clearedResidency (cfg : Config) (p : Process) (k : Kernel) : Residency :=
  residencyOf (p.pd.deletePrivate cfg k.phys).1 k

def clearedRoom (cfg : Config) (p : Process) (k : Kernel) : ℕ :=
  k.phys.room + (p.pd.ownTables.flatMap (PageDir.deletedPrivate cfg)).length

section
variable {cfg : Config} {inode : ℕ → Node} {file : Node} {words : ℕ → NodePtr} {pid : ℕ}
  {p : Process} {k : Kernel} {bytes : List UInt8}

theorem deallocAll_room (m : PhysMem) (fs : List ℕ) :
    (fs.foldl PhysMem.deallocFrame m).avail = m.avail ∧ (fs.foldl PhysMem.deallocFrame m).limit = m.limit ∧
      (fs.foldl PhysMem.deallocFrame m).room = m.room + fs.length := by
  induction fs generalizing m with
  | nil => exact ⟨rfl, rfl, rfl⟩
  | cons f fs ih =>
    obtain ⟨havail, hlimit, hroom⟩ := ih (m.deallocFrame f)
    refine ⟨havail, hlimit, hroom.trans ?_⟩
    simp only [PhysMem.room, PhysMem.deallocFrame, List.length_cons]
    omega

theorem cleared_resides (cfg : Config) (hp : k.procs[pid]? = some p) (hlive : p.status = .live)
    (hw : k.phys.Whole) (hnamed : ∀ n ∈ k.nodeList, n < k.nodes.length) :
    Resides pid (p.entryList.map VMEntry.mapping) (clearedRoom cfg p k) (clearedResidency cfg p k)
      (cleared cfg pid p k) := by
  have hlt := (List.getElem?_eq_some_iff.mp hp).1
  obtain ⟨havail, hlimit, hroom⟩ :=
    deallocAll_room k.phys (p.pd.ownTables.flatMap (PageDir.deletedPrivate cfg))
  rw [← PageDir.deletePrivate_frames] at havail hlimit hroom
  refine ⟨⟨_, List.getElem?_set_self hlt, hlive, rfl, fun g => rfl, fun i => rfl⟩, fun n => rfl, hnamed,
    ⟨?_, ?_⟩, hroom⟩
  · exact (havail.trans_le hw.bound).trans_eq hlimit.symm
  · exact (congrArg₂ (fun l a => (l - a) % 4096) hlimit havail).trans hw.frames

theorem loadProgram_accepted (hread : file.io.readThing 0 52 = some bytes)
    (ha : (ElfHeader.ofBytes bytes).accepted = true) (hp : k.procs[pid]? = some p) :
    loadProgram cfg inode file words pid k =
      match loadIntoLoop cfg inode file pid (ElfHeader.ofBytes bytes).phentsize.toUInt32 words
        (ElfHeader.ofBytes bytes).phnum.toNat (ElfHeader.ofBytes bytes).phoff (cleared cfg pid p k) with
      | none => .stopped
      | some k => .loaded k := by
  simp only [loadProgram, hread, ha, hp, Bool.true_eq_false, if_false]
  rfl

end

structure Spawned (k : Kernel) (p : Process) : Prop where
  running : k.procs[0]? = some p
  live : p.status = .live
  noEntry : p.entryList = []
  noPage : ∀ g, UserPage qemu g → p.pd.lookup g = none
  whole : k.phys.Whole
  ledger : Ledger k.phys []
  named : ∀ n ∈ k.nodeList, n < k.nodes.length

theorem spawned : ∃ k p, bootKernel.run qemu (fun _ => []) [.spawn] = some k ∧ Spawned k p := by
  have hfacts : (bootKernel.run qemu (fun _ => []) [.spawn]).map
      (fun k => (k.nodeList, k.phys.avail, k.phys.limit)) = some ([], 0x102000, 0x8000000) := by
    decide +kernel
  obtain ⟨k, hk, he⟩ := Option.map_eq_some_iff.mp hfacts
  simp only [Prod.mk.injEq] at he
  obtain ⟨hnil, havail, hlimit⟩ := he
  obtain ⟨k₁, hspawn, hk₁⟩ := Option.bind_eq_some_iff.mp ((List.foldlM_cons ..).symm.trans hk)
  cases hk₁
  obtain ⟨d, m, hd, rfl⟩ := spawn_cases hspawn
  obtain ⟨-, hpages, hledger⟩ := PageDir.makePd_spec hd
  dsimp only at hnil havail hlimit
  refine ⟨_, _, hk, rfl, rfl, rfl, fun g hg => ?_, ⟨?_, ?_⟩, ?_, fun n hn => ?_⟩
  · by_contra hne
    exact hg.2 ((hpages g).mp (Option.isSome_iff_ne_none.mpr hne))
  · rw [havail, hlimit]
    decide
  · rw [havail, hlimit]
  · exact (hledger [] ⟨List.nodup_nil, List.forall_mem_nil _⟩).forget List.nil_subperm
  · rw [hnil] at hn
    cases hn

end MMapKernel.Sys
