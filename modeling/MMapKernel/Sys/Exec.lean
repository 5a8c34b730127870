import MMapKernel.Sys.Elf
import MMapKernel.Sys.UserStores
import MMapKernel.Vmm.Lifecycle

/-!
# `SYS::exec`: a new image for a process

`exec` clears the user pages of the process, maps and fills the segments of the executable, maps
a stack and writes the arguments to it. What the kernel stores in user memory faults pages in, and
a fault that no entry answers ends the process instead. The entry list is not cleared, so the
placement loop works around the regions of the old image, which stay mapped.
-/

namespace MMapKernel.Vmm

def VMEntry.mapping (e : VMEntry) : VMEntry := { e with node := .unset .null }

def MmapArgs.plain (a : MmapArgs) : MmapArgs := { a with word := .null }

@[simp] theorem VMEntry.mapping_start (e : VMEntry) : e.mapping.startingAddress = e.startingAddress := by
  cases e
  rfl

@[simp] theorem VMEntry.mapping_stop (e : VMEntry) : e.mapping.stop = e.stop := by
  cases e
  rfl

@[simp] theorem VMEntry.mapping_holds (e : VMEntry) (va : UInt32) : e.mapping.holds va = e.holds va := rfl

theorem search_mapping (size : UInt32) (front : List VMEntry) (prev : VMEntry) (rest : List VMEntry)
    (va : UInt32) :
    search size (front.map VMEntry.mapping) prev.mapping (rest.map VMEntry.mapping) va =
      ((search size front prev rest va).1, (search size front prev rest va).2.1.map VMEntry.mapping,
        (search size front prev rest va).2.2.map VMEntry.mapping) := by
  induction rest generalizing front prev va with
  | nil => simp [search]
  | cons temp rest ih =>
    have happ : front.map VMEntry.mapping ++ [prev.mapping] = (front ++ [prev]).map VMEntry.mapping := by
      simp
    simp only [List.map_cons, search, VMEntry.mapping_start, VMEntry.mapping_stop, happ, ih]
    by_cases hpast : va ≥ temp.startingAddress
    · simp only [hpast, ↓reduceIte]
    · rw [if_neg hpast, if_neg hpast]
      by_cases hhere : (decide (va ≥ prev.stop) && decide (va + size < temp.startingAddress)) = true
      · rw [if_pos hhere, if_pos hhere]
        rfl
      · rw [if_neg hhere, if_neg hhere]
        by_cases hnext : (decide (prev.stop ≥ prev.stop) &&
            decide (prev.stop + size < temp.startingAddress)) = true
        · rw [if_pos hnext, if_pos hnext]
          rfl
        · rw [if_neg hnext, if_neg hnext]

theorem place_mapping (es : List VMEntry) (size va : UInt32) :
    place (es.map VMEntry.mapping) size va =
      ((place es size va).1, (place es size va).2.1.map VMEntry.mapping,
        (place es size va).2.2.map VMEntry.mapping) := by
  cases es with
  | nil => rfl
  | cons prev rest => exact search_mapping size [] prev rest va

theorem afterCall_mapping (cfg : Config) (es : List VMEntry) (a : MmapArgs) :
    (afterCall cfg es (.mmap a)).map VMEntry.mapping =
      afterCall cfg (es.map VMEntry.mapping) (.mmap a.plain) := by
  have hhint : a.plain.hint = a.hint := rfl
  have hsize : a.plain.size = a.size := rfl
  have haddr : a.plain.addr = a.addr := rfl
  have hflags : a.plain.flags = a.flags := rfl
  have hfd : a.plain.fd = a.fd := rfl
  simp only [afterCall, mmap, hhint, hsize, haddr, hflags, hfd, place_mapping]
  by_cases hs : isSpecial cfg a.hint = true
  · simp only [hs, ↓reduceIte]
  · by_cases hfix : (place es a.size a.hint).1 ≠ a.addr ∧ a.flags &&& 2 = 2
    · simp only [hs, ↓reduceIte, Bool.false_eq_true, if_pos hfix]
    · simp only [hs, ↓reduceIte, Bool.false_eq_true, if_neg hfix]
      cases a.fd <;> simp [MmapArgs.newEntry, VMEntry.mapping, MmapArgs.plain, MmapArgs.size]

theorem mmap_anonymous (cfg : Config) (es : List VMEntry) {a : MmapArgs} (hfd : a.fd = .negative)
    (hflags : a.flags &&& 2 ≠ 2) :
    mmap cfg es a = if isSpecial cfg a.hint then .null else
      .mapped (place es a.size a.hint).1 ((place es a.size a.hint).2.1 ++
        a.newEntry none (place es a.size a.hint).1 :: (place es a.size a.hint).2.2) := by
  simp only [mmap, hfd]
  split
  case isTrue => rfl
  case isFalse =>
    rw [if_neg]
    exact fun h => hflags h.2

end MMapKernel.Vmm

namespace MMapKernel.Sys
open Fs Vmm

def mapIn (cfg : Config) (pid : ℕ) (a : MmapArgs) (k : Kernel) : Option Kernel :=
  (k.procs[pid]?).map fun p => k.mmap cfg pid p a

def ProgramHeader.loadInto (cfg : Config) (inode : ℕ → Node) (file : Node) (pid : ℕ)
    (word : NodePtr) (ph : ProgramHeader) (k : Kernel) : Option Kernel :=
  (mapIn cfg pid (ph.mmapArgs word) k).bind fun k =>
    (perform inode pid false (file.readAllActions ph.offset ph.filesz (some ph.vaddr)) k).bind fun k =>
      match (file.io.readAll ph.offset ph.filesz).result with
      | none => none
      | some _ =>
        storeAll inode pid k (addresses (ph.vaddr + ph.filesz) (bzeroTurns (ph.memsz - ph.filesz)))

def loadIntoLoop (cfg : Config) (inode : ℕ → Node) (file : Node) (pid : ℕ) (phentsize : UInt32)
    (words : ℕ → NodePtr) : ℕ → UInt32 → Kernel → Option Kernel
  | 0, _, k => some k
  | left + 1, hoff, k =>
    match file.io.readThing hoff 32 with
    | none => none
    | some bytes =>
      let ph := ProgramHeader.ofBytes bytes
      (if ph.type = 1 then ph.loadInto cfg inode file pid (words left) k else some k).bind
        fun k => loadIntoLoop cfg inode file pid phentsize words left (hoff + phentsize) k

def stackTop : UInt32 := 0xefffe000

def stackArgs (word : NodePtr) : MmapArgs where
  addr := stackTop - 4000000
  length := 4000000
  prot := 0xa
  flags := 0x1
  fd := .negative
  offset := 0
  word := word

/-- What an argument of length `len` takes: its bytes and a null byte, filled up to whole words. -/
def argLength (len : UInt32) : UInt32 := len + 1 + (4 - (len + 1) % 4) % 4

/-- The loop over the arguments, of which only the lengths matter here: the pointer, the bytes and
the null byte. -/
def argStores : List UInt32 → UInt32 → UInt32 → List UInt32
  | [], argvPtr, _ => addresses argvPtr 4
  | len :: lens, argvPtr, argvVal =>
    addresses argvPtr 4 ++ addresses argvVal (argLength len).toNat ++ [argvVal + len] ++
      argStores lens (argvPtr + 4) (argvVal + argLength len)

def stackStores (lens : List UInt32) : List UInt32 :=
  let argc := UInt32.ofNat lens.length
  let sp := stackTop - (12 + 4 * argc + (lens.map argLength).sum)
  addresses sp 4 ++ addresses (sp + 4) 4 ++ argStores lens (sp + 8) (sp + 8 + 4 * (argc + 1))

/-- `SYS::exec` from the header on, for an executable file; a result is the state in which
`switchToUser` is reached. -/
def exec (cfg : Config) (inode : ℕ → Node) (file : Node) (words : ℕ → NodePtr) (pid : ℕ)
    (lens : List UInt32) (k : Kernel) : Option Kernel :=
  (file.io.readThing 0 52).bind fun bytes =>
    let hdr := ElfHeader.ofBytes bytes
    if hdr.accepted = false then none
    else (k.procs[pid]?).bind fun p =>
      let (pd, phys) := p.pd.deletePrivate cfg k.phys
      let k := { k with phys := phys }.put pid { p with pd := pd }
      (loadIntoLoop cfg inode file pid hdr.phentsize.toUInt32 words hdr.phnum.toNat hdr.phoff k).bind
        fun k => (mapIn cfg pid (stackArgs (words hdr.phnum.toNat)) k).bind
          fun k => storeAll inode pid k (stackStores lens)

def requests (segs : List ProgramHeader) : List MmapArgs :=
  segs.map (fun ph => ph.mmapArgs .null) ++ [stackArgs .null]

def mapAll (cfg : Config) (es : List VMEntry) (as : List MmapArgs) : List VMEntry :=
  as.foldl (fun es a => afterCall cfg es (.mmap a)) es

def HasMappings (pid : ℕ) (maps : List VMEntry) (k : Kernel) : Prop :=
  ∃ p, k.procs[pid]? = some p ∧ p.status = .live ∧ p.entryList.map VMEntry.mapping = maps

section
variable {cfg : Config} {files : FileSystem} {inode : ℕ → Node} {file : Node} {pid : ℕ}
  {maps : List VMEntry} {k k' : Kernel}

theorem resolve_mapping {e e' : VMEntry} {va : UInt32} {pa : ℕ} {k₁ : Kernel}
    (h : k.resolve files e va = some (pa, e', k₁)) : e'.mapping = e.mapping := by
  rcases resolve_cases h with ⟨-, rfl, -⟩ | ⟨_, _, _, -, -, -, -, rfl, -⟩ | ⟨_, _, -, -, -, rfl, -⟩
  · rfl
  · rfl
  · rfl

theorem HasMappings.pageIn {x : UInt32} (h : HasMappings pid maps k)
    (hs : Sys.pageIn files pid k x = some k') : HasMappings pid maps k' := by
  obtain ⟨p, hp, hlive, hmaps⟩ := h
  unfold Sys.pageIn at hs
  split at hs
  case isTrue =>
    cases hs
    exact ⟨p, hp, hlive, hmaps⟩
  case isFalse =>
    rw [hp, Option.bind_some] at hs
    split at hs
    case isTrue =>
      cases hs
      exact ⟨p, hp, hlive, hmaps⟩
    case isFalse =>
      obtain ⟨k₁, hf, hk⟩ := Option.bind_eq_some_iff.mp hs
      rw [Option.ite_none_right_eq_some, Option.some.injEq] at hk
      obtain ⟨hany, rfl⟩ := hk
      have hlt := (List.getElem?_eq_some_iff.mp hp).1
      rcases pageFault_cases hf with ⟨-, rfl⟩ | ⟨front, e, back, pa, e', k₂, pd, m, hes, -, -, hres, -, rfl⟩
      · rw [Kernel.put, List.getElem?_set_self hlt] at hany
        simp [Process.stopped] at hany
      · have hlt₂ : pid < k₂.procs.length := by rwa [resolve_procs hres]
        refine ⟨_, List.getElem?_set_self hlt₂, hlive, ?_⟩
        rw [← hmaps, hes]
        simp [resolve_mapping hres]

theorem HasMappings.storeAll {xs : List UInt32} (h : HasMappings pid maps k)
    (hs : Sys.storeAll inode pid k xs = some k') : HasMappings pid maps k' :=
  foldlM_keeps (I := HasMappings pid maps) hs h fun _ _ _ _ hk hstep =>
    hk.pageIn (store_some_iff.mp hstep).2

theorem HasMappings.storeEach {ts : List (Bool × UInt32)} (h : HasMappings pid maps k)
    (hs : Sys.storeEach inode pid k ts = some k') : HasMappings pid maps k' :=
  foldlM_keeps (I := HasMappings pid maps) hs h fun _ _ _ _ hk hstep =>
    hk.pageIn (store_some_iff.mp hstep).2

theorem HasMappings.mapIn {a : MmapArgs} (h : HasMappings pid maps k) (hfd : a.fd = .negative)
    (hflags : a.flags &&& 2 ≠ 2) (hs : Sys.mapIn cfg pid a k = some k') :
    HasMappings pid (afterCall cfg maps (.mmap a.plain)) k' := by
  obtain ⟨p, hp, hlive, hmaps⟩ := h
  rw [Sys.mapIn, hp, Option.map_some, Option.some.injEq] at hs
  rw [← hmaps, ← afterCall_mapping]
  have hanon := mmap_anonymous cfg p.entryList hfd hflags
  simp only [Kernel.mmap, hanon] at hs
  simp only [afterCall, hanon]
  split at hs
  case h_1 hnull =>
    subst hs
    rw [hnull]
    exact ⟨p, hp, hlive, rfl⟩
  case h_2 hnull =>
    split at hnull
    case isTrue => cases hnull
    case isFalse => cases hnull
  case h_3 va es hmapped =>
    subst hs
    rw [hmapped]
    exact ⟨_, List.getElem?_set_self (List.getElem?_eq_some_iff.mp hp).1, hlive, rfl⟩

theorem not_fixed : (0x1 : UInt32) &&& 2 ≠ 2 := by decide

def readTransfers (file : Node) (offset n p : UInt32) : List (Bool × UInt32) :=
  transfers false (file.readAllActions offset n (some p))

theorem perform_readAll (inode : ℕ → Node) (pid : ℕ) (k : Kernel) (file : Node) (offset n p : UInt32) :
    perform inode pid false (file.readAllActions offset n (some p)) k =
      storeEach inode pid k (readTransfers file offset n p) := by
  obtain ⟨b, hb, -⟩ := (Node.io_guards file).readAll offset n (some p)
  exact perform_eq hb

theorem HasMappings.loadInto {ph : ProgramHeader} {word : NodePtr} (h : HasMappings pid maps k)
    (hs : ph.loadInto cfg inode file pid word k = some k') :
    HasMappings pid (afterCall cfg maps (.mmap (ph.mmapArgs .null))) k' := by
  obtain ⟨k₁, h₁, hs⟩ := Option.bind_eq_some_iff.mp hs
  obtain ⟨k₂, h₂, hs⟩ := Option.bind_eq_some_iff.mp hs
  rw [perform_readAll] at h₂
  have hmap := (h.mapIn rfl not_fixed h₁).storeEach h₂
  split at hs
  case h_1 => cases hs
  case h_2 => exact hmap.storeAll hs

theorem HasMappings.loadLoop {phentsize : UInt32} {words : ℕ → NodePtr} {left : ℕ} {hoff : UInt32}
    (h : HasMappings pid maps k)
    (hs : loadIntoLoop cfg inode file pid phentsize words left hoff k = some k') :
    HasMappings pid (mapAll cfg maps ((segments file.io phentsize left hoff).map fun ph =>
      ph.mmapArgs .null)) k' := by
  induction left generalizing maps k hoff with
  | zero =>
    cases hs
    exact h
  | succ left ih =>
    unfold loadIntoLoop at hs
    unfold segments programHeaders
    cases hread : file.io.readThing hoff 32 with
    | none => simp [hread] at hs
    | some bytes =>
      simp only [hread] at hs ⊢
      obtain ⟨k₁, h₁, hs⟩ := Option.bind_eq_some_iff.mp hs
      by_cases ht : (ProgramHeader.ofBytes bytes).type = 1
      · rw [if_pos ht] at h₁
        rw [List.filter_cons_of_pos (by simpa using ht), List.map_cons]
        exact ih (h.loadInto h₁) hs
      · rw [if_neg ht] at h₁
        cases h₁
        rw [List.filter_cons_of_neg (by simpa using ht)]
        exact ih h hs

theorem exec_mappings {words : ℕ → NodePtr} {lens : List UInt32} {p : Process}
    (hp : k.procs[pid]? = some p) (hlive : p.status = .live)
    (hs : exec cfg inode file words pid lens k = some k') :
    HasMappings pid (mapAll cfg (p.entryList.map VMEntry.mapping) (requests (loadSegments file.io))) k' := by
  obtain ⟨bytes, hread, hs⟩ := Option.bind_eq_some_iff.mp hs
  rw [Option.ite_none_left_eq_some, hp, Option.bind_some] at hs
  obtain ⟨k₁, h₁, hs⟩ := Option.bind_eq_some_iff.mp hs.2
  obtain ⟨k₂, h₂, hs⟩ := Option.bind_eq_some_iff.mp hs
  have hclear : HasMappings pid (p.entryList.map VMEntry.mapping)
      ({ k with phys := (p.pd.deletePrivate cfg k.phys).2 }.put pid
        { p with pd := (p.pd.deletePrivate cfg k.phys).1 }) :=
    ⟨_, List.getElem?_set_self (List.getElem?_eq_some_iff.mp hp).1, hlive, rfl⟩
  have hsegs : loadSegments file.io = segments file.io (ElfHeader.ofBytes bytes).phentsize.toUInt32
      (ElfHeader.ofBytes bytes).phnum.toNat (ElfHeader.ofBytes bytes).phoff := by
    simp only [loadSegments, hread]
  rw [requests, mapAll, List.foldl_append, hsegs]
  exact ((hclear.loadLoop h₁).mapIn rfl not_fixed h₂).storeAll hs

end

def Touches (start length : UInt32) (g : Page) : Prop :=
  0 < length.toNat ∧ start.toNat < (addressOf g).toNat + 4096 ∧
    (addressOf g).toNat < start.toNat + length.toNat

instance (start length : UInt32) (g : Page) : Decidable (Touches start length g) :=
  inferInstanceAs (Decidable (_ ∧ _ ∧ _))

def ImagePage (segs : List ProgramHeader) (g : Page) : Prop :=
  (∃ ph ∈ segs, Touches ph.vaddr ph.memsz g) ∨ Touches (stackTop - 4000000) 4000000 g

instance (segs : List ProgramHeader) (g : Page) : Decidable (ImagePage segs g) :=
  inferInstanceAs (Decidable (_ ∨ _))

def Covered (es : List VMEntry) (g : Page) : Prop := ∃ e ∈ es, e.holds (addressOf g) = true

/-- The address space of `p` has been replaced, and `q` is the process that `exec` leaves. -/
structure Replaced (cfg : Config) (segs : List ProgramHeader) (m : PhysMem) (p q : Process) : Prop where
  covers : ∀ g, Covered q.entryList g ↔ ImagePage segs g
  entries : q.entryList.length = (requests segs).countP fun a => ¬ isSpecial cfg a.hint
  pages : ∀ g pte, (512 : Fin 1024) ≤ g.1 → (p.pd.deletePrivate cfg m).1.lookup g = some pte →
    pte.user = false

def Fits (cfg : Config) (segs : List ProgramHeader) : Prop :=
  ∀ g, Covered (mapAll cfg [] (requests segs)) g ↔ ImagePage segs g

section
variable {cfg : Config} {segs : List ProgramHeader} {m : PhysMem} {p q : Process}

theorem covered_mapping (es : List VMEntry) (g : Page) :
    Covered (es.map VMEntry.mapping) g ↔ Covered es g := by
  simp [Covered]

theorem requests_anonymous {a : MmapArgs} (ha : a ∈ requests segs) :
    a.fd = .negative ∧ a.flags &&& 2 ≠ 2 := by
  rcases List.mem_append.mp ha with ha | ha
  · obtain ⟨ph, -, rfl⟩ := List.mem_map.mp ha
    exact ⟨rfl, not_fixed⟩
  · rw [List.mem_singleton.mp ha]
    exact ⟨rfl, not_fixed⟩

theorem mapAll_length (es : List VMEntry) {as : List MmapArgs}
    (has : ∀ a ∈ as, a.fd = .negative ∧ a.flags &&& 2 ≠ 2) :
    (mapAll cfg es as).length = es.length + as.countP fun a => ¬ isSpecial cfg a.hint := by
  induction as generalizing es with
  | nil => rfl
  | cons a as ih =>
    rw [List.forall_mem_cons] at has
    have hone : (afterCall cfg es (.mmap a)).length =
        es.length + if isSpecial cfg a.hint then 0 else 1 := by
      have hsplit := congrArg List.length (place_split es a.size a.hint)
      rw [List.length_append] at hsplit
      simp only [afterCall, mmap_anonymous cfg es has.1.1 has.1.2]
      by_cases hs : isSpecial cfg a.hint = true
      · simp [hs]
      · simp only [hs, Bool.false_eq_true, if_false, List.length_append, List.length_cons]
        omega
    change (mapAll cfg (afterCall cfg es (.mmap a)) as).length = _
    rw [ih _ has.2, hone, List.countP_cons]
    by_cases hs : isSpecial cfg a.hint = true
    · simp [hs]
    · simp [hs]
      omega

theorem cleared_iff :
    (∀ g pte, (512 : Fin 1024) ≤ g.1 → (p.pd.deletePrivate cfg m).1.lookup g = some pte →
      pte.user = false) ↔
    ∀ g pte, DevicePage cfg g → p.pd.lookup g = some pte → pte.user = false := by
  have h512 : ∀ g, DevicePage cfg g → (512 : Fin 1024) ≤ g.1 := by
    rintro g (rfl | rfl)
    · exact pageOf_user cfg.io_user
    · exact pageOf_user cfg.local_user
  constructor
  · intro h g pte hg hlook
    apply h g pte (h512 g hg)
    rw [PageDir.deletePrivate_lookup, if_neg fun hn => hn.2 hg, hlook]
  · intro h g pte hg hlook
    rw [PageDir.deletePrivate_lookup] at hlook
    split at hlook
    case isTrue => cases hlook
    case isFalse hn =>
      refine h g pte ?_ hlook
      by_contra hdev
      exact hn ⟨hg, hdev⟩

end

/-- `exec` replaces the address space if and only if there was none: no entry in the list and no
user page over a device, and the layout of the new program fits. -/
theorem exec_replaces_iff (cfg : Config) (inode : ℕ → Node) (file : Node) (words : ℕ → NodePtr)
    (pid : ℕ) (lens : List UInt32) {k k' : Kernel} {p : Process} (hp : k.procs[pid]? = some p)
    (hlive : p.status = .live) (h : exec cfg inode file words pid lens k = some k') :
    ∃ q, k'.procs[pid]? = some q ∧
      (Replaced cfg (loadSegments file.io) k.phys p q ↔
        p.entryList = [] ∧ (∀ g pte, DevicePage cfg g → p.pd.lookup g = some pte → pte.user = false) ∧
        Fits cfg (loadSegments file.io)) := by
  obtain ⟨q, hq, -, hmaps⟩ := exec_mappings hp hlive h
  refine ⟨q, hq, ?_⟩
  have hlen : q.entryList.length = p.entryList.length +
      (requests (loadSegments file.io)).countP fun a => ¬ isSpecial cfg a.hint := by
    rw [← List.length_map (f := VMEntry.mapping), hmaps, mapAll_length _ fun a => requests_anonymous,
      List.length_map]
  have hcover : ∀ g, Covered q.entryList g ↔
      Covered (mapAll cfg (p.entryList.map VMEntry.mapping) (requests (loadSegments file.io))) g := by
    intro g
    rw [← covered_mapping, hmaps]
  constructor
  · intro hr
    have hnil : p.entryList = [] := by
      have := hr.entries
      exact List.eq_nil_of_length_eq_zero (by omega)
    refine ⟨hnil, cleared_iff.mp hr.pages, fun g => ?_⟩
    have hg := hcover g
    rw [hnil, List.map_nil] at hg
    exact hg.symm.trans (hr.covers g)
  · rintro ⟨hnil, hdev, hfits⟩
    rw [hnil] at hlen hcover
    refine ⟨fun g => (hcover g).trans (hfits g), ?_, cleared_iff.mpr hdev⟩
    simpa using hlen

theorem search_past {size : UInt32} {front rest : List VMEntry} {prev : VMEntry} {va : UInt32}
    (h : ∀ e ∈ rest, e.startingAddress ≤ va) :
    search size front prev rest va = (va, front ++ prev :: rest, []) := by
  induction rest generalizing front prev with
  | nil => rfl
  | cons temp rest ih =>
    rw [List.forall_mem_cons] at h
    rw [search, if_pos h.1, ih h.2, List.append_assoc]
    rfl

theorem place_past {es : List VMEntry} {va : UInt32} (size : UInt32) (h : ∀ e ∈ es, e.startingAddress ≤ va) :
    place es size va = (va, es, []) := by
  cases es with
  | nil => rfl
  | cons prev rest => exact search_past fun e he => h e (List.mem_cons_of_mem _ he)

section
variable {cfg : Config} {segs : List ProgramHeader}

theorem mapAll_ascending (cfg : Config) {es : List VMEntry} {as : List MmapArgs}
    (has : ∀ a ∈ as, a.fd = .negative ∧ a.flags &&& 2 ≠ 2)
    (hasc : as.Pairwise fun a b => a.hint ≤ b.hint)
    (hes : ∀ e ∈ es, ∀ a ∈ as, e.startingAddress ≤ a.hint) :
    mapAll cfg es as =
      es ++ (as.filter fun a => ¬ isSpecial cfg a.hint).map fun a => a.newEntry none a.hint := by
  induction as generalizing es with
  | nil => simp [mapAll]
  | cons b as ih =>
    rw [List.forall_mem_cons] at has
    obtain ⟨hb, hasc⟩ := List.pairwise_cons.mp hasc
    have hplace := place_past b.size fun e he => hes e he b List.mem_cons_self
    have hrest : ∀ e ∈ es, ∀ a ∈ as, e.startingAddress ≤ a.hint := fun e he a ha =>
      hes e he a (List.mem_cons_of_mem _ ha)
    change mapAll cfg (afterCall cfg es (.mmap b)) as = _
    simp only [afterCall, mmap_anonymous cfg es has.1.1 has.1.2, hplace]
    by_cases hs : isSpecial cfg b.hint = true
    · rw [if_pos hs, ih has.2 hasc hrest, List.filter_cons_of_neg (by simpa using hs)]
    · rw [if_neg hs, List.filter_cons_of_pos (by simpa using hs), List.map_cons]
      have hnew : ∀ e ∈ es ++ [b.newEntry none b.hint], ∀ a ∈ as, e.startingAddress ≤ a.hint := by
        intro e he a ha
        rcases List.mem_append.mp he with he | he
        · exact hrest e he a ha
        · rw [List.mem_singleton.mp he]
          exact hb a ha
      rw [ih has.2 hasc hnew, List.append_assoc]
      rfl

theorem stack_hint_not_special (cfg : Config) : isSpecial cfg (stackTop - 4000000) = false := by
  have hio : stackTop - 4000000 ≠ cfg.ioAPIC := fun h => absurd cfg.io_aligned (h ▸ by decide)
  have hlocal : stackTop - 4000000 ≠ cfg.localAPIC := fun h => absurd cfg.local_aligned (h ▸ by decide)
  simp only [isSpecial, Bool.or_eq_false_iff, beq_eq_false_iff_ne, decide_eq_false_iff_not]
  exact ⟨⟨by decide, hio⟩, hlocal⟩

theorem ordinary_layout_misfits
    (hseg : ∀ ph ∈ segs, 0x80000000 ≤ ph.vaddr ∧ ph.vaddr ≤ stackTop - 4000000)
    (hasc : segs.Pairwise fun a b => a.vaddr ≤ b.vaddr)
    (htop : ∀ ph ∈ segs, ¬ Touches ph.vaddr ph.memsz (pageOf stackTop)) : ¬ Fits cfg segs := by
  have hhint : ∀ ph ∈ segs, (ph.mmapArgs .null).hint = ph.vaddr := by
    intro ph hph
    refine if_neg fun h0 => ?_
    have hlow := (hseg ph hph).1
    rw [show ph.vaddr = 0 from h0] at hlow
    exact absurd hlow (by decide)
  have hascending : (requests segs).Pairwise fun a b => a.hint ≤ b.hint := by
    refine List.pairwise_append.mpr ⟨List.pairwise_map.mpr (hasc.imp_of_mem ?_), by simp, ?_⟩
    · intro a b ha hb hab
      rw [hhint a ha, hhint b hb]
      exact hab
    · intro a ha b hb
      obtain ⟨ph, hph, rfl⟩ := List.mem_map.mp ha
      rw [List.mem_singleton.mp hb, hhint ph hph]
      exact (hseg ph hph).2
  intro hfits
  have hlist := mapAll_ascending cfg (fun a => requests_anonymous) hascending
    (List.forall_mem_nil _)
  have hstack : (stackArgs .null).newEntry none (stackTop - 4000000) ∈ mapAll cfg [] (requests segs) := by
    rw [hlist, List.nil_append]
    refine List.mem_map.mpr ⟨stackArgs .null, List.mem_filter.mpr ⟨by simp [requests], ?_⟩, rfl⟩
    have hspecial : isSpecial cfg (stackArgs .null).hint = false := stack_hint_not_special cfg
    simp [hspecial]
  rcases (hfits (pageOf stackTop)).mp ⟨_, hstack, by decide⟩ with ⟨ph, hph, ht⟩ | ht
  · exact htop ph hph ht
  · exact absurd ht.2.2 (by decide)

end

theorem over_stack_fits : Fits qemu [⟨1, 0, 0xEFC2D000, 0x3D2000, 0x3D2000⟩] := by
  intro g
  have hlist : mapAll qemu [] (requests [⟨1, 0, 0xEFC2D000, 0x3D2000, 0x3D2000⟩]) =
      [(ProgramHeader.mmapArgs ⟨1, 0, 0xEFC2D000, 0x3D2000, 0x3D2000⟩ .null).newEntry none 0xEFC2D000,
        (stackArgs .null).newEntry none 0xEFC2D700] := by decide +kernel
  have hal := addressOf_aligned g
  have hsegment : (VMEntry.stop ((ProgramHeader.mmapArgs ⟨1, 0, 0xEFC2D000, 0x3D2000, 0x3D2000⟩
      .null).newEntry none 0xEFC2D000)).toNat = 0xEFFFF000 := by decide
  have hstack : (VMEntry.stop ((stackArgs .null).newEntry none 0xEFC2D700)).toNat = 0xEFFFE700 := by
    decide
  simp only [hlist, Covered, ImagePage, Touches, List.mem_cons, List.not_mem_nil, or_false,
    exists_eq_or_imp, exists_eq_left, VMEntry.holds_iff, hsegment, hstack]
  simp only [MmapArgs.newEntry, stackTop, UInt32.reduceToNat, UInt32.reduceSub]
  omega

theorem segment_over_stack_replaces :
    ∃ k p k' q, bootKernel.step qemu (fun _ => []) .spawn = some k ∧ k.procs[0]? = some p ∧
      exec qemu (fun _ => tinyNode 0xEFC2D000 0x3D2000) (tinyNode 0xEFC2D000 0x3D2000) noWords 0 [4] k = some k' ∧
      k'.procs[0]? = some q ∧
      Replaced qemu (loadSegments (tinyNode 0xEFC2D000 0x3D2000).io) k.phys p q := by
  have hsome : ((bootKernel.step qemu (fun _ => []) .spawn).bind fun k =>
      exec qemu (fun _ => tinyNode 0xEFC2D000 0x3D2000) (tinyNode 0xEFC2D000 0x3D2000) noWords 0 [4] k).isSome := by
    decide +kernel
  obtain ⟨k', hk'⟩ := Option.isSome_iff_exists.mp hsome
  obtain ⟨k, hk, hexec⟩ := Option.bind_eq_some_iff.mp hk'
  have hfacts : (bootKernel.step qemu (fun _ => []) .spawn).map (fun k => k.procs.map fun p =>
      (p.entryList, p.status, p.pd.lookup (pageOf qemu.ioAPIC), p.pd.lookup (pageOf qemu.localAPIC))) =
        some [([], .live, some ⟨0xFEC00000, false⟩, some ⟨0xFEE00000, false⟩)] := by decide +kernel
  rw [hk, Option.map_some, Option.some.injEq] at hfacts
  obtain ⟨p, hp, he⟩ := List.map_eq_singleton_iff.mp hfacts
  simp only [Prod.mk.injEq] at he
  obtain ⟨hnil, hlive, hio, hlocal⟩ := he
  have hget : k.procs[0]? = some p := by simp [hp]
  obtain ⟨q, hq, hiff⟩ := exec_replaces_iff qemu (fun _ => tinyNode 0xEFC2D000 0x3D2000)
    (tinyNode 0xEFC2D000 0x3D2000) noWords 0 [4] hget hlive hexec
  have hsegs : loadSegments (tinyNode 0xEFC2D000 0x3D2000).io =
      [⟨1, 0, 0xEFC2D000, 0x3D2000, 0x3D2000⟩] := by decide +kernel
  refine ⟨k, p, k', q, hk, hget, hexec, hq, hiff.mpr ⟨hnil, ?_, hsegs ▸ over_stack_fits⟩⟩
  rintro g pte (rfl | rfl) hlook
  · rw [hio] at hlook
    cases hlook
    rfl
  · rw [hlocal] at hlook
    cases hlook
    rfl

def mappedPage : MmapArgs := { anonymousPage with addr := 0x90000000 }

/-- The entry of the old page is still there in the new image. -/
theorem exec_keeps_old_entry :
    ∃ k p k' q, bootKernel.run qemu (fun _ => []) [.spawn, .mmap 0 mappedPage] = some k ∧
      k.procs[0]? = some p ∧ p.status = .live ∧
      exec qemu (fun _ => tinyNode 0x80000000 4) (tinyNode 0x80000000 4) noWords 0 [4] k = some k' ∧
      k'.procs[0]? = some q ∧ Covered q.entryList (pageOf 0x90000000) ∧
      ¬ Replaced qemu (loadSegments (tinyNode 0x80000000 4).io) k.phys p q := by
  have hlive : (bootKernel.run qemu (fun _ => []) [.spawn, .mmap 0 mappedPage]).map
      (fun k => k.procs.map Process.status) = some [.live] := by decide +kernel
  have hlist : ((bootKernel.run qemu (fun _ => []) [.spawn, .mmap 0 mappedPage]).bind fun k =>
      exec qemu (fun _ => tinyNode 0x80000000 4) (tinyNode 0x80000000 4) noWords 0 [4] k).map
        (fun k => k.procs.map Process.entryList) =
      some [[mappedPage.newEntry none 0x90000000,
        (ProgramHeader.mmapArgs ⟨1, 0, 0x80000000, 4, 4⟩ .null).newEntry none 0x80000000,
        (stackArgs .null).newEntry none 0xEFC2D700]] := by decide +kernel
  obtain ⟨k', hk', hq⟩ := Option.map_eq_some_iff.mp hlist
  obtain ⟨k, hk, hexec⟩ := Option.bind_eq_some_iff.mp hk'
  rw [hk, Option.map_some, Option.some.injEq] at hlive
  obtain ⟨p, hp, hstatus⟩ := List.map_eq_singleton_iff.mp hlive
  obtain ⟨q, hq, hes⟩ := List.map_eq_singleton_iff.mp hq
  have hcover : Covered q.entryList (pageOf 0x90000000) := by
    rw [hes]
    exact ⟨_, List.mem_cons_self, by decide⟩
  refine ⟨k, p, k', q, hk, by simp [hp], hstatus, hexec, by simp [hq], hcover, fun hr => ?_⟩
  exact absurd ((hr.covers _).mp hcover) (by decide +kernel)

end MMapKernel.Sys
