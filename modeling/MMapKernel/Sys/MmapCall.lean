import MMapKernel.Sys.Handler

/-!
# The system call `mmap`

The handler passes its six words on to `VMM::mmap`, which looks its descriptor up after it has
chosen a place. A descriptor that is not negative is taken to name an open file.
-/

namespace MMapKernel.Sys
open Fs Vmm

/-- The words of the user stack. `word` is what the heap block of the new entry holds. -/
structure MmapRequest where
  addr : UInt32
  length : UInt32
  prot : UInt32
  flags : UInt32
  fd : UInt32
  offset : UInt32
  word : NodePtr

def Handles.descriptor (hs : Handles) (fd : UInt32) : Fd :=
  if 0x80000000 ≤ fd then .negative
  else
    match hs.getFile fd with
    | none => .unknown
    | some .console => .console
    | some (.descriptor node _) => .node node.number.toNat

def MmapRequest.args (r : MmapRequest) (hs : Handles) : MmapArgs :=
  { addr := r.addr, length := r.length, prot := r.prot, flags := r.flags,
    fd := hs.descriptor r.fd, offset := r.offset, word := r.word }

def sysMmap (cfg : Config) (hs : Handles) (es : List VMEntry) (r : MmapRequest) : MmapResult :=
  mmap cfg es (r.args hs)

/-- The call returns null, or its entry is the one difference between the two lists, also where the entry
starts at 0 and the pointer to it is null. A null `File` that is dereferenced is neither. -/
def OneEntryOrNone (es : List VMEntry) (result : MmapResult) : Prop :=
  result = .null ∨ ∃ va front back e, es = front ++ back ∧ e.startingAddress = va ∧
    result = .mapped va (front ++ e :: back)

def Refused (cfg : Config) (es : List VMEntry) (a : MmapArgs) : Prop :=
  isSpecial cfg a.hint = true ∨ ((place es a.size a.hint).1 ≠ a.addr ∧ a.flags &&& 2 = 2)

theorem descriptor_unknown_iff (hs : Handles) (fd : UInt32) :
    hs.descriptor fd = .unknown ↔ ¬0x80000000 ≤ fd ∧ hs.getFile fd = none := by
  unfold Handles.descriptor
  by_cases hneg : 0x80000000 ≤ fd
  · simp [hneg]
  · simp only [hneg, ↓reduceIte, not_false_eq_true, true_and]
    cases hs.getFile fd with
    | none => simp
    | some file => cases file <;> simp

theorem mmap_reaches {cfg : Config} {es : List VMEntry} {a : MmapArgs} (h : ¬Refused cfg es a) :
    (a.fd = .unknown ∧ mmap cfg es a = .nullFile) ∨
    (a.fd ≠ .unknown ∧ OneEntryOrNone es (mmap cfg es a)) := by
  obtain ⟨hspecial, hfixed⟩ := not_or.mp h
  unfold mmap
  rw [if_neg hspecial]
  dsimp only
  rw [if_neg hfixed]
  have hinsert : ∀ file, OneEntryOrNone es (.mapped (place es a.size a.hint).1
      ((place es a.size a.hint).2.1 ++
        a.newEntry file (place es a.size a.hint).1 :: (place es a.size a.hint).2.2)) := fun file =>
    Or.inr ⟨_, _, _, a.newEntry file _, (place_split es a.size a.hint).symm, rfl, rfl⟩
  cases a.fd with
  | unknown => exact Or.inl ⟨rfl, rfl⟩
  | negative => exact Or.inr ⟨by simp, hinsert none⟩
  | console => exact Or.inr ⟨by simp, hinsert none⟩
  | node number => exact Or.inr ⟨by simp, hinsert (some number)⟩

theorem mmap_refused {cfg : Config} {es : List VMEntry} {a : MmapArgs} (h : Refused cfg es a) :
    mmap cfg es a = .null := by
  unfold mmap
  rcases h with h | h
  · rw [if_pos h]
  · split
    · rfl
    · dsimp only
      rw [if_pos h]

/-- For every list, table and argument tuple: the call inserts one entry or returns null with
nothing changed, exactly when it is refused before the lookup, its descriptor is negative, or
`getFile` finds a file. -/
theorem sysMmap_atomic_iff (cfg : Config) (hs : Handles) (es : List VMEntry) (r : MmapRequest) :
    OneEntryOrNone es (sysMmap cfg hs es r) ↔
      Refused cfg es (r.args hs) ∨ 0x80000000 ≤ r.fd ∨ (hs.getFile r.fd).isSome = true := by
  by_cases href : Refused cfg es (r.args hs)
  · exact iff_of_true (Or.inl (mmap_refused href)) (Or.inl href)
  · have hfd := descriptor_unknown_iff hs r.fd
    rcases mmap_reaches href with ⟨hu, hm⟩ | ⟨hu, hm⟩
    · obtain ⟨hneg, hnone⟩ := hfd.mp hu
      refine iff_of_false ?_ ?_
      · rw [sysMmap, hm]
        rintro (h | ⟨va, front, back, e, -, -, h⟩)
        · cases h
        · cases h
      · simp [href, hneg, hnone]
    · refine iff_of_true hm (Or.inr ?_)
      by_contra hboth
      obtain ⟨hneg, hnone⟩ := not_or.mp hboth
      exact hu (hfd.mpr ⟨hneg, by simpa using hnone⟩)

def noFiles : Handles := ⟨fun _ => none, fun _ => none⟩

def closedFile : MmapRequest :=
  { addr := 0, length := 1, prot := 2, flags := 0, fd := 5, offset := 0, word := .null }

/-- A closed descriptor makes `mmap` call `getNode` on a null `File`. -/
theorem sysMmap_null_file :
    sysMmap qemu noFiles [] closedFile = .nullFile ∧
      ¬OneEntryOrNone [] (sysMmap qemu noFiles [] closedFile) := by
  have h : sysMmap qemu noFiles [] closedFile = .nullFile := by decide
  refine ⟨h, ?_⟩
  rw [h]
  rintro (h | ⟨va, front, back, e, -, -, h⟩)
  · cases h
  · cases h

end MMapKernel.Sys
