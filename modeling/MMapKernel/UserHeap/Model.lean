import MMapKernel.Heap.Requests

/-!
# The heap of user programs: `t0.dir/sbin/heap.c`

The functions over the same heap value as those of the kernel heap. Here every access to the array
is checked: an index outside `[0, heap_len)` is a `Fault`. `safe` is 1 and nothing assigns it, so
`sanity` reads header and footer, but with its messages commented out it returns its argument on
every path. `malloc` takes the first block that fits. `realloc` copies bytes; an access to a byte is
one to the word it lies in.
-/

namespace MMapKernel.UserHeap

/-- An index outside the array, or a walk along the free list that has not ended after
`heap_len` nodes. -/
inductive Fault where
  | outOfRange (i : ℤ)
  | walkDoesNotEnd
deriving DecidableEq, Repr

abbrev Checked := Except Fault

def get (h : Heap) (i : ℤ) : Checked ℤ :=
  if 0 ≤ i ∧ i < h.len then .ok (h.array i) else .error (.outOfRange i)

def set (h : Heap) (i x : ℤ) : Checked Heap :=
  if 0 ≤ i ∧ i < h.len then .ok (h.store i x) else .error (.outOfRange i)

def size (h : Heap) (i : ℤ) : Checked ℤ := do return Heap.abs (← get h i)

def headerFromFooter (h : Heap) (i : ℤ) : Checked ℤ := do return i - (← size h i) + 1

def footerFromHeader (h : Heap) (i : ℤ) : Checked ℤ := do return i + (← size h i) - 1

def sanity (h : Heap) (i : ℤ) : Checked ℤ :=
  if i = 0 then return 0
  else if i < 0 ∨ i ≥ h.len then return i
  else do
    let footer ← footerFromHeader h i
    if footer < 0 ∨ footer ≥ h.len then return i
    else do
      let hv ← get h i
      let fv ← get h footer
      if hv ≠ fv then return i
      else return i

def left (h : Heap) (i : ℤ) : Checked ℤ := do sanity h (← headerFromFooter h (i - 1))

def right (h : Heap) (i : ℤ) : Checked ℤ := do sanity h (i + (← size h i))

def next1 (h : Heap) (i : ℤ) : Checked ℤ := do sanity h (← get h (i + 1))

def prev1 (h : Heap) (i : ℤ) : Checked ℤ := do sanity h (← get h (i + 2))

def next (h : Heap) (i x : ℤ) : Checked Heap := set h (i + 1) x

def prev (h : Heap) (i x : ℤ) : Checked Heap := set h (i + 2) x

def remove (h : Heap) (i : ℤ) : Checked Heap := do
  let prevIndex ← prev1 h i
  let nextIndex ← next1 h i
  let h ← (if prevIndex = 0 then .ok { h with avail := nextIndex } else next h prevIndex nextIndex)
  (if nextIndex ≠ 0 then prev h nextIndex prevIndex else .ok h)

def makeAvail (h : Heap) (i ints : ℤ) : Checked Heap := do
  let h ← set h i ints
  let h ← set h (← footerFromHeader h i) ints
  let h ← next h i h.avail
  let h ← prev h i 0
  let h ← (if h.avail ≠ 0 then prev h h.avail i else .ok h)
  return { h with avail := i }

def makeTaken (h : Heap) (i ints : ℤ) : Checked Heap := do
  let h ← set h i (-ints)
  set h (← footerFromHeader h i) (-ints)

def isAvail (h : Heap) (i : ℤ) : Checked Bool := do return (← get h i) > 0

def isTaken (h : Heap) (i : ℤ) : Checked Bool := do return (← get h i) < 0

def carve (h : Heap) (p sz ints : ℤ) : Checked Heap := do
  let h ← remove h p
  let extra := sz - ints
  (if extra ≥ 4 then do
    let h ← makeTaken h p ints
    makeAvail h (p + ints) extra
  else makeTaken h p sz)

/-- The loop of `malloc`; the message about a listed block that is not available is commented out,
but the block is looked at. -/
def mallocLoop (ints : ℤ) : ℕ → Heap → ℤ → Checked (ℕ × Heap)
  | turns, h, p =>
    if p = 0 then .ok (0, h)
    else
      match turns with
      | 0 => .error .walkDoesNotEnd
      | turns + 1 => do
        let _ ← isAvail h p
        let sz ← size h p
        (if sz ≥ ints then do
          let h ← carve h p sz ints
          return (h.addressOf (p + 1), h)
        else do
          let p ← next1 h p
          mallocLoop ints turns h p)

def malloc (h : Heap) (bytes : UInt32) : Checked (ℕ × Heap) :=
  if bytes = 0 then return (h.base, h)
  else do
    let ints := Heap.intsOf bytes
    let p := h.avail
    let _ ← sanity h p
    mallocLoop ints h.len.toNat h p

def indexOf (h : Heap) (p : ℕ) : ℤ := ((p : ℤ) - h.base).tdiv 4 - 1

def mergeLeft (h : Heap) (idx sz leftIndex : ℤ) : Checked (Heap × ℤ × ℤ) := do
  let free ← isAvail h leftIndex
  (if free then do
    let h ← remove h leftIndex
    return (h, leftIndex, sz + (← size h leftIndex))
  else return (h, idx, sz))

def mergeRight (h : Heap) (sz rightIndex : ℤ) : Checked (Heap × ℤ) := do
  let free ← isAvail h rightIndex
  (if free then do
    let h ← remove h rightIndex
    return (h, sz + (← size h rightIndex))
  else return (h, sz))

def release (h : Heap) (idx : ℤ) : Checked Heap := do
  let sz ← size h idx
  let leftIndex ← left h idx
  let rightIndex ← right h idx
  let l ← mergeLeft h idx sz leftIndex
  let r ← mergeRight l.1 l.2.2 rightIndex
  makeAvail r.1 l.2.1 r.2

def free (h : Heap) (p : ℕ) : Checked Heap :=
  if p = 0 then return h
  else if p = h.base then return h
  else do
    let idx := indexOf h p
    let _ ← sanity h idx
    let taken ← isTaken h idx
    (if taken then release h idx else return h)

def byteOf (w : ℤ) (j : ℕ) : ℤ := w / 256 ^ j % 256

def setByte (w : ℤ) (j : ℕ) (x : ℤ) : ℤ := (w + (x - byteOf w j) * 256 ^ j).bmod (2 ^ 32)

def wordOf (h : Heap) (a : ℕ) : ℤ := ((a : ℤ) - h.base) / 4

def byteIn (h : Heap) (a : ℕ) : ℕ := (((a : ℤ) - h.base) % 4).toNat

def loadByte (h : Heap) (a : ℕ) : Checked ℤ := do return byteOf (← get h (wordOf h a)) (byteIn h a)

def storeByte (h : Heap) (a : ℕ) (x : ℤ) : Checked Heap := do
  set h (wordOf h a) (setByte (← get h (wordOf h a)) (byteIn h a) x)

def memcpy (h : Heap) (dst src : ℕ) : ℕ → Checked Heap
  | 0 => .ok h
  | n + 1 => do
    let x ← loadByte h src
    let h ← storeByte h dst x
    memcpy h (dst + 1) (src + 1) n

def realloc (h : Heap) (p : ℕ) (newSize : UInt32) : Checked (ℕ × Heap) :=
  if p = 0 then malloc h newSize
  else if newSize = 0 then do return (0, ← free h p)
  else do
    let idx := indexOf h p
    let _ ← sanity h idx
    let taken ← isTaken h idx
    (if !taken then return (0, h)
    else do
      let sz := (← size h idx) * 4
      let (newPtr, h) ← malloc h newSize
      -- the comparison is one of unsigned numbers
      let m := if (newSize.toNat : ℤ) > sz then sz.toNat else newSize.toNat
      let h ← (if newPtr ≠ 0 then memcpy h newPtr p m else .ok h)
      return (newPtr, ← free h p))

def ints : ℕ := 0x100000

def heapInit (base : ℕ) : Checked Heap := do
  let h : Heap := { base := base, len := ints, array := fun _ => 0, avail := 0 }
  let h ← makeTaken h 0 2
  let h ← makeAvail h 2 (h.len - 4)
  makeTaken h (h.len - 2) 2

end MMapKernel.UserHeap
