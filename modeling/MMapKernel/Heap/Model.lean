import MMapKernel.Lib.BoundaryTag

/-!
# The kernel heap

The functions of `kernel/heap.cc` over an explicit heap value: the word array
`array`, its length `len` in ints, the head `avail` of the free list, and the
address `base` of `array[0]`. A `void*` is a byte address.

`safe` is 0 and nothing assigns it, so `sanity` returns its argument. `theLock` is a block of
the heap that it guards. That it serialises the calls is left to the scheduler model; here a
call is one step.
-/

namespace MMapKernel

structure Heap where
  base : ℕ
  len : ℤ
  array : ℤ → ℤ
  avail : ℤ

namespace Heap

/-- The ways a call can fail to return: the three `Debug::panic` calls, and a free-list
walk that has not ended after `len` nodes. -/
inductive Panic where
  | blockIsNotAvailable (p : ℤ)
  | freeingFreeBlock (p : ℕ) (idx : ℤ)
  | outOfMemory
  | walkDoesNotEnd
deriving DecidableEq, Repr

def store (h : Heap) (i x : ℤ) : Heap := { h with array := Function.update h.array i x }

def abs (x : ℤ) : ℤ := if x < 0 then -x else x

def size (h : Heap) (i : ℤ) : ℤ := abs (h.array i)

def headerFromFooter (h : Heap) (i : ℤ) : ℤ := i - h.size i + 1

def footerFromHeader (h : Heap) (i : ℤ) : ℤ := i + h.size i - 1

def sanity (i : ℤ) : ℤ := i

def left (h : Heap) (i : ℤ) : ℤ := sanity (h.headerFromFooter (i - 1))

def right (h : Heap) (i : ℤ) : ℤ := sanity (i + h.size i)

def next (h : Heap) (i : ℤ) : ℤ := sanity (h.array (i + 1))

def prev (h : Heap) (i : ℤ) : ℤ := sanity (h.array (i + 2))

def setNext (h : Heap) (i x : ℤ) : Heap := h.store (i + 1) x

def setPrev (h : Heap) (i x : ℤ) : Heap := h.store (i + 2) x

def remove (h : Heap) (i : ℤ) : Heap :=
  let prevIndex := h.prev i
  let nextIndex := h.next i
  let h := if prevIndex = 0 then { h with avail := nextIndex } else h.setNext prevIndex nextIndex
  if nextIndex ≠ 0 then h.setPrev nextIndex prevIndex else h

def makeAvail (h : Heap) (i ints : ℤ) : Heap :=
  let h := h.store i ints
  let h := h.store (h.footerFromHeader i) ints
  let h := h.setNext i h.avail
  let h := h.setPrev i 0
  let h := if h.avail ≠ 0 then h.setPrev h.avail i else h
  { h with avail := i }

def makeTaken (h : Heap) (i ints : ℤ) : Heap :=
  let h := h.store i (-ints)
  h.store (h.footerFromHeader i) (-ints)

def isAvail (h : Heap) (i : ℤ) : Bool := h.array i > 0

def isTaken (h : Heap) (i : ℤ) : Bool := h.array i < 0

def makeBlocks (base : ℕ) (bytes : UInt32) (memory : ℤ → ℤ) : Heap :=
  let h : Heap := { base := base, len := ((bytes / 4).toNat : ℤ), array := memory, avail := 0 }
  let h := h.makeTaken 0 2
  let h := h.makeAvail 2 (h.len - 4)
  h.makeTaken (h.len - 2) 2

def search (h : Heap) (ints : ℤ) : ℕ → ℤ → ℤ → ℤ × ℤ → Except Panic (ℤ × ℤ)
  | 0, _, _, _ => .error .walkDoesNotEnd
  | fuel + 1, countDown, p, (mx, it) =>
    if p = 0 then .ok (mx, it)
    else if !h.isAvail p then .error (.blockIsNotAvailable p)
    else
      let sz := h.size p
      if sz ≥ ints then
        let best := if sz < mx then (sz, p) else (mx, it)
        if countDown - 1 = 0 then .ok best
        else search h ints fuel (countDown - 1) (h.next p) best
      else search h ints fuel countDown (h.next p) (mx, it)

def intsOf (bytes : UInt32) : ℤ :=
  let ints : ℤ := (((bytes + 3) / 4 + 2).toNat : ℤ)
  if ints < 4 then 4 else ints

/-- The part of `malloc` after the search: unlink the chosen block, split it when at
least four ints remain. -/
def carve (h : Heap) (ints mx it : ℤ) : Heap :=
  let h := h.remove it
  let extra := mx - ints
  if extra ≥ 4 then (h.makeTaken it ints).makeAvail (it + ints) extra
  else h.makeTaken it mx

def addressOf (h : Heap) (i : ℤ) : ℕ := h.base + 4 * i.toNat

def malloc (h : Heap) (bytes : UInt32) : Except Panic (ℕ × Heap) :=
  if bytes = 0 then .ok (h.base, h)
  else
    let ints := intsOf bytes
    match h.search ints (h.len.toNat + 1) 20 h.avail (0x7FFFFFFF, 0) with
    | .error e => .error e
    | .ok (mx, it) =>
      if it ≠ 0 then .ok (h.addressOf (it + 1), h.carve ints mx it)
      else .ok (0, h)

def mergeLeft (h : Heap) (idx sz leftIndex : ℤ) : Heap × ℤ × ℤ :=
  if h.isAvail leftIndex then
    let h := h.remove leftIndex
    (h, leftIndex, sz + h.size leftIndex)
  else (h, idx, sz)

def mergeRight (h : Heap) (sz rightIndex : ℤ) : Heap × ℤ :=
  if h.isAvail rightIndex then
    let h := h.remove rightIndex
    (h, sz + h.size rightIndex)
  else (h, sz)

/-- The part of `free` after the checks: merge with the free neighbours. Both neighbours
are located before either is unlinked. -/
def release (h : Heap) (idx : ℤ) : Heap :=
  let leftIndex := h.left idx
  let rightIndex := h.right idx
  let l := h.mergeLeft idx (h.size idx) leftIndex
  let r := l.1.mergeRight l.2.2 rightIndex
  r.1.makeAvail l.2.1 r.2

def new (h : Heap) (size : UInt32) : Except Panic (ℕ × Heap) :=
  match h.malloc size with
  | .error e => .error e
  | .ok (p, h) => if p = 0 then .error .outOfMemory else .ok (p, h)

/-- `sizeof(BlockingLock)`: the count of the semaphore, its `ISL`, its queue and the reference
count, in 8, 8, 12 and 4 bytes. -/
def sizeofBlockingLock : UInt32 := 32

def heapInit (base : ℕ) (bytes : UInt32) (memory : ℤ → ℤ) : Except Panic (ℕ × Heap) :=
  (makeBlocks base bytes memory).new sizeofBlockingLock

def free (h : Heap) (p : ℕ) : Except Panic Heap :=
  if p = 0 then .ok h
  else if p = h.base then .ok h
  else
    let idx := sanity (((p - h.base) / 4 : ℕ) - 1 : ℤ)
    if !h.isTaken idx then .error (.freeingFreeBlock p idx)
    else .ok (h.release idx)

end Heap
end MMapKernel
