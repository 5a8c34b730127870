import MMapKernel.Lib.RingArray
import MMapKernel.Sync.Mutex

/-!
# Bounded buffers: `kernel/bb.h`

Any thread calls `put` and `get` as it likes. The semaphore `nEmpty` counts the slots that nobody has
claimed and `nFull` the items that nobody has, and `lock` guards the array. A division by `N = 0` is a
fault: there is no step.
-/

namespace MMapKernel.Sync
open Transition RingArray

inductive BufferSem where
  | nEmpty
  | nFull
  | lock
deriving DecidableEq

inductive BufferCall (T : Type) where
  | put (t : T)
  | get

inductive BufferPlace (T : Type) where
  | idle
  | putEmpty (t : T)
  | putLock (t : T)
  | store (t : T)
  | incr
  | putUnlock
  | putFull
  | getFull
  | getLock
  | read
  | advance (out : T)
  | decr (out : T)
  | getUnlock (out : T)
  | getEmpty (out : T)
  | returned (out : T)

structure Buffer (T : Type) where
  head : UInt32
  n : UInt32
  data : ℕ → T
  /-- The values that `put` has stored, and that `get` has read. No code reads these. -/
  stored : List T
  got : List T

variable {T : Type}

def BufferCall.start : BufferCall T → BufferPlace T
  | put t => .putEmpty t
  | get => .getFull

def bufferProg (N : UInt32) : BufferPlace T → Instr BufferSem (BufferPlace T) (Buffer T) (BufferCall T)
  | .idle => .act fun x call => some (x, call.start)
  | .putEmpty t => .down .nEmpty (.putLock t)
  | .putLock t => .down .lock (.store t)
  | .store t => .act fun x _ =>
    if N = 0 then none
    else some ({ x with
      data := Function.update x.data ((x.head + x.n) % N).toNat t
      stored := x.stored ++ [t] }, .incr)
  | .incr => .act fun x _ => some ({ x with n := x.n + 1 }, .putUnlock)
  | .putUnlock => .up .lock .putFull
  | .putFull => .up .nFull .idle
  | .getFull => .down .nFull .getLock
  | .getLock => .down .lock .read
  | .read => .act fun x _ =>
    some ({ x with got := x.got ++ [x.data x.head.toNat] }, .advance (x.data x.head.toNat))
  | .advance out => .act fun x _ =>
    if N = 0 then none else some ({ x with head := (x.head + 1) % N }, .decr out)
  | .decr out => .act fun x _ => some ({ x with n := x.n - 1 }, .getUnlock out)
  | .getUnlock out => .up .lock (.getEmpty out)
  | .getEmpty out => .up .nEmpty (.returned out)
  | .returned _ => .act fun x call => some (x, call.start)

abbrev BufferState (ι T : Type) := State ι BufferSem (BufferPlace T) (Buffer T)

variable {ι : Type} [DecidableEq ι]

def bufferStart (ι : Type) (N : UInt32) (data : ℕ → T) : BufferState ι T where
  sem
    | .nEmpty => Semaphore.new N
    | .nFull => Semaphore.new 0
    | .lock => Semaphore.new 1
  phase _ := .running .idle
  shared := ⟨0, 0, data, [], []⟩

def boundedBuffer (ι T : Type) [DecidableEq ι] (N : UInt32) : System (BufferState ι T) (ι × BufferCall T) :=
  threads (bufferProg N) fun s => ∃ data, s = bufferStart ι N data

def emptyTokens : BufferPlace T → ℕ
  | .putLock _ => 1
  | .store _ => 1
  | .incr => 1
  | .getUnlock _ => 1
  | .getEmpty _ => 1
  | _ => 0

def fullTokens : BufferPlace T → ℕ
  | .putUnlock => 1
  | .putFull => 1
  | .getLock => 1
  | .read => 1
  | .advance _ => 1
  | .decr _ => 1
  | _ => 0

def lockTokens : BufferPlace T → ℕ
  | .store _ => 1
  | .incr => 1
  | .putUnlock => 1
  | .read => 1
  | .advance _ => 1
  | .decr _ => 1
  | .getUnlock _ => 1
  | _ => 0

theorem counts_nEmpty (N : UInt32) : Counts (bufferProg (T := T) N) .nEmpty emptyTokens := by
  constructor
  · intro p q p' h
    cases p <;> cases h <;> rfl
  · intro p q p' h
    cases p <;> cases h <;> rfl

theorem counts_nFull (N : UInt32) : Counts (bufferProg (T := T) N) .nFull fullTokens := by
  constructor
  · intro p q p' h
    cases p <;> cases h <;> rfl
  · intro p q p' h
    cases p <;> cases h <;> rfl

theorem counts_lock (N : UInt32) : Counts (bufferProg (T := T) N) .lock lockTokens := by
  constructor
  · intro p q p' h
    cases p <;> cases h <;> rfl
  · intro p q p' h
    cases p <;> cases h <;> rfl

def BufferPlace.out : BufferPlace T → Option T
  | .advance out => some out
  | .decr out => some out
  | .getUnlock out => some out
  | .getEmpty out => some out
  | .returned out => some out
  | _ => none

theorem out_down {N : UInt32} {p p' : BufferPlace T} {q : BufferSem} (h : bufferProg N p = .down q p') :
    p'.out = none := by
  cases p <;> cases h <;> rfl

theorem out_up {N : UInt32} {p p' : BufferPlace T} {q : BufferSem} (h : bufferProg N p = .up q p') :
    p'.out = p.out := by
  cases p <;> cases h <;> rfl

def Outs (V : ι → View BufferSem (BufferPlace T)) (x : Buffer T) : Prop :=
  ∀ k p out, V k = .here p → p.out = some out → out ∈ x.got

theorem Outs.update {V : ι → View BufferSem (BufferPlace T)} {x : Buffer T} (h : Outs V x) {i : ι}
    {v : View BufferSem (BufferPlace T)} (hv : ∀ p out, v = .here p → p.out = some out → out ∈ x.got) :
    Outs (Function.update V i v) x :=
  (Function.forall_update_iff V fun _ v => ∀ p out, v = .here p → p.out = some out → out ∈ x.got).mpr
    ⟨hv, fun k _ => h k⟩

/-- The items that have not been read lie from slot `h` on, and there are `m` of them. -/
def Unread (N : UInt32) (h m : ℕ) (x : Buffer T) : Prop :=
  ∃ items, x.stored = x.got ++ items ∧ items.length = m ∧ Holds N.toNat x.data h items

def BufferAt (N : UInt32) (p : BufferPlace T) (x : Buffer T) : Prop :=
  match p with
  | .incr => Unread N x.head.toNat (x.n.toNat + 1) x
  | .advance _ => Unread N (x.head.toNat + 1) (x.n.toNat - 1) x
  | .decr _ => Unread N x.head.toNat (x.n.toNat - 1) x
  | _ => Unread N x.head.toNat x.n.toNat x

theorem guards_buffer (N : UInt32) : Guards (bufferProg (T := T) N) .lock lockTokens (BufferAt N)
    fun x => Unread N x.head.toNat x.n.toNat x where
  enter p p' x h hR := by
    cases p <;> cases h <;> exact hR
  leave p p' x h hA := by
    cases p <;> cases h <;> exact hA
  down p q' p' h := by
    cases p <;> cases h <;> rfl
  up p q' p' h hne := by
    cases p <;> cases h <;> first | rfl | exact absurd rfl hne

namespace Buffer

def put (x : Buffer T) (N : UInt32) (t : T) : Buffer T :=
  { x with data := Function.update x.data ((x.head + x.n) % N).toNat t, stored := x.stored ++ [t] }

def setN (x : Buffer T) (n : UInt32) : Buffer T := { x with n := n }

def setHead (x : Buffer T) (head : UInt32) : Buffer T := { x with head := head }

def take (x : Buffer T) : Buffer T := { x with got := x.got ++ [x.data x.head.toNat] }

end Buffer

inductive BufferAct (N : UInt32) (x : Buffer T) (call : BufferCall T) :
    BufferPlace T → Buffer T → BufferPlace T → Prop
  | idle : BufferAct N x call .idle x call.start
  | again (out : T) : BufferAct N x call (.returned out) x call.start
  | store (t : T) : N ≠ 0 → BufferAct N x call (.store t) (x.put N t) .incr
  | incr : BufferAct N x call .incr (x.setN (x.n + 1)) .putUnlock
  | read : BufferAct N x call .read x.take (.advance (x.data x.head.toNat))
  | advance (out : T) : N ≠ 0 → BufferAct N x call (.advance out) (x.setHead ((x.head + 1) % N)) (.decr out)
  | decr (out : T) : BufferAct N x call (.decr out) (x.setN (x.n - 1)) (.getUnlock out)

variable {N : UInt32} {x x' : Buffer T} {call : BufferCall T} {p p' : BufferPlace T} {i : ι}
  {s t : BufferState ι T}

theorem buffer_act {f : Buffer T → BufferCall T → Option (Buffer T × BufferPlace T)}
    (hf : bufferProg N p = .act f) (hx : f x call = some (x', p')) : BufferAct N x call p x' p' := by
  cases p with
  | idle =>
    cases hf
    cases hx
    exact .idle
  | returned out =>
    cases hf
    cases hx
    exact .again out
  | store t =>
    cases hf
    obtain ⟨hN, hx⟩ := Option.ite_none_left_eq_some.mp hx
    cases hx
    exact .store t hN
  | incr =>
    cases hf
    cases hx
    exact .incr
  | read =>
    cases hf
    cases hx
    exact .read
  | advance out =>
    cases hf
    obtain ⟨hN, hx⟩ := Option.ite_none_left_eq_some.mp hx
    cases hx
    exact .advance out hN
  | decr out =>
    cases hf
    cases hx
    exact .decr out
  | _ => cases hf

theorem succ_toNat {n : UInt32} (hn : n.toNat < N.toNat) : (n + 1).toNat = n.toNat + 1 := by
  have hmax := N.toNat_lt
  rw [UInt32.toNat_add, UInt32.toNat_one, Nat.mod_eq_of_lt (by omega)]

theorem pred_toNat {n : UInt32} (hn : 0 < n.toNat) : (n - 1).toNat = n.toNat - 1 := by
  have hone : (1 : UInt32) ≤ n := UInt32.le_iff_toNat_le.mpr hn
  rw [UInt32.toNat_sub_of_le _ _ hone, UInt32.toNat_one]

namespace BufferAct

theorem balance (h : BufferAct N x call p x' p') (hroom : emptyTokens p = 1 → x.n.toNat < N.toNat)
    (hsome : fullTokens p = 1 → 0 < x.n.toNat) :
    emptyTokens p' + x'.n.toNat = emptyTokens p + x.n.toNat ∧
      fullTokens p' + x.n.toNat = fullTokens p + x'.n.toNat ∧ lockTokens p' = lockTokens p := by
  cases h with
  | idle => cases call <;> exact ⟨rfl, rfl, rfl⟩
  | again => cases call <;> exact ⟨rfl, rfl, rfl⟩
  | store => exact ⟨rfl, rfl, rfl⟩
  | read => exact ⟨rfl, rfl, rfl⟩
  | advance => exact ⟨rfl, rfl, rfl⟩
  | incr =>
    have hn := succ_toNat (hroom rfl)
    refine ⟨?_, ?_, rfl⟩
    · change 0 + (x.n + 1).toNat = 1 + x.n.toNat
      omega
    · change 1 + x.n.toNat = 0 + (x.n + 1).toNat
      omega
  | decr =>
    have hpos := hsome rfl
    have hn := pred_toNat hpos
    refine ⟨?_, ?_, rfl⟩
    · change 1 + (x.n - 1).toNat = 0 + x.n.toNat
      omega
    · change 0 + x.n.toNat = 1 + (x.n - 1).toNat
      omega

theorem head_lt (h : BufferAct N x call p x' p') (hhead : N ≠ 0 → x.head.toNat < N.toNat) (hN : N ≠ 0) :
    x'.head.toNat < N.toNat := by
  cases h with
  | advance =>
    change ((x.head + 1) % N).toNat < N.toNat
    rw [UInt32.toNat_mod]
    refine Nat.mod_lt _ (Nat.pos_of_ne_zero fun hzero => hN ?_)
    rw [← UInt32.toNat_inj, hzero, UInt32.toNat_zero]
  | _ => exact hhead hN

theorem got (h : BufferAct N x call p x' p') {out : T} (hout : p'.out = some out)
    (hp : p.out = some out → out ∈ x.got) : out ∈ x'.got := by
  cases h with
  | idle => cases call <;> cases hout
  | again => cases call <;> cases hout
  | store => cases hout
  | incr => cases hout
  | read =>
    cases hout
    exact List.mem_append_right _ List.mem_cons_self
  | advance => exact hp hout
  | decr => exact hp hout

theorem got_mono (h : BufferAct N x call p x' p') {out : T} (hout : out ∈ x.got) : out ∈ x'.got := by
  cases h with
  | read => exact List.mem_append_left _ hout
  | _ => exact hout

end BufferAct

theorem slot_eq (hN : N.toNat ≤ 2 ^ 31) (hhead : x.head.toNat < N.toNat) (hn : x.n.toNat ≤ N.toNat) :
    ((x.head + x.n) % N).toNat = (x.head.toNat + x.n.toNat) % N.toNat := by
  rw [UInt32.toNat_mod, UInt32.toNat_add, Nat.mod_eq_of_lt (by omega : x.head.toNat + x.n.toNat < 2 ^ 32)]

theorem Unread.got_initial {h m : ℕ} (hx : Unread N h m x) : x.got <+: x.stored := by
  obtain ⟨items, hstored, -⟩ := hx
  exact ⟨items, hstored.symm⟩

theorem BufferAt.got_initial (h : BufferAt N p x) : x.got <+: x.stored := by
  cases p <;> exact Unread.got_initial h

theorem Unread.put {v : T} (h : Unread N x.head.toNat x.n.toNat x) (hN : N.toNat ≤ 2 ^ 31)
    (hhead : x.head.toNat < N.toNat) (hn : x.n.toNat < N.toNat) :
    Unread N x.head.toNat (x.n.toNat + 1) (x.put N v) := by
  obtain ⟨items, hstored, hlen, hholds⟩ := h
  refine ⟨items ++ [v], ?_, by rw [List.length_append, hlen, List.length_singleton], ?_⟩
  · change x.stored ++ [v] = x.got ++ (items ++ [v])
    rw [hstored, List.append_assoc]
  · change Holds N.toNat (Function.update x.data ((x.head + x.n) % N).toNat v) x.head.toNat (items ++ [v])
    rw [slot_eq hN hhead hn.le, ← hlen]
    exact hholds.push (by omega)

theorem Unread.take (h : Unread N x.head.toNat x.n.toNat x) (hhead : x.head.toNat < N.toNat)
    (hn : 0 < x.n.toNat) : Unread N (x.head.toNat + 1) (x.n.toNat - 1) x.take := by
  obtain ⟨items, hstored, hlen, hholds⟩ := h
  cases items with
  | nil => exact absurd hn (by rw [← hlen]; exact Nat.lt_irrefl 0)
  | cons a items =>
    have hfirst := hholds.first
    rw [Nat.mod_eq_of_lt hhead] at hfirst
    refine ⟨items, ?_, ?_, hholds.pop⟩
    · change x.stored = x.got ++ [x.data x.head.toNat] ++ items
      rw [hstored, hfirst, List.append_assoc]
      rfl
    · rw [List.length_cons] at hlen
      omega

theorem Unread.advance {m : ℕ} (h : Unread N (x.head.toNat + 1) m x) (hN : N.toNat ≤ 2 ^ 31)
    (hhead : x.head.toNat < N.toNat) :
    Unread N (x.setHead ((x.head + 1) % N)).head.toNat m (x.setHead ((x.head + 1) % N)) := by
  obtain ⟨items, hstored, hlen, hholds⟩ := h
  have hslot : ((x.head + 1) % N).toNat = (x.head.toNat + 1) % N.toNat := by
    rw [UInt32.toNat_mod, UInt32.toNat_add, UInt32.toNat_one,
      Nat.mod_eq_of_lt (by omega : x.head.toNat + 1 < 2 ^ 32)]
  refine ⟨items, hstored, hlen, ?_⟩
  change Holds N.toNat x.data ((x.head + 1) % N).toNat items
  rw [hslot]
  exact hholds.mod

section
variable [Fintype ι]

structure BufferInv (N : UInt32) (s : BufferState ι T) : Prop where
  orderly : Orderly (bufferProg N) s
  free : total emptyTokens .nEmpty s + s.shared.n.toNat = N.toNat
  full : total fullTokens .nFull s = s.shared.n.toNat
  one : total lockTokens .lock s = 1
  array : Guarded lockTokens (BufferAt N) (fun x => Unread N x.head.toNat x.n.toNat x) (views s) s.shared
  head : N ≠ 0 → s.shared.head.toNat < N.toNat
  outs : Outs (views s) s.shared

namespace BufferInv

omit [DecidableEq ι] in
theorem tokens_le {q : BufferSem} {W : BufferPlace T → ℕ} (hi : views s i = .here p) : W p ≤ total W q s := by
  have hle := tokens_le_held W q s i
  rw [tokens_here hi] at hle
  exact hle.trans (Nat.le_add_left _ _)

omit [DecidableEq ι] in
theorem room (h : BufferInv N s) (hi : views s i = .here p) (hp : emptyTokens p = 1) :
    s.shared.n.toNat < N.toNat := by
  have hle := tokens_le (q := .nEmpty) (W := emptyTokens) hi
  have hfree := h.free
  omega

omit [DecidableEq ι] in
theorem some_item (h : BufferInv N s) (hi : views s i = .here p) (hp : fullTokens p = 1) :
    0 < s.shared.n.toNat := by
  have hle := tokens_le (q := .nFull) (W := fullTokens) hi
  have hfull := h.full
  omega

omit [DecidableEq ι] in
theorem n_le (h : BufferInv N s) : s.shared.n.toNat ≤ N.toNat := by
  have hfree := h.free
  omega

omit [DecidableEq ι] in
theorem capacity_pos (h : BufferInv N s) (hi : 0 < s.shared.n.toNat ∨ s.shared.n.toNat < N.toNat) : N ≠ 0 := by
  have hle := h.n_le
  rintro rfl
  rw [UInt32.toNat_zero] at hle hi
  omega

omit [DecidableEq ι] in
theorem head_lt (h : BufferInv N s) (hi : 0 < s.shared.n.toNat ∨ s.shared.n.toNat < N.toNat) :
    s.shared.head.toNat < N.toNat := h.head (h.capacity_pos hi)

theorem array_step (h : BufferInv N s) (hN : N.toNat ≤ 2 ^ 31) (hstep : Step (bufferProg N) s i call t) :
    Guarded lockTokens (BufferAt N) (fun x => Unread N x.head.toNat x.n.toNat x) (views t) t.shared := by
  apply h.array.step h.orderly (counts_lock N) (guards_buffer N) h.one (step_moves h.orderly hstep)
  intro p p' f hi hf hx
  have hact := buffer_act hf hx
  have hbalance := (hact.balance (h.room hi) (h.some_item hi)).2.2
  generalize t.shared = x' at hact ⊢
  cases hact with
  | idle => exact ⟨hbalance, fun hpos => absurd hpos (Nat.lt_irrefl 0), fun _ => rfl⟩
  | again => exact ⟨hbalance, fun hpos => absurd hpos (Nat.lt_irrefl 0), fun _ => rfl⟩
  | store v =>
    have hroom := h.room hi rfl
    exact ⟨hbalance, fun _ hA => Unread.put hA hN (h.head_lt (.inr hroom)) hroom, nofun⟩
  | incr =>
    have hn := succ_toNat (h.room hi rfl)
    refine ⟨hbalance, fun _ hA => ?_, nofun⟩
    change Unread N s.shared.head.toNat (s.shared.n + 1).toNat (s.shared.setN (s.shared.n + 1))
    rw [hn]
    exact hA
  | read =>
    have hsome := h.some_item hi rfl
    exact ⟨hbalance, fun _ hA => Unread.take hA (h.head_lt (.inl hsome)) hsome, nofun⟩
  | advance out =>
    have hsome := h.some_item hi rfl
    exact ⟨hbalance, fun _ hA => Unread.advance hA hN (h.head_lt (.inl hsome)), nofun⟩
  | decr out =>
    have hn := pred_toNat (h.some_item hi rfl)
    refine ⟨hbalance, fun _ hA => ?_, nofun⟩
    change Unread N s.shared.head.toNat (s.shared.n - 1).toNat (s.shared.setN (s.shared.n - 1))
    rw [hn]
    exact hA

omit [DecidableEq ι] in
theorem got_initial (h : BufferInv N s) : s.shared.got <+: s.shared.stored := by
  by_cases hnone : ∀ k p, views s k = .here p → lockTokens p = 0
  · exact (h.array.outside hnone).got_initial
  · push Not at hnone
    obtain ⟨k, p, hk, hp⟩ := hnone
    exact (h.array.inside k p hk (Nat.pos_of_ne_zero hp)).got_initial

theorem outs_step (h : BufferInv N s) (hstep : Step (bufferProg N) s i call t) : Outs (views t) t.shared := by
  cases step_moves h.orderly hstep with
  | stay hv hx =>
    rw [hv, hx]
    exact h.outs
  | @act p p' f hi hf hx hv =>
    have hact := buffer_act hf hx
    rw [hv]
    exact Outs.update (fun k p out hk hout => hact.got_mono (h.outs k p out hk hout))
      (by rintro _ out ⟨⟩ hout; exact hact.got hout (h.outs i p out hi))
  | take hi hdown _ hv hx =>
    rw [hv, hx]
    exact h.outs.update (by rintro _ out ⟨⟩ hout; rw [out_down hdown] at hout; cases hout)
  | block hi hdown hv hx =>
    rw [hv, hx]
    exact h.outs.update nofun
  | @release p p' q hi hup hv hx =>
    rw [hv, hx]
    exact h.outs.update (by rintro _ out ⟨⟩ hout; exact h.outs i p out hi (out_up hup ▸ hout))
  | @wake p p' p'' q next hi hup hne hnext hv hx =>
    rw [hv, hx]
    obtain ⟨p₀, hdown⟩ := target_view h.orderly hnext
    exact (h.outs.update (by rintro _ out ⟨⟩ hout; rw [out_down hdown] at hout; cases hout)).update
      (by rintro _ out ⟨⟩ hout; exact h.outs i p out hi (out_up hup ▸ hout))

theorem step (h : BufferInv N s) (hN : N.toNat ≤ 2 ^ 31) (hstep : Step (bufferProg N) s i call t) :
    BufferInv N t := by
  have hfree := h.free
  have hfull := h.full
  have hone := h.one
  have hn := h.n_le
  rcases total_step h.orderly hstep with ⟨hx, hsame⟩ | ⟨p, p', f, hp, hf, hx, hdiff⟩
  · have hempty := hsame .nEmpty emptyTokens (counts_nEmpty N) (by omega)
    have hitems := hsame .nFull fullTokens (counts_nFull N) (by omega)
    have hlock := hsame .lock lockTokens (counts_lock N) (by omega)
    refine ⟨h.orderly.step hstep, ?_, ?_, ?_, h.array_step hN hstep, ?_, h.outs_step hstep⟩
    · rw [hx, hempty, hfree]
    · rw [hx, hitems, hfull]
    · rw [hlock, hone]
    · rw [hx]
      exact h.head
  · have hact := buffer_act hf hx
    have hi := views_running hp
    obtain ⟨hempty, hitems, hlock⟩ := hact.balance (h.room hi) (h.some_item hi)
    have hempty' := hdiff .nEmpty emptyTokens
    have hitems' := hdiff .nFull fullTokens
    have hlock' := hdiff .lock lockTokens
    exact ⟨h.orderly.step hstep, by omega, by omega, by omega, h.array_step hN hstep, hact.head_lt h.head,
      h.outs_step hstep⟩

omit [DecidableEq ι] in
theorem held_idle {q : BufferSem} {W : BufferPlace T → ℕ} {data : ℕ → T} (hW : W .idle = 0) :
    held W q (bufferStart ι N data) = 0 :=
  Finset.sum_eq_zero fun _ _ => hW

theorem start (N : UInt32) (data : ℕ → T) : BufferInv N (bufferStart ι N data) where
  orderly := Orderly.start (fun _ => rfl) fun q => by cases q <;> rfl
  free := by
    rw [total, held_idle rfl]
    rfl
  full := by
    rw [total, held_idle rfl]
    rfl
  one := by
    rw [total, held_idle rfl]
    rfl
  array := by
    refine ⟨?_, fun _ => ⟨[], rfl, rfl, .nil⟩⟩
    rintro k p ⟨⟩ hp
    cases hp
  head := fun hN => Nat.pos_of_ne_zero fun hzero => hN (UInt32.toNat_inj.mp hzero)
  outs k p out hk hout := by
    cases hk
    cases hout

end BufferInv

theorem bufferInv_of_reachable (hN : N.toNat ≤ 2 ^ 31) (hs : Reachable (boundedBuffer ι T N) s) :
    BufferInv N s := by
  induction hs with
  | start h =>
    obtain ⟨data, rfl⟩ := h
    exact .start N data
  | next _ hstep ih => exact ih.step hN (step_cases hstep)

/-- In every interleaving, for a capacity up to 2^31: `n` stays within the capacity and neither wraps,
`head` stays in the array, no store hits an item that is to be read, the divisions are by `N ≠ 0`, and
the values come out in the order in which they were stored. -/
theorem bounded_buffer_fifo (N : UInt32) (hN : N.toNat ≤ 2 ^ 31) (s : BufferState ι T)
    (hs : Reachable (boundedBuffer ι T N) s) :
    s.shared.n ≤ N ∧ (0 < N → s.shared.head < N) ∧
    (∀ i, views s i = .here .incr → s.shared.n < N) ∧
    (∀ i out, views s i = .here (.decr out) → 0 < s.shared.n) ∧
    (∀ i v, views s i = .here (.store v) → N ≠ 0 ∧ ∃ items, s.shared.stored = s.shared.got ++ items ∧
      Holds N.toNat s.shared.data s.shared.head.toNat items ∧ ∀ k < items.length,
        (s.shared.head.toNat + k) % N.toNat ≠ ((s.shared.head + s.shared.n) % N).toNat) ∧
    (∀ i out, views s i = .here (.advance out) → N ≠ 0) ∧
    s.shared.got <+: s.shared.stored ∧
    ∀ i out, views s i = .here (.returned out) → out ∈ s.shared.got := by
  have h := bufferInv_of_reachable hN hs
  refine ⟨UInt32.le_iff_toNat_le.mpr h.n_le, fun hpos => ?_, fun i hi => ?_, fun i out hi => ?_, fun i v hi => ?_,
    fun i out hi => h.capacity_pos (.inl (h.some_item hi rfl)), h.got_initial,
    fun i out hi => h.outs i _ out hi rfl⟩
  · refine UInt32.lt_iff_toNat_lt.mpr (h.head ?_)
    rintro rfl
    exact absurd hpos (UInt32.lt_irrefl 0)
  · exact UInt32.lt_iff_toNat_lt.mpr (h.room hi rfl)
  · exact UInt32.lt_iff_toNat_lt.mpr (h.some_item hi rfl)
  · have hroom := h.room hi rfl
    obtain ⟨items, hstored, hlen, hholds⟩ := h.array.inside i _ hi Nat.one_pos
    refine ⟨h.capacity_pos (.inr hroom), items, hstored, hholds, fun k hk => ?_⟩
    rw [slot_eq hN (h.head_lt (.inr hroom)) hroom.le]
    exact slot_ne (hlen ▸ hk) hroom

end

def onePutOneGet : List (Bool × BufferCall UInt32) :=
  List.replicate 7 (false, .put 7) ++ List.replicate 8 (true, .get)

def hasGot (s : BufferState Bool UInt32) : Bool := s.shared.got == [7]

theorem one_value_passes : ∃ s, Reachable (boundedBuffer Bool UInt32 1) s ∧ s.shared.got = [7] ∧
    s.shared.n ≤ 1 ∧ s.shared.got <+: s.shared.stored := by
  have hrun : (run (fun s i => s.step (bufferProg 1) i.1 i.2) (fun _ _ => true)
      (bufferStart Bool 1 fun _ => (0 : UInt32)) onePutOneGet).any hasGot := by decide +kernel
  obtain ⟨s, hs, hgot⟩ := (Option.any_eq_true _ _).mp hrun
  have hreach : Reachable (boundedBuffer Bool UInt32 1) s :=
    run_reachable (fun _ _ _ _ hstep => hstep) (.start ⟨_, rfl⟩) hs
  obtain ⟨hn, -, -, -, -, -, hprefix, -⟩ := bounded_buffer_fifo 1 (by decide) s hreach
  exact ⟨s, hreach, beq_iff_eq.mp hgot, hn, hprefix⟩

end MMapKernel.Sync
