import MMapKernel.Heap.Runs

/-!
# Call sequences with clients that write to their blocks

Between two calls the kernel writes to the memory it was given. `clients` adds those
writes to `sessions`: any value, at any payload word of a live pointer. The heap
structure does not depend on payload words, so the invariant of the sessions is kept.
-/

open BoundaryTag Transition
namespace MMapKernel.Heap

inductive Act where
  | call (c : Call)
  | write (p : ℕ) (k x : ℤ)
deriving DecidableEq

namespace Session

def act (s : Session) : Act → Except Panic Session
  | .call c => s.step c
  | .write _ k x => .ok { s with heap := s.heap.store k x }

def Permitted (s : Session) : Act → Prop
  | .call c => s.Allowed c
  | .write p k _ => p ∈ s.live ∧ s.heap.InPayload p k

instance decidablePermitted (s : Session) : (a : Act) → Decidable (s.Permitted a)
  | .call c => inferInstanceAs (Decidable (s.Allowed c))
  | .write p k _ => inferInstanceAs (Decidable (p ∈ s.live ∧ s.heap.indexOf p < k ∧
      k < s.heap.indexOf p + s.heap.size (s.heap.indexOf p) - 1))

end Session

def clients (base : ℕ) (bytes : UInt32) (memory : ℤ → ℤ) : System Session Act where
  init s := s = ⟨makeBlocks base bytes memory, []⟩
  step s a t := s.Permitted a ∧ s.act a = .ok t

theorem sessions_reachable {base : ℕ} {bytes : UInt32} {memory : ℤ → ℤ} {s : Session}
    (hs : Reachable (sessions base bytes memory) s) : Reachable (clients base bytes memory) s := by
  induction hs with
  | start h => exact .start h
  | next _ h ih => exact ih.next (i := .call _) h

def booted (base : ℕ) (bytes : UInt32) (memory : ℤ → ℤ) : System Session Act where
  init s := ∃ lock h, heapInit base bytes memory = .ok (lock, h) ∧ s = ⟨h, [lock]⟩
  step := (clients base bytes memory).step

theorem booted_reachable {base : ℕ} {bytes : UInt32} {memory : ℤ → ℤ} {s : Session}
    (hs : Reachable (booted base bytes memory) s) : Reachable (clients base bytes memory) s := by
  induction hs with
  | start h =>
    obtain ⟨lock, h, hi, rfl⟩ := h
    exact sessions_reachable (heapInit_reachable hi)
  | next _ h ih => exact ih.next h

def Session.tryAct (s : Session) (a : Act) : Option Session := (s.act a).toOption

def Session.mayAct (s : Session) (a : Act) : Bool := s.Permitted a

theorem booted_run {base : ℕ} {bytes : UInt32} {memory : ℤ → ℤ} {lock : ℕ} {h : Heap}
    (hi : heapInit base bytes memory = .ok (lock, h)) {acts : List Act} {s : Session}
    (hrun : run Session.tryAct Session.mayAct ⟨h, [lock]⟩ acts = some s) :
    Reachable (booted base bytes memory) s :=
  run_reachable (S := booted base bytes memory)
    (fun _ _ _ ha ht => ⟨of_decide_eq_true ha, toOption_eq_some ht⟩) (.start ⟨lock, h, hi, rfl⟩) hrun

section Payload
variable {h : Heap} {bs : List Block} {fl : List ℤ} {b : Block} {k : ℤ}

theorem Tagging.payload_ne (ht : Tagging h bs) (hb : b ∈ bs) (hk : b.start < k)
    (hk' : k < b.stop - 1) {c : Block} (hc : c ∈ bs) : k ≠ c.start ∧ k ≠ c.stop - 1 := by
  have h4 := (ht.layout.mem c hc).2.1
  rcases ht.layout.apart b hb c hc with rfl | hbc | hcb
  · omega
  · simp only [Block.stop] at *; omega
  · simp only [Block.stop] at *; omega

theorem WellFormed.store (hw : WellFormed h bs fl) (hb : b ∈ bs) (hbf : b.free = false)
    (hk : b.start < k) (hk' : k < b.stop - 1) (x : ℤ) : WellFormed (h.store k x) bs fl := by
  have hin := hw.layout.mem b hb
  have hlink := hw.nodes.ne_link hw.toTagging hb hbf hk.le (by omega)
  have hframe : ∀ i, i ≠ k → (h.store k x).array i = h.array i :=
    fun i hi => Function.update_of_ne hi _ _
  exact {
    front := by
      rw [hframe 0 (by omega), hframe 1 (by omega)]
      exact hw.front
    back := by
      change (h.store k x).array (h.len - 2) = -2 ∧ (h.store k x).array (h.len - 1) = -2
      rw [hframe _ (by omega), hframe _ (by omega)]
      exact hw.back
    layout := hw.layout
    tagged := by
      intro c hc
      obtain ⟨h₁, h₂⟩ := hw.payload_ne hb hk hk' hc
      exact (hw.tagged c hc).congr (hframe _ h₁.symm) (hframe _ h₂.symm)
    head := hw.head
    linked := hw.linked.congr fun y hy =>
      ⟨hframe _ (hlink y hy).1.symm, hframe _ (hlink y hy).2.symm⟩
    tiles := hw.tiles
    exactly := hw.exactly
    settled := hw.settled }

end Payload

section Step
variable {base : ℕ} {len : ℤ} {s : Session} {bs : List Block} {fl : List ℤ}

theorem Session.Inv.block_of_live (hi : s.Inv base len bs fl) {p : ℕ} (hp : p ∈ s.live) :
    ∃ b ∈ bs, b.free = false ∧ s.heap.pointer b = p ∧ s.heap.indexOf p = b.start ∧
      s.heap.size (s.heap.indexOf p) = b.size := by
  obtain ⟨b, hb, rfl⟩ := List.mem_map.mp (hi.live.mem_iff.mp hp)
  obtain ⟨hbm, hbf⟩ := mem_takenBlocks.mp hb
  have hidx := indexOf_pointer s.heap (hi.start_nonneg hbm)
  exact ⟨b, hbm, hbf, rfl, hidx, by rw [hidx, hi.wf.size_start hbm]⟩

theorem Session.Inv.write (hi : s.Inv base len bs fl) {p : ℕ} {k : ℤ} (hp : p ∈ s.live)
    (hk : s.heap.InPayload p k) (x : ℤ) :
    Session.Inv base len { s with heap := s.heap.store k x } bs fl := by
  obtain ⟨b, hb, hbf, -, hidx, hsize⟩ := hi.block_of_live hp
  obtain ⟨hk₁, hk₂⟩ := hk
  rw [hsize, hidx] at hk₂
  rw [hidx] at hk₁
  exact ⟨hi.base_eq, hi.len_eq, hi.wf.store hb hbf hk₁ hk₂ x, hi.live⟩

end Step

theorem clients_inductive (base : ℕ) (bytes : UInt32) (memory : ℤ → ℤ)
    (hlen : 8 ≤ (bytes / 4).toNat) :
    (clients base bytes memory).Inductive fun s =>
      ∃ bs fl, s.Inv base ((bytes / 4).toNat : ℤ) bs fl where
  init := (sessions_inductive base bytes memory hlen).init
  step := by
    rintro s a t hi ⟨ha, hstep⟩
    cases a with
    | call c => exact (sessions_inductive base bytes memory hlen).step s c t hi ⟨ha, hstep⟩
    | write p k x =>
      obtain ⟨bs, fl, hi⟩ := hi
      cases hstep
      exact ⟨bs, fl, hi.write ha.1 ha.2 x⟩

end MMapKernel.Heap
