import Mathlib

/-!
# Singly linked lists

A list as a head pointer and a field `next` of its nodes, null being `none`. A node is linked in
at the place of a null pointer, which is the head or the `next` of the last node.
-/

namespace LinkedList

variable {α : Type*} {next : α → Option α} {head : Option α} {l l₁ l₂ : List α} {a b : α}

def Chain (next : α → Option α) : Option α → List α → Prop
  | start, [] => start = none
  | start, a :: l => start = some a ∧ Chain next (next a) l

inductive OnList (next : α → Option α) (head : Option α) : α → Prop
  | head {a : α} : head = some a → OnList next head a
  | next {a b : α} : OnList next head a → next a = some b → OnList next head b

def slot (next : α → Option α) (head : Option α) : Option α → Option α
  | none => head
  | some a => next a

theorem OnList.rec_on_next {P : α → Prop} (h : OnList next head a) (hhead : ∀ a, head = some a → P a)
    (hnext : ∀ a b, OnList next head a → P a → next a = some b → P b) : P a := by
  induction h with
  | head ha => exact hhead _ ha
  | next hon hab ih => exact hnext _ _ hon ih hab

namespace Chain

theorem head_eq (h : Chain next head l) : head = l.head? := by
  cases l with
  | nil => exact h
  | cons a l => exact h.1

theorem slot_eq (h : Chain next head (l₁ ++ l₂)) : slot next head l₁.getLast? = l₂.head? := by
  induction l₁ generalizing head with
  | nil => exact h.head_eq
  | cons a l₁ ih =>
    cases l₁ with
    | nil => exact h.2.head_eq
    | cons b l₁ =>
      rw [List.getLast?_cons_cons]
      have hrest := ih h.2
      rw [List.getLast?_cons] at hrest ⊢
      exact hrest

theorem mem_of_onList (h : Chain next head l) (ha : OnList next head a) : a ∈ l := by
  induction ha with
  | head hh =>
    rw [h.head_eq] at hh
    exact List.mem_of_head? hh
  | @next a b _ hab ih =>
    obtain ⟨l₁, l₂, rfl⟩ := List.append_of_mem ih
    rw [List.append_cons] at h
    have hs := h.slot_eq
    rw [List.getLast?_concat] at hs
    have hb : b ∈ l₂ := List.mem_of_head? (hs.symm.trans hab)
    simp [hb]

theorem onList_of_start {start : Option α} (h : Chain next start l)
    (hs : ∀ a, start = some a → OnList next head a) : ∀ a ∈ l, OnList next head a := by
  induction l generalizing start with
  | nil => simp
  | cons b l ih =>
    have hb : OnList next head b := hs b h.1
    intro a ha
    rcases List.mem_cons.mp ha with rfl | ha
    · exact hb
    · exact ih h.2 (fun c hc => hb.next hc) a ha

theorem onList_iff (h : Chain next head l) : OnList next head a ↔ a ∈ l :=
  ⟨h.mem_of_onList, h.onList_of_start (fun _ => .head) a⟩

theorem congr {next' : α → Option α} (h : Chain next head l) (hn : ∀ a ∈ l, next' a = next a) :
    Chain next' head l := by
  induction l generalizing head with
  | nil => exact h
  | cons a l ih =>
    refine ⟨h.1, ?_⟩
    rw [hn a List.mem_cons_self]
    exact ih h.2 fun b hb => hn b (List.mem_cons_of_mem a hb)

theorem snoc [DecidableEq α] {m : α} (h : Chain next head l) (hn : l.Nodup) (hb : b ∉ l)
    (hbn : next b = none) (hm : l.getLast? = some m) :
    Chain (Function.update next m (some b)) head (l ++ [b]) := by
  induction l generalizing head with
  | nil => cases hm
  | cons a l ih =>
    obtain ⟨ha, hn'⟩ := List.nodup_cons.mp hn
    rw [List.mem_cons, not_or] at hb
    refine ⟨h.1, ?_⟩
    cases l with
    | nil =>
      have hma : a = m := by simpa using hm
      subst hma
      rw [Function.update_self]
      refine ⟨rfl, ?_⟩
      rw [Function.update_of_ne hb.1]
      exact hbn
    | cons c l =>
      rw [List.getLast?_cons_cons] at hm
      have hne : a ≠ m := by
        rintro rfl
        exact ha (List.mem_of_getLast? hm)
      rw [Function.update_of_ne hne]
      exact ih h.2 hn' hb.2 hm

end Chain

end LinkedList
