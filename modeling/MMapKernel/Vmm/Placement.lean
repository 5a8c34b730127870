import MMapKernel.Vmm.EntryList

/-!
# Regions under `mmap` and `munmap`

The placement loop compares the request with the gaps between consecutive entries only.
It never looks behind the last entry, and not at all when there is just one. `Room`
states when a request can be met by what the loop does look at; under it the entry list
stays sorted and its regions stay disjoint.
-/

open Transition
namespace MMapKernel.Vmm

def VMEntry.finish (e : VMEntry) : ℕ := e.startingAddress.toNat + e.size.toNat

def VMEntry.region (e : VMEntry) : Set ℕ := {a | e.startingAddress.toNat ≤ a ∧ a < e.finish}

def Ordered (es : List VMEntry) : Prop :=
  es.Pairwise fun a b => a.finish ≤ b.startingAddress.toNat

def Sorted (es : List VMEntry) : Prop :=
  es.Pairwise fun a b => a.startingAddress ≤ b.startingAddress

def RegionsDisjoint (es : List VMEntry) : Prop :=
  es.Pairwise fun a b => Disjoint a.region b.region

theorem Ordered.sorted {es : List VMEntry} (h : Ordered es) : Sorted es := by
  refine List.Pairwise.imp ?_ h
  intro a b hab
  rw [UInt32.le_iff_toNat_le]
  exact (Nat.le_add_right _ _).trans hab

theorem disjoint_of_finish_le {a b : VMEntry} (h : a.finish ≤ b.startingAddress.toNat) :
    Disjoint a.region b.region := by
  rw [Set.disjoint_left]
  rintro x ⟨-, hx⟩ ⟨hx', -⟩
  omega

theorem Ordered.disjoint {es : List VMEntry} (h : Ordered es) : RegionsDisjoint es :=
  List.Pairwise.imp (fun hab => disjoint_of_finish_le hab) h

/-- The last entry ends at or below the hint (or there is none), or a gap that ends above
the hint is larger than the request. In the gap that contains the hint the request must
also not run past the end of the address space when it is placed at the hint. -/
def Room (es : List VMEntry) (size hint : UInt32) : Prop :=
  (∀ e ∈ es.getLast?, e.finish ≤ hint.toNat) ∨
  ∃ p t, [p, t] <:+: es ∧ hint < t.startingAddress ∧
    p.finish + size.toNat < t.startingAddress.toNat ∧
    (p.finish ≤ hint.toNat → hint.toNat + size.toNat < 2 ^ 32)

theorem pair_infix_cons {p t a b : VMEntry} {l : List VMEntry} :
    [p, t] <:+: a :: b :: l ↔ (p = a ∧ t = b) ∨ [p, t] <:+: b :: l := by
  rw [List.infix_cons_iff, List.cons_prefix_cons, List.cons_prefix_cons]
  simp

theorem finish_le_of_pair {es : List VMEntry} (h : Ordered es) {a : VMEntry} (ha : ∃ l, es = a :: l)
    {p t : VMEntry} (hpt : [p, t] <:+: es) : a.finish ≤ p.finish := by
  obtain ⟨l, rfl⟩ := ha
  obtain ⟨x, y, hxy⟩ := hpt
  cases x with
  | nil =>
    simp only [List.nil_append, List.cons_append, List.cons.injEq] at hxy
    rw [hxy.1]
  | cons c x =>
    simp only [List.cons_append, List.cons.injEq] at hxy
    have hp : p ∈ l := by
      rw [← hxy.2]
      simp
    have := (List.pairwise_cons.mp h).1 p hp
    exact this.trans (Nat.le_add_right _ _)

theorem stop_toNat {p : VMEntry} {t : VMEntry} (h : p.finish ≤ t.startingAddress.toNat) :
    p.stop.toNat = p.finish := by
  have := t.startingAddress.toNat_lt
  unfold VMEntry.finish at h ⊢
  rw [VMEntry.stop, UInt32.toNat_add]
  omega

def Fits (size : UInt32) (r : UInt32 × List VMEntry × List VMEntry) : Prop :=
  (∀ e ∈ r.2.1, e.finish ≤ r.1.toNat) ∧
  ∀ e ∈ r.2.2, r.1.toNat + size.toNat ≤ e.startingAddress.toNat

section Gap
variable {size va : UInt32} {front rest : List VMEntry} {prev temp : VMEntry}

theorem fits_between {w : UInt32} (ho : Ordered (front ++ prev :: temp :: rest))
    (hw : prev.finish ≤ w.toNat) (hfit : w.toNat + size.toNat ≤ temp.startingAddress.toNat) :
    Fits size (w, front ++ [prev], temp :: rest) := by
  obtain ⟨-, hright, hcross⟩ := List.pairwise_append.mp ho
  obtain ⟨-, htail⟩ := List.pairwise_cons.mp hright
  refine ⟨fun e he => ?_, fun e he => ?_⟩
  · rcases List.mem_append.mp he with he | he
    · exact (hcross e he prev (by simp)).trans ((Nat.le_add_right _ _).trans hw)
    · rw [List.mem_singleton.mp he]
      exact hw
  · rcases List.mem_cons.mp he with rfl | he
    · exact hfit
    · have := (List.pairwise_cons.mp htail).1 e he
      unfold VMEntry.finish at this
      exact hfit.trans ((Nat.le_add_right _ _).trans this)

theorem fits_last (ho : Ordered (front ++ [prev])) (hlast : prev.finish ≤ va.toNat) :
    Fits size (va, front ++ [prev], []) := by
  obtain ⟨-, -, hcross⟩ := List.pairwise_append.mp ho
  refine ⟨fun e he => ?_, by simp⟩
  rcases List.mem_append.mp he with he | he
  · exact (hcross e he prev (by simp)).trans ((Nat.le_add_right _ _).trans hlast)
  · rw [List.mem_singleton.mp he]
    exact hlast

theorem Room.tail (h : Room (prev :: temp :: rest) size va)
    (hge : temp.startingAddress.toNat ≤ va.toNat) : Room (temp :: rest) size va := by
  rcases h with h | ⟨p, t, hpt, hlt, h⟩
  · exact Or.inl fun e he => h e (by simpa using he)
  · rcases pair_infix_cons.mp hpt with ⟨rfl, rfl⟩ | hpt
    · rw [UInt32.lt_iff_toNat_lt] at hlt
      omega
    · exact Or.inr ⟨p, t, hpt, hlt, h⟩

theorem Room.gap (h : Room (prev :: temp :: rest) size va) (htail : Ordered (temp :: rest))
    (hlt : va.toNat < temp.startingAddress.toNat) :
    ∃ p t, [p, t] <:+: prev :: temp :: rest ∧ va < t.startingAddress ∧
      p.finish + size.toNat < t.startingAddress.toNat ∧
      (p.finish ≤ va.toNat → va.toNat + size.toNat < 2 ^ 32) := by
  rcases h with h | h
  · exfalso
    obtain ⟨e, he⟩ : ∃ e, (prev :: temp :: rest).getLast? = some e :=
      ⟨_, List.getLast?_eq_some_getLast (by simp)⟩
    have hmem : e ∈ temp :: rest := by
      rw [List.getLast?_cons_cons] at he
      exact List.mem_of_getLast? he
    have hle := h e he
    rcases List.mem_cons.mp hmem with rfl | hmem
    · unfold VMEntry.finish at hle
      omega
    · have := (List.pairwise_cons.mp htail).1 e hmem
      unfold VMEntry.finish at hle this
      omega
  · exact h

theorem Room.bounds (h : Room (prev :: temp :: rest) size va)
    (ho : Ordered (prev :: temp :: rest)) (hlt : va.toNat < temp.startingAddress.toNat) :
    (prev.finish ≤ va.toNat → va.toNat + size.toNat < 2 ^ 32) ∧
    prev.finish + size.toNat < 2 ^ 32 := by
  obtain ⟨-, htail⟩ := List.pairwise_cons.mp ho
  obtain ⟨p, t, hpt, -, hfit, hwrap⟩ := h.gap htail hlt
  have htlt := t.startingAddress.toNat_lt
  have hpp := finish_le_of_pair ho ⟨_, rfl⟩ hpt
  refine ⟨fun hle => ?_, by omega⟩
  rcases pair_infix_cons.mp hpt with ⟨rfl, rfl⟩ | hlater
  · exact hwrap hle
  · have := finish_le_of_pair htail ⟨_, rfl⟩ hlater
    unfold VMEntry.finish at this hfit
    omega

theorem Room.next (h : Room (prev :: temp :: rest) size va) (ho : Ordered (prev :: temp :: rest))
    (hlt : va.toNat < temp.startingAddress.toNat) (hstop : prev.stop.toNat = prev.finish)
    (hsmall : temp.startingAddress.toNat ≤ prev.finish + size.toNat) :
    Room (temp :: rest) size prev.stop := by
  obtain ⟨-, htail⟩ := List.pairwise_cons.mp ho
  obtain ⟨p, t, hpt, -, hfit, -⟩ := h.gap htail hlt
  have htlt := t.startingAddress.toNat_lt
  have hpp := finish_le_of_pair ho ⟨_, rfl⟩ hpt
  rcases pair_infix_cons.mp hpt with ⟨rfl, rfl⟩ | hlater
  · omega
  · refine Or.inr ⟨p, t, hlater, ?_, hfit, fun _ => by omega⟩
    rw [UInt32.lt_iff_toNat_lt, hstop]
    omega

end Gap

theorem search_fits {size : UInt32} (front : List VMEntry) (prev : VMEntry) (rest : List VMEntry)
    (va : UInt32) (ho : Ordered (front ++ prev :: rest)) (hroom : Room (prev :: rest) size va) :
    Fits size (search size front prev rest va) := by
  induction rest generalizing front prev va with
  | nil =>
    apply fits_last ho
    rcases hroom with h | ⟨p, t, h, -⟩
    · exact h prev (by simp)
    · have := h.length_le
      simp at this
  | cons temp rest ih =>
    obtain ⟨-, hright, -⟩ := List.pairwise_append.mp ho
    have hstop := stop_toNat ((List.pairwise_cons.mp hright).1 temp (by simp))
    have ho' : Ordered (front ++ [prev] ++ temp :: rest) := by
      rw [List.append_assoc]
      exact ho
    unfold search
    by_cases hge : va ≥ temp.startingAddress
    · -- the hint lies further right
      simp only [hge, ↓reduceIte]
      exact ih (front ++ [prev]) temp va ho' (hroom.tail (UInt32.le_iff_toNat_le.mp hge))
    · simp only [hge, ↓reduceIte]
      rw [ge_iff_le, UInt32.le_iff_toNat_le, not_le] at hge
      obtain ⟨hhint, hnowrap⟩ := hroom.bounds hright hge
      have hsum : (prev.stop + size).toNat = prev.finish + size.toNat := by
        rw [UInt32.toNat_add, hstop]
        omega
      by_cases hhere : va ≥ prev.stop ∧ va + size < temp.startingAddress
      · -- placed at the hint
        simp only [hhere, Bool.and_self, decide_true, ↓reduceIte]
        rw [ge_iff_le, UInt32.le_iff_toNat_le, hstop, UInt32.lt_iff_toNat_lt,
          UInt32.toNat_add] at hhere
        have := hhint hhere.1
        exact fits_between ho hhere.1 (by omega)
      · have hb : (decide (va ≥ prev.stop) && decide (va + size < temp.startingAddress)) = false := by
          simpa [← Bool.decide_and] using hhere
        simp only [hb, Bool.false_eq_true, ↓reduceIte]
        by_cases hgap : prev.stop + size < temp.startingAddress
        · -- placed directly after `prev`
          simp only [hgap, ge_iff_le, UInt32.le_refl, decide_true, Bool.and_self, ↓reduceIte]
          rw [UInt32.lt_iff_toNat_lt, hsum] at hgap
          exact fits_between ho hstop.ge (by omega)
        · simp only [hgap, decide_false, Bool.and_false, Bool.false_eq_true, ↓reduceIte]
          rw [UInt32.lt_iff_toNat_lt, hsum, not_lt] at hgap
          exact ih (front ++ [prev]) temp prev.stop ho' (hroom.next hright hge hstop hgap)

theorem search_split {size : UInt32} (front : List VMEntry) (prev : VMEntry) (rest : List VMEntry)
    (va : UInt32) :
    (search size front prev rest va).2.1 ++ (search size front prev rest va).2.2 =
      front ++ prev :: rest := by
  induction rest generalizing front prev va with
  | nil => simp [search]
  | cons temp rest ih =>
    unfold search
    split
    · rw [ih, List.append_assoc]
      rfl
    · split
      · simp
      · dsimp only
        split
        · simp
        · rw [ih, List.append_assoc]
          rfl

theorem place_split (es : List VMEntry) (size va : UInt32) :
    (place es size va).2.1 ++ (place es size va).2.2 = es := by
  cases es with
  | nil => rfl
  | cons prev rest => exact search_split [] prev rest va

theorem search_cases (size : UInt32) (front : List VMEntry) (prev : VMEntry) (rest : List VMEntry)
    (va : UInt32) (ho : Ordered (prev :: rest)) :
    (search size front prev rest va).1 = va ∨
    prev.finish ≤ (search size front prev rest va).1.toNat := by
  induction rest generalizing front prev va with
  | nil => exact Or.inl rfl
  | cons temp rest ih =>
    obtain ⟨hprev, htail⟩ := List.pairwise_cons.mp ho
    have hpt : prev.finish ≤ temp.startingAddress.toNat := hprev temp (by simp)
    have hstop := stop_toNat hpt
    have hmono : prev.finish ≤ temp.finish := hpt.trans (Nat.le_add_right _ _)
    unfold search
    split
    · exact (ih (front ++ [prev]) temp va htail).imp_right hmono.trans
    · split
      · exact Or.inl rfl
      · dsimp only
        split
        · exact Or.inr hstop.ge
        · right
          rcases ih (front ++ [prev]) temp prev.stop htail with h | h
          · rw [h]
            exact hstop.ge
          · exact hmono.trans h

/-- The hint falls before `t` and after `p` (or `p` is the first entry), cannot be kept there,
and is not the address directly after `p`. -/
def NotKept (es : List VMEntry) (size addr : UInt32) : Prop :=
  ∃ p t, ((∃ l, es = p :: t :: l) ∨ ([p, t] <:+: es ∧ p.startingAddress ≤ addr)) ∧
    addr < t.startingAddress ∧ addr.toNat ≠ p.finish ∧
    ¬(p.finish ≤ addr.toNat ∧ addr + size < t.startingAddress)

theorem search_moves {size : UInt32} (front : List VMEntry) (prev : VMEntry) (rest : List VMEntry)
    (va : UInt32) (ho : Ordered (prev :: rest)) (hk : NotKept (prev :: rest) size va) :
    (search size front prev rest va).1 ≠ va := by
  induction rest generalizing front prev with
  | nil =>
    obtain ⟨p, t, ⟨l, hl⟩ | ⟨hpt, -⟩, -⟩ := hk
    · simp at hl
    · have := hpt.length_le
      simp at this
  | cons temp rest ih =>
    obtain ⟨p, t, hwhere, hlt, hne, hkeep⟩ := hk
    obtain ⟨hprev, htail⟩ := List.pairwise_cons.mp ho
    have hle : prev.finish ≤ temp.startingAddress.toNat := hprev temp (by simp)
    have hstop := stop_toNat hle
    have hcase : (p = prev ∧ t = temp) ∨ ([p, t] <:+: temp :: rest ∧ p.startingAddress ≤ va) := by
      rcases hwhere with ⟨l, hl⟩ | ⟨hpt, hin⟩
      · simp only [List.cons.injEq] at hl
        exact Or.inl ⟨hl.1.symm, hl.2.1.symm⟩
      · exact (pair_infix_cons.mp hpt).imp_right fun h => ⟨h, hin⟩
    unfold search
    rcases hcase with ⟨rfl, rfl⟩ | ⟨hlater, hin⟩
    · have hltn := UInt32.lt_iff_toNat_lt.mp hlt
      have hnot : ¬ va ≥ t.startingAddress := by
        rw [ge_iff_le, UInt32.le_iff_toNat_le]
        omega
      have hcheck : (decide (va ≥ p.stop) && decide (va + size < t.startingAddress)) = false := by
        rw [← Bool.decide_and, decide_eq_false_iff_not]
        intro h
        refine hkeep ⟨?_, h.2⟩
        have := UInt32.le_iff_toNat_le.mp h.1
        omega
      have hpne : p.stop ≠ va := fun he => hne (by rw [← he, hstop])
      simp only [hnot, hcheck, Bool.false_eq_true, ↓reduceIte]
      split
      · exact hpne
      · rcases search_cases size (front ++ [p]) t rest p.stop htail with h | h
        · rwa [h]
        · intro he
          rw [he] at h
          unfold VMEntry.finish at h
          omega
    · have hge : va ≥ temp.startingAddress := by
        rw [UInt32.le_iff_toNat_le] at hin
        rw [ge_iff_le, UInt32.le_iff_toNat_le]
        have hmem : p ∈ temp :: rest := hlater.subset (by simp)
        rcases List.mem_cons.mp hmem with rfl | hmem
        · exact hin
        · have := (List.pairwise_cons.mp htail).1 p hmem
          unfold VMEntry.finish at this
          omega
      simp only [hge, ↓reduceIte]
      exact ih _ _ htail ⟨p, t, Or.inr ⟨hlater, hin⟩, hlt, hne, hkeep⟩

inductive ListCall where
  | mmap (a : MmapArgs)
  | munmap (addr len : UInt32)
deriving DecidableEq

def afterCall (cfg : Config) (es : List VMEntry) : ListCall → List VMEntry
  | .mmap a =>
    match mmap cfg es a with
    | .mapped _ es' => es'
    | .null | .nullFile => es
  | .munmap addr _ => munmapEntries cfg es addr

def entryLists (cfg : Config) : System (List VMEntry) ListCall where
  init es := es = []
  step es c es' := es' = afterCall cfg es c

/-- The condition on a call: an `mmap` whose hint is special, that finds room, or that is
fixed at 0 or at an address the loop does not keep. -/
def Accommodated (cfg : Config) (es : List VMEntry) : ListCall → Prop
  | .mmap a => isSpecial cfg a.hint = true ∨ Room es a.size a.hint ∨
      (a.flags &&& 2 = 2 ∧ (a.addr = 0 ∨ NotKept es a.size a.addr))
  | .munmap _ _ => True

structure Tidy (es : List VMEntry) : Prop where
  ordered : Ordered es
  positive : ∀ e ∈ es, 0 < e.startingAddress.toNat

theorem hint_pos (a : MmapArgs) : 0 < a.hint.toNat := by
  unfold MmapArgs.hint
  split
  · decide
  · rename_i h
    exact Nat.pos_of_ne_zero fun h0 => h (UInt32.toNat_inj.mp h0)

theorem place_pos {es : List VMEntry} (ht : Tidy es) (size : UInt32) {va : UInt32}
    (hva : 0 < va.toNat) : 0 < (place es size va).1.toNat := by
  cases es with
  | nil => exact hva
  | cons prev rest =>
    have hp := ht.positive prev (by simp)
    change 0 < (search size [] prev rest va).1.toNat
    rcases search_cases size [] prev rest va ht.ordered with h | h
    · rwa [h]
    · exact lt_of_lt_of_le (Nat.lt_of_lt_of_le hp (Nat.le_add_right _ _)) h

theorem place_fits {es : List VMEntry} {size va : UInt32} (ho : Ordered es)
    (hroom : Room es size va) : Fits size (place es size va) := by
  cases es with
  | nil => simp [Fits, place]
  | cons prev rest => exact search_fits [] prev rest va ho hroom

theorem mmap_mapped {cfg : Config} {es es' : List VMEntry} {a : MmapArgs} {va : UInt32}
    (h : mmap cfg es a = .mapped va es') :
    isSpecial cfg a.hint = false ∧ va = (place es a.size a.hint).1 ∧
    ¬(va ≠ a.addr ∧ a.flags &&& 2 = 2) ∧
    ∃ file, es' = (place es a.size a.hint).2.1 ++ a.newEntry file va ::
      (place es a.size a.hint).2.2 := by
  unfold mmap at h
  split at h
  · cases h
  · rename_i hs
    dsimp only at h
    split at h
    · cases h
    · rename_i hfixed
      refine ⟨Bool.eq_false_iff.mpr hs, ?_⟩
      cases hfd : a.fd with
      | negative => simp only [hfd, MmapResult.mapped.injEq] at h; exact h.1 ▸ ⟨rfl, hfixed, none, h.2.symm⟩
      | unknown => simp only [hfd] at h; cases h
      | console => simp only [hfd, MmapResult.mapped.injEq] at h; exact h.1 ▸ ⟨rfl, hfixed, none, h.2.symm⟩
      | node number =>
        simp only [hfd, MmapResult.mapped.injEq] at h
        exact h.1 ▸ ⟨rfl, hfixed, some number, h.2.symm⟩

theorem mmap_accommodated {cfg : Config} {es es' : List VMEntry} {a : MmapArgs} {va : UInt32}
    (ht : Tidy es) (hc : Accommodated cfg es (.mmap a)) (h : mmap cfg es a = .mapped va es') :
    ∃ front back file, es = front ++ back ∧ es' = front ++ a.newEntry file va :: back ∧
      (∀ e ∈ front, e.finish ≤ va.toNat) ∧
      (∀ e ∈ back, va.toNat + a.size.toNat ≤ e.startingAddress.toNat) := by
  obtain ⟨hs, hva, hfixed, file, hes'⟩ := mmap_mapped h
  rcases hc with hc | hc | ⟨hflag, hc⟩
  · exact absurd hc (Bool.eq_false_iff.mp hs)
  · obtain ⟨hfront, hback⟩ := place_fits ht.ordered hc
    rw [← hva] at hfront hback
    exact ⟨_, _, file, (place_split es a.size a.hint).symm, hes', hfront, hback⟩
  · -- a fixed request that would be moved does not succeed
    refine absurd ⟨?_, hflag⟩ hfixed
    by_cases h0 : a.addr = 0
    · have := hva ▸ place_pos ht a.size (hint_pos a)
      rintro rfl
      rw [h0] at this
      exact absurd this (by decide)
    · have hk := hc.resolve_left h0
      have hhint : a.hint = a.addr := if_neg h0
      rw [hva, hhint]
      cases es with
      | nil =>
        obtain ⟨p, t, ⟨l, hl⟩ | ⟨hpt, -⟩, -⟩ := hk
        · simp at hl
        · have := hpt.length_le
          simp at this
      | cons prev rest => exact search_moves [] prev rest a.addr ht.ordered hk

theorem Ordered.insert {front back : List VMEntry} {e : VMEntry} (h : Ordered (front ++ back))
    (hfront : ∀ a ∈ front, a.finish ≤ e.startingAddress.toNat)
    (hback : ∀ b ∈ back, e.finish ≤ b.startingAddress.toNat) : Ordered (front ++ e :: back) := by
  obtain ⟨hf, hb, hcross⟩ := List.pairwise_append.mp h
  refine List.pairwise_append.mpr ⟨hf, List.pairwise_cons.mpr ⟨hback, hb⟩, fun a ha b hb => ?_⟩
  rcases List.mem_cons.mp hb with rfl | hb
  · exact hfront a ha
  · exact hcross a ha b hb

theorem takeEntry_spec {va : UInt32} {es rest : List VMEntry} {e : VMEntry}
    (h : takeEntry va es = some (e, rest)) :
    ∃ front back, es = front ++ e :: back ∧ rest = front ++ back ∧ e.holds va = true ∧
      ∀ a ∈ front, a.holds va = false := by
  induction es generalizing rest with
  | nil => cases h
  | cons c es ih =>
    unfold takeEntry at h
    split at h
    · rename_i hc
      cases h
      exact ⟨[], _, rfl, rfl, hc, by simp⟩
    · rename_i hc
      obtain ⟨⟨e', rest'⟩, hr, he⟩ := Option.map_eq_some_iff.mp h
      cases he
      obtain ⟨front, back, rfl, hrest, hh, hf⟩ := ih hr
      refine ⟨c :: front, back, rfl, by simp only [hrest, List.cons_append], hh, ?_⟩
      intro a ha
      rcases List.mem_cons.mp ha with rfl | ha
      · exact Bool.eq_false_iff.mpr hc
      · exact hf a ha

theorem munmapEntries_sublist (cfg : Config) (es : List VMEntry) (addr : UInt32) :
    (munmapEntries cfg es addr).Sublist es := by
  unfold munmapEntries
  split
  · exact List.Sublist.refl _
  · split
    · exact List.Sublist.refl _
    · rename_i h
      obtain ⟨front, back, rfl, rfl, -⟩ := takeEntry_spec h
      exact (List.sublist_cons_self _ _).append_left _

theorem mmap_va_pos {cfg : Config} {es es' : List VMEntry} {a : MmapArgs} {va : UInt32}
    (ht : Tidy es) (h : mmap cfg es a = .mapped va es') : 0 < va.toNat := by
  rw [(mmap_mapped h).2.1]
  exact place_pos ht a.size (hint_pos a)

theorem afterCall_tidy {cfg : Config} {es : List VMEntry} {c : ListCall} (ht : Tidy es)
    (hc : Accommodated cfg es c) : Tidy (afterCall cfg es c) := by
  cases c with
  | mmap a =>
    unfold afterCall
    dsimp only
    split
    · rename_i va es' h
      have hpos := mmap_va_pos ht h
      obtain ⟨front, back, file, rfl, rfl, hfront, hback⟩ := mmap_accommodated ht hc h
      refine ⟨ht.ordered.insert hfront hback, fun e he => ?_⟩
      rw [List.mem_append, List.mem_cons] at he
      rcases he with he | rfl | he
      · exact ht.positive e (List.mem_append_left _ he)
      · exact hpos
      · exact ht.positive e (List.mem_append_right _ he)
    · exact ht
    · exact ht
  | munmap addr len =>
    have hsub := munmapEntries_sublist cfg es addr
    exact ⟨ht.ordered.sublist hsub, fun e he => ht.positive e (hsub.subset he)⟩

theorem entryLists_tidy (cfg : Config) :
    ((entryLists cfg).restrict (Accommodated cfg)).Inductive Tidy where
  init := by
    rintro es rfl
    exact ⟨List.Pairwise.nil, by simp⟩
  step := by
    rintro es c _ ht ⟨hc, rfl⟩
    exact afterCall_tidy ht hc

/-- In every run of `mmap` and `munmap` calls that are all accommodated, the entry list is
sorted with disjoint regions, and the region a further accommodated `mmap` returns meets
none of them. -/
theorem accommodated_regions_disjoint (cfg : Config) {es : List VMEntry}
    (hs : Reachable ((entryLists cfg).restrict (Accommodated cfg)) es) :
    Sorted es ∧ RegionsDisjoint es ∧
    ∀ a va es', Accommodated cfg es (.mmap a) → mmap cfg es a = .mapped va es' →
      ∀ e ∈ es, Disjoint {x | va.toNat ≤ x ∧ x < va.toNat + a.size.toNat} e.region := by
  have ht := hs.invariant (entryLists_tidy cfg)
  refine ⟨ht.ordered.sorted, ht.ordered.disjoint, fun a va es' hc h e he => ?_⟩
  obtain ⟨front, back, file, rfl, -, hfront, hback⟩ := mmap_accommodated ht hc h
  rw [Set.disjoint_left]
  rintro x ⟨hx, hx'⟩ ⟨hxe, hxe'⟩
  rcases List.mem_append.mp he with he | he
  · have := hfront e he
    omega
  · have := hback e he
    omega

theorem reachable_afterCall {cfg : Config} {es : List VMEntry} {c : ListCall}
    (hs : Reachable ((entryLists cfg).restrict (Accommodated cfg)) es) (es' : List VMEntry)
    (hc : Accommodated cfg es c)
    (he : afterCall cfg es c = es') :
    Reachable ((entryLists cfg).restrict (Accommodated cfg)) es' :=
  hs.next ⟨hc, he.symm⟩

def qemu : Config where
  ioAPIC := 0xFEC00000
  localAPIC := 0xFEE00000
  io_aligned := by decide
  local_aligned := by decide
  io_user := by decide
  local_user := by decide

def anonymousPage : MmapArgs :=
  { addr := 0, length := 1, prot := 2, flags := 1, fd := .negative, offset := 0, word := .null }

def anonymousEntry : VMEntry := anonymousPage.newEntry none 0x80000000

theorem afterCall_first : afterCall qemu [] (.mmap anonymousPage) = [anonymousEntry] := by decide

theorem afterCall_second :
    afterCall qemu [anonymousEntry] (.mmap anonymousPage) = [anonymousEntry, anonymousEntry] := by
  decide

def entryAt (va : UInt32) : VMEntry := anonymousPage.newEntry none va

theorem accommodated_regions_disjoint_refilled :
    let es := [entryAt 0x80000000, entryAt 0x80001000, entryAt 0x80009000]
    Reachable ((entryLists qemu).restrict (Accommodated qemu)) es ∧ Sorted es ∧ RegionsDisjoint es ∧
      ∃ es', mmap qemu es { anonymousPage with addr := 0x80003000 } = .mapped 0x80003000 es' ∧
        ∀ e ∈ es, Disjoint {x | 0x80003000 ≤ x ∧ x < 0x80004000} e.region := by
  intro es
  have hs : Reachable ((entryLists qemu).restrict (Accommodated qemu)) es := by
    have h₁ := reachable_afterCall (.start rfl) (c := .mmap anonymousPage) [anonymousEntry]
      (Or.inr (Or.inl (Or.inl (by simp)))) afterCall_first
    have h₂ := reachable_afterCall h₁ (c := .mmap { anonymousPage with addr := 0x80005000 })
      [entryAt 0x80000000, entryAt 0x80005000] (Or.inr (Or.inl (Or.inl (by decide)))) (by decide)
    have h₃ := reachable_afterCall h₂ (c := .mmap { anonymousPage with addr := 0x80009000 })
      [entryAt 0x80000000, entryAt 0x80005000, entryAt 0x80009000]
      (Or.inr (Or.inl (Or.inl (by decide)))) (by decide)
    have h₄ := reachable_afterCall h₃ (c := .munmap 0x80005000 4096)
      [entryAt 0x80000000, entryAt 0x80009000] trivial (by decide)
    exact reachable_afterCall h₄ (c := .mmap anonymousPage) _ (Or.inr (Or.inl (Or.inr
      ⟨entryAt 0x80000000, entryAt 0x80009000, ⟨[], [], rfl⟩, by decide, by decide, by decide⟩)))
      (by decide)
  obtain ⟨hsorted, hdisjoint, hnext⟩ := accommodated_regions_disjoint qemu hs
  refine ⟨hs, hsorted, hdisjoint, _, rfl, ?_⟩
  exact hnext { anonymousPage with addr := 0x80003000 } 0x80003000 _
    (Or.inr (Or.inl (Or.inr ⟨entryAt 0x80001000, entryAt 0x80009000, ⟨[entryAt 0x80000000], [], rfl⟩,
      by decide, by decide, by decide⟩))) rfl

/-- Two anonymous one-page requests without a hint, from the empty list: both regions start
at `0x80000000`. -/
theorem second_mmap_overlaps_first :
    Reachable (entryLists qemu) [anonymousEntry, anonymousEntry] ∧
    ¬ RegionsDisjoint [anonymousEntry, anonymousEntry] := by
  refine ⟨.next (.next (.start rfl) (i := .mmap anonymousPage) afterCall_first.symm)
    (i := .mmap anonymousPage) afterCall_second.symm, fun h => ?_⟩
  have hd : Disjoint anonymousEntry.region anonymousEntry.region := by
    simpa [RegionsDisjoint] using h
  have hin : 0x80000000 ∈ anonymousEntry.region := ⟨by decide, by decide⟩
  exact Set.disjoint_left.mp hd hin hin

end MMapKernel.Vmm
