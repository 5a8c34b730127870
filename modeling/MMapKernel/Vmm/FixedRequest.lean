import MMapKernel.Vmm.Placement

/-!
# Requests with `MAP_FIXED`

The loop that moves a hint to a gap also decides whether a fixed request is granted: it is
refused when the loop would move it. `Stays` is the answer of the loop in terms of the
entries on either side of the hint, and `FixedDecided` says when that answer is the one
the regions give.
-/

namespace MMapKernel.Vmm

def below (es : List VMEntry) (va : UInt32) : List VMEntry :=
  es.filter fun e => e.startingAddress ≤ va

def above (es : List VMEntry) (va : UInt32) : List VMEntry :=
  es.filter fun e => va < e.startingAddress

def requested (size va : UInt32) : Set ℕ := {x | va.toNat ≤ x ∧ x < va.toNat + size.toNat}

def Unoccupied (es : List VMEntry) (size va : UInt32) : Prop :=
  ∀ e ∈ es, Disjoint (requested size va) e.region

/-- The gap from `p` to `t` has room for the request, with space left before `t`. -/
def InGap (p t : VMEntry) (size va : UInt32) : Prop :=
  p.finish ≤ va.toNat ∧ va.toNat + size.toNat < t.startingAddress.toNat

/-- The loop leaves the address as it is: behind the last entry, with at most one entry, or
inside a gap. An address at the end of the last entry but one is moved onto itself. -/
def Stays (es : List VMEntry) (size va : UInt32) : Prop :=
  match above es va with
  | [] => True
  | t :: later =>
    match (below es va).getLast? with
    | none => later = []
    | some p => InGap p t size va ∨ (later = [] ∧ p.finish = va.toNat)

def FixedDecided (es : List VMEntry) (size va : UInt32) : Prop :=
  match above es va with
  | [] => ∀ p ∈ (below es va).getLast?, Disjoint (requested size va) p.region
  | t :: later =>
    match (below es va).getLast? with
    | none =>
      (later = [] → Disjoint (requested size va) t.region) ∧ (later ≠ [] → ¬Unoccupied es size va)
    | some p =>
      (Unoccupied es size va → InGap p t size va ∨ (later = [] ∧ p.finish = va.toNat)) ∧
      (later = [] → p.finish = va.toNat → Disjoint (requested size va) t.region)

section Around
variable {es rest : List VMEntry} {e p t : VMEntry} {size va : UInt32}

theorem Ordered.start_le (h : Ordered (t :: rest)) (he : e ∈ t :: rest) :
    t.startingAddress ≤ e.startingAddress := by
  rcases List.mem_cons.mp he with rfl | he
  · exact UInt32.le_refl _
  · exact (List.pairwise_cons.mp h.sorted).1 e he

theorem above_of_lt (h : Ordered (t :: rest)) (hlt : va < t.startingAddress) :
    below (t :: rest) va = [] ∧ above (t :: rest) va = t :: rest := by
  have hall : ∀ e ∈ t :: rest, va < e.startingAddress := fun e he =>
    UInt32.lt_of_lt_of_le hlt (h.start_le he)
  constructor
  · refine List.filter_eq_nil_iff.mpr fun e he => ?_
    simpa using hall e he
  · exact List.filter_eq_self.mpr fun e he => by simpa using hall e he

theorem mem_below_or_above (he : e ∈ es) (va : UInt32) : e ∈ below es va ∨ e ∈ above es va := by
  by_cases h : e.startingAddress ≤ va
  · exact Or.inl (List.mem_filter.mpr ⟨he, by simpa using h⟩)
  · exact Or.inr (List.mem_filter.mpr ⟨he, by simpa using h⟩)

theorem start_le_of_below (h : (below es va).getLast? = some p) :
    p ∈ es ∧ p.startingAddress.toNat ≤ va.toNat := by
  obtain ⟨hp, hle⟩ := List.mem_filter.mp (List.mem_of_getLast? h)
  exact ⟨hp, UInt32.le_iff_toNat_le.mp (by simpa using hle)⟩

theorem Ordered.finish_below (ho : Ordered es) (h : (below es va).getLast? = some p)
    (he : e ∈ below es va) : e = p ∨ e.finish ≤ va.toNat := by
  obtain ⟨init, hinit⟩ := List.getLast?_eq_some_iff.mp h
  have hob : Ordered (below es va) := ho.sublist List.filter_sublist
  rw [hinit] at hob he
  rcases List.mem_append.mp he with he | he
  · have := (List.pairwise_append.mp hob).2.2 e he p (by simp)
    exact Or.inr (this.trans (start_le_of_below h).2)
  · exact Or.inl (List.mem_singleton.mp he)

theorem disjoint_of_before (h : e.finish ≤ va.toNat) : Disjoint (requested size va) e.region := by
  rw [Set.disjoint_left]
  rintro x ⟨hx, -⟩ ⟨-, hx'⟩
  omega

theorem disjoint_of_behind (h : va.toNat + size.toNat ≤ e.startingAddress.toNat) :
    Disjoint (requested size va) e.region := by
  rw [Set.disjoint_left]
  rintro x ⟨-, hx⟩ ⟨hx', -⟩
  omega

end Around

theorem stays_tail {prev temp : VMEntry} {rest : List VMEntry} {size va : UInt32}
    (hp : prev.startingAddress ≤ va) (ht : temp.startingAddress ≤ va) :
    Stays (prev :: temp :: rest) size va ↔ Stays (temp :: rest) size va := by
  have hbelow : below (prev :: temp :: rest) va = prev :: below (temp :: rest) va :=
    List.filter_cons_of_pos (by simpa using hp)
  have hbelow' : below (temp :: rest) va = temp :: below rest va :=
    List.filter_cons_of_pos (by simpa using ht)
  have habove : above (prev :: temp :: rest) va = above (temp :: rest) va :=
    List.filter_cons_of_neg (by simpa using hp)
  unfold Stays
  rw [hbelow, habove, hbelow', List.getLast?_cons_cons]

theorem search_around {size va : UInt32} {prev temp : VMEntry} {rest : List VMEntry}
    (front : List VMEntry) (ho : Ordered (prev :: temp :: rest))
    (hsum : va.toNat + size.toNat < 2 ^ 32) (hlt : va < temp.startingAddress) :
    (search size front prev (temp :: rest) va).1 = va ↔
      InGap prev temp size va ∨ (rest = [] ∧ prev.finish = va.toNat) := by
  have hltn := UInt32.lt_iff_toNat_lt.mp hlt
  have hstop := stop_toNat ((List.pairwise_cons.mp ho).1 temp (by simp))
  by_cases hgap : InGap prev temp size va
  · have hcheck : (decide (va ≥ prev.stop) && decide (va + size < temp.startingAddress)) = true := by
      rw [Bool.and_eq_true, decide_eq_true_eq, decide_eq_true_eq, ge_iff_le,
        UInt32.le_iff_toNat_le, UInt32.lt_iff_toNat_lt, UInt32.toNat_add, hstop]
      refine ⟨hgap.1, ?_⟩
      rw [Nat.mod_eq_of_lt hsum]
      exact hgap.2
    unfold search
    simp only [show ¬ va ≥ temp.startingAddress from UInt32.not_le.mpr hlt, hcheck, hgap, ↓reduceIte,
      true_or]
  · by_cases hend : prev.finish = va.toNat
    · -- the address is moved onto itself, and stays only at the end of the list
      have hva : prev.stop = va := UInt32.toNat_inj.mp (hstop.trans hend)
      have hcheck : (decide (va ≥ va) && decide (va + size < temp.startingAddress)) = false := by
        rw [← Bool.decide_and, decide_eq_false_iff_not]
        rintro ⟨-, h⟩
        rw [UInt32.lt_iff_toNat_lt, UInt32.toNat_add, Nat.mod_eq_of_lt hsum] at h
        exact hgap ⟨hend.le, h⟩
      have hsearch : search size front prev (temp :: rest) va =
          search size (front ++ [prev]) temp rest va := by
        rw [search]
        simp only [show ¬ va ≥ temp.startingAddress from UInt32.not_le.mpr hlt, hva, hcheck,
          Bool.false_eq_true, ↓reduceIte]
      rw [hsearch]
      cases rest with
      | nil => simp [search, hend]
      | cons next rest =>
        have htail := (List.pairwise_cons.mp ho).2
        have hnext : temp.finish ≤ next.startingAddress.toNat :=
          (List.pairwise_cons.mp htail).1 next (by simp)
        have hfin : temp.startingAddress.toNat ≤ temp.finish := Nat.le_add_right _ _
        have hmoves : (search size (front ++ [prev]) temp (next :: rest) va).1 ≠ va :=
          search_moves _ _ _ _ htail
            ⟨temp, next, Or.inl ⟨rest, rfl⟩, by rw [UInt32.lt_iff_toNat_lt]; omega, by omega,
              fun h => by omega⟩
        simp [hmoves, hgap]
    · have hmoves : (search size front prev (temp :: rest) va).1 ≠ va := search_moves _ _ _ _ ho
        ⟨prev, temp, Or.inl ⟨rest, rfl⟩, hlt, fun h => hend h.symm, fun h => hgap ⟨h.1, by
          have := h.2
          rwa [UInt32.lt_iff_toNat_lt, UInt32.toNat_add, Nat.mod_eq_of_lt hsum] at this⟩⟩
      simp [hmoves, hgap, hend]

theorem search_keeps_iff {size va : UInt32} (front : List VMEntry) (prev : VMEntry)
    (rest : List VMEntry) (ho : Ordered (prev :: rest)) (hsum : va.toNat + size.toNat < 2 ^ 32)
    (hp : prev.startingAddress ≤ va) :
    (search size front prev rest va).1 = va ↔ Stays (prev :: rest) size va := by
  induction rest generalizing front prev with
  | nil =>
    have habove : above [prev] va = [] := List.filter_cons_of_neg (by simpa using hp)
    simp [search, Stays, habove]
  | cons temp rest ih =>
    by_cases ht : temp.startingAddress ≤ va
    · rw [stays_tail hp ht, ← ih (front ++ [prev]) temp (List.pairwise_cons.mp ho).2 ht, search]
      simp only [ge_iff_le, ht, ↓reduceIte]
    · have hlt : va < temp.startingAddress := UInt32.not_le.mp ht
      obtain ⟨hb, ha⟩ := above_of_lt (List.pairwise_cons.mp ho).2 hlt
      have hbelow : below (prev :: temp :: rest) va = prev :: below (temp :: rest) va :=
        List.filter_cons_of_pos (by simpa using hp)
      have habove : above (prev :: temp :: rest) va = above (temp :: rest) va :=
        List.filter_cons_of_neg (by simpa using hp)
      rw [search_around front ho hsum hlt]
      unfold Stays
      rw [hbelow, habove, hb, ha]
      rfl

theorem place_keeps_iff {es : List VMEntry} {size va : UInt32} (ho : Ordered es)
    (hsum : va.toNat + size.toNat < 2 ^ 32) : (place es size va).1 = va ↔ Stays es size va := by
  cases es with
  | nil => simp [place, Stays, above]
  | cons prev rest =>
    change (search size [] prev rest va).1 = va ↔ _
    by_cases hp : prev.startingAddress ≤ va
    · exact search_keeps_iff [] prev rest ho hsum hp
    · have hlt : va < prev.startingAddress := UInt32.not_le.mp hp
      have hltn := UInt32.lt_iff_toNat_lt.mp hlt
      obtain ⟨hb, ha⟩ := above_of_lt ho hlt
      unfold Stays
      rw [hb, ha]
      cases rest with
      | nil => simp [search]
      | cons temp rest =>
        have hfin : prev.startingAddress.toNat ≤ prev.finish := Nat.le_add_right _ _
        have hnext : prev.finish ≤ temp.startingAddress.toNat :=
          (List.pairwise_cons.mp ho).1 temp (by simp)
        have htemp : va < temp.startingAddress := by
          rw [UInt32.lt_iff_toNat_lt]
          omega
        rw [search_around [] ho hsum htemp]
        refine iff_of_false ?_ (by simp)
        rintro (h | ⟨-, h⟩)
        · exact absurd h.1 (by omega)
        · omega

theorem stays_iff_unoccupied {es : List VMEntry} {size va : UInt32} (ho : Ordered es) :
    (Stays es size va ↔ Unoccupied es size va) ↔ FixedDecided es size va := by
  have hbefore : ∀ p, (below es va).getLast? = some p → ∀ e ∈ below es va,
      e = p ∨ Disjoint (requested size va) e.region := fun p hp e he =>
    (ho.finish_below hp he).imp_right disjoint_of_before
  have hes : ∀ e ∈ above es va, e ∈ es := fun e he => List.mem_of_mem_filter he
  have hoa : Ordered (above es va) := ho.sublist List.filter_sublist
  unfold Stays FixedDecided
  cases ha : above es va with
  | nil =>
    have hbelow : ∀ e ∈ es, e ∈ below es va := fun e he =>
      (mem_below_or_above he va).resolve_right (by simp [ha])
    constructor
    · intro h p hp
      exact h.mp trivial p (start_le_of_below hp).1
    · refine fun h => iff_of_true trivial fun e he => ?_
      cases hl : (below es va).getLast? with
      | none =>
        have := hbelow e he
        rw [List.getLast?_eq_none_iff.mp hl] at this
        exact absurd this (by simp)
      | some p =>
        rcases hbefore p hl e (hbelow e he) with rfl | hd
        · exact h e hl
        · exact hd
  | cons t later =>
    have htes := hes t (by rw [ha]; simp)
    have hot : Ordered (t :: later) := ha ▸ hoa
    cases hl : (below es va).getLast? with
    | none =>
      have habove : ∀ e ∈ es, e ∈ t :: later := fun e he =>
        ha ▸ (mem_below_or_above he va).resolve_left (by simp [List.getLast?_eq_none_iff.mp hl])
      constructor
      · intro h
        exact ⟨fun hlast => h.mp hlast t htes, fun hlast hu => hlast (h.mpr hu)⟩
      · rintro ⟨hone, hmore⟩
        refine ⟨fun hlast e he => ?_, fun hu => by_contra fun hlast => hmore hlast hu⟩
        have := habove e he
        rw [hlast, List.mem_singleton] at this
        exact this ▸ hone hlast
    | some p =>
      -- every entry but the first one above is met only if that one is
      have hfree : p.finish ≤ va.toNat → (∀ e ∈ t :: later, Disjoint (requested size va) e.region) →
          Unoccupied es size va := by
        intro hp hd e he
        rcases mem_below_or_above he va with hb | hab
        · rcases hbefore p hl e hb with rfl | hdis
          · exact disjoint_of_before hp
          · exact hdis
        · exact hd e (ha ▸ hab)
      constructor
      · intro h
        exact ⟨h.mpr, fun hlast hend => h.mp (Or.inr ⟨hlast, hend⟩) t htes⟩
      · rintro ⟨hback, htail⟩
        refine ⟨fun h => ?_, hback⟩
        rcases h with hgap | ⟨hlast, hend⟩
        · refine hfree hgap.1 fun e he => disjoint_of_behind ?_
          have := UInt32.le_iff_toNat_le.mp (hot.start_le he)
          have := hgap.2
          omega
        · refine hfree hend.le fun e he => ?_
          rw [hlast, List.mem_singleton] at he
          exact he ▸ htail hlast hend

/-- A fixed request is granted at its address with one more entry when the range is
unoccupied, and is refused otherwise. -/
def FixedExact (cfg : Config) (es : List VMEntry) (a : MmapArgs) : Prop :=
  (Unoccupied es a.size a.addr → ∃ front back file, es = front ++ back ∧
    mmap cfg es a = .mapped a.addr (front ++ a.newEntry file a.addr :: back)) ∧
  (¬Unoccupied es a.size a.addr → mmap cfg es a = .null)

theorem fixed_hint {cfg : Config} {a : MmapArgs} (h : isSpecial cfg a.addr = false) :
    a.hint = a.addr := by
  refine if_neg fun h0 => ?_
  rw [h0] at h
  simp [isSpecial] at h

theorem fixed_mmap_cases {cfg : Config} {es : List VMEntry} {a : MmapArgs} (ho : Ordered es)
    (hs : isSpecial cfg a.addr = false) (hf : a.flags &&& 2 = 2)
    (hsum : a.addr.toNat + a.size.toNat < 2 ^ 32) :
    (¬Stays es a.size a.addr → mmap cfg es a = .null) ∧
    (Stays es a.size a.addr → a.fd = .unknown → mmap cfg es a = .nullFile) ∧
    (Stays es a.size a.addr → a.fd ≠ .unknown → ∃ front back file, es = front ++ back ∧
      mmap cfg es a = .mapped a.addr (front ++ a.newEntry file a.addr :: back)) := by
  have hkeep := place_keeps_iff ho hsum
  have hsplit := place_split es a.size a.addr
  unfold mmap
  rw [fixed_hint hs, if_neg (by simp [hs])]
  generalize place es a.size a.addr = r at hkeep hsplit ⊢
  obtain ⟨va, front, back⟩ := r
  dsimp only at hkeep hsplit ⊢
  refine ⟨fun h => if_pos ⟨fun he => h (hkeep.mp he), hf⟩, fun h hfd => ?_, fun h hfd => ?_⟩
  · rw [if_neg fun hne => hne.1 (hkeep.mpr h), hfd]
  · obtain rfl := hkeep.mpr h
    rw [if_neg fun hne => hne.1 rfl]
    cases hfd' : a.fd with
    | unknown => exact absurd hfd' hfd
    | negative => exact ⟨_, _, none, hsplit.symm, rfl⟩
    | console => exact ⟨_, _, none, hsplit.symm, rfl⟩
    | node number => exact ⟨_, _, some number, hsplit.symm, rfl⟩

/-- On a list in order, a fixed request is treated exactly as the regions demand if and only
if the loop decides the range rightly and an unoccupied range does not come with a
descriptor that `getFile` does not know. -/
theorem fixed_mmap_exact_iff (cfg : Config) {es : List VMEntry} {a : MmapArgs} (ho : Ordered es)
    (hs : isSpecial cfg a.addr = false) (hf : a.flags &&& 2 = 2)
    (hsum : a.addr.toNat + a.size.toNat < 2 ^ 32) :
    FixedExact cfg es a ↔ FixedDecided es a.size a.addr ∧
      (a.fd = .unknown → ¬Unoccupied es a.size a.addr) := by
  obtain ⟨hrefused, hcrash, hgranted⟩ := fixed_mmap_cases ho hs hf hsum
  rw [← stays_iff_unoccupied ho]
  unfold FixedExact
  by_cases hstay : Stays es a.size a.addr
  · by_cases hfd : a.fd = .unknown
    · have hm := hcrash hstay hfd
      simp only [hm, reduceCtorEq, and_false, exists_false, hstay, hfd, true_iff, forall_const]
      tauto
    · obtain ⟨front, back, file, hes, hm⟩ := hgranted hstay hfd
      constructor
      · rintro ⟨-, hnull⟩
        have hu : Unoccupied es a.size a.addr := by
          by_contra hu
          have := hnull hu
          rw [hm] at this
          exact absurd this (by simp)
        exact ⟨iff_of_true hstay hu, fun h => absurd h hfd⟩
      · rintro ⟨hiff, -⟩
        exact ⟨fun _ => ⟨front, back, file, hes, hm⟩, fun hu => absurd (hiff.mp hstay) hu⟩
  · have hm := hrefused hstay
    simp only [hm, reduceCtorEq, and_false, exists_false, hstay, false_iff, implies_true, and_true]
    tauto

def fixedPage : MmapArgs :=
  { addr := 0x90000000, length := 1, prot := 2, flags := 2, fd := .negative, offset := 0, word := .null }

def pageAt (va : UInt32) : VMEntry := fixedPage.newEntry none va

theorem fixed_mmap_exact_iff_gaps :
    Ordered [pageAt 0x80000000, pageAt 0x8FFFE000, pageAt 0x90005000] ∧
      FixedExact qemu [pageAt 0x80000000, pageAt 0x8FFFE000, pageAt 0x90005000] fixedPage := by
  have ho : Ordered [pageAt 0x80000000, pageAt 0x8FFFE000, pageAt 0x90005000] := by
    unfold Ordered
    decide
  refine ⟨ho, (fixed_mmap_exact_iff qemu ho (by decide) (by decide) (by decide)).mpr
    ⟨?_, fun hfd => absurd hfd (by decide)⟩⟩
  have habove : above [pageAt 0x80000000, pageAt 0x8FFFE000, pageAt 0x90005000] fixedPage.addr =
      [pageAt 0x90005000] := by decide
  have hbelow : (below [pageAt 0x80000000, pageAt 0x8FFFE000, pageAt 0x90005000]
      fixedPage.addr).getLast? = some (pageAt 0x8FFFE000) := by decide
  unfold FixedDecided
  rw [habove, hbelow]
  refine ⟨fun _ => Or.inl ⟨by decide, by decide⟩, fun _ hend => absurd hend (by decide)⟩

/-- With one region at `0x90000000`, a fixed request for the same page is granted. With regions
at `0x8FFFF000`, `0x90001000` and `0x90003000`, one for the free page between the first two is
refused. -/
theorem fixed_mmap_inexact :
    (Ordered [pageAt 0x90000000] ∧
      mmap qemu [pageAt 0x90000000] fixedPage =
        .mapped 0x90000000 [pageAt 0x90000000, pageAt 0x90000000] ∧
      ¬Unoccupied [pageAt 0x90000000] fixedPage.size fixedPage.addr) ∧
    (Ordered [pageAt 0x8FFFF000, pageAt 0x90001000, pageAt 0x90003000] ∧
      mmap qemu [pageAt 0x8FFFF000, pageAt 0x90001000, pageAt 0x90003000] fixedPage = .null ∧
      Unoccupied [pageAt 0x8FFFF000, pageAt 0x90001000, pageAt 0x90003000]
        fixedPage.size fixedPage.addr) := by
  refine ⟨⟨by simp [Ordered], by decide, fun h => ?_⟩, ⟨?_, by decide, fun e he => ?_⟩⟩
  · have hd := h (pageAt 0x90000000) (by simp)
    have hin : 0x90000000 ∈ requested fixedPage.size fixedPage.addr := ⟨by decide, by decide⟩
    exact Set.disjoint_left.mp hd hin ⟨by decide, by decide⟩
  · unfold Ordered
    decide
  · simp only [List.mem_cons, List.not_mem_nil, or_false] at he
    rcases he with rfl | rfl | rfl
    · exact disjoint_of_before (by decide)
    · exact disjoint_of_behind (by decide)
    · exact disjoint_of_behind (by decide)

end MMapKernel.Vmm
