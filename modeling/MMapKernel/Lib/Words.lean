import Mathlib

/-!
# Words in a byte memory

Little-endian words at 32-bit addresses, whether aligned or not; a range may wrap around. A record of words is
stored field by field. Each operation comes with what it leaves, in its range and around it.
-/

namespace Words

section
variable {d e f : UInt32}

theorem sub_add_of_le (h : d + f = e) (a : UInt32) : a - d + e = a + f := by
  rw [← h, ← UInt32.add_assoc, UInt32.sub_add_cancel]

theorem sub_add_of_ge (h : f + e = d) (a : UInt32) : a - d + e = a - f := by
  rw [eq_comm, UInt32.sub_eq_iff_eq_add, UInt32.add_assoc, UInt32.add_comm e, h, UInt32.sub_add_cancel]

theorem sub_sub_of_eq (h : d + e = f) (a : UInt32) : a - d - e = a - f := by
  rw [UInt32.sub_eq_iff_eq_add, UInt32.sub_eq_iff_eq_add, UInt32.add_assoc, UInt32.add_comm e, h,
    UInt32.sub_add_cancel]

end

section
variable (byte : UInt32 → UInt8) (a : UInt32) (w : UInt32)

def load : UInt32 :=
  UInt32.ofNat ((byte a).toNat + (byte (a + 1)).toNat * 2 ^ 8 + (byte (a + 2)).toNat * 2 ^ 16 +
    (byte (a + 3)).toNat * 2 ^ 24)

def part (k : ℕ) : UInt8 := UInt8.ofNat (w.toNat / 2 ^ (8 * k))

def store : UInt32 → UInt8 :=
  Function.update (Function.update (Function.update (Function.update byte a (part w 0)) (a + 1) (part w 1))
    (a + 2) (part w 2)) (a + 3) (part w 3)

end

def Within (a : UInt32) (n : ℕ) (x : UInt32) : Prop := (x - a).toNat < n

def Apart (a : UInt32) (n : ℕ) (b : UInt32) (k : ℕ) : Prop := ∀ x, Within a n x → ¬ Within b k x

section
variable {byte byte' : UInt32 → UInt8} {a b d e w x : UInt32} {n n' k : ℕ}

theorem within_succ : Within a (n + 1) x ↔ x = a ∨ Within (a + 1) n x := by
  unfold Within
  have hsub : x - a = x - (a + 1) + 1 := by
    rw [UInt32.sub_eq_iff_eq_add, UInt32.add_assoc, UInt32.add_comm 1, UInt32.sub_add_cancel]
  have hnat : (x - a).toNat = ((x - (a + 1)).toNat + 1) % 2 ^ 32 := by
    rw [hsub]
    exact UInt32.toNat_add _ 1
  have hlt := (x - (a + 1)).toNat_lt
  constructor
  · intro h
    by_cases hx : (x - a).toNat = 0
    · left
      have hzero : x - a = 0 := UInt32.toNat_inj.mp hx
      rw [UInt32.sub_eq_iff_eq_add.mp hzero, UInt32.zero_add]
    · right
      omega
  · rintro (rfl | h)
    · rw [UInt32.sub_self]
      exact Nat.succ_pos n
    · omega

theorem within_succ_high (hn : n < 2 ^ 32) : Within a (n + 1) x ↔ x = a + UInt32.ofNat n ∨ Within a n x := by
  unfold Within
  rw [Nat.lt_succ_iff_lt_or_eq, or_comm]
  apply or_congr_left
  rw [UInt32.add_comm, ← UInt32.sub_eq_iff_eq_add, ← UInt32.toNat_inj, UInt32.toNat_ofNat', Nat.mod_eq_of_lt hn]

theorem store_of_not_within (h : ¬ Within a 4 x) : store byte a w x = byte x := by
  have hne : ∀ d : UInt32, d.toNat < 4 → x ≠ a + d := by
    rintro d hd rfl
    apply h
    rw [Within, UInt32.add_comm, UInt32.add_sub_cancel]
    exact hd
  have h0 : x ≠ a := by
    have := hne 0 (by decide)
    rwa [UInt32.add_zero] at this
  rw [store, Function.update_of_ne (hne 3 (by decide)), Function.update_of_ne (hne 2 (by decide)),
    Function.update_of_ne (hne 1 (by decide)), Function.update_of_ne h0]

theorem load_congr (h : ∀ x, Within a 4 x → byte' x = byte x) : load byte' a = load byte a := by
  have hin : ∀ d : UInt32, d.toNat < 4 → Within a 4 (a + d) := by
    intro d hd
    rw [Within, UInt32.add_comm, UInt32.add_sub_cancel]
    exact hd
  have h0 : Within a 4 a := by
    have := hin 0 (by decide)
    rwa [UInt32.add_zero] at this
  rw [load, load, h a h0, h _ (hin 1 (by decide)), h _ (hin 2 (by decide)), h _ (hin 3 (by decide))]

theorem load_store_self : load (store byte a w) a = w := by
  have hne : ∀ d e : UInt32, d ≠ e → a + d ≠ a + e := fun d e hde he => hde ((UInt32.add_right_inj a).mp he)
  have hne0 : ∀ d : UInt32, d ≠ 0 → a ≠ a + d := by
    intro d hd he
    apply hne 0 d hd.symm
    rw [UInt32.add_zero]
    exact he
  have h3 : store byte a w (a + 3) = part w 3 := Function.update_self ..
  have h2 : store byte a w (a + 2) = part w 2 := by
    rw [store, Function.update_of_ne (hne 2 3 (by decide)), Function.update_self]
  have h1 : store byte a w (a + 1) = part w 1 := by
    rw [store, Function.update_of_ne (hne 1 3 (by decide)), Function.update_of_ne (hne 1 2 (by decide)),
      Function.update_self]
  have h0 : store byte a w a = part w 0 := by
    rw [store, Function.update_of_ne (hne0 3 (by decide)), Function.update_of_ne (hne0 2 (by decide)),
      Function.update_of_ne (hne0 1 (by decide)), Function.update_self]
  apply UInt32.toNat_inj.mp
  have hw := w.toNat_lt
  simp only [load, h0, h1, h2, h3, part, UInt8.toNat_ofNat', UInt32.toNat_ofNat']
  omega

theorem within_offset (hd : 4 ≤ d.toNat) (hn : d.toNat + n ≤ 2 ^ 32) (hx : Within (a + d) n x) :
    ¬ Within a 4 x := by
  unfold Within at *
  rw [UInt32.toNat_sub, UInt32.toNat_add] at *
  have h1 := a.toNat_lt
  have h2 := x.toNat_lt
  omega

theorem Within.sub (h : Within (a + d) k x) (hd : k + d.toNat ≤ n) : Within a n x := by
  unfold Within at *
  rw [UInt32.toNat_sub, UInt32.toNat_add] at *
  have h1 := a.toNat_lt
  have h2 := x.toNat_lt
  have h3 := d.toNat_lt
  omega

theorem apart_of_le (h : a.toNat + n ≤ b.toNat) (hb : b.toNat + k ≤ 2 ^ 32) : Apart a n b k := by
  intro x hx hx'
  unfold Within at *
  rw [UInt32.toNat_sub] at *
  have h1 := a.toNat_lt
  have h2 := x.toNat_lt
  omega

theorem Apart.symm (h : Apart a n b k) : Apart b k a n := fun x hx hx' => h x hx' hx

theorem Apart.of_le (h : Apart a n b k) (hk : n' ≤ k) : Apart a n b n' := fun x hx hx' => h x hx (hx'.trans_le hk)

theorem Apart.sub (h : Apart a n b k) (hd : n' + d.toNat ≤ n) : Apart (a + d) n' b k :=
  fun x hx => h x (hx.sub hd)

theorem load_store_apart (h : Apart b 4 a 4) : load (store byte a w) b = load byte b :=
  load_congr fun x hx => store_of_not_within (h x hx)

theorem load_store_offset (hd : 4 ≤ d.toNat) (hd' : d.toNat + 4 ≤ 2 ^ 32) :
    load (store byte a w) (a + d) = load byte (a + d) :=
  load_store_apart fun _ hx => within_offset hd hd' hx

end

def Spaced (d e : UInt32) : Prop := 4 ≤ (d - e).toNat ∧ 4 ≤ (e - d).toNat

instance (d e : UInt32) : Decidable (Spaced d e) := inferInstanceAs (Decidable (_ ∧ _))

def storeFields (byte : UInt32 → UInt8) (a : UInt32) : List (UInt32 × UInt32) → UInt32 → UInt8
  | [] => byte
  | (d, w) :: fields => storeFields (store byte (a + d) w) a fields

section
variable {byte : UInt32 → UInt8} {a b d e w x : UInt32} {n k : ℕ} {fields : List (UInt32 × UInt32)}

theorem load_store_spaced (h : Spaced d e) : load (store byte (a + e) w) (a + d) = load byte (a + d) := by
  have hsplit : a + e + (d - e) = a + d := by
    rw [UInt32.add_assoc, UInt32.add_comm e, UInt32.sub_add_cancel]
  have hback : (e - d).toNat = (2 ^ 32 - (d - e).toNat) % 2 ^ 32 := by
    rw [UInt32.toNat_sub, UInt32.toNat_sub]
    have h1 := d.toNat_lt
    have h2 := e.toNat_lt
    omega
  obtain ⟨h1, h2⟩ := h
  rw [← hsplit]
  exact load_store_offset h1 (by omega)

theorem storeFields_of_not_within (hin : ∀ f ∈ fields, 4 + f.1.toNat ≤ n) (h : ¬ Within a n x) :
    storeFields byte a fields x = byte x := by
  induction fields generalizing byte with
  | nil => rfl
  | cons f fields ih =>
    obtain ⟨hf, hfields⟩ := List.forall_mem_cons.mp hin
    rw [storeFields, ih hfields]
    exact store_of_not_within fun hx => h (hx.sub hf)

theorem load_storeFields_apart (hin : ∀ f ∈ fields, 4 + f.1.toNat ≤ n) (h : Apart b k a n) (hd : 4 + d.toNat ≤ k) :
    load (storeFields byte a fields) (b + d) = load byte (b + d) :=
  load_congr fun x hx => storeFields_of_not_within hin (h x (hx.sub hd))

theorem load_storeFields_spaced (h : ∀ f ∈ fields, Spaced d f.1) :
    load (storeFields byte a fields) (a + d) = load byte (a + d) := by
  induction fields generalizing byte with
  | nil => rfl
  | cons f fields ih =>
    obtain ⟨hf, hfields⟩ := List.forall_mem_cons.mp h
    rw [storeFields, ih hfields, load_store_spaced hf]

theorem load_storeFields (hs : fields.Pairwise fun f g => Spaced f.1 g.1) (h : (d, w) ∈ fields) :
    load (storeFields byte a fields) (a + d) = w := by
  induction fields generalizing byte with
  | nil => cases h
  | cons f fields ih =>
    obtain ⟨hf, hfields⟩ := List.pairwise_cons.mp hs
    rw [storeFields]
    cases h with
    | head => rw [load_storeFields_spaced hf, load_store_self]
    | tail _ hmem => exact ih hfields hmem

end

def fill (byte : UInt32 → UInt8) (p : UInt32) (n : ℕ) (v : UInt8) : UInt32 → UInt8 :=
  fun x => if (x - p).toNat < n then v else byte x

section
variable {byte : UInt32 → UInt8} {p x : UInt32} {n : ℕ} {v : UInt8}

theorem fill_zero : fill byte p 0 v = byte := rfl

theorem fill_of_within (h : Within p n x) : fill byte p n v x = v := if_pos h

theorem fill_of_not_within (h : ¬ Within p n x) : fill byte p n v x = byte x := if_neg h

theorem load_fill {a : UInt32} (h : Apart p n a 4) : load (fill byte p n v) a = load byte a :=
  load_congr fun x hx => fill_of_not_within fun hin => h x hin hx

theorem fill_succ (byte : UInt32 → UInt8) (p : UInt32) (n : ℕ) (v : UInt8) :
    fill (Function.update byte p v) (p + 1) n v = fill byte p (n + 1) v := by
  funext x
  by_cases hx : Within p (n + 1) x
  · rw [fill_of_within hx]
    by_cases hrest : Within (p + 1) n x
    · exact fill_of_within hrest
    · rw [fill_of_not_within hrest, (within_succ.mp hx).resolve_right hrest, Function.update_self]
  · have hx' := not_or.mp (within_succ.not.mp hx)
    rw [fill_of_not_within hx, fill_of_not_within hx'.2, Function.update_of_ne hx'.1]

theorem fill_succ_high (hn : n < 2 ^ 32) :
    fill (Function.update byte (p + UInt32.ofNat n) v) p n v = fill byte p (n + 1) v := by
  funext x
  by_cases hx : Within p (n + 1) x
  · rw [fill_of_within hx]
    by_cases hrest : Within p n x
    · exact fill_of_within hrest
    · rw [fill_of_not_within hrest, ((within_succ_high hn).mp hx).resolve_right hrest, Function.update_self]
  · have hx' := not_or.mp ((within_succ_high hn).not.mp hx)
    rw [fill_of_not_within hx, fill_of_not_within hx'.2, Function.update_of_ne hx'.1]

end

end Words
