import Mathlib.Data.List.Basic
import Mathlib.Data.Int.ModEq
import Mathlib.Tactic

/-!
# Little-endian fields and fixed-size records

Unsigned fields of a given byte width and signed 64-bit fields, written least
significant byte first, and the cutting of a buffer into records of one size.
Every encoder is total and truncates; the round trips say on which values
nothing is lost.
-/

namespace AirHuim.Library

abbrev Bytes := List UInt8

/-- The low `w` bytes of `n`, least significant first. -/
def leBytes : ℕ → ℕ → Bytes
  | 0, _ => []
  | w + 1, n => UInt8.ofNat n :: leBytes w (n / 256)

def ofLeBytes : Bytes → ℕ
  | [] => 0
  | b :: bs => b.toNat + 256 * ofLeBytes bs

@[simp] theorem length_leBytes (w n : ℕ) : (leBytes w n).length = w := by
  induction w generalizing n with
  | zero => rfl
  | succ w ih => simp [leBytes, ih]

theorem ofLeBytes_leBytes (w n : ℕ) : ofLeBytes (leBytes w n) = n % 256 ^ w := by
  induction w generalizing n with
  | zero => simp [leBytes, ofLeBytes, Nat.mod_one]
  | succ w ih =>
    have hb : (UInt8.ofNat n).toNat = n % 256 := UInt8.toNat_ofNat'
    rw [leBytes, ofLeBytes, ih, hb, Nat.pow_succ', Nat.mod_mul]

theorem ofLeBytes_leBytes_of_lt {w n : ℕ} (h : n < 256 ^ w) : ofLeBytes (leBytes w n) = n := by
  rw [ofLeBytes_leBytes, Nat.mod_eq_of_lt h]

theorem leBytes_ofLeBytes (bs : Bytes) : leBytes bs.length (ofLeBytes bs) = bs := by
  induction bs with
  | nil => rfl
  | cons b bs ih =>
    have hlow : UInt8.ofNat (b.toNat + 256 * ofLeBytes bs) = b := by
      apply UInt8.toNat_inj.mp
      rw [UInt8.toNat_ofNat']
      have := b.toNat_lt
      omega
    have hrest : (b.toNat + 256 * ofLeBytes bs) / 256 = ofLeBytes bs := by
      have := b.toNat_lt
      omega
    rw [List.length_cons, leBytes, ofLeBytes, hlow, hrest, ih]

theorem ofLeBytes_lt (bs : Bytes) : ofLeBytes bs < 256 ^ bs.length := by
  conv_lhs => rw [← leBytes_ofLeBytes bs]
  rw [ofLeBytes_leBytes]
  exact Nat.mod_lt _ (by positivity)

/-- The values a signed 64-bit field holds. -/
def FitsI64 (z : ℤ) : Prop := -2 ^ 63 ≤ z ∧ z < 2 ^ 63

instance (z : ℤ) : Decidable (FitsI64 z) := inferInstanceAs (Decidable (_ ∧ _))

/-- A value between zero and one that fits also fits. -/
theorem FitsI64.of_le {y z : ℤ} (hz : FitsI64 z) (h0 : 0 ≤ y) (hy : y ≤ z) : FitsI64 y :=
  ⟨by omega, lt_of_le_of_lt hy hz.2⟩

/-- Two's complement in eight bytes. -/
def i64ToLe (z : ℤ) : Bytes := leBytes 8 (z % 2 ^ 64).toNat

def i64OfLe (bs : Bytes) : ℤ := (ofLeBytes bs : ℤ).bmod (2 ^ 64)

@[simp] theorem length_i64ToLe (z : ℤ) : (i64ToLe z).length = 8 := by
  rw [i64ToLe, length_leBytes]

theorem i64OfLe_i64ToLe {z : ℤ} (h : FitsI64 z) : i64OfLe (i64ToLe z) = z := by
  obtain ⟨hlo, hhi⟩ := h
  have hpos : 0 ≤ z % 2 ^ 64 := Int.emod_nonneg _ (by norm_num)
  have hlt : (z % 2 ^ 64).toNat < 256 ^ 8 := by
    have := Int.emod_lt_of_pos z (b := 2 ^ 64) (by norm_num)
    omega
  unfold i64OfLe i64ToLe
  rw [ofLeBytes_leBytes_of_lt hlt, Int.toNat_of_nonneg hpos, Int.bmod_def]
  split_ifs <;> omega

/-- `chunks_exact(n)`: consecutive records of `n` elements, a shorter rest dropped. -/
def chunksExact {α : Type*} (n : ℕ) (xs : List α) : List (List α) :=
  (List.range (xs.length / n)).map fun i => (xs.drop (i * n)).take n

theorem chunksExact_nil {α : Type*} (n : ℕ) : chunksExact n ([] : List α) = [] := by
  simp [chunksExact]

@[simp] theorem length_chunksExact {α : Type*} (n : ℕ) (xs : List α) :
    (chunksExact n xs).length = xs.length / n := by
  simp [chunksExact]

theorem chunksExact_append {α : Type*} {n : ℕ} (hn : 0 < n) {x : List α} (hx : x.length = n)
    (xs : List α) : chunksExact n (x ++ xs) = x :: chunksExact n xs := by
  have hlen : (x ++ xs).length / n = xs.length / n + 1 := by
    rw [List.length_append, hx, Nat.add_comm, Nat.add_div_right _ hn]
  rw [chunksExact, hlen, List.range_succ_eq_map, List.map_cons, List.map_map]
  congr 1
  · simp [hx]
  · apply List.map_congr_left
    intro i _
    have hi : (i + 1) * n = x.length + i * n := by rw [hx, Nat.add_mul, Nat.one_mul, Nat.add_comm]
    have hdrop : x.drop (x.length + i * n) = [] := List.drop_eq_nil_of_le (Nat.le_add_right _ _)
    simp only [Function.comp_apply, Nat.succ_eq_add_one, hi, List.drop_append, hdrop,
      List.nil_append, Nat.add_sub_cancel_left]

/-- Records written one after the other are cut back into themselves. -/
theorem chunksExact_flatMap {α β : Type*} {n : ℕ} (hn : 0 < n) (enc : β → List α)
    (henc : ∀ b, (enc b).length = n) (bs : List β) :
    chunksExact n (bs.flatMap enc) = bs.map enc := by
  induction bs with
  | nil => exact chunksExact_nil n
  | cons b bs ih => rw [List.flatMap_cons, chunksExact_append hn (henc b), ih, List.map_cons]

/-- Records are read back if each of them is. -/
theorem map_chunksExact_flatMap {α β : Type*} {n : ℕ} (hn : 0 < n) (enc : β → List α)
    (henc : ∀ b, (enc b).length = n) (dec : List α → β) {bs : List β}
    (hdec : ∀ b ∈ bs, dec (enc b) = b) : (chunksExact n (bs.flatMap enc)).map dec = bs := by
  rw [chunksExact_flatMap hn enc henc, List.map_map]
  calc
    bs.map (dec ∘ enc) = bs.map id := List.map_congr_left hdec
    _ = bs := List.map_id bs

/-- A field at the front of a record, and the fields after it. -/
theorem take_field {α : Type*} {n : ℕ} {x : List α} (hx : x.length = n) (xs : List α) :
    (x ++ xs).take n = x ∧ (x ++ xs).drop n = xs :=
  ⟨List.take_left' hx, List.drop_left' hx⟩

/-- A field in the middle of a record. -/
theorem slice_field {α : Type*} {m n : ℕ} {x y : List α} (hx : x.length = m) (hy : y.length = n)
    (z : List α) : ((x ++ (y ++ z)).drop m).take n = y := by
  rw [List.drop_left' hx, List.take_left' hy]

/-! ## One changed byte -/

/-- What lies at offset `o` of a buffer, after byte `i` of the buffer became `b`. -/
def patch (o : ℕ) (field : Bytes) (i : ℕ) (b : UInt8) : Bytes :=
  if o ≤ i then field.set (i - o) b else field

@[simp] theorem length_patch (o : ℕ) (field : Bytes) (i : ℕ) (b : UInt8) :
    (patch o field i b).length = field.length := by
  unfold patch
  split <;> simp

@[simp] theorem patch_zero (field : Bytes) (i : ℕ) (b : UInt8) :
    patch 0 field i b = field.set i b := by
  simp [patch]

theorem patch_of_lt {o i : ℕ} (h : i < o) (field : Bytes) (b : UInt8) :
    patch o field i b = field :=
  if_neg (by omega)

theorem patch_of_le {o i : ℕ} {field : Bytes} (h : o + field.length ≤ i) (b : UInt8) :
    patch o field i b = field := by
  unfold patch
  split
  · exact List.set_eq_of_length_le (by omega)
  · rfl

/-- Only a change inside a field changes it. -/
theorem patch_eq_of {o i : ℕ} {field : Bytes} {b : UInt8}
    (h : o ≤ i → i < o + field.length → patch o field i b = field) : patch o field i b = field := by
  by_cases hlo : o ≤ i
  · by_cases hhi : i < o + field.length
    · exact h hlo hhi
    · exact patch_of_le (by omega) b
  · exact patch_of_lt (by omega) field b

/-- A change in two fields is a change in one of them. -/
theorem patch_append (o : ℕ) (x y : Bytes) (i : ℕ) (b : UInt8) :
    patch o (x ++ y) i b = patch o x i b ++ patch (o + x.length) y i b := by
  by_cases hx : i < o + x.length
  · rw [patch_of_lt hx]
    unfold patch
    split
    · exact List.set_append_left _ _ (by omega)
    · rfl
  · have hsub : i - o - x.length = i - (o + x.length) := by omega
    rw [patch_of_le (o := o) (i := i) (by omega : o + x.length ≤ i)]
    unfold patch
    rw [if_pos (by omega), if_pos (by omega), List.set_append_right _ _ (by omega), hsub]

theorem patch_singleton (o : ℕ) (a : UInt8) (i : ℕ) (b : UInt8) :
    patch o [a] i b = [if i = o then b else a] := by
  by_cases h : i = o
  · subst h
    simp [patch]
  · rw [if_neg h]
    by_cases hlt : i < o
    · exact patch_of_lt hlt _ _
    · exact patch_of_le (by simp; omega) _

end AirHuim.Library
