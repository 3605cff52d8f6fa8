import Mathlib.Tactic

/-!
# Records in place

Records of one width lie next to each other in a list of cells, and are read and
written there. A record that is written is read back, and no other one changes.
-/

namespace AirHuim.Library

variable {α : Type*}

/-- The `n` cells from `off` on. -/
def slice (off n : ℕ) (xs : List α) : List α := (xs.drop off).take n

/-- Cell by cell, from `off` on. -/
def writeFrom (xs : List α) : ℕ → List α → List α
  | _, [] => xs
  | off, y :: ys => writeFrom (xs.set off y) (off + 1) ys

@[simp] theorem length_writeFrom (xs : List α) (off : ℕ) (ys : List α) :
    (writeFrom xs off ys).length = xs.length := by
  induction ys generalizing xs off with
  | nil => rfl
  | cons y ys ih => rw [writeFrom, ih, List.length_set]

theorem getElem?_writeFrom (xs : List α) (off : ℕ) (ys : List α) (i : ℕ) :
    (writeFrom xs off ys)[i]? =
      if off ≤ i ∧ i < off + ys.length ∧ i < xs.length then ys[i - off]? else xs[i]? := by
  induction ys generalizing xs off with
  | nil =>
    have hno : ¬(off ≤ i ∧ i < off + ([] : List α).length ∧ i < xs.length) := by
      simp only [List.length_nil]
      omega
    rw [writeFrom, if_neg hno]
  | cons y ys ih =>
    rw [writeFrom, ih, List.length_set, List.length_cons]
    by_cases hi : i = off
    · subst hi
      have hno : ¬(i + 1 ≤ i ∧ i < i + 1 + ys.length ∧ i < xs.length) := by omega
      rw [if_neg hno, List.getElem?_set]
      by_cases hlt : i < xs.length
      · simp [hlt]
      · simp [hlt]
    · have hset : (xs.set off y)[i]? = xs[i]? := List.getElem?_set_ne (Ne.symm hi)
      rw [hset]
      by_cases hin : off + 1 ≤ i ∧ i < off + 1 + ys.length ∧ i < xs.length
      · have hin' : off ≤ i ∧ i < off + (ys.length + 1) ∧ i < xs.length := by omega
        have hpred : i - off = i - (off + 1) + 1 := by omega
        rw [if_pos hin, if_pos hin', hpred, List.getElem?_cons_succ]
      · have hout : ¬(off ≤ i ∧ i < off + (ys.length + 1) ∧ i < xs.length) := by omega
        rw [if_neg hin, if_neg hout]

theorem getElem?_slice (off n : ℕ) (xs : List α) (i : ℕ) :
    (slice off n xs)[i]? = if i < n then xs[off + i]? else none := by
  rw [slice, List.getElem?_take, List.getElem?_drop]

theorem slice_writeFrom {xs ys : List α} {off : ℕ} (h : off + ys.length ≤ xs.length) :
    slice off ys.length (writeFrom xs off ys) = ys := by
  apply List.ext_getElem?
  intro i
  rw [getElem?_slice, getElem?_writeFrom]
  by_cases hi : i < ys.length
  · have hin : off ≤ off + i ∧ off + i < off + ys.length ∧ off + i < xs.length := by omega
    rw [if_pos hi, if_pos hin, Nat.add_sub_cancel_left]
  · rw [if_neg hi, List.getElem?_eq_none (not_lt.mp hi)]

theorem slice_writeFrom_of_disjoint {xs ys : List α} {off o n : ℕ}
    (h : o + n ≤ off ∨ off + ys.length ≤ o) :
    slice o n (writeFrom xs off ys) = slice o n xs := by
  apply List.ext_getElem?
  intro i
  rw [getElem?_slice, getElem?_slice, getElem?_writeFrom]
  by_cases hi : i < n
  · have hout : ¬(off ≤ o + i ∧ o + i < off + ys.length ∧ o + i < xs.length) := by omega
    rw [if_pos hi, if_pos hi, if_neg hout]
  · rw [if_neg hi, if_neg hi]

/-! ## Fields one after the other -/

theorem slice_append_left {w : ℕ} {x : List α} (hx : x.length = w) (xs : List α) :
    slice 0 w (x ++ xs) = x := by
  rw [slice, List.drop_zero, ← hx, List.take_left]

theorem slice_append_right {w : ℕ} {x : List α} (hx : x.length = w) (off n : ℕ) (xs : List α) :
    slice (w + off) n (x ++ xs) = slice off n xs := by
  rw [slice, slice, ← List.drop_drop, ← hx, List.drop_left]

theorem slice_self {w : ℕ} {x : List α} (hx : x.length = w) : slice 0 w x = x := by
  rw [slice, List.drop_zero, ← hx, List.take_length]

/-! ## Records -/

/-- Record number `i` of width `w`. -/
def record (w i : ℕ) (xs : List α) : List α := slice (w * i) w xs

/-- Writing one record changes that record only. -/
theorem record_writeFrom {w : ℕ} {xs ys : List α} {i : ℕ} (hlen : ys.length = w)
    (hi : w * i + w ≤ xs.length) (j : ℕ) :
    record w j (writeFrom xs (w * i) ys) = if j = i then ys else record w j xs := by
  by_cases hj : j = i
  · rw [if_pos hj, hj, record]
    have hself : slice (w * i) ys.length (writeFrom xs (w * i) ys) = ys :=
      slice_writeFrom (by rwa [hlen])
    rwa [hlen] at hself
  · rw [if_neg hj]
    apply slice_writeFrom_of_disjoint
    rw [hlen]
    rcases Nat.lt_or_gt_of_ne hj with hlt | hgt
    · have hle := Nat.mul_le_mul_left w (Nat.succ_le_of_lt hlt)
      rw [Nat.mul_succ] at hle
      exact Or.inl hle
    · have hle := Nat.mul_le_mul_left w (Nat.succ_le_of_lt hgt)
      rw [Nat.mul_succ] at hle
      exact Or.inr hle

theorem record_replicate {w i n : ℕ} (x : α) (h : w * i + w ≤ n) :
    record w i (List.replicate n x) = List.replicate w x := by
  rw [record, slice, List.drop_replicate, List.take_replicate]
  congr 1
  omega

end AirHuim.Library
