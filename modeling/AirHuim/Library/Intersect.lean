import Mathlib.Data.List.Basic
import Mathlib.Data.List.Pairwise
import Mathlib.Tactic

/-!
# Two-pointer intersection of two key-sorted lists

Two lists sorted by strictly increasing keys are walked once; whenever the two
heads carry the same key a callback folds the pair into an accumulator. On lists
cut out of one table of rows, the callback meets exactly the rows both lists
kept, in table order.
-/

namespace AirHuim.Library

variable {ρ α β σ : Type*}

/-- The loop; each pass moves one of the two pointers, so the lengths bound it. -/
def intersectLoop (ka : α → ℕ) (kb : β → ℕ) (onMatch : σ → α → β → σ) :
    ℕ → σ → List α → List β → σ
  | fuel + 1, s, a :: as, b :: bs =>
      if ka a = kb b then intersectLoop ka kb onMatch fuel (onMatch s a b) as bs
      else if ka a < kb b then intersectLoop ka kb onMatch fuel s as (b :: bs)
      else intersectLoop ka kb onMatch fuel s (a :: as) bs
  | _, s, _, _ => s

def intersectWith (ka : α → ℕ) (kb : β → ℕ) (onMatch : σ → α → β → σ) (s : σ)
    (as : List α) (bs : List β) : σ :=
  intersectLoop ka kb onMatch (as.length + bs.length) s as bs

/-- Two walks whose states are related at the start and after every match. -/
theorem intersectWith_related {τ : Type*} {ka : α → ℕ} {kb : β → ℕ} (R : σ → τ → Prop)
    {f : σ → α → β → σ} {g : τ → α → β → τ} (hstep : ∀ s t a b, R s t → R (f s a b) (g t a b))
    {s : σ} {t : τ} (h : R s t) (as : List α) (bs : List β) :
    R (intersectWith ka kb f s as bs) (intersectWith ka kb g t as bs) := by
  unfold intersectWith
  generalize as.length + bs.length = fuel
  induction fuel generalizing s t as bs with
  | zero => exact h
  | succ fuel ih =>
    cases as with
    | nil => exact h
    | cons a as =>
      cases bs with
      | nil => exact h
      | cons b bs =>
        rw [intersectLoop, intersectLoop]
        split
        · exact ih (hstep s t a b h) as bs
        · split
          · exact ih h as (b :: bs)
          · exact ih h (a :: as) bs

/-- A walk in which every match adds at most one to a measure adds at most the
length of the first list. -/
theorem measure_intersectWith_le (ka : α → ℕ) (kb : β → ℕ) (size : σ → ℕ) {f : σ → α → β → σ}
    (hstep : ∀ s a b, size (f s a b) ≤ size s + 1) (s : σ) (as : List α) (bs : List β) :
    size (intersectWith ka kb f s as bs) ≤ size s + as.length := by
  unfold intersectWith
  generalize as.length + bs.length = fuel
  induction fuel generalizing s as bs with
  | zero => exact Nat.le_add_right _ _
  | succ fuel ih =>
    cases as with
    | nil => exact le_rfl
    | cons a as =>
      cases bs with
      | nil => exact Nat.le_add_right _ _
      | cons b bs =>
        rw [intersectLoop, List.length_cons]
        split
        · have hmatch := hstep s a b
          have hrest := ih (f s a b) as bs
          omega
        · split
          · have hrest := ih s as (b :: bs)
            omega
          · exact ih s (a :: as) bs

/-- What holds after the walk held before it, if it does so for a match. -/
theorem good_of_intersectLoop {ka : α → ℕ} {kb : β → ℕ} {g : σ → α → β → σ} (Good : σ → Prop)
    (hback : ∀ s a b, Good (g s a b) → Good s) (fuel : ℕ) {s : σ} {as : List α} {bs : List β}
    (h : Good (intersectLoop ka kb g fuel s as bs)) : Good s := by
  induction fuel generalizing s as bs with
  | zero => exact h
  | succ fuel ih =>
    cases as with
    | nil => exact h
    | cons a as =>
      cases bs with
      | nil => exact h
      | cons b bs =>
        rw [intersectLoop] at h
        split_ifs at h
        · exact hback s a b (ih h)
        · exact ih h
        · exact ih h

/-- A walk whose matches may fail does not, if they do not where the state after the
match is one that can lead to the end of the walk that never fails. -/
theorem intersectWith_eq_ok {ε : Type*} {ka : α → ℕ} {kb : β → ℕ} {f : σ → α → β → Except ε σ}
    {g : σ → α → β → σ} (Good : σ → Prop) (hback : ∀ s a b, Good (g s a b) → Good s)
    {s : σ} {as : List α} {bs : List β}
    (hstep : ∀ s, ∀ a ∈ as, ∀ b ∈ bs, ka a = kb b → Good (g s a b) → f s a b = .ok (g s a b))
    (h : Good (intersectWith ka kb g s as bs)) :
    intersectWith ka kb (fun s a b => s >>= fun s => f s a b) (.ok s) as bs =
      .ok (intersectWith ka kb g s as bs) := by
  unfold intersectWith at *
  generalize as.length + bs.length = fuel at *
  induction fuel generalizing s as bs with
  | zero => rfl
  | succ fuel ih =>
    cases as with
    | nil => rfl
    | cons a as =>
      cases bs with
      | nil => rfl
      | cons b bs =>
        have has : ∀ {a'}, a' ∈ as → a' ∈ a :: as := List.mem_cons_of_mem a
        have hbs : ∀ {b'}, b' ∈ bs → b' ∈ b :: bs := List.mem_cons_of_mem b
        rw [intersectLoop] at h ⊢
        rw [intersectLoop]
        split_ifs at h ⊢ with hkey
        · have hmatch := hstep s a List.mem_cons_self b List.mem_cons_self hkey
            (good_of_intersectLoop Good hback fuel h)
          have hbind : (Except.ok s >>= fun s => f s a b) = .ok (g s a b) := hmatch
          rw [hbind]
          exact ih (fun s a' ha' b' hb' => hstep s a' (has ha') b' (hbs hb')) h
        · exact ih (fun s a' ha' b' hb' => hstep s a' (has ha') b' hb') h
        · exact ih (fun s a' ha' b' hb' => hstep s a' ha' b' (hbs hb')) h

section Rows

variable {key : ρ → ℕ} {ka : α → ℕ} {kb : β → ℕ} {onMatch : σ → α → β → σ}
  {p q : ρ → Bool} {ea : ρ → α} {eb : ρ → β}

theorem intersectLoop_nil_left (fuel : ℕ) (s : σ) (bs : List β) :
    intersectLoop ka kb onMatch fuel s [] bs = s := by
  cases fuel <;> rfl

theorem intersectLoop_nil_right (fuel : ℕ) (s : σ) (as : List α) :
    intersectLoop ka kb onMatch fuel s as [] = s := by
  cases fuel <;> cases as <;> rfl

theorem intersectLoop_rows (hea : ∀ r, ka (ea r) = key r) (heb : ∀ r, kb (eb r) = key r)
    (rows : List ρ) (hsorted : rows.Pairwise fun r r' => key r < key r') (fuel : ℕ) (s : σ)
    (hfuel : (rows.filter p).length + (rows.filter q).length ≤ fuel) :
    intersectLoop ka kb onMatch fuel s ((rows.filter p).map ea) ((rows.filter q).map eb) =
      (rows.filter fun r => p r && q r).foldl (fun s r => onMatch s (ea r) (eb r)) s := by
  induction rows generalizing fuel s with
  | nil => exact intersectLoop_nil_left fuel s _
  | cons r rows ih =>
    obtain ⟨hr, hrows⟩ := List.pairwise_cons.mp hsorted
    cases hp : p r <;> cases hq : q r
    · simp only [List.filter_cons, hp, hq] at hfuel ⊢
      exact ih hrows fuel s hfuel
    · -- the row is only in the right list: its pointer moves unless the left list is done
      simp only [List.filter_cons, hp, hq] at hfuel ⊢
      cases hl : rows.filter p with
      | nil =>
        have hnil : (rows.filter fun r => p r && q r) = [] := by
          simp only [List.filter_eq_nil_iff] at hl ⊢
          intro r' hr'
          simp [hl r' hr']
        simp [hnil, intersectLoop_nil_left]
      | cons a as =>
        have ha : key r < key a := hr a (List.mem_of_mem_filter (hl ▸ List.mem_cons_self))
        obtain ⟨n, rfl⟩ : ∃ n, fuel = n + 1 := ⟨fuel - 1, by simp at hfuel; omega⟩
        have hstep := ih hrows n s (by simp at hfuel ⊢; omega)
        rw [hl] at hstep
        simpa [intersectLoop, hea, heb, ha.ne', ha.not_gt] using hstep
    · -- the row is only in the left list
      simp only [List.filter_cons, hp, hq] at hfuel ⊢
      cases hl : rows.filter q with
      | nil =>
        have hnil : (rows.filter fun r => p r && q r) = [] := by
          simp only [List.filter_eq_nil_iff] at hl ⊢
          intro r' hr'
          simp [hl r' hr']
        simp [hnil, intersectLoop_nil_right]
      | cons b bs =>
        have hb : key r < key b := hr b (List.mem_of_mem_filter (hl ▸ List.mem_cons_self))
        obtain ⟨n, rfl⟩ : ∃ n, fuel = n + 1 := ⟨fuel - 1, by simp at hfuel; omega⟩
        have hstep := ih hrows n s (by simp at hfuel ⊢; omega)
        rw [hl] at hstep
        simpa [intersectLoop, hea, heb, hb.ne, hb] using hstep
    · simp only [List.filter_cons, hp, hq] at hfuel ⊢
      obtain ⟨n, rfl⟩ : ∃ n, fuel = n + 1 := ⟨fuel - 1, by simp at hfuel; omega⟩
      have hstep := ih hrows n (onMatch s (ea r) (eb r)) (by simp at hfuel ⊢; omega)
      simpa [intersectLoop, hea, heb] using hstep

/-- The intersection of two sublists of one key-sorted table. -/
theorem intersectWith_rows (hea : ∀ r, ka (ea r) = key r) (heb : ∀ r, kb (eb r) = key r)
    {rows : List ρ} (hrows : rows.Pairwise fun r r' => key r < key r') (s : σ) :
    intersectWith ka kb onMatch s ((rows.filter p).map ea) ((rows.filter q).map eb) =
      (rows.filter fun r => p r && q r).foldl (fun s r => onMatch s (ea r) (eb r)) s :=
  intersectLoop_rows hea heb rows hrows _ s (by simp)

end Rows

end AirHuim.Library
