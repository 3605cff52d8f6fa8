import AirHuim.Library.Bytes
import Mathlib.Data.List.DropRight

/-!
# Text and decimal numbers

A text is a list of characters. Lines, separators and blanks are cut as the
string functions of the language do, and numbers are written and read in
decimal. The main results are that what was joined is split back into itself
and that every number is read back from its digits.
-/

namespace AirHuim.Library

abbrev Text := List Char

/-- The characters with the Unicode property `White_Space`. -/
def isWhitespace (c : Char) : Bool :=
  let n := c.toNat
  (9 ≤ n && n ≤ 13) || n == 0x20 || n == 0x85 || n == 0xA0 || n == 0x1680 ||
    (0x2000 ≤ n && n ≤ 0x200A) || n == 0x2028 || n == 0x2029 || n == 0x202F || n == 0x205F ||
    n == 0x3000

def trim (s : Text) : Text := (s.dropWhile isWhitespace).rdropWhile isWhitespace

def splitWhitespace (s : Text) : List Text := (s.splitOnP isWhitespace).filter (· ≠ [])

/-- `split_inclusive` at newlines: the lines, each with the newline that ends it. -/
def splitInclusive : Text → List Text
  | [] => []
  | c :: s =>
    if c = '\n' then [c] :: splitInclusive s
    else
      match splitInclusive s with
      | [] => [[c]]
      | l :: ls => (c :: l) :: ls

/-- The text around the first occurrence of `pat`. -/
def splitOnce (pat : Text) : Text → Option (Text × Text)
  | [] => if pat = [] then some ([], []) else none
  | c :: s =>
    if pat.isPrefixOf (c :: s) then some ([], (c :: s).drop pat.length)
    else (splitOnce pat s).map fun p => (c :: p.1, p.2)

/-- `splitn(n, pat)`: at most `n` parts, the last one uncut. -/
def splitn (pat : Text) : ℕ → Text → List Text
  | 0, _ => []
  | 1, s => [s]
  | n + 2, s =>
    match splitOnce pat s with
    | none => [s]
    | some (part, rest) => part :: splitn pat (n + 1) rest

def unlines (ls : List Text) : Text := ls.flatMap (· ++ ['\n'])

def joinBlank (tokens : List Text) : Text := [' '].intercalate tokens

/-! ## Numbers -/

def formatNat (n : ℕ) : Text := Nat.toDigits 10 n

def formatInt (z : ℤ) : Text :=
  if z < 0 then '-' :: formatNat z.natAbs else formatNat z.natAbs

/-- The value of one or more decimal digits. -/
def parseDigits (s : Text) : Option ℕ :=
  if s ≠ [] ∧ s.all Char.isDigit then some (Nat.ofDigitChars 10 s 0) else none

/-- A plus sign is accepted, a minus sign is not. -/
def parseU32 (s : Text) : Option ℕ :=
  let n := match s with
    | '+' :: digits => parseDigits digits
    | _ => parseDigits s
  n.filter (· < 2 ^ 32)

def parseInt (s : Text) : Option ℤ :=
  match s with
  | '+' :: digits => (parseDigits digits).map Int.ofNat
  | '-' :: digits => (parseDigits digits).map fun n => -Int.ofNat n
  | _ => (parseDigits s).map Int.ofNat

/-- A value in range comes with the proof that it is. -/
def parseI64 (s : Text) : Option {z : ℤ // FitsI64 z} :=
  match parseInt s with
  | some z => if h : FitsI64 z then some ⟨z, h⟩ else none
  | none => none

/-! ## Digits -/

theorem isDigit_of_mem_formatNat {n : ℕ} {c : Char} (hc : c ∈ formatNat n) : c.isDigit :=
  Nat.isDigit_of_mem_toDigits (by norm_num) (by norm_num) hc

theorem formatNat_ne_nil (n : ℕ) : formatNat n ≠ [] := Nat.toDigits_ne_nil

theorem parseDigits_formatNat (n : ℕ) : parseDigits (formatNat n) = some n := by
  have hall : (formatNat n).all Char.isDigit := by
    rw [List.all_eq_true]
    exact fun c hc => isDigit_of_mem_formatNat hc
  rw [parseDigits, if_pos ⟨formatNat_ne_nil n, hall⟩]
  exact congrArg some Nat.ofDigitChars_ten_toDigits

/-- The first character of a formatted number is a digit. -/
theorem formatNat_eq_cons (n : ℕ) : ∃ c s, formatNat n = c :: s ∧ c.isDigit := by
  obtain ⟨c, s, hs⟩ := List.exists_cons_of_ne_nil (formatNat_ne_nil n)
  exact ⟨c, s, hs, isDigit_of_mem_formatNat (hs ▸ List.mem_cons_self)⟩

theorem parseU32_formatNat {n : ℕ} (h : n < 2 ^ 32) : parseU32 (formatNat n) = some n := by
  have hdigits : parseU32 (formatNat n) = (parseDigits (formatNat n)).filter (· < 2 ^ 32) := by
    obtain ⟨c, s, hs, hc⟩ := formatNat_eq_cons n
    rw [hs]
    unfold parseU32
    split
    · rename_i heq
      exact absurd hc ((List.cons.inj heq).1 ▸ by decide)
    · rfl
  rw [hdigits, parseDigits_formatNat]
  simpa using h

theorem parseInt_formatInt (z : ℤ) : parseInt (formatInt z) = some z := by
  obtain ⟨c, s, hs, hc⟩ := formatNat_eq_cons z.natAbs
  have hparse := parseDigits_formatNat z.natAbs
  unfold formatInt
  split
  · rename_i hneg
    have habs : -Int.ofNat z.natAbs = z := by
      rw [Int.ofNat_eq_natCast]
      omega
    simp only [parseInt, hparse, Option.map_some, habs]
  · rename_i hnonneg
    have habs : Int.ofNat z.natAbs = z := by
      rw [Int.ofNat_eq_natCast]
      omega
    have hsign : parseInt (formatNat z.natAbs) =
        (parseDigits (formatNat z.natAbs)).map Int.ofNat := by
      rw [hs]
      unfold parseInt
      split
      · rename_i heq
        exact absurd hc ((List.cons.inj heq).1 ▸ by decide)
      · rename_i heq
        exact absurd hc ((List.cons.inj heq).1 ▸ by decide)
      · rfl
    rw [hsign, hparse, Option.map_some, habs]

/-- A parsed number is in range. -/
theorem lt_of_parseU32 {s : Text} {n : ℕ} (h : parseU32 s = some n) : n < 2 ^ 32 := by
  have hrange := (Option.filter_eq_some_iff.mp h).2
  simpa using hrange

theorem parseI64_formatInt {z : ℤ} (h : FitsI64 z) : parseI64 (formatInt z) = some ⟨z, h⟩ := by
  rw [parseI64, parseInt_formatInt]
  exact dif_pos h

theorem eq_of_parseI64_formatInt {z : ℤ} {u : {z : ℤ // FitsI64 z}}
    (h : parseI64 (formatInt z) = some u) : z = u.1 := by
  rw [parseI64, parseInt_formatInt] at h
  dsimp only at h
  split at h
  · cases h
    rfl
  · cases h

theorem mem_formatInt {z : ℤ} {c : Char} (hc : c ∈ formatInt z) : c = '-' ∨ c.isDigit := by
  unfold formatInt at hc
  split at hc
  · rcases List.mem_cons.mp hc with rfl | hc
    · exact Or.inl rfl
    · exact Or.inr (isDigit_of_mem_formatNat hc)
  · exact Or.inr (isDigit_of_mem_formatNat hc)

theorem formatInt_ne_nil (z : ℤ) : formatInt z ≠ [] := by
  unfold formatInt
  split
  · exact List.cons_ne_nil _ _
  · exact formatNat_ne_nil _

/-! ## Tokens -/

/-- What splitting at blanks yields: characters, none of them blank. -/
structure IsToken (s : Text) : Prop where
  ne_nil : s ≠ []
  solid : ∀ c ∈ s, isWhitespace c = false

theorem isWhitespace_of_isDigit {c : Char} (hc : c.isDigit) : isWhitespace c = false := by
  simp only [Char.isDigit, Bool.and_eq_true, decide_eq_true_eq, ge_iff_le,
    UInt32.le_iff_toNat_le] at hc
  have hlo : 48 ≤ c.toNat := hc.1
  have hhi : c.toNat ≤ 57 := hc.2
  simp only [isWhitespace, Bool.or_eq_false_iff, Bool.and_eq_false_iff, decide_eq_false_iff_not,
    beq_eq_false_iff_ne]
  omega

theorem isToken_formatNat (n : ℕ) : IsToken (formatNat n) :=
  ⟨formatNat_ne_nil n, fun _ hc => isWhitespace_of_isDigit (isDigit_of_mem_formatNat hc)⟩

theorem isToken_formatInt (z : ℤ) : IsToken (formatInt z) := by
  refine ⟨formatInt_ne_nil z, fun c hc => ?_⟩
  rcases mem_formatInt hc with rfl | hc
  · decide
  · exact isWhitespace_of_isDigit hc

theorem joinBlank_singleton (t : Text) : joinBlank [t] = t := by
  simp [joinBlank, List.intercalate]

theorem joinBlank_cons_cons (t u : Text) (ts : List Text) :
    joinBlank (t :: u :: ts) = t ++ ' ' :: joinBlank (u :: ts) := by
  simp [joinBlank, List.intercalate]

theorem splitWhitespace_joinBlank {ts : List Text} (h : ∀ t ∈ ts, IsToken t) :
    splitWhitespace (joinBlank ts) = ts := by
  induction ts with
  | nil => rfl
  | cons t ts ih =>
    have ht := h t List.mem_cons_self
    have hts := ih fun u hu => h u (List.mem_cons_of_mem t hu)
    cases ts with
    | nil =>
      rw [joinBlank_singleton, splitWhitespace, List.splitOnP_eq_singleton ht.solid]
      simp [ht.ne_nil]
    | cons u ts =>
      rw [joinBlank_cons_cons, splitWhitespace,
        List.splitOnP_append_cons_of_forall_mem ht.solid ' ' (by decide), List.filter_cons_of_pos]
      · exact congrArg _ hts
      · simpa using ht.ne_nil

theorem mem_joinBlank {ts : List Text} {c : Char} (hc : c ∈ joinBlank ts) :
    c = ' ' ∨ ∃ t ∈ ts, c ∈ t := by
  induction ts with
  | nil => exact (List.not_mem_nil hc).elim
  | cons t ts ih =>
    cases ts with
    | nil => exact Or.inr ⟨t, List.mem_cons_self, joinBlank_singleton t ▸ hc⟩
    | cons u ts =>
      rw [joinBlank_cons_cons] at hc
      rcases List.mem_append.mp hc with hc | hc
      · exact Or.inr ⟨t, List.mem_cons_self, hc⟩
      rcases List.mem_cons.mp hc with rfl | hc
      · exact Or.inl rfl
      rcases ih hc with hblank | ⟨v, hv, hcv⟩
      · exact Or.inl hblank
      · exact Or.inr ⟨v, List.mem_cons_of_mem t hv, hcv⟩

theorem joinBlank_ne_nil {ts : List Text} (h : ∀ t ∈ ts, IsToken t) (hne : ts ≠ []) :
    joinBlank ts ≠ [] := by
  intro hnil
  have hts := splitWhitespace_joinBlank h
  rw [hnil] at hts
  exact hne hts.symm

/-- Joined tokens start as the first of them and end as the last. -/
theorem solid_head?_joinBlank {ts : List Text} (h : ∀ t ∈ ts, IsToken t) :
    ∀ c ∈ (joinBlank ts).head?, isWhitespace c = false := by
  intro c hc
  cases ts with
  | nil => cases hc
  | cons t ts =>
    have ht := h t List.mem_cons_self
    have hhead : (joinBlank (t :: ts)).head? = t.head? := by
      cases ts with
      | nil => rw [joinBlank_singleton]
      | cons u ts => rw [joinBlank_cons_cons, List.head?_append_of_ne_nil _ ht.ne_nil]
    rw [hhead] at hc
    exact ht.solid c (List.mem_of_mem_head? hc)

theorem solid_getLast?_joinBlank {ts : List Text} (h : ∀ t ∈ ts, IsToken t) :
    ∀ c ∈ (joinBlank ts).getLast?, isWhitespace c = false := by
  induction ts with
  | nil => exact fun c hc => by cases hc
  | cons t ts ih =>
    intro c hc
    cases ts with
    | nil =>
      rw [joinBlank_singleton] at hc
      exact (h t List.mem_cons_self).solid c (List.mem_of_mem_getLast? hc)
    | cons u ts =>
      have hrest := ih fun v hv => h v (List.mem_cons_of_mem t hv)
      have hne : joinBlank (u :: ts) ≠ [] :=
        joinBlank_ne_nil (fun v hv => h v (List.mem_cons_of_mem t hv)) (List.cons_ne_nil u ts)
      obtain ⟨d, s, hs⟩ := List.exists_cons_of_ne_nil hne
      rw [joinBlank_cons_cons, List.getLast?_append, hs, List.getLast?_cons_cons, ← hs] at hc
      rcases Option.or_eq_some_iff.mp hc with hc | ⟨hnone, -⟩
      · exact hrest c hc
      · exact (hne (List.getLast?_eq_none_iff.mp hnone)).elim

/-! ## Blanks at the ends -/

theorem trim_eq_nil_iff {s : Text} : trim s = [] ↔ ∀ c ∈ s, isWhitespace c := by
  rw [trim, List.rdropWhile_eq_nil_iff]
  constructor
  · intro h
    have hall : ∀ c ∈ s.dropWhile isWhitespace, isWhitespace c := h
    have hnil : s.dropWhile isWhitespace = [] := by
      by_contra hne
      have hhead := List.head_dropWhile_not isWhitespace hne
      rw [hall _ (List.head_mem hne)] at hhead
      cases hhead
    exact fun c hc => List.dropWhile_eq_nil_iff.mp hnil c hc
  · intro h c hc
    exact h c (List.dropWhile_sublist _ |>.subset hc)

/-- Blanks at the end of a text do not show in what is left of it. -/
theorem trim_append {s t : Text} (h : ∀ c ∈ t, isWhitespace c) : trim (s ++ t) = trim s := by
  by_cases hs : ∀ c ∈ s, isWhitespace c
  · rw [trim_eq_nil_iff.mpr hs, trim_eq_nil_iff]
    intro c hc
    exact (List.mem_append.mp hc).elim (hs c) (h c)
  · have hne : s.dropWhile isWhitespace ≠ [] := fun hnil => hs (List.dropWhile_eq_nil_iff.mp hnil)
    have hdrop : (s ++ t).dropWhile isWhitespace = s.dropWhile isWhitespace ++ t := by
      rw [List.dropWhile_append, if_neg (by simpa using hne)]
    rw [trim, hdrop]
    clear hdrop
    induction t using List.reverseRecOn with
    | nil => rw [List.append_nil, trim]
    | append_singleton t c ih =>
      rw [← List.append_assoc, List.rdropWhile_concat_pos _ _ _ (h c (by simp))]
      exact ih fun d hd => h d (List.mem_append_left _ hd)

/-- Nor do blanks at its start. -/
theorem trim_append_left {s : Text} (h : ∀ c ∈ s, isWhitespace c) (t : Text) :
    trim (s ++ t) = trim t := by
  rw [trim, List.dropWhile_append_of_pos h, trim]

/-- A text with no blank at either end. -/
theorem trim_eq_self {s : Text} (hhead : ∀ c ∈ s.head?, isWhitespace c = false)
    (hlast : ∀ c ∈ s.getLast?, isWhitespace c = false) : trim s = s := by
  have hdrop : s.dropWhile isWhitespace = s := by
    cases s with
    | nil => rfl
    | cons c s => exact List.dropWhile_cons_of_neg (by simp [hhead c rfl])
  rw [trim, hdrop, List.rdropWhile_eq_self_iff]
  intro hne
  simp [hlast _ (List.getLast?_eq_some_getLast hne)]

theorem IsToken.trim {s : Text} (h : IsToken s) : trim s = s :=
  trim_eq_self (fun c hc => h.solid c (List.mem_of_mem_head? hc))
    fun c hc => h.solid c (List.mem_of_mem_getLast? hc)

/-- Blanks at the ends make no tokens. -/
theorem splitWhitespace_trim (s : Text) : splitWhitespace (trim s) = splitWhitespace s := by
  have hright : ∀ s : Text, splitWhitespace (s.rdropWhile isWhitespace) = splitWhitespace s := by
    intro s
    induction s using List.reverseRecOn with
    | nil => rfl
    | append_singleton s c ih =>
      cases hc : isWhitespace c with
      | false => rw [List.rdropWhile_concat_neg _ _ _ (by simp [hc])]
      | true =>
        rw [List.rdropWhile_concat_pos _ _ _ hc, ih, splitWhitespace, splitWhitespace,
          List.splitOnP_append_cons _ _ hc, List.splitOnP_nil, List.filter_append]
        simp
  rw [trim, hright]
  induction s with
  | nil => rfl
  | cons c s ih =>
    cases hc : isWhitespace c with
    | false => rw [List.dropWhile_cons_of_neg (by simp [hc])]
    | true =>
      rw [List.dropWhile_cons_of_pos hc, ih, splitWhitespace, splitWhitespace,
        List.splitOnP_cons_eq_if_modifyHead, if_pos hc, List.filter_cons_of_neg (by simp)]

/-- What a text starts with, if that is not blank, starts a token. -/
theorem exists_token_cons {c : Char} (hc : isWhitespace c = false) (s : Text) :
    ∃ t, (c :: t) ∈ splitWhitespace (c :: s) := by
  obtain ⟨t, ts, hts⟩ := List.exists_cons_of_ne_nil (List.splitOnP_ne_nil isWhitespace s)
  refine ⟨t, ?_⟩
  rw [splitWhitespace, List.splitOnP_cons_eq_if_modifyHead, if_neg (by simp [hc]), hts]
  simp

/-- What stands before the first character that is not blank is dropped. -/
theorem head?_trim {s : Text} (hs : ∀ c ∈ s, isWhitespace c) {d : Char}
    (hd : isWhitespace d = false) (t : Text) : (trim (s ++ d :: t)).head? = some d := by
  have hdrop : (s ++ d :: t).dropWhile isWhitespace = d :: t := by
    rw [List.dropWhile_append_of_pos hs, List.dropWhile_cons_of_neg (by simp [hd])]
  have hne : (d :: t).rdropWhile isWhitespace ≠ [] := by
    intro hnil
    have hblank := List.rdropWhile_eq_nil_iff.mp hnil d List.mem_cons_self
    rw [hd] at hblank
    cases hblank
  obtain ⟨rest, hrest⟩ := List.rdropWhile_prefix isWhitespace (d :: t)
  have hhead := congrArg List.head? hrest
  rw [List.head?_append_of_ne_nil _ hne] at hhead
  rw [trim, hdrop, hhead]
  rfl

/-! ## Separators and lines -/

section

variable {p : Char} {pat a b s : Text}

theorem splitOnce_append (ha : p ∉ a) (pat b : Text) :
    splitOnce (p :: pat) (a ++ (p :: pat) ++ b) = some (a, b) := by
  induction a with
  | nil => simp [splitOnce]
  | cons c a ih =>
    obtain ⟨hc, ha⟩ := not_or.mp fun h => ha (List.mem_cons.mpr h)
    have hprefix : (p :: pat).isPrefixOf (c :: (a ++ (p :: pat) ++ b)) = false := by
      rw [List.isPrefixOf, beq_eq_false_iff_ne.mpr hc, Bool.false_and]
    rw [List.cons_append, List.cons_append, splitOnce, hprefix, if_neg Bool.false_ne_true, ih ha,
      Option.map_some]

theorem splitOnce_eq_none (hs : p ∉ s) (pat : Text) : splitOnce (p :: pat) s = none := by
  induction s with
  | nil => rfl
  | cons c s ih =>
    obtain ⟨hc, hs⟩ := not_or.mp fun h => hs (List.mem_cons.mpr h)
    simp [splitOnce, hc, ih hs]

theorem splitOnce_singleton_eq_some (h : splitOnce [p] s = some (a, b)) :
    p ∉ a ∧ s = a ++ p :: b := by
  by_cases hs : p ∈ s
  · obtain ⟨a', b', rfl, ha'⟩ := List.eq_append_cons_of_mem hs
    have hsplit := splitOnce_append ha' [] b'
    rw [List.append_assoc, List.singleton_append, h] at hsplit
    obtain ⟨rfl, rfl⟩ := Prod.mk.inj (Option.some.inj hsplit)
    exact ⟨ha', rfl⟩
  · rw [splitOnce_eq_none hs] at h
    cases h

theorem splitInclusive_append {l : Text} (hl : '\n' ∉ l) (s : Text) :
    splitInclusive (l ++ '\n' :: s) = (l ++ ['\n']) :: splitInclusive s := by
  induction l with
  | nil => simp [splitInclusive]
  | cons c l ih =>
    obtain ⟨hc, hl⟩ := not_or.mp fun h => hl (List.mem_cons.mpr h)
    rw [List.cons_append, splitInclusive, if_neg (Ne.symm hc), ih hl, List.cons_append]

theorem splitInclusive_of_notMem {l : Text} (hl : '\n' ∉ l) (hne : l ≠ []) :
    splitInclusive l = [l] := by
  induction l with
  | nil => exact (hne rfl).elim
  | cons c l ih =>
    obtain ⟨hc, hl⟩ := not_or.mp fun h => hl (List.mem_cons.mpr h)
    rw [splitInclusive, if_neg (Ne.symm hc)]
    cases l with
    | nil => rfl
    | cons d l => rw [ih hl (List.cons_ne_nil d l)]

/-- Lines that were ended by newlines, and a last one that need not be. -/
theorem splitInclusive_unlines {ls : List Text} (hls : ∀ l ∈ ls, '\n' ∉ l) (rest : Text) :
    splitInclusive (unlines ls ++ rest) = ls.map (· ++ ['\n']) ++ splitInclusive rest := by
  induction ls with
  | nil => rfl
  | cons l ls ih =>
    have hcut : unlines (l :: ls) ++ rest = l ++ '\n' :: (unlines ls ++ rest) := by
      simp [unlines]
    rw [hcut, splitInclusive_append (hls l List.mem_cons_self),
      ih fun l' hl' => hls l' (List.mem_cons_of_mem l hl'), List.map_cons, List.cons_append]

end

theorem splitn_two {p : Char} {a : Text} (ha : p ∉ a) (pat b : Text) :
    splitn (p :: pat) 2 (a ++ (p :: pat) ++ b) = [a, b] := by
  simp only [splitn, splitOnce_append ha pat b]

theorem splitn_three {p : Char} {a b : Text} (ha : p ∉ a) (hb : p ∉ b) (c : Text) :
    splitn [p] 3 (a ++ p :: (b ++ p :: c)) = [a, b, c] := by
  have hfirst := splitOnce_append ha [] (b ++ p :: c)
  have hsecond := splitOnce_append hb [] c
  rw [List.append_assoc, List.singleton_append] at hfirst hsecond
  simp only [splitn, hfirst, hsecond]

theorem eq_of_splitn_three {p : Char} {s a b c : Text} {rest : List Text}
    (h : splitn [p] 3 s = a :: b :: c :: rest) :
    p ∉ a ∧ p ∉ b ∧ s = a ++ p :: (b ++ p :: c) := by
  cases hfirst : splitOnce [p] s with
  | none => simp [splitn, hfirst] at h
  | some ab =>
    obtain ⟨a', s'⟩ := ab
    obtain ⟨ha, rfl⟩ := splitOnce_singleton_eq_some hfirst
    cases hsecond : splitOnce [p] s' with
    | none => simp [splitn, hfirst, hsecond] at h
    | some bc =>
      obtain ⟨b', c'⟩ := bc
      obtain ⟨hb, rfl⟩ := splitOnce_singleton_eq_some hsecond
      simp only [splitn, hfirst, hsecond, List.cons.injEq] at h
      obtain ⟨rfl, rfl, rfl, -⟩ := h
      exact ⟨ha, hb, rfl⟩

/-! ## Tokens that are all parsed -/

section

variable {α β : Type} {f : α → Option β} {xs : List α} {ys : List β}

theorem mapM_eq_some_iff : xs.mapM f = some ys ↔ List.Forall₂ (fun x y => f x = some y) xs ys := by
  induction xs generalizing ys with
  | nil =>
    rw [List.mapM_nil, List.forall₂_nil_left_iff]
    exact Option.some_inj.trans eq_comm
  | cons x xs ih =>
    rw [List.mapM_cons]
    constructor
    · intro h
      obtain ⟨y, hy, h⟩ := Option.bind_eq_some_iff.mp h
      obtain ⟨zs, hzs, h⟩ := Option.bind_eq_some_iff.mp h
      cases h
      exact List.Forall₂.cons hy (ih.mp hzs)
    · intro h
      cases h with
      | cons hy hzs => simp [hy, ih.mpr hzs]

theorem exists_mapM_eq_some_iff : (∃ ys, xs.mapM f = some ys) ↔ ∀ x ∈ xs, (f x).isSome := by
  constructor
  · rintro ⟨ys, hys⟩
    replace hys := mapM_eq_some_iff.mp hys
    induction hys with
    | nil => exact fun x hx => (List.not_mem_nil hx).elim
    | cons hy _ ih =>
      intro x hx
      rcases List.mem_cons.mp hx with rfl | hx
      · exact Option.isSome_iff_exists.mpr ⟨_, hy⟩
      · exact ih x hx
  · intro h
    induction xs with
    | nil => exact ⟨[], rfl⟩
    | cons x xs ih =>
      obtain ⟨y, hy⟩ := Option.isSome_iff_exists.mp (h x List.mem_cons_self)
      obtain ⟨ys, hys⟩ := ih fun x' hx' => h x' (List.mem_cons_of_mem x hx')
      exact ⟨y :: ys, mapM_eq_some_iff.mpr (List.Forall₂.cons hy (mapM_eq_some_iff.mp hys))⟩

theorem filterMap_of_mapM (h : xs.mapM f = some ys) : xs.filterMap f = ys := by
  replace h := mapM_eq_some_iff.mp h
  induction h with
  | nil => rfl
  | cons hx _ ih => rw [List.filterMap_cons_some hx, ih]

theorem exists_of_mem_mapM (h : xs.mapM f = some ys) : ∀ y ∈ ys, ∃ x ∈ xs, f x = some y := by
  replace h := mapM_eq_some_iff.mp h
  induction h with
  | nil => exact fun y hy => (List.not_mem_nil hy).elim
  | cons hx _ ih =>
    intro y hy
    rcases List.mem_cons.mp hy with rfl | hy
    · exact ⟨_, List.mem_cons_self, hx⟩
    · obtain ⟨x, hmem, hval⟩ := ih y hy
      exact ⟨x, List.mem_cons_of_mem _ hmem, hval⟩

end

/-! ## Which texts are numbers -/

structure IsDigits (s : Text) : Prop where
  ne_nil : s ≠ []
  digits : ∀ c ∈ s, c.isDigit

/-- The value of a text of digits. -/
def digitsValue (s : Text) : ℕ := Nat.ofDigitChars 10 s 0

theorem parseDigits_eq_some_iff {s : Text} {n : ℕ} :
    parseDigits s = some n ↔ IsDigits s ∧ digitsValue s = n := by
  unfold parseDigits
  split
  · rename_i h
    have hdigits : IsDigits s := ⟨h.1, List.all_eq_true.mp h.2⟩
    simp [hdigits, digitsValue]
  · rename_i h
    have hdigits : ¬ IsDigits s := fun hs => h ⟨hs.ne_nil, List.all_eq_true.mpr hs.digits⟩
    simp [hdigits]

/-- A decimal number below 2^32, possibly after a plus sign. -/
def IsU32 (s : Text) : Prop :=
  ∃ digits, (s = digits ∨ s = '+' :: digits) ∧ IsDigits digits ∧ digitsValue digits < 2 ^ 32

/-- A decimal number in the range of `i64`, possibly after a sign. -/
def IsI64 (s : Text) : Prop :=
  ∃ digits, IsDigits digits ∧ ((s = digits ∨ s = '+' :: digits) ∧ FitsI64 (digitsValue digits) ∨
    s = '-' :: digits ∧ FitsI64 (-digitsValue digits))

theorem not_isDigits_cons {c : Char} (hc : c.isDigit = false) (s : Text) : ¬ IsDigits (c :: s) :=
  fun h => by simp [h.digits c List.mem_cons_self] at hc

theorem isSome_parseU32_iff (s : Text) : (parseU32 s).isSome ↔ IsU32 s := by
  have hfilter : ∀ t : Text, ((parseDigits t).filter (· < 2 ^ 32)).isSome ↔
      IsDigits t ∧ digitsValue t < 2 ^ 32 := by
    intro t
    rw [Option.isSome_iff_exists]
    constructor
    · rintro ⟨n, hn⟩
      obtain ⟨hparse, hlt⟩ := Option.filter_eq_some_iff.mp hn
      obtain ⟨hdigits, rfl⟩ := parseDigits_eq_some_iff.mp hparse
      exact ⟨hdigits, of_decide_eq_true hlt⟩
    · rintro ⟨hdigits, hlt⟩
      exact ⟨_, Option.filter_eq_some_iff.mpr
        ⟨parseDigits_eq_some_iff.mpr ⟨hdigits, rfl⟩, decide_eq_true hlt⟩⟩
  unfold parseU32 IsU32
  split
  · rename_i t
    rw [hfilter t]
    constructor
    · exact fun h => ⟨t, Or.inr rfl, h⟩
    · rintro ⟨digits, rfl | heq, h⟩
      · exact (not_isDigits_cons (by decide) t h.1).elim
      · exact (List.cons.inj heq).2 ▸ h
  · rename_i hplus
    rw [hfilter s]
    constructor
    · exact fun h => ⟨s, Or.inl rfl, h⟩
    · rintro ⟨digits, rfl | heq, h⟩
      · exact h
      · exact (hplus digits heq).elim

theorem isSome_parseI64_iff (s : Text) : (parseI64 s).isSome ↔ IsI64 s := by
  have hsome : (parseI64 s).isSome ↔ ∃ z, parseInt s = some z ∧ FitsI64 z := by
    unfold parseI64
    split
    · rename_i z hz
      by_cases hfits : FitsI64 z <;> simp [hfits, hz]
    · rename_i hz
      simp [hz]
  have hmap : ∀ (t : Text) (f : ℕ → ℤ), (∃ z, (parseDigits t).map f = some z ∧ FitsI64 z) ↔
      IsDigits t ∧ FitsI64 (f (digitsValue t)) := by
    intro t f
    constructor
    · rintro ⟨z, hz, hfits⟩
      obtain ⟨n, hn, rfl⟩ := Option.map_eq_some_iff.mp hz
      obtain ⟨hdigits, rfl⟩ := parseDigits_eq_some_iff.mp hn
      exact ⟨hdigits, hfits⟩
    · rintro ⟨hdigits, hfits⟩
      exact ⟨_, Option.map_eq_some_iff.mpr
        ⟨_, parseDigits_eq_some_iff.mpr ⟨hdigits, rfl⟩, rfl⟩, hfits⟩
  rw [hsome]
  unfold parseInt IsI64
  split
  · rename_i t
    rw [hmap]
    constructor
    · exact fun h => ⟨t, h.1, Or.inl ⟨Or.inr rfl, h.2⟩⟩
    · rintro ⟨digits, hdigits, ⟨rfl | heq, hfits⟩ | ⟨heq, -⟩⟩
      · exact (not_isDigits_cons (by decide) t hdigits).elim
      · rw [(List.cons.inj heq).2]
        exact ⟨hdigits, hfits⟩
      · exact absurd (List.cons.inj heq).1 (by decide)
  · rename_i t
    rw [hmap]
    constructor
    · exact fun h => ⟨t, h.1, Or.inr ⟨rfl, h.2⟩⟩
    · rintro ⟨digits, hdigits, ⟨rfl | heq, -⟩ | ⟨heq, hfits⟩⟩
      · exact (not_isDigits_cons (by decide) t hdigits).elim
      · exact absurd (List.cons.inj heq).1 (by decide)
      · rw [(List.cons.inj heq).2]
        exact ⟨hdigits, hfits⟩
  · rename_i hplus hminus
    rw [hmap]
    constructor
    · exact fun h => ⟨s, h.1, Or.inl ⟨Or.inl rfl, h.2⟩⟩
    · rintro ⟨digits, hdigits, ⟨rfl | heq, hfits⟩ | ⟨heq, -⟩⟩
      · exact ⟨hdigits, hfits⟩
      · exact (hplus digits heq).elim
      · exact (hminus digits heq).elim

end AirHuim.Library
