import AirHuim.Experiment.ResultFile
import AirHuim.Preprocessing.TwuBound

/-!
# Dataset statistics

Before a run the dataset is read once for its size and shape, by a reader of its
own that is laxer than the one of the miners: it takes every line with two colons
and skips the tokens that are no numbers. On a text that the miners accept it
counts exactly what they read.
-/

namespace AirHuim

open Library

/-- The averages, which are quotients of these numbers, are left out. -/
structure DatasetStats where
  numTransactions : ℕ
  numUniqueItems : ℕ
  maxTransactionLength : ℕ
  totalUtility : Utility
  fileSizeBytes : ℕ
  estimatedDbRamBytes : ℕ
  deriving DecidableEq, Repr

/-- The variables of the pass. -/
structure StatsPass where
  numTransactions : ℕ
  totalItems : ℕ
  maxTransactionLength : ℕ
  totalUtility : Utility
  uniqueItems : Finset ItemId
  deriving DecidableEq

namespace StatsPass

def new : StatsPass := ⟨0, 0, 0, 0, ∅⟩

/-- What is taken of a line: the items, and the utility if it is a number. -/
def readLine (line : Text) : Option (List ItemId × Option Utility) :=
  let line := trim line
  if line = [] ∨ line.head? = some '#' ∨ line.head? = some '@' then none
  else
    match line.splitOn ':' with
    | itemsStr :: tuStr :: _ :: _ =>
      some ((splitWhitespace (trim itemsStr)).filterMap parseU32,
        (parseI64 (trim tuStr)).map Subtype.val)
    | _ => none

def add (s : StatsPass) (items : List ItemId) (tu : Option Utility) : Except Fault StatsPass := do
  let totalUtility ← match tu with
    | some tu => checkI64 (s.totalUtility + tu)
    | none => .ok s.totalUtility
  .ok ⟨s.numTransactions + 1, s.totalItems + items.length,
    if s.maxTransactionLength < items.length then items.length else s.maxTransactionLength,
    totalUtility, s.uniqueItems ∪ items.toFinset⟩

def addLine (s : StatsPass) (line : Text) : Except Fault StatsPass :=
  match readLine line with
  | some (items, tu) => s.add items tu
  | none => .ok s

end StatsPass

def DatasetStats.precompute (text : Text) : Except Fault DatasetStats := do
  let s ← (textLines text).foldlM StatsPass.addLine .new
  .ok ⟨s.numTransactions, s.uniqueItems.card, s.maxTransactionLength, s.totalUtility,
    (text.map Char.utf8Size).sum, s.totalItems * 20⟩

/-! ## The two readers on a line -/

theorem trim_stripLineEnd (l : Text) : trim (stripLineEnd l) = trim l := by
  have hlast : ∀ {s : Text} {c : Char}, s.getLast? = some c → s.dropLast ++ [c] = s := by
    exact fun hc => List.dropLast_append_getLast? _ hc
  have hnewline : ∀ c ∈ ['\n'], isWhitespace c := List.all_eq_true.mp rfl
  have hreturn : ∀ c ∈ ['\r'], isWhitespace c := List.all_eq_true.mp rfl
  unfold stripLineEnd
  split
  · rename_i hl
    have htrim : trim l.dropLast = trim l := by
      conv_rhs => rw [← hlast hl]
      exact (trim_append hnewline).symm
    split
    · rename_i hr
      rw [← htrim]
      conv_rhs => rw [← hlast hr]
      exact (trim_append hreturn).symm
    · exact htrim
  · rfl

namespace StatsPass

/-- A line that the miners skip is skipped. -/
theorem readLine_of_none {l : Text} (h : sourceLine l = none) :
    readLine (stripLineEnd l) = none := by
  have hskip : trim l = [] ∨ (trim l).head? = some '#' := by
    by_contra hline
    unfold sourceLine at h
    rw [if_neg hline] at h
    split at h <;> cases h
  rw [readLine, trim_stripLineEnd]
  exact if_pos (hskip.imp_right Or.inl)

/-- Of a line that the miners accept the same items and utility are taken. -/
theorem readLine_of_row {l : Text} {row : SpmfRow} (h : sourceLine l = some (.ok row)) :
    readLine (stripLineEnd l) =
      some (row.items.map ItemEntry.item, some row.transactionUtility) := by
  unfold sourceLine at h
  dsimp only at h
  split at h
  · cases h
  rename_i hline
  split at h
  · cases h
  rename_i row' hparse
  cases h
  obtain ⟨items, tu, utils, heq, hnoItems, hnoTu, hids, htu, -⟩ := parts_of_parseSpmfLine hparse
  -- a line that starts with '@' has a token that is no number
  have hat : (trim l).head? ≠ some '@' := by
    intro hhead
    rw [heq] at hhead
    cases items with
    | nil => cases hhead
    | cons c items =>
      obtain rfl : c = '@' := by simpa using hhead
      obtain ⟨t, ht⟩ := exists_token_cons (by decide : isWhitespace '@' = false) items
      have hsome := exists_mapM_eq_some_iff.mp ⟨_, hids⟩ _ ht
      have hnone : parseU32 ('@' :: t) = none := by
        have hdigits : parseDigits ('@' :: t) = none := if_neg (by simp)
        simp [parseU32, hdigits]
      rw [hnone] at hsome
      cases hsome
  have hsplit : ∃ last rest, (trim l).splitOn ':' = items :: tu :: last :: rest := by
    obtain ⟨last, rest, hlast⟩ := List.exists_cons_of_ne_nil (List.splitOn_ne_nil ':' utils)
    refine ⟨last, rest, ?_⟩
    rw [heq, List.splitOn_append_cons_self, List.splitOn_eq_singleton hnoItems,
      List.splitOn_append_cons_self, List.splitOn_eq_singleton hnoTu, hlast]
    rfl
  obtain ⟨last, rest, hsplit⟩ := hsplit
  rw [readLine, trim_stripLineEnd, if_neg fun hskip => hline (hskip.imp_right fun h =>
    h.resolve_right hat)]
  simp only [hsplit, splitWhitespace_trim, filterMap_of_mapM hids, htu, Option.map_some]

end StatsPass

/-! ## The statistics of a database -/

/-- No running total of the stated utilities leaves the range of `i64`. -/
def TotalsFit (db : List SpmfRow) : Prop :=
  ∀ n ≤ db.length, FitsI64 ((db.take n).map SpmfRow.transactionUtility).sum

instance (db : List SpmfRow) : Decidable (TotalsFit db) :=
  decidable_of_iff (∀ n : Fin (db.length + 1),
      FitsI64 ((db.take n).map SpmfRow.transactionUtility).sum)
    ⟨fun h n hn => h ⟨n, Nat.lt_succ_of_le hn⟩, fun h n => h n (Nat.le_of_lt_succ n.2)⟩

/-- The statistics of these rows, in a file of this many bytes. -/
def DatasetStats.of (db : List SpmfRow) (fileSizeBytes : ℕ) : DatasetStats where
  numTransactions := db.length
  numUniqueItems := (db.flatMap fun row => row.items.map ItemEntry.item).toFinset.card
  maxTransactionLength := (db.map fun row => row.items.length).foldl max 0
  totalUtility := (db.map SpmfRow.transactionUtility).sum
  fileSizeBytes
  estimatedDbRamBytes := (db.map fun row => row.items.length).sum * 20

namespace StatsPass

def addRow (s : StatsPass) (row : SpmfRow) : Except Fault StatsPass :=
  s.add (row.items.map ItemEntry.item) (some row.transactionUtility)

theorem foldlM_addLine {lines : List Text} (h : AllAccepted (lines.filterMap sourceLine))
    (s : StatsPass) :
    (lines.map stripLineEnd).foldlM addLine s =
      (acceptedRows (lines.filterMap sourceLine)).foldlM addRow s := by
  induction lines generalizing s with
  | nil => rfl
  | cons l lines ih =>
    rw [List.map_cons, List.foldlM_cons]
    cases hl : sourceLine l with
    | none =>
      rw [List.filterMap_cons_none hl] at h ⊢
      have hstep : s.addLine (stripLineEnd l) = .ok s := by
        rw [addLine, readLine_of_none hl]
      rw [hstep]
      exact ih h s
    | some line =>
      rw [List.filterMap_cons_some hl] at h ⊢
      cases line with
      | error e => cases h (.error e) List.mem_cons_self
      | ok row =>
        have hrows : acceptedRows (.ok row :: lines.filterMap sourceLine) =
            row :: acceptedRows (lines.filterMap sourceLine) := rfl
        have hstep : s.addLine (stripLineEnd l) = s.addRow row := by
          rw [addLine, readLine_of_row hl]
          rfl
        rw [hrows, List.foldlM_cons, hstep]
        refine bind_congr fun s' => ?_
        exact ih (fun line hline => h line (List.mem_cons_of_mem _ hline)) s'

/-- The running totals from a start on. -/
theorem totalsFit_cons {acc : Utility} {row : SpmfRow} {db : List SpmfRow} :
    (∀ n ≤ (row :: db).length,
        FitsI64 (acc + (((row :: db).take n).map SpmfRow.transactionUtility).sum)) ↔
      FitsI64 acc ∧ ∀ n ≤ db.length,
        FitsI64 (acc + row.transactionUtility +
          ((db.take n).map SpmfRow.transactionUtility).sum) := by
  constructor
  · intro h
    refine ⟨by simpa using h 0 (Nat.zero_le _), fun n hn => ?_⟩
    simpa [add_assoc] using h (n + 1) (Nat.succ_le_succ hn)
  · rintro ⟨hacc, h⟩ n hn
    cases n with
    | zero => simpa using hacc
    | succ n => simpa [add_assoc] using h n (Nat.le_of_succ_le_succ hn)

/-- The pass over some rows, from any state of its variables. -/
theorem foldlM_addRow {s : StatsPass} (hs : FitsI64 s.totalUtility) (db : List SpmfRow) :
    db.foldlM addRow s =
      if ∀ n ≤ db.length,
          FitsI64 (s.totalUtility + ((db.take n).map SpmfRow.transactionUtility).sum) then
        .ok ⟨s.numTransactions + db.length,
          s.totalItems + (db.map fun row => row.items.length).sum,
          (db.map fun row => row.items.length).foldl max s.maxTransactionLength,
          s.totalUtility + (db.map SpmfRow.transactionUtility).sum,
          s.uniqueItems ∪ (db.flatMap fun row => row.items.map ItemEntry.item).toFinset⟩
      else .error .overflow := by
  induction db generalizing s with
  | nil =>
    rw [if_pos (by simpa using hs)]
    simp
    rfl
  | cons row db ih =>
    rw [List.foldlM_cons]
    by_cases hfits : FitsI64 (s.totalUtility + row.transactionUtility)
    · have hadd : s.addRow row = .ok ⟨s.numTransactions + 1, s.totalItems + row.items.length,
          max s.maxTransactionLength row.items.length, s.totalUtility + row.transactionUtility,
          s.uniqueItems ∪ (row.items.map ItemEntry.item).toFinset⟩ := by
        rw [addRow, add, checkI64, if_pos hfits, max_def_lt, List.length_map]
        rfl
      have hrest := ih (s := ⟨s.numTransactions + 1, s.totalItems + row.items.length,
          max s.maxTransactionLength row.items.length, s.totalUtility + row.transactionUtility,
          s.uniqueItems ∪ (row.items.map ItemEntry.item).toFinset⟩) hfits
      rw [hadd, if_congr (totalsFit_cons.trans (and_iff_right hs)) rfl rfl]
      refine hrest.trans (if_congr Iff.rfl (congrArg Except.ok ?_) rfl)
      simp [add_assoc, Nat.add_comm 1]
    · have hadd : s.addRow row = .error .overflow := by
        rw [addRow, add, checkI64, if_neg hfits]
        rfl
      rw [hadd, if_neg]
      · rfl
      · intro hall
        have hone := hall 1 (by simp)
        exact hfits (by simpa using hone)

/-- The pass over a text that the miners accept is one over the rows they read. -/
theorem foldlM_addLine_new {text : Text} (h : AllAccepted (sourceOf text)) :
    (textLines text).foldlM addLine .new =
      if TotalsFit (acceptedRows (sourceOf text)) then
        let db := acceptedRows (sourceOf text)
        .ok ⟨db.length, (db.map fun row => row.items.length).sum,
          (db.map fun row => row.items.length).foldl max 0,
          (db.map SpmfRow.transactionUtility).sum,
          (db.flatMap fun row => row.items.map ItemEntry.item).toFinset⟩
      else .error .overflow := by
  have hpass := foldlM_addLine h .new
  rw [foldlM_addRow (by decide)] at hpass
  simp only [new, zero_add, Finset.empty_union] at hpass
  exact hpass.trans (if_congr Iff.rfl rfl rfl)

end StatsPass

/-- Utilities of a fitting total fit all the way. -/
theorem totalsFit_of_lt {db : List SpmfRow} (hwf : ∀ row ∈ db, row.WellFormed)
    (h : (db.map SpmfRow.transactionUtility).sum < 2 ^ 63) : TotalsFit db := by
  have hnonneg : ∀ rows : List SpmfRow, (∀ row ∈ rows, row ∈ db) →
      0 ≤ (rows.map SpmfRow.transactionUtility).sum := by
    intro rows hrows
    refine List.sum_nonneg fun u hu => ?_
    obtain ⟨row, hrow, rfl⟩ := List.mem_map.mp hu
    have hrowWf := hwf row (hrows row hrow)
    rw [hrowWf.total]
    refine List.sum_nonneg fun v hv => ?_
    obtain ⟨e, he, rfl⟩ := List.mem_map.mp hv
    exact hrowWf.nonneg e he
  intro n _
  have htake := hnonneg (db.take n) fun row hrow => List.mem_of_mem_take hrow
  have hdrop := hnonneg (db.drop n) fun row hrow => List.mem_of_mem_drop hrow
  have hsplit : (db.map SpmfRow.transactionUtility).sum =
      ((db.take n).map SpmfRow.transactionUtility).sum +
        ((db.drop n).map SpmfRow.transactionUtility).sum := by
    rw [← List.sum_append, ← List.map_append, List.take_append_drop]
  constructor
  · linarith
  · linarith

theorem DatasetStats.exists_precompute {text : Text} (h : AllAccepted (sourceOf text))
    (hfits : TotalsFit (acceptedRows (sourceOf text))) : ∃ stats, precompute text = .ok stats := by
  rw [precompute, StatsPass.foldlM_addLine_new h, if_pos hfits]
  exact ⟨_, rfl⟩

/-- On a text that the miners accept the statistics are those of the rows they read,
or a running total of the utilities is out of range. -/
theorem DatasetStats.precompute_eq {text : Text} (h : AllAccepted (sourceOf text)) :
    precompute text =
      if TotalsFit (acceptedRows (sourceOf text)) then
        .ok (.of (acceptedRows (sourceOf text)) (text.map Char.utf8Size).sum)
      else .error .overflow := by
  rw [precompute, StatsPass.foldlM_addLine_new h]
  split <;> rfl

/-- A transaction, a comment, a blank line and a second transaction. -/
theorem DatasetStats.precompute_eq_mock :
    precompute "1 2:40:20 20\n# none\n \n2 7 9:60:30 20 10\n".toList =
      .ok ⟨2, 4, 3, 100, 40, 100⟩ := by
  have haccepted :
      AllAccepted (sourceOf "1 2:40:20 20\n# none\n \n2 7 9:60:30 20 10\n".toList) := by
    decide
  exact (precompute_eq haccepted).trans (by decide)

end AirHuim
