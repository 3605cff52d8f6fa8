import AirHuim.Library.Text
import AirHuim.Preprocessing.TwuFilter

/-!
# Reading the text of a dataset

The reader takes a line at a time, skips blank lines and comments, and parses
the rest; a line that is accepted is given the next `tid`. What it yields on a
text is what the miners read from the text's `DataSource`, and a text of rendered
transactions, blank lines, comments and lines outside the grammar is read as
such, line by line.
-/

namespace AirHuim

open Library

/-- Why `parse_spmf_line` rejects a line. -/
inductive SpmfError
  /-- "missing items" -/
  | missingItems
  /-- "missing transaction utility" -/
  | missingTransactionUtility
  /-- "missing utilities" -/
  | missingUtilities
  /-- An item, a utility or the transaction utility is no number in range. -/
  | parseInt
  /-- "item count {} != utility count {}" -/
  | countMismatch (items utilities : ℕ)
  deriving DecidableEq, Repr

def parseSpmfLine (line : Text) : Except SpmfError SpmfRow := do
  let itemsPart :: parts := splitn [':'] 3 line | .error .missingItems
  let tuPart :: parts := parts | .error .missingTransactionUtility
  let utilsPart :: _ := parts | .error .missingUtilities
  let some itemIds := (splitWhitespace itemsPart).mapM parseU32 | .error .parseInt
  let some transactionUtility := parseI64 (trim tuPart) | .error .parseInt
  let some utilities := (splitWhitespace utilsPart).mapM parseI64 | .error .parseInt
  if itemIds.length ≠ utilities.length then
    .error (.countMismatch itemIds.length utilities.length)
  else
    .ok ⟨List.zipWith (fun item utility => ⟨item, utility.1⟩) itemIds utilities,
      transactionUtility.1, transactionUtility.2⟩

/-- The lines that `read_line` will return, and the next `tid`. -/
structure DbReader where
  lines : List Text
  currentTid : ℕ

namespace DbReader

def new (text : Text) : DbReader := ⟨splitInclusive text, 0⟩

/-- The loop of `next`, over the lines that are left. -/
def nextLine (currentTid : ℕ) :
    List Text → Except Fault (Option (Except Fault RawTransaction × DbReader))
  | [] => .ok none
  | lineBuf :: lines =>
    let line := trim lineBuf
    if line = [] ∨ line.head? = some '#' then nextLine currentTid lines
    else
      match parseSpmfLine line with
      | .error _ => .ok (some (.error .parse, ⟨lines, currentTid⟩))
      | .ok row =>
        if currentTid + 1 < 2 ^ 32 then
          .ok (some (.ok ⟨currentTid, row.transactionUtility, row.items⟩, ⟨lines, currentTid + 1⟩))
        else .error .overflow

def next (r : DbReader) : Except Fault (Option (Except Fault RawTransaction × DbReader)) :=
  nextLine r.currentTid r.lines

theorem length_lt_of_nextLine {tid : ℕ} {lines : List Text}
    {item : Except Fault RawTransaction} {r : DbReader}
    (h : nextLine tid lines = .ok (some (item, r))) : r.lines.length < lines.length := by
  induction lines with
  | nil => cases h
  | cons lineBuf lines ih =>
    rw [nextLine] at h
    split at h
    · exact (ih h).trans (Nat.lt_succ_self _)
    · split at h
      · cases h
        exact Nat.lt_succ_self _
      · split at h
        · cases h
          exact Nat.lt_succ_self _
        · cases h

/-- All that the iterator yields. -/
def collect (r : DbReader) : Except Fault (List (Except Fault RawTransaction)) :=
  match h : r.next with
  | .error e => .error e
  | .ok none => .ok []
  | .ok (some (item, r')) =>
    have : r'.lines.length < r.lines.length := length_lt_of_nextLine h
    r'.collect.map (item :: ·)
termination_by r.lines.length

theorem collect_of_error {r : DbReader} {e : Fault} (h : r.next = .error e) :
    r.collect = .error e := by
  rw [collect]
  split <;> simp_all

theorem collect_of_none {r : DbReader} (h : r.next = .ok none) : r.collect = .ok [] := by
  rw [collect]
  split <;> simp_all

theorem collect_of_some {r r' : DbReader} {item : Except Fault RawTransaction}
    (h : r.next = .ok (some (item, r'))) : r.collect = r'.collect.map (item :: ·) := by
  rw [collect]
  split <;> simp_all

theorem collect_congr {r r' : DbReader} (h : r.next = r'.next) : r.collect = r'.collect := by
  cases hnext : r'.next with
  | error e => rw [collect_of_error hnext, collect_of_error (h.trans hnext)]
  | ok result =>
    cases result with
    | none => rw [collect_of_none hnext, collect_of_none (h.trans hnext)]
    | some item => rw [collect_of_some hnext, collect_of_some (h.trans hnext)]

end DbReader

/-! ## The rows of a text -/

/-- What a line says about the database; nothing for a blank line or a comment. -/
def sourceLine (lineBuf : Text) : Option (Except Fault SpmfRow) :=
  let line := trim lineBuf
  if line = [] ∨ line.head? = some '#' then none
  else
    match parseSpmfLine line with
    | .error _ => some (.error .parse)
    | .ok row => some (.ok row)

def sourceOf (text : Text) : DataSource := (splitInclusive text).filterMap sourceLine

@[simp] theorem countP_isOk_ok {ε α : Type} (a : α) (xs : List (Except ε α)) :
    (Except.ok a :: xs).countP Except.isOk = xs.countP Except.isOk + 1 :=
  List.countP_cons_of_pos rfl

@[simp] theorem countP_isOk_error {ε α : Type} (e : ε) (xs : List (Except ε α)) :
    (Except.error e :: xs).countP Except.isOk = xs.countP Except.isOk :=
  List.countP_cons_of_neg Bool.false_ne_true

theorem collect_eq (lines : List Text) {tid : ℕ} (htid : tid < 2 ^ 32) :
    (DbReader.mk lines tid).collect =
      if tid + (dbReader tid (lines.filterMap sourceLine)).countP Except.isOk < 2 ^ 32 then
        .ok (dbReader tid (lines.filterMap sourceLine))
      else .error .overflow := by
  induction lines generalizing tid with
  | nil =>
    rw [DbReader.collect_of_none rfl]
    exact (if_pos htid).symm
  | cons lineBuf lines ih =>
    have hnext : (DbReader.mk (lineBuf :: lines) tid).next =
        DbReader.nextLine tid (lineBuf :: lines) := rfl
    rw [DbReader.nextLine] at hnext
    split at hnext
    · -- the loop goes on with the next line
      rename_i hskip
      have hnone : sourceLine lineBuf = none := if_pos hskip
      have hsame : (DbReader.mk (lineBuf :: lines) tid).collect = (DbReader.mk lines tid).collect :=
        DbReader.collect_congr hnext
      rw [hsame, ih htid, List.filterMap_cons_none hnone]
    · rename_i hline
      split at hnext
      · rename_i e hparse
        have hsome : sourceLine lineBuf = some (.error .parse) := by
          simp only [sourceLine, if_neg hline, hparse]
        rw [DbReader.collect_of_some hnext, ih htid, List.filterMap_cons_some hsome, dbReader,
          countP_isOk_error]
        split <;> rfl
      · rename_i row hparse
        have hsome : sourceLine lineBuf = some (.ok row) := by
          simp only [sourceLine, if_neg hline, hparse]
        rw [List.filterMap_cons_some hsome, dbReader, countP_isOk_ok]
        split at hnext
        · rename_i hroom
          rw [DbReader.collect_of_some hnext, ih hroom, Nat.add_right_comm, ← Nat.add_assoc]
          split <;> rfl
        · rename_i hfull
          rw [DbReader.collect_of_error hnext, if_neg (by omega)]

/-- What the iterator yields on a text is what the miners read. -/
theorem collect_new (text : Text) : (DbReader.new text).collect = readDb (sourceOf text) := by
  rw [DbReader.new, collect_eq _ (by norm_num), Nat.zero_add]
  rfl

/-! ## Rendered transactions -/

/-- `i1 .. in:tu:u1 .. un`. -/
def renderTransaction (items : List ItemEntry) (transactionUtility : Utility) : Text :=
  joinBlank (items.map fun e => formatNat e.item) ++ ':' ::
    (formatInt transactionUtility ++ ':' :: joinBlank (items.map fun e => formatInt e.utility))

/-- The fields of the entry are in the ranges of their types. -/
structure ItemEntry.Fits (e : ItemEntry) : Prop where
  item : e.item < 2 ^ 32
  utility : FitsI64 e.utility

instance (e : ItemEntry) : Decidable e.Fits :=
  decidable_of_iff (e.item < 2 ^ 32 ∧ FitsI64 e.utility) ⟨fun h => ⟨h.1, h.2⟩, fun h => ⟨h.1, h.2⟩⟩

theorem notMem_joinBlank {ts : List Text} {c : Char} (hc : c ≠ ' ') (h : ∀ t ∈ ts, c ∉ t) :
    c ∉ joinBlank ts := by
  intro hmem
  rcases mem_joinBlank hmem with hblank | ⟨t, ht, hct⟩
  · exact hc hblank
  · exact h t ht hct

theorem notMem_formatNat {c : Char} (hc : c.isDigit = false) (n : ℕ) : c ∉ formatNat n :=
  fun hmem => by simp [isDigit_of_mem_formatNat hmem] at hc

theorem notMem_formatInt {c : Char} (hc : c.isDigit = false) (hminus : c ≠ '-') (z : ℤ) :
    c ∉ formatInt z := by
  intro hmem
  rcases mem_formatInt hmem with h | h
  · exact hminus h
  · simp [h] at hc

theorem splitn_renderTransaction (items : List ItemEntry) (tu : Utility) :
    splitn [':'] 3 (renderTransaction items tu) =
      [joinBlank (items.map fun e => formatNat e.item), formatInt tu,
        joinBlank (items.map fun e => formatInt e.utility)] := by
  apply splitn_three
  · apply notMem_joinBlank (by decide)
    intro t ht
    obtain ⟨e, -, rfl⟩ := List.mem_map.mp ht
    exact notMem_formatNat (by decide) e.item
  · exact notMem_formatInt (by decide) (by decide) tu

theorem notMem_renderTransaction {c : Char} (hdigit : c.isDigit = false) (hminus : c ≠ '-')
    (hcolon : c ≠ ':') (hblank : c ≠ ' ') (items : List ItemEntry) (tu : Utility) :
    c ∉ renderTransaction items tu := by
  intro hmem
  rcases List.mem_append.mp hmem with hmem | hmem
  · refine notMem_joinBlank hblank (fun t ht => ?_) hmem
    obtain ⟨e, -, rfl⟩ := List.mem_map.mp ht
    exact notMem_formatNat hdigit e.item
  rcases List.mem_cons.mp hmem with heq | hmem
  · exact hcolon heq
  rcases List.mem_append.mp hmem with hmem | hmem
  · exact notMem_formatInt hdigit hminus tu hmem
  rcases List.mem_cons.mp hmem with heq | hmem
  · exact hcolon heq
  · refine notMem_joinBlank hblank (fun t ht => ?_) hmem
    obtain ⟨e, -, rfl⟩ := List.mem_map.mp ht
    exact notMem_formatInt hdigit hminus e.utility

theorem isToken_items {items : List ItemEntry} :
    ∀ t ∈ items.map fun e => formatNat e.item, IsToken t := by
  intro t ht
  obtain ⟨e, -, rfl⟩ := List.mem_map.mp ht
  exact isToken_formatNat e.item

theorem isToken_utilities {items : List ItemEntry} :
    ∀ t ∈ items.map fun e => formatInt e.utility, IsToken t := by
  intro t ht
  obtain ⟨e, -, rfl⟩ := List.mem_map.mp ht
  exact isToken_formatInt e.utility

/-- There is nothing to trim on a rendered transaction. -/
theorem trim_renderTransaction (items : List ItemEntry) (tu : Utility) :
    trim (renderTransaction items tu) = renderTransaction items tu := by
  apply trim_eq_self
  · intro c hc
    rw [renderTransaction, List.head?_append] at hc
    rcases Option.or_eq_some_iff.mp hc with hc | ⟨-, hc⟩
    · exact solid_head?_joinBlank isToken_items c hc
    · cases hc
      decide
  · intro c hc
    rw [renderTransaction, ← List.cons_append, ← List.append_assoc, List.append_cons,
      List.getLast?_append, List.getLast?_append] at hc
    rcases Option.or_eq_some_iff.mp hc with hc | ⟨-, hc⟩
    · exact solid_getLast?_joinBlank isToken_utilities c hc
    · cases hc
      decide

theorem zipWith_entries {items : List ItemEntry} {us : List {z : ℤ // FitsI64 z}}
    (h : List.Forall₂ (fun e u => e.utility = u.1) items us) :
    List.zipWith (fun item u => ⟨item, u.1⟩) (items.map ItemEntry.item) us = items := by
  induction h with
  | nil => rfl
  | cons he _ ih => rw [List.map_cons, List.zipWith_cons_cons, ih, ← he]

/-- A rendered transaction is parsed as what was rendered. -/
theorem parseSpmfLine_renderTransaction (row : SpmfRow) (h : ∀ e ∈ row.items, e.Fits) :
    parseSpmfLine (renderTransaction row.items row.transactionUtility) = .ok row := by
  have hitems : splitWhitespace (joinBlank (row.items.map fun e => formatNat e.item)) =
      row.items.map fun e => formatNat e.item :=
    splitWhitespace_joinBlank isToken_items
  have hutils : splitWhitespace (joinBlank (row.items.map fun e => formatInt e.utility)) =
      row.items.map fun e => formatInt e.utility :=
    splitWhitespace_joinBlank isToken_utilities
  have hids : (row.items.map fun e => formatNat e.item).mapM parseU32 =
      some (row.items.map ItemEntry.item) := by
    rw [mapM_eq_some_iff, List.forall₂_map_left_iff, List.forall₂_map_right_iff, List.forall₂_same]
    exact fun e he => parseU32_formatNat (h e he).item
  obtain ⟨us, hus⟩ : ∃ us, (row.items.map fun e => formatInt e.utility).mapM parseI64 =
    some us := by
    rw [exists_mapM_eq_some_iff]
    intro t ht
    obtain ⟨e, he, rfl⟩ := List.mem_map.mp ht
    rw [parseI64_formatInt (h e he).utility]
    rfl
  have hvals : List.Forall₂ (fun e (u : {z : ℤ // FitsI64 z}) => e.utility = u.1) row.items us :=
    (List.forall₂_map_left_iff.mp (mapM_eq_some_iff.mp hus)).imp fun _ _ =>
      eq_of_parseI64_formatInt
  have hlen : (row.items.map ItemEntry.item).length = us.length := by
    rw [List.length_map]
    exact hvals.length_eq
  have hzip := zipWith_entries hvals
  simp only [parseSpmfLine, splitn_renderTransaction, (isToken_formatInt _).trim,
    parseI64_formatInt row.fits, hitems, hutils, hids, hus, hlen, ne_eq,
      not_true_eq_false, if_false,
    hzip]

/-! ## Lines outside the grammar -/

/-- Two colons, `u32` tokens, an `i64`, and as many `i64` tokens. -/
def InGrammar (line : Text) : Prop :=
  ∃ items tu utils, line = items ++ ':' :: (tu ++ ':' :: utils) ∧ ':' ∉ items ∧ ':' ∉ tu ∧
    (∀ t ∈ splitWhitespace items, IsU32 t) ∧ IsI64 (trim tu) ∧
    (∀ t ∈ splitWhitespace utils, IsI64 t) ∧
    (splitWhitespace items).length = (splitWhitespace utils).length

theorem inGrammar_of_parseSpmfLine {line : Text} {row : SpmfRow}
    (h : parseSpmfLine line = .ok row) : InGrammar line := by
  unfold parseSpmfLine at h
  split at h
  case h_2 => cases h
  rename_i items parts hitems
  split at h
  case h_2 => cases h
  rename_i tu parts
  split at h
  case h_2 => cases h
  rename_i utils rest
  split at h
  case h_2 => cases h
  rename_i ids hids
  split at h
  case h_2 => cases h
  rename_i transactionUtility htransaction
  split at h
  case h_2 => cases h
  rename_i utilities hutilities
  split at h
  · cases h
  · rename_i hcount
    obtain ⟨hnoItems, hnoTu, hline⟩ := eq_of_splitn_three hitems
    have hidsLen := (mapM_eq_some_iff.mp hids).length_eq
    have hutilitiesLen := (mapM_eq_some_iff.mp hutilities).length_eq
    refine ⟨items, tu, utils, hline, hnoItems, hnoTu, ?_, ?_, ?_, by omega⟩
    · intro t ht
      exact (isSome_parseU32_iff t).mp (exists_mapM_eq_some_iff.mp ⟨ids, hids⟩ t ht)
    · exact (isSome_parseI64_iff _).mp (by rw [htransaction]; rfl)
    · intro t ht
      exact (isSome_parseI64_iff t).mp (exists_mapM_eq_some_iff.mp ⟨utilities, hutilities⟩ t ht)

/-- The parser accepts the lines of the grammar and no others. -/
theorem parseSpmfLine_ok_iff (line : Text) :
    (∃ row, parseSpmfLine line = .ok row) ↔ InGrammar line := by
  constructor
  · exact fun ⟨_, h⟩ => inGrammar_of_parseSpmfLine h
  · rintro ⟨items, tu, utils, rfl, hnoItems, hnoTu, hids, htu, hutilities, hcount⟩
    obtain ⟨ids, hids⟩ := exists_mapM_eq_some_iff.mpr fun t ht =>
      (isSome_parseU32_iff t).mpr (hids t ht)
    obtain ⟨us, hus⟩ := exists_mapM_eq_some_iff.mpr fun t ht =>
      (isSome_parseI64_iff t).mpr (hutilities t ht)
    obtain ⟨z, hz⟩ := Option.isSome_iff_exists.mp ((isSome_parseI64_iff _).mpr htu)
    have hlen : ids.length = us.length := by
      rw [← (mapM_eq_some_iff.mp hids).length_eq, hcount, (mapM_eq_some_iff.mp hus).length_eq]
    simp [parseSpmfLine, splitn_three hnoItems hnoTu, hids, hz, hus, hlen]

/-! ## Texts made of lines of every kind -/

/-- A line of a dataset text. -/
inductive SourceLine
  | transaction (row : SpmfRow) (fits : ∀ e ∈ row.items, e.Fits)
  | blank (text : Text) (oneLine : '\n' ∉ text) (blanks : ∀ c ∈ text, isWhitespace c)
  | comment (before after : Text) (oneLine : '\n' ∉ before ++ after)
      (blanks : ∀ c ∈ before, isWhitespace c)
  | malformed (text : Text) (oneLine : '\n' ∉ text) (notBlank : ∃ c ∈ text, isWhitespace c = false)
      (notComment : (trim text).head? ≠ some '#') (notInGrammar : ¬ InGrammar (trim text))

namespace SourceLine

def text : SourceLine → Text
  | transaction row _ => renderTransaction row.items row.transactionUtility
  | blank text _ _ => text
  | comment before after _ _ => before ++ '#' :: after
  | malformed text _ _ _ _ => text

/-- What is read of a line: a row, an error, or nothing. -/
def reading : SourceLine → Option (Except Fault SpmfRow)
  | transaction row _ => some (.ok row)
  | malformed _ _ _ _ _ => some (.error .parse)
  | _ => none

/-- The row that was rendered into a line. -/
def row? : SourceLine → Option SpmfRow
  | transaction row _ => some row
  | _ => none

theorem newline_notMem_text (l : SourceLine) : '\n' ∉ l.text := by
  cases l with
  | transaction row fits =>
    exact notMem_renderTransaction (by decide) (by decide) (by decide) (by decide) _ _
  | blank text oneLine blanks => exact oneLine
  | comment before after oneLine blanks =>
    intro hmem
    rcases List.mem_append.mp hmem with hmem | hmem
    · exact oneLine (List.mem_append_left after hmem)
    · rcases List.mem_cons.mp hmem with heq | hmem
      · exact absurd heq (by decide)
      · exact oneLine (List.mem_append_right before hmem)
  | malformed text oneLine _ _ _ => exact oneLine

/-- A line is read as what it is, with blanks after it or not. -/
theorem sourceLine_text (l : SourceLine) (blanks : Text) (hblanks : ∀ c ∈ blanks, isWhitespace c) :
    sourceLine (l.text ++ blanks) = l.reading := by
  rw [sourceLine, trim_append hblanks]
  cases l with
  | transaction row fits =>
    have htrim : trim (renderTransaction row.items row.transactionUtility) =
        renderTransaction row.items row.transactionUtility := trim_renderTransaction _ _
    have hkept : ¬ (renderTransaction row.items row.transactionUtility = [] ∨
        (renderTransaction row.items row.transactionUtility).head? = some '#') := by
      rintro (h | h)
      · exact List.append_ne_nil_of_right_ne_nil _ (List.cons_ne_nil _ _) h
      · exact notMem_renderTransaction (by decide) (by decide) (by decide) (by decide) _ _
          (List.mem_of_mem_head? h)
    simp only [text, reading, htrim, if_neg hkept, parseSpmfLine_renderTransaction row fits]
  | blank text oneLine hblank => exact if_pos (Or.inl (trim_eq_nil_iff.mpr hblank))
  | comment before after oneLine hblank =>
    exact if_pos (Or.inr (head?_trim hblank (by decide) after))
  | malformed text oneLine notBlank notComment notInGrammar =>
    obtain ⟨c, hc, hsolid⟩ := notBlank
    have hne : trim text ≠ [] := fun hnil => by simp [trim_eq_nil_iff.mp hnil c hc] at hsolid
    have hkept : ¬ (trim text = [] ∨ (trim text).head? = some '#') := by
      rintro (h | h)
      · exact hne h
      · exact notComment h
    cases hparse : parseSpmfLine (trim text) with
    | ok row => exact (notInGrammar (inGrammar_of_parseSpmfLine hparse)).elim
    | error e => simp only [SourceLine.text, reading, if_neg hkept, hparse]

theorem sourceLine_of_text_eq_nil {l : SourceLine} (h : l.text = []) : l.reading = none := by
  have hread := l.sourceLine_text [] fun c hc => (List.not_mem_nil hc).elim
  rw [h] at hread
  exact hread.symm

end SourceLine

/-- A file with these lines; the last one need not be ended by a newline. -/
def fileText (lines : List SourceLine) (last : Option SourceLine) : Text :=
  unlines (lines.map SourceLine.text) ++ last.elim [] SourceLine.text

theorem sourceOf_fileText (lines : List SourceLine) (last : Option SourceLine) :
    sourceOf (fileText lines last) = (lines ++ last.toList).filterMap SourceLine.reading := by
  have hlines : ∀ l ∈ lines.map SourceLine.text, '\n' ∉ l := by
    intro l hl
    obtain ⟨line, -, rfl⟩ := List.mem_map.mp hl
    exact line.newline_notMem_text
  have hread : ∀ line : SourceLine, sourceLine (line.text ++ ['\n']) = line.reading := by
    intro line
    apply line.sourceLine_text
    intro c hc
    rw [List.mem_singleton.mp hc]
    decide
  rw [sourceOf, fileText, splitInclusive_unlines hlines, List.filterMap_append,
    List.filterMap_append, List.map_map, List.filterMap_map]
  congr 1
  · exact List.filterMap_congr fun line _ => hread line
  · cases last with
    | none => rfl
    | some line =>
      rw [Option.elim_some, Option.toList_some]
      by_cases hempty : line.text = []
      · rw [hempty, List.filterMap_cons_none (SourceLine.sourceLine_of_text_eq_nil hempty)]
        rfl
      · rw [splitInclusive_of_notMem line.newline_notMem_text hempty]
        have hlast := line.sourceLine_text [] fun c hc => (List.not_mem_nil hc).elim
        rw [List.append_nil] at hlast
        simp only [List.filterMap_cons, List.filterMap_nil, hlast]

/-- A yielded item answers for what was read of a line. -/
def Answers : Except Fault SpmfRow → Except Fault RawTransaction → Prop
  | .ok row, item => ∃ tx, item = .ok tx ∧ tx.items = row.items ∧
      tx.transactionUtility = row.transactionUtility
  | .error e, item => item = .error e

/-- What the iterator yields is one item for each rendered transaction and each
malformed line, in order, and a transaction is numbered by those before it. -/
def ReadsExactly (lines : List SourceLine) (last : Option SourceLine) : Prop :=
  ∃ items, (DbReader.new (fileText lines last)).collect = .ok items ∧
    List.Forall₂ Answers ((lines ++ last.toList).filterMap SourceLine.reading) items ∧
    ∀ i tx, items[i]? = some (.ok tx) → tx.tid = (items.take i).countP Except.isOk

theorem answers_dbReader (tid : ℕ) (source : DataSource) :
    List.Forall₂ Answers source (dbReader tid source) := by
  induction source generalizing tid with
  | nil => exact List.Forall₂.nil
  | cons line source ih =>
    cases line with
    | error e => exact List.Forall₂.cons rfl (ih tid)
    | ok row => exact List.Forall₂.cons ⟨_, rfl, rfl, rfl⟩ (ih (tid + 1))

theorem countP_dbReader (tid : ℕ) (source : DataSource) :
    (dbReader tid source).countP Except.isOk = source.countP Except.isOk := by
  induction source generalizing tid with
  | nil => rfl
  | cons line source ih =>
    cases line with
    | error e => simp [dbReader, ih]
    | ok row => simp [dbReader, ih]

/-- A transaction's `tid` counts the transactions before it. -/
theorem tid_dbReader {tid : ℕ} {source : DataSource} {i : ℕ} {tx : RawTransaction}
    (h : (dbReader tid source)[i]? = some (.ok tx)) :
    tx.tid = tid + ((dbReader tid source).take i).countP Except.isOk := by
  induction source generalizing tid i with
  | nil => simp [dbReader] at h
  | cons line source ih =>
    cases line with
    | error e =>
      cases i with
      | zero => simp [dbReader] at h
      | succ i => simpa [dbReader] using ih h
    | ok row =>
      cases i with
      | zero =>
        cases h
        rfl
      | succ i =>
        have hlater := ih h
        simp only [dbReader, List.take_succ_cons, countP_isOk_ok]
        omega

theorem countP_reading (lines : List SourceLine) :
    (lines.filterMap SourceLine.reading).countP Except.isOk =
      (lines.filterMap SourceLine.row?).length := by
  induction lines with
  | nil => rfl
  | cons line lines ih =>
    cases line <;> simp [SourceLine.reading, SourceLine.row?, List.filterMap_cons, ih]

/-- A text with fewer transactions than there are tids is read line by line. -/
theorem readsExactly_of_lt {lines : List SourceLine} {last : Option SourceLine}
    (h : ((lines ++ last.toList).filterMap SourceLine.row?).length < 2 ^ 32) :
    ReadsExactly lines last := by
  have hcount : (dbReader 0 ((lines ++ last.toList).filterMap SourceLine.reading)).countP
      Except.isOk < 2 ^ 32 := by
    rw [countP_dbReader, countP_reading]
    exact h
  refine ⟨dbReader 0 ((lines ++ last.toList).filterMap SourceLine.reading), ?_,
    answers_dbReader 0 _, fun i tx hi => ?_⟩
  · rw [collect_new, sourceOf_fileText, readDb, if_pos hcount]
  · rw [tid_dbReader hi, Nat.zero_add]

/-- A transaction, a blank line, a comment with blanks around it, and a line with
one utility too few, not ended by a newline. -/
theorem readsExactly_of_lt_mixed :
    ReadsExactly
      [.transaction ⟨[⟨3, -7⟩, ⟨1, 9⟩], 2, by decide⟩ (by decide),
        .blank [' ', '\t'] (by decide) (List.all_eq_true.mp rfl),
        .comment [' '] [' ', 'x'] (by decide) (List.all_eq_true.mp rfl),
        .transaction ⟨[], 0, by decide⟩ (by decide)]
      (some (.malformed "1 2:3:4".toList (by decide) ⟨'1', by decide, rfl⟩ (by decide) (by
        intro hgrammar
        obtain ⟨row, hrow⟩ := (parseSpmfLine_ok_iff _).mpr hgrammar
        have herror : (parseSpmfLine (trim "1 2:3:4".toList)).isOk = false := by decide
        rw [hrow] at herror
        cases herror))) :=
  readsExactly_of_lt (by decide)

/-- Lines that render a transaction without items. -/
def emptyTransactions (n : ℕ) : List SourceLine :=
  List.replicate n (.transaction ⟨[], 0, by decide⟩ fun _ he => (List.not_mem_nil he).elim)

/-- There is no `tid` for the transaction after the last `u32`. -/
theorem not_readsExactly_overlong : ¬ ReadsExactly (emptyTransactions (2 ^ 32 + 1)) none := by
  rintro ⟨items, hitems, -⟩
  have hone : SourceLine.row? (.transaction ⟨[], 0, by decide⟩ fun _ he =>
      (List.not_mem_nil he).elim) = some ⟨[], 0, by decide⟩ := rfl
  have hrows : ((emptyTransactions (2 ^ 32 + 1)).filterMap SourceLine.row?).length =
      2 ^ 32 + 1 := by
    rw [emptyTransactions, List.filterMap_replicate_of_some hone, List.length_replicate]
  have hcount : ¬ (dbReader 0 ((emptyTransactions (2 ^ 32 + 1)).filterMap
      SourceLine.reading)).countP Except.isOk < 2 ^ 32 := by
    rw [countP_dbReader, countP_reading, hrows]
    norm_num
  rw [collect_new, sourceOf_fileText, Option.toList_none, List.append_nil, readDb,
    if_neg hcount] at hitems
  cases hitems

/-! ## Rejected lines -/

/-- The rows of the accepted lines. -/
def acceptedRows (source : DataSource) : List SpmfRow := source.filterMap Except.toOption

/-- No line is rejected. -/
def AllAccepted (source : DataSource) : Prop := ∀ line ∈ source, line.isOk

instance (source : DataSource) : Decidable (AllAccepted source) := List.decidableBAll _ _

theorem eq_map_ok_of_allAccepted {source : DataSource} (h : AllAccepted source) :
    source = (acceptedRows source).map .ok := by
  induction source with
  | nil => rfl
  | cons line source ih =>
    have hrest := ih fun l hl => h l (List.mem_cons_of_mem line hl)
    cases line with
    | error e => cases h (.error e) List.mem_cons_self
    | ok row =>
      conv_lhs => rw [hrest]
      rfl

theorem acceptedRows_map_ok (db : List SpmfRow) :
    acceptedRows (db.map (.ok : SpmfRow → Except Fault SpmfRow)) = db := by
  rw [acceptedRows, List.filterMap_map]
  exact List.filterMap_some

/-- To what drops the errors, the rejected lines are not there. -/
theorem okOnly_dbReader (tid : ℕ) (source : DataSource) :
    okOnly (dbReader tid source) = numbered tid (acceptedRows source) := by
  induction source generalizing tid with
  | nil => rfl
  | cons line source ih =>
    cases line with
    | error e => exact ih tid
    | ok row => exact congrArg _ (ih (tid + 1))

theorem countP_acceptedRows (source : DataSource) :
    source.countP Except.isOk = (acceptedRows source).length := by
  induction source with
  | nil => rfl
  | cons line source ih =>
    cases line with
    | error e => rw [countP_isOk_error, ih]; rfl
    | ok row => rw [countP_isOk_ok, ih]; rfl

theorem readDb_eq (source : DataSource) :
    readDb source = if (acceptedRows source).length < 2 ^ 32 then .ok (dbReader 0 source)
      else .error .overflow := by
  rw [readDb, countP_dbReader, countP_acceptedRows]

/-! ## The fields of a row that was read -/

/-- The parts of a parsed line, with what is read of them. -/
theorem parts_of_parseSpmfLine {line : Text} {row : SpmfRow} (h : parseSpmfLine line = .ok row) :
    ∃ items tu utils, line = items ++ ':' :: (tu ++ ':' :: utils) ∧ ':' ∉ items ∧ ':' ∉ tu ∧
      (splitWhitespace items).mapM parseU32 = some (row.items.map ItemEntry.item) ∧
      parseI64 (trim tu) = some ⟨row.transactionUtility, row.fits⟩ ∧
      ∀ e ∈ row.items, FitsI64 e.utility := by
  unfold parseSpmfLine at h
  split at h
  case h_2 => cases h
  rename_i items parts hitems
  split at h
  case h_2 => cases h
  rename_i tu parts
  split at h
  case h_2 => cases h
  rename_i utils rest
  split at h
  case h_2 => cases h
  rename_i ids hids
  split at h
  case h_2 => cases h
  rename_i transactionUtility htransaction
  split at h
  case h_2 => cases h
  rename_i utilities hutilities
  split at h
  · cases h
  · rename_i hcount
    cases h
    obtain ⟨hnoItems, hnoTu, hline⟩ := eq_of_splitn_three hitems
    refine ⟨items, tu, utils, hline, hnoItems, hnoTu, ?_, htransaction, fun e he => ?_⟩
    · rw [hids, ← List.map_uncurry_zip_eq_zipWith, List.map_map]
      exact congrArg some (List.map_fst_zip (not_ne_iff.mp hcount).le).symm
    · dsimp only at he
      rw [← List.map_uncurry_zip_eq_zipWith] at he
      obtain ⟨⟨id, utility⟩, -, rfl⟩ := List.mem_map.mp he
      exact utility.2

/-- The entries of a parsed row are in the ranges of their types. -/
theorem fits_of_parseSpmfLine {line : Text} {row : SpmfRow} (h : parseSpmfLine line = .ok row) :
    ∀ e ∈ row.items, e.Fits := by
  obtain ⟨items, -, -, -, -, -, hids, -, hutilities⟩ := parts_of_parseSpmfLine h
  intro e he
  obtain ⟨t, -, ht⟩ := exists_of_mem_mapM hids e.item (List.mem_map_of_mem he)
  exact ⟨lt_of_parseU32 ht, hutilities e he⟩

theorem fits_of_mem_acceptedRows {text : Text} {row : SpmfRow}
    (h : row ∈ acceptedRows (sourceOf text)) : ∀ e ∈ row.items, e.Fits := by
  obtain ⟨line, hline, hrow⟩ := List.mem_filterMap.mp h
  obtain ⟨lineBuf, -, hread⟩ := List.mem_filterMap.mp hline
  cases line with
  | error e => cases hrow
  | ok row' =>
    cases hrow
    unfold sourceLine at hread
    dsimp only at hread
    split at hread
    · cases hread
    · split at hread
      · cases hread
      · rename_i row' hparse
        cases hread
        exact fits_of_parseSpmfLine hparse

end AirHuim
