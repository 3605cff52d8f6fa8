import AirHuim.Library.Text
import AirHuim.Library.SortByKey
import AirHuim.Types

/-!
# Result files

The writer appends one line for each reported itemset, and the exactness checker
reads such a file back into a set of sorted itemsets with their utilities. The
main result is that nothing is lost or changed on the way.
-/

namespace AirHuim

open Library

/-- `"{} #UTIL: {}\n"`. -/
def huiLine (itemset : List ItemId) (utility : Utility) : Text :=
  joinBlank (itemset.map formatNat) ++ " #UTIL: ".toList ++ formatInt utility ++ ['\n']

/-- The file as it is after a flush, and the number of its lines. -/
structure ResultWriter where
  file : Text
  count : ℕ

namespace ResultWriter

def new : ResultWriter := ⟨[], 0⟩

def writeHui (w : ResultWriter) (itemset : List ItemId) (utility : Utility) : ResultWriter :=
  ⟨w.file ++ huiLine itemset utility, w.count + 1⟩

/-- The writer after a sequence of calls. -/
def writeAll (lines : List Line) : ResultWriter := lines.foldl (fun w l => w.writeHui l.1 l.2) new

end ResultWriter

/-- What `lines` leaves of a line that it has cut off. -/
def stripLineEnd (l : Text) : Text :=
  if l.getLast? = some '\n' then
    if l.dropLast.getLast? = some '\r' then l.dropLast.dropLast else l.dropLast
  else l

/-- `str::lines`. -/
def textLines (s : Text) : List Text := (splitInclusive s).map stripLineEnd

def utilTag : Text := ['#', 'U', 'T', 'I', 'L', ':']

/-- What `parse_hui_file` makes of a line; nothing of a blank one. -/
def parseHuiLine (line : Text) : Option Line :=
  let line := trim line
  if line = [] then none
  else
    let parts := splitn utilTag 2 line
    let itemsStr := trim (parts.getD 0 [])
    let utilStr := trim (parts.getD 1 ['0'])
    let items := sortByKey id ((splitWhitespace itemsStr).filterMap parseU32)
    let utility := ((parseI64 utilStr).map Subtype.val).getD 0
    some (items, utility)

/-- The set that the lines are inserted into. -/
def parseHuiFile (content : Text) : Finset Line :=
  ((textLines content).filterMap parseHuiLine).toFinset

/-- What can be passed to `write_hui`: `u32` items and an `i64` utility. -/
structure FitsLine (l : Line) : Prop where
  items : ∀ i ∈ l.1, i < 2 ^ 32
  utility : FitsI64 l.2

instance (l : Line) : Decidable (FitsLine l) :=
  decidable_of_iff ((∀ i ∈ l.1, i < 2 ^ 32) ∧ FitsI64 l.2)
    ⟨fun h => ⟨h.1, h.2⟩, fun h => ⟨h.1, h.2⟩⟩

/-- The line that is read for a written one. -/
def sortedLine (l : Line) : Line := (sortByKey id l.1, l.2)

theorem isToken_formatNats {itemset : List ItemId} :
    ∀ t ∈ itemset.map formatNat, IsToken t := by
  intro t ht
  obtain ⟨i, -, rfl⟩ := List.mem_map.mp ht
  exact isToken_formatNat i

/-- A line without its newline, and what is before and after the tag. -/
theorem trim_huiLine (itemset : List ItemId) (utility : Utility) :
    ∃ before, trim (joinBlank (itemset.map formatNat) ++ " #UTIL: ".toList ++ formatInt utility) =
        before ++ utilTag ++ ' ' :: formatInt utility ∧
      '#' ∉ before ∧ trim before = joinBlank (itemset.map formatNat) := by
  have hlast : ∀ (s : Text), ∀ c ∈ (s ++ formatInt utility).getLast?, isWhitespace c = false := by
    intro s c hc
    have hne := formatInt_ne_nil utility
    rw [List.getLast?_append_of_ne_nil _ hne] at hc
    exact (isToken_formatInt utility).solid c (List.mem_of_mem_getLast? hc)
  have hcut : joinBlank (itemset.map formatNat) ++ " #UTIL: ".toList ++ formatInt utility =
      (joinBlank (itemset.map formatNat) ++ [' ']) ++ (utilTag ++ [' '] ++ formatInt utility) := by
    simp [utilTag]
  by_cases hitems : itemset = []
  · subst hitems
    refine ⟨[], ?_, List.not_mem_nil, rfl⟩
    have hhead : ∀ c ∈ (utilTag ++ [' '] ++ formatInt utility).head?, isWhitespace c = false := by
      intro c hc
      cases hc
      decide
    rw [hcut, trim_append_left (List.all_eq_true.mp rfl), trim_eq_self hhead (hlast _)]
    simp
  · have htokens : itemset.map formatNat ≠ [] := by simpa using hitems
    have hne := joinBlank_ne_nil isToken_formatNats htokens
    have hsolid : ∀ c ∈ (joinBlank (itemset.map formatNat)).head?, isWhitespace c = false :=
      solid_head?_joinBlank isToken_formatNats
    refine ⟨joinBlank (itemset.map formatNat) ++ [' '], ?_, ?_, ?_⟩
    · rw [hcut, trim_eq_self]
      · simp
      · intro c hc
        rw [List.append_assoc, List.head?_append_of_ne_nil _ hne] at hc
        exact hsolid c hc
      · rw [← List.append_assoc]
        exact hlast _
    · intro hmem
      rcases List.mem_append.mp hmem with hmem | hmem
      · rcases mem_joinBlank hmem with heq | ⟨t, ht, hct⟩
        · exact absurd heq (by decide)
        · obtain ⟨i, -, rfl⟩ := List.mem_map.mp ht
          exact absurd (isDigit_of_mem_formatNat hct) (by decide)
      · exact absurd hmem (by decide)
    · rw [trim_append (List.all_eq_true.mp rfl)]
      exact trim_eq_self hsolid (solid_getLast?_joinBlank isToken_formatNats)

theorem filterMap_parseU32 {itemset : List ItemId} (h : ∀ i ∈ itemset, i < 2 ^ 32) :
    (itemset.map formatNat).filterMap parseU32 = itemset := by
  induction itemset with
  | nil => rfl
  | cons i itemset ih =>
    rw [List.map_cons, List.filterMap_cons_some (parseU32_formatNat (h i List.mem_cons_self)),
      ih fun j hj => h j (List.mem_cons_of_mem i hj)]

/-- A line that trims to what a written line trims to is read as that line. -/
theorem parseHuiLine_of_trim {line before : Text} {l : Line} (h : FitsLine l)
    (hline : trim line = before ++ utilTag ++ ' ' :: formatInt l.2) (hbefore : '#' ∉ before)
    (hitems : trim before = joinBlank (l.1.map formatNat)) :
    parseHuiLine line = some (sortedLine l) := by
  have hne : trim line ≠ [] := by
    rw [hline, utilTag]
    simp
  have hsplit : splitn utilTag 2 (trim line) = [before, ' ' :: formatInt l.2] := by
    rw [hline]
    exact splitn_two hbefore _ _
  have hutil : trim (' ' :: formatInt l.2) = formatInt l.2 :=
    (trim_append_left (s := [' ']) (List.all_eq_true.mp rfl) _).trans (isToken_formatInt l.2).trim
  simp only [parseHuiLine, if_neg hne, hsplit, List.getD_cons_zero, List.getD_cons_succ, hitems,
    splitWhitespace_joinBlank isToken_formatNats, filterMap_parseU32 h.items, hutil,
    parseI64_formatInt h.utility]
  rfl

/-- A written line without its newline. -/
def huiText (l : Line) : Text :=
  joinBlank (l.1.map formatNat) ++ " #UTIL: ".toList ++ formatInt l.2

theorem newline_notMem_huiText (l : Line) : '\n' ∉ huiText l := by
  intro hmem
  rcases List.mem_append.mp hmem with hmem | hmem
  · rcases List.mem_append.mp hmem with hmem | hmem
    · rcases mem_joinBlank hmem with heq | ⟨t, ht, hct⟩
      · exact absurd heq (by decide)
      · obtain ⟨i, -, rfl⟩ := List.mem_map.mp ht
        exact absurd (isDigit_of_mem_formatNat hct) (by decide)
    · exact absurd hmem (by decide)
  · rcases mem_formatInt hmem with heq | hdigit
    · exact absurd heq (by decide)
    · exact absurd hdigit (by decide)

theorem stripLineEnd_huiText (l : Line) : stripLineEnd (huiText l ++ ['\n']) = huiText l := by
  have hlast : (huiText l).getLast? ≠ some '\r' := by
    intro heq
    rw [huiText, List.getLast?_append_of_ne_nil _ (formatInt_ne_nil l.2)] at heq
    exact absurd ((isToken_formatInt l.2).solid _ (List.mem_of_mem_getLast? heq)) (by decide)
  simp [stripLineEnd, hlast]

theorem file_writeAll (lines : List Line) :
    (ResultWriter.writeAll lines).file = unlines (lines.map huiText) := by
  have hfold : ∀ w : ResultWriter, (lines.foldl (fun w l => w.writeHui l.1 l.2) w).file =
      w.file ++ unlines (lines.map huiText) := by
    induction lines with
    | nil => simp [unlines]
    | cons l lines ih =>
      intro w
      rw [List.foldl_cons, ih]
      simp [ResultWriter.writeHui, huiLine, huiText, unlines]
  exact (hfold ResultWriter.new).trans (List.nil_append _)

/-- Each written line is read back, sorted. -/
theorem filterMap_parseHuiLine_writeAll {lines : List Line} (h : ∀ l ∈ lines, FitsLine l) :
    (textLines (ResultWriter.writeAll lines).file).filterMap parseHuiLine =
      lines.map sortedLine := by
  have hnewline : ∀ t ∈ lines.map huiText, '\n' ∉ t := by
    intro t ht
    obtain ⟨l, -, rfl⟩ := List.mem_map.mp ht
    exact newline_notMem_huiText l
  have hcut := splitInclusive_unlines hnewline []
  rw [List.append_nil, splitInclusive, List.append_nil] at hcut
  rw [file_writeAll, textLines, hcut, List.map_map, List.map_map, List.filterMap_map,
    ← List.filterMap_eq_map]
  apply List.filterMap_congr
  intro l hl
  obtain ⟨before, htrim, hbefore, hitems⟩ := trim_huiLine l.1 l.2
  simp only [Function.comp_apply, stripLineEnd_huiText]
  exact parseHuiLine_of_trim (h l hl) htrim hbefore hitems

/-- A result file is read back as the set of what was written, sorted. -/
theorem parseHuiFile_writeAll {lines : List Line} (h : ∀ l ∈ lines, FitsLine l) :
    parseHuiFile (ResultWriter.writeAll lines).file = (lines.map sortedLine).toFinset :=
  congrArg List.toFinset (filterMap_parseHuiLine_writeAll h)

/-- A negative utility, an empty itemset, and an itemset written twice. -/
theorem parseHuiFile_writeAll_signed :
    parseHuiFile (ResultWriter.writeAll [([3, 1], -5), ([], 0), ([1, 3], -5)]).file =
      ([([3, 1], -5), ([], 0), ([1, 3], -5)].map sortedLine).toFinset :=
  parseHuiFile_writeAll (by decide)

end AirHuim
