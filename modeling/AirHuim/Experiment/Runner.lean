import AirHuim.BufferPool.Policy
import AirHuim.Experiment.ExactnessChecker
import AirHuim.Mining.Algorithms.DiskRuns
import AirHuim.Mining.DatasetStats

/-!
# The experiment runner

One dataset is mined with FHM under one budget after the other, each time over a
new pool. The result file and the directory of pages of a run are named after its
budget in whole megabytes, so two budgets may share them, and the pages of an
earlier run are still there when the next one hands out the same ids. The main
result is that no run sees anything of another: every result file is exact, and
the verdict on it is right.
-/

namespace AirHuim

open Library

/-- The components of a path. -/
abbrev FsPath := List String

/-- The text files, and the page files below each directory of pages. The
directories of the text files are there. -/
structure ExperimentFiles where
  texts : FsPath → Option Text
  chunks : FsPath → StorePath → Option Bytes

/-- What a run is given by its surroundings. `referenceOrder` and `airHuimOrder` are
the orders in which the two hash sets of the checker are iterated over. -/
structure Machine where
  codec : Codec
  crc : Bytes → UInt32
  order : FrameOrder
  elapsedNs : ℕ → ℕ
  availableMemory : ℕ
  referenceOrder : Finset Line → List Line
  airHuimOrder : Finset Line → List Line

namespace Machine

def disk (M : Machine) : DiskSetup LruPolicy :=
  ⟨M.codec, M.crc, LruPolicy.policy, M.order, M.elapsedNs⟩

structure Lawful (M : Machine) : Prop where
  codec : M.codec.Inverts
  sized : M.codec.Sized
  referenceOrder : ∀ s, IterationOf s (M.referenceOrder s)
  airHuimOrder : ∀ s, IterationOf s (M.airHuimOrder s)

theorem Lawful.disk {M : Machine} (h : M.Lawful) : M.disk.Lawful where
  codec := h.codec
  sized := h.sized
  policy := LruPolicy.lawful

end Machine

structure ExperimentConfig where
  budgetBytes : ℕ
  datasetPath : FsPath
  minUtility : Utility
  chunkStoreRoot : FsPath
  outputPath : FsPath
  referencePath : Option FsPath
  deriving DecidableEq, Repr

structure ExperimentResult where
  budgetBytes : ℕ
  datasetPath : FsPath
  bufferPoolBytes : ℕ
  huiCount : ℕ
  exact : Bool
  deriving DecidableEq, Repr

namespace ExperimentFiles

def read (files : ExperimentFiles) (path : FsPath) : Except Fault Text :=
  match files.texts path with
  | some text => .ok text
  | none => .error .io

/-- The files after a run that ends in this world. -/
def leftBy (files : ExperimentFiles) (cfg : ExperimentConfig) (w : DiskWorld LruPolicy) :
    ExperimentFiles where
  texts := Function.update files.texts cfg.outputPath (some (ResultWriter.writeAll w.lines).file)
  chunks := Function.update files.chunks cfg.chunkStoreRoot w.pool.store.files

end ExperimentFiles

/-- The context of a run: a new pool over the directory of pages, with ids from 1 on. -/
def ExperimentConfig.context (cfg : ExperimentConfig) (M : Machine) (files : ExperimentFiles) :
    DiskContext LruPolicy where
  minUtility := cfg.minUtility
  k := none
  availableMemory := M.availableMemory
  world := ⟨.new cfg.budgetBytes ⟨true, files.chunks cfg.chunkStoreRoot⟩ .new, 1, 0,
    .new cfg.budgetBytes, [], 0, .empty 0⟩

/-- The run of FHM in an experiment. -/
def ExperimentConfig.mine (cfg : ExperimentConfig) (M : Machine) (files : ExperimentFiles)
    (text : Text) : Except Fault ℕ × DiskWorld LruPolicy :=
  Fhm.runOnDisk M.disk (sourceOf text) (cfg.context M files)

def ExperimentConfig.verify (cfg : ExperimentConfig) (M : Machine) (files : ExperimentFiles) :
    Except Fault Bool :=
  match cfg.referencePath with
  | some refPath => do
    let reference := parseHuiFile (← files.read refPath)
    let airHuim := parseHuiFile (← files.read cfg.outputPath)
    .ok (verifyExactness (M.referenceOrder reference) (M.airHuimOrder airHuim)).exact
  | none => .ok true

/-- `run_experiment`. What it leaves on the disk when it fails is not said. -/
def runExperiment (M : Machine) (cfg : ExperimentConfig) (files : ExperimentFiles) :
    Except Fault (ExperimentResult × ExperimentFiles) := do
  let text ← files.read cfg.datasetPath
  let _ ← DatasetStats.precompute text
  let huiCount ← (cfg.mine M files text).1
  let w := (cfg.mine M files text).2
  let exact ← cfg.verify M (files.leftBy cfg w)
  .ok (⟨cfg.budgetBytes, cfg.datasetPath, w.pool.fields.usedBytes, huiCount, exact⟩,
    files.leftBy cfg w)

structure ExperimentRunner where
  budgets : List ℕ
  datasetPath : FsPath
  minUtility : Utility
  outputRoot : FsPath
  chunkStoreRoot : FsPath
  referencePath : Option FsPath
  deriving DecidableEq, Repr

namespace ExperimentRunner

def megabytes (budget : ℕ) : String := toString (budget / (1024 * 1024))

def config (r : ExperimentRunner) (budget : ℕ) : ExperimentConfig where
  budgetBytes := budget
  datasetPath := r.datasetPath
  minUtility := r.minUtility
  chunkStoreRoot := r.chunkStoreRoot ++ ["chunks_" ++ megabytes budget ++ "mb"]
  outputPath := r.outputRoot ++ ["huis_" ++ megabytes budget ++ "mb.txt"]
  referencePath := r.referencePath

/-- The loop over the budgets; the runs are numbered, as each finds the machine in a
state of its own. -/
def runFrom (r : ExperimentRunner) (M : ℕ → Machine) :
    ℕ → List ℕ → ExperimentFiles → Except Fault (List ExperimentResult × ExperimentFiles)
  | _, [], files => .ok ([], files)
  | n, budget :: budgets, files => do
    let (result, files) ← runExperiment (M n) (r.config budget) files
    let (results, files) ← r.runFrom M (n + 1) budgets files
    .ok (result :: results, files)

def runAll (r : ExperimentRunner) (M : ℕ → Machine) (files : ExperimentFiles) :
    Except Fault (List ExperimentResult × ExperimentFiles) :=
  r.runFrom M 0 r.budgets files

/-- No run comes to the end of the page ids. -/
def idsFit (r : ExperimentRunner) (M : ℕ → Machine) (text : Text) :
    ℕ → List ℕ → ExperimentFiles → Bool
  | _, [], _ => true
  | n, budget :: budgets, files =>
    decide (((r.config budget).mine (M n) files text).2.counter ≤ 2 ^ 64) &&
      match runExperiment (M n) (r.config budget) files with
      | .ok (_, files) => r.idsFit M text (n + 1) budgets files
      | .error _ => true

end ExperimentRunner

/-! ## One run -/

/-- What the result file of a database has to say: the high-utility itemsets,
sorted, with their utilities. -/
def exactPairs (db : List SpmfRow) (minUtility : Utility) : Finset Line :=
  (Basket.highUtilitySets (baskets db) minUtility).image fun X =>
    (X.sort (· ≤ ·), Basket.utility (baskets db) X)

theorem oneUtilityEach_exactPairs (db : List SpmfRow) (minUtility : Utility) :
    OneUtilityEach (exactPairs db minUtility) := by
  intro l hl l' hl' heq
  obtain ⟨X, -, rfl⟩ := Finset.mem_image.mp hl
  obtain ⟨Y, -, rfl⟩ := Finset.mem_image.mp hl'
  have hXY : X = Y := by
    rw [← Finset.sort_toFinset X (· ≤ ·), ← Finset.sort_toFinset Y (· ≤ ·)]
    exact congrArg List.toFinset heq
  rw [hXY]

/-- A dataset that all runs can read and mine. -/
structure Mineable (text : Text) : Prop where
  accepted : AllAccepted (sourceOf text)
  wellFormed : ∀ row ∈ acceptedRows (sourceOf text), row.WellFormed
  listsFit : 20 * (acceptedRows (sourceOf text)).length < 2 ^ 32
  totalFits : ((acceptedRows (sourceOf text)).map SpmfRow.transactionUtility).sum < 2 ^ 63

section

variable {db : List SpmfRow} {minUtility : Utility} {lines : List Line}

/-- An itemset that is sorted on reading is the list of its set. -/
theorem sortedLine_of_nodup {l : Line} (h : l.1.Nodup) :
    sortedLine l = (l.1.toFinset.sort (· ≤ ·), l.2) := by
  have hset : (sortByKey id l.1).toFinset = l.1.toFinset :=
    List.toFinset_eq_of_perm _ _ (sortByKey_perm id l.1)
  have hnodup : (sortByKey id l.1).Nodup := (sortByKey_perm id l.1).nodup_iff.mpr h
  have hsorted : (sortByKey id l.1).Pairwise (· ≤ ·) :=
    (pairwise_sortByKey_lt id (by rwa [List.map_id])).imp le_of_lt
  rw [← hset, (List.toFinset_sort (· ≤ ·) hnodup).mpr hsorted]
  rfl

/-- Exact output is read back from its file as the exact pairs. -/
theorem ExactOutput.toFinset_map_sortedLine (h : ExactOutput db minUtility lines) :
    (lines.map sortedLine).toFinset = exactPairs db minUtility := by
  ext l
  simp only [exactPairs, List.mem_toFinset, List.mem_map, Finset.mem_image,
    Basket.mem_highUtilitySets]
  constructor
  · rintro ⟨line, hline, rfl⟩
    obtain ⟨hnodup, hhigh, hutility⟩ := h.sound line hline
    refine ⟨_, hhigh, ?_⟩
    rw [sortedLine_of_nodup hnodup, hutility]
  · rintro ⟨X, hX, rfl⟩
    obtain ⟨line, hline, rfl⟩ := List.mem_map.mp (h.complete X hX)
    obtain ⟨hnodup, -, hutility⟩ := h.sound line hline
    refine ⟨line, hline, ?_⟩
    rw [sortedLine_of_nodup hnodup, hutility]

theorem ExactOutput.length_eq (h : ExactOutput db minUtility lines) :
    lines.length = (Basket.highUtilitySets (baskets db) minUtility).card :=
  (h.mono (fun _ hX => hX) fun _ _ hl => hl.2.1).length_eq_card
    fun _ => Basket.mem_highUtilitySets

theorem SpmfRow.WellFormed.gain_le {row : SpmfRow} (h : row.WellFormed) {X : Finset ItemId}
    (hX : X ⊆ row.basket.items) :
    0 ≤ row.basket.gain X ∧ row.basket.gain X ≤ row.transactionUtility := by
  have hnonneg : row.basket.Nonneg := nonneg_basketOf h.nonneg
  have htotal : row.basket.gain row.basket.items = row.transactionUtility :=
    (gain_basketOf h.distinct).trans h.total.symm
  refine ⟨Basket.gain_nonneg hnonneg hX, ?_⟩
  rw [← htotal]
  exact Basket.gain_le_gain hnonneg hX subset_rfl

/-- No itemset is worth more than all transactions together. -/
theorem utility_baskets_le (hwf : ∀ row ∈ db, row.WellFormed) (X : Finset ItemId) :
    0 ≤ Basket.utility (baskets db) X ∧
      Basket.utility (baskets db) X ≤ (db.map SpmfRow.transactionUtility).sum := by
  constructor
  · rw [baskets, Basket.utility_map]
    refine List.sum_nonneg fun u hu => ?_
    obtain ⟨row, hrow, rfl⟩ := List.mem_map.mp hu
    obtain ⟨hrow, hX⟩ := List.mem_filter.mp hrow
    exact ((hwf row hrow).gain_le (of_decide_eq_true hX)).1
  · have hgain : ∀ row ∈ db, X ⊆ row.basket.items →
        row.basket.gain X ≤ row.transactionUtility := fun row hrow hX =>
      ((hwf row hrow).gain_le hX).2
    have hnonneg : ∀ row ∈ db, 0 ≤ row.transactionUtility := by
      intro row hrow
      obtain ⟨hzero, hle⟩ := (hwf row hrow).gain_le (Finset.empty_subset _)
      exact hzero.trans hle
    have hle : Basket.utility (db.map SpmfRow.basket) X ≤
        ((db.filter fun _ => true).map SpmfRow.transactionUtility).sum :=
      Basket.utility_le_sum _ _ _ (fun _ _ _ => rfl) hgain fun row hrow _ => hnonneg row hrow
    rwa [List.filter_true] at hle

end

section

variable {text : Text} {minUtility : Utility} {lines : List Line}

/-- What is written for a dataset that was read has `u32` items and `i64` utilities. -/
theorem Mineable.fitsLine (h : Mineable text)
    (hexact : ExactOutput (acceptedRows (sourceOf text)) minUtility lines) :
    ∀ l ∈ lines, FitsLine l := by
  intro l hl
  obtain ⟨-, hhigh, hutility⟩ := hexact.sound l hl
  constructor
  · intro i hi
    obtain ⟨b, hb, hX⟩ := hhigh.occurs
    obtain ⟨row, hrow, rfl⟩ := List.mem_map.mp hb
    obtain ⟨e, he, rfl⟩ := mem_basketOf.mp (hX (List.mem_toFinset.mpr hi))
    exact (fits_of_mem_acceptedRows hrow e he).item
  · obtain ⟨hnonneg, hle⟩ := utility_baskets_le h.wellFormed l.1.toFinset
    have htotal := h.totalFits
    rw [hutility]
    constructor
    · linarith
    · linarith

/-- The result file of an exact run is read back as the exact pairs. -/
theorem Mineable.parseHuiFile_exact (h : Mineable text)
    (hexact : ExactOutput (acceptedRows (sourceOf text)) minUtility lines) :
    parseHuiFile (ResultWriter.writeAll lines).file =
      exactPairs (acceptedRows (sourceOf text)) minUtility := by
  rw [← hexact.toFinset_map_sortedLine]
  exact congrArg List.toFinset (filterMap_parseHuiLine_writeAll (h.fitsLine hexact))

end

/-- The pairs of the reference file, if one is named and there. -/
def ExperimentFiles.reference (files : ExperimentFiles) (path : Option FsPath) :
    Option (Finset Line) :=
  (path.bind files.texts).map parseHuiFile

/-- A result is right: the number of high-utility itemsets, and whether the
reference file has exactly these. -/
structure ExperimentResult.Right (db : List SpmfRow) (minUtility : Utility)
    (reference : Option (Finset Line)) (budget : ℕ) (result : ExperimentResult) : Prop where
  budgetBytes : result.budgetBytes = budget
  huiCount : result.huiCount = (Basket.highUtilitySets (baskets db) minUtility).card
  exact : result.exact = true ↔ ∀ s ∈ reference, s = exactPairs db minUtility

/-- Where the files that a run reads and writes are. -/
structure ExperimentConfig.Placed (cfg : ExperimentConfig) (files : ExperimentFiles)
    (text : Text) : Prop where
  dataset : files.texts cfg.datasetPath = some text
  reference : ∀ s ∈ files.reference cfg.referencePath, OneUtilityEach s
  output : cfg.outputPath ≠ cfg.datasetPath
  separate : cfg.referencePath ≠ some cfg.outputPath

section

variable {M : Machine} {cfg : ExperimentConfig} {files files' : ExperimentFiles} {text : Text}
  {result : ExperimentResult}

theorem ExperimentConfig.mine_exact (hM : M.Lawful) (h : Mineable text)
    (heucs : (Pass2.run (.new cfg.budgetBytes) (filteredDb (TwuFilter.compute cfg.minUtility
      (numbered 0 (acceptedRows (sourceOf text))))
        (numbered 0 (acceptedRows (sourceOf text))))).oom = false)
    (hids : (cfg.mine M files text).2.counter ≤ 2 ^ 64) :
    DiskExact (acceptedRows (sourceOf text)) cfg.minUtility
      (LruPolicy.policy.Prompt ∧
        20 * (acceptedRows (sourceOf text)).length ≤ (cfg.context M files).finalBudget)
      (cfg.mine M files text) :=
  @Fhm.diskExact_runOnDisk _ M.disk (cfg.context M files) _ hM.disk h.wellFormed h.listsFit
    ⟨cfg.budgetBytes, ⟨true, files.chunks cfg.chunkStoreRoot⟩, .new, rfl⟩ rfl heucs hids

theorem ExperimentFiles.texts_leftBy (w : DiskWorld LruPolicy) {path : FsPath}
    (h : path ≠ cfg.outputPath) : (files.leftBy cfg w).texts path = files.texts path :=
  Function.update_of_ne h _ _

/-- A run does not write the reference file. -/
theorem ExperimentConfig.Placed.reference_leftBy (h : cfg.Placed files text)
    (w : DiskWorld LruPolicy) :
    (files.leftBy cfg w).reference cfg.referencePath = files.reference cfg.referencePath := by
  have hsep := h.separate
  unfold ExperimentFiles.reference
  cases hpath : cfg.referencePath with
  | none => rfl
  | some refPath =>
    have hne : refPath ≠ cfg.outputPath := fun heq => hsep (hpath.trans (congrArg some heq))
    exact congrArg (Option.map parseHuiFile) (files.texts_leftBy w hne)

/-- The checker's verdict on a right result file. -/
theorem ExperimentConfig.Placed.verify (hM : M.Lawful) (h : cfg.Placed files text)
    {w : DiskWorld LruPolicy} {pairs : Finset Line} (hpairs : OneUtilityEach pairs)
    (hfile : parseHuiFile (ResultWriter.writeAll w.lines).file = pairs) :
    cfg.verify M (files.leftBy cfg w) = .error .io ∨
      ∃ exact, cfg.verify M (files.leftBy cfg w) = .ok exact ∧
        (exact = true ↔ ∀ s ∈ files.reference cfg.referencePath, s = pairs) := by
  have href := h.reference
  unfold ExperimentConfig.verify ExperimentFiles.reference at *
  cases hpath : cfg.referencePath with
  | none => exact Or.inr ⟨true, rfl, by simp⟩
  | some refPath =>
    rw [hpath] at href
    have hne : refPath ≠ cfg.outputPath := fun heq => h.separate (hpath.trans (congrArg some heq))
    have hread : (files.leftBy cfg w).read refPath = files.read refPath := by
      simp only [ExperimentFiles.read, files.texts_leftBy w hne]
    have hout : (files.leftBy cfg w).read cfg.outputPath =
        .ok (ResultWriter.writeAll w.lines).file := by
      simp only [ExperimentFiles.read, ExperimentFiles.leftBy, Function.update_self]
    simp only [hread, hout]
    cases htext : files.texts refPath with
    | none =>
      left
      simp only [ExperimentFiles.read, htext]
      rfl
    | some refText =>
      right
      have hone : OneUtilityEach (parseHuiFile refText) := href _ (by simp [htext])
      refine ⟨_, by simp only [ExperimentFiles.read, htext]; rfl, ?_⟩
      rw [hfile, exact_iff_of_oneUtilityEach (hM.referenceOrder _) (hM.airHuimOrder _) hone hpairs]
      simp [htext]

/-- A run on a dataset that can be read, step by step. -/
theorem runExperiment_eq (h : Mineable text) (hplaced : cfg.Placed files text) :
    runExperiment M cfg files =
      (cfg.mine M files text).1.bind fun huiCount =>
        (cfg.verify M (files.leftBy cfg (cfg.mine M files text).2)).map fun exact =>
          (⟨cfg.budgetBytes, cfg.datasetPath, (cfg.mine M files text).2.pool.fields.usedBytes,
            huiCount, exact⟩, files.leftBy cfg (cfg.mine M files text).2) := by
  have hread : files.read cfg.datasetPath = .ok text := by
    simp only [ExperimentFiles.read, hplaced.dataset]
  obtain ⟨stats, hstats⟩ := DatasetStats.exists_precompute h.accepted
    (totalsFit_of_lt h.wellFormed h.totalFits)
  unfold runExperiment
  rw [hread]
  change (DatasetStats.precompute text >>= fun _ => _) = _
  rw [hstats]
  cases (cfg.mine M files text).1 with
  | error e => rfl
  | ok huiCount =>
    change (cfg.verify M (files.leftBy cfg (cfg.mine M files text).2) >>= fun _ => _) = _
    cases cfg.verify M (files.leftBy cfg (cfg.mine M files text).2) <;> rfl

/-- How a run may fail: a file or the pool does, or a sum of the search overflows, which
needs a row that is worth `2 ^ 62`. -/
def MayFail (text : Text) (e : Fault) : Prop :=
  e = .io ∨ e = .overflow ∧ ∃ row ∈ acceptedRows (sourceOf text), 2 ^ 62 ≤ row.transactionUtility

/-- A dataset that can be read is light if no row is worth too much. -/
theorem Mineable.lightDb (h : Mineable text)
    (hrows : ∀ row ∈ acceptedRows (sourceOf text), row.transactionUtility < 2 ^ 62) :
    LightDb (acceptedRows (sourceOf text)) where
  length_lt := by
    have hlists := h.listsFit
    omega
  row_lt := hrows
  total_lt := by
    rw [statedTotal_numbered]
    exact h.totalFits

/-- A run fails, or it is right and leaves the exact result file. -/
theorem runExperiment_spec (hM : M.Lawful) (h : Mineable text) (hplaced : cfg.Placed files text)
    (heucs : (Pass2.run (.new cfg.budgetBytes) (filteredDb (TwuFilter.compute cfg.minUtility
      (numbered 0 (acceptedRows (sourceOf text))))
        (numbered 0 (acceptedRows (sourceOf text))))).oom = false)
    (hids : (cfg.mine M files text).2.counter ≤ 2 ^ 64) :
    (∃ e, MayFail text e ∧ runExperiment M cfg files = .error e) ∨
      ∃ result w, runExperiment M cfg files = .ok (result, files.leftBy cfg w) ∧
        result.Right (acceptedRows (sourceOf text)) cfg.minUtility
          (files.reference cfg.referencePath) cfg.budgetBytes ∧
        parseHuiFile (ResultWriter.writeAll w.lines).file =
          exactPairs (acceptedRows (sourceOf text)) cfg.minUtility := by
  have hmine := cfg.mine_exact hM h heucs hids
  rw [runExperiment_eq h hplaced]
  cases hcount : (cfg.mine M files text).1 with
  | error e =>
    refine Or.inl ⟨e, (hmine.error e hcount).imp_right fun he => ⟨he.1, ?_⟩, rfl⟩
    by_contra! hrows
    exact he.2 (h.lightDb hrows)
  | ok huiCount =>
    obtain ⟨hexact, rfl⟩ := hmine.exact huiCount hcount
    have hfile := h.parseHuiFile_exact hexact
    rcases hplaced.verify hM (oneUtilityEach_exactPairs _ _) hfile with hio | ⟨exact, hok, hverdict⟩
    · rw [hio]
      exact Or.inl ⟨.io, Or.inl rfl, rfl⟩
    · rw [hok]
      exact Or.inr ⟨_, _, rfl, ⟨rfl, hexact.length_eq, hverdict⟩, hfile⟩

end

/-! ## All runs -/

namespace ExperimentRunner

variable {r : ExperimentRunner} {M : ℕ → Machine} {text : Text}

/-- What the runs over some budgets return and leave. -/
structure AllRight (r : ExperimentRunner) (db : List SpmfRow) (budgets : List ℕ)
    (before : ExperimentFiles) (results : List ExperimentResult) (after : ExperimentFiles) :
    Prop where
  results : List.Forall₂
    (fun budget result => result.Right db r.minUtility (before.reference r.referencePath) budget)
    budgets results
  outputs : ∀ budget ∈ budgets, ∃ out, after.texts (r.config budget).outputPath = some out ∧
    parseHuiFile out = exactPairs db r.minUtility
  others : ∀ path, (∀ budget ∈ budgets, path ≠ (r.config budget).outputPath) →
    after.texts path = before.texts path

/-- A right run before right runs: a later run over the same result file writes it
again. -/
theorem AllRight.cons {db : List SpmfRow} {budget : ℕ} {budgets : List ℕ}
    {files files' : ExperimentFiles} {result : ExperimentResult} {results : List ExperimentResult}
    {w : DiskWorld LruPolicy}
    (h : r.AllRight db budgets (files.leftBy (r.config budget) w) results files')
    (hright : result.Right db r.minUtility (files.reference r.referencePath) budget)
    (hfile : parseHuiFile (ResultWriter.writeAll w.lines).file = exactPairs db r.minUtility)
    (hkept : (files.leftBy (r.config budget) w).reference r.referencePath =
      files.reference r.referencePath) :
    r.AllRight db (budget :: budgets) files (result :: results) files' where
  results := .cons hright (hkept ▸ h.results)
  outputs := by
    intro b hb
    by_cases hlater : ∃ b' ∈ budgets, (r.config b').outputPath = (r.config b).outputPath
    · obtain ⟨b', hb', heq⟩ := hlater
      rw [← heq]
      exact h.outputs b' hb'
    · have hb : b = budget := by
        rcases List.mem_cons.mp hb with rfl | hb
        · rfl
        · exact (hlater ⟨b, hb, rfl⟩).elim
      subst hb
      refine ⟨_, ?_, hfile⟩
      rw [h.others _ fun b' hb' heq => hlater ⟨b', hb', heq.symm⟩]
      exact Function.update_self _ _ _
  others := by
    intro path hpath
    rw [h.others path fun b hb => hpath b (List.mem_cons_of_mem budget hb)]
    exact ExperimentFiles.texts_leftBy w (hpath budget List.mem_cons_self)

/-- The runs from any number, and over any files, on. -/
theorem runFrom_spec (hM : ∀ n, (M n).Lawful) (h : Mineable text) {budgets : List ℕ}
    (heucs : ∀ budget ∈ budgets, (Pass2.run (.new budget) (filteredDb (TwuFilter.compute
      r.minUtility (numbered 0 (acceptedRows (sourceOf text))))
        (numbered 0 (acceptedRows (sourceOf text))))).oom = false)
    {files : ExperimentFiles} (hplaced : ∀ budget ∈ budgets, (r.config budget).Placed files text)
    {n : ℕ} (hids : r.idsFit M text n budgets files = true) :
    (∃ e, MayFail text e ∧ r.runFrom M n budgets files = .error e) ∨
      ∃ results files', r.runFrom M n budgets files = .ok (results, files') ∧
        r.AllRight (acceptedRows (sourceOf text)) budgets files results files' := by
  induction budgets generalizing n files with
  | nil => exact Or.inr ⟨[], files, rfl, .nil, nofun, fun _ _ => rfl⟩
  | cons budget budgets ih =>
    rw [idsFit, Bool.and_eq_true, decide_eq_true_iff] at hids
    have hhere := hplaced budget List.mem_cons_self
    rw [runFrom]
    rcases runExperiment_spec (hM n) h hhere (heucs budget List.mem_cons_self) hids.1 with
      ⟨e, he, hfault⟩ | ⟨result, w, hrun, hright, hfile⟩
    · rw [hfault]
      exact Or.inl ⟨e, he, rfl⟩
    have hnext := hids.2
    rw [hrun] at hnext
    set files₁ := files.leftBy (r.config budget) w
    have hkept : files₁.reference r.referencePath = files.reference r.referencePath :=
      hhere.reference_leftBy w
    have hplaced₁ : ∀ b ∈ budgets, (r.config b).Placed files₁ text := by
      intro b hb
      have hb' := hplaced b (List.mem_cons_of_mem budget hb)
      refine ⟨?_, ?_, hb'.output, hb'.separate⟩
      · exact (ExperimentFiles.texts_leftBy w hhere.output.symm).trans hhere.dataset
      · exact fun s hs => hhere.reference s (hkept ▸ hs)
    have hrest := ih (fun b hb => heucs b (List.mem_cons_of_mem budget hb)) hplaced₁ hnext
    rw [hrun]
    change (∃ e, _ ∧ (r.runFrom M (n + 1) budgets files₁ >>= fun _ => _) = _) ∨
      ∃ results files', (r.runFrom M (n + 1) budgets files₁ >>= fun _ => _) = _ ∧ _
    rcases hrest with ⟨e, he, hfault⟩ | ⟨results, files', hok, hall⟩
    · rw [hfault]
      exact Or.inl ⟨e, he, rfl⟩
    · rw [hok]
      exact Or.inr ⟨_, files', rfl, hall.cons hright hfile hkept⟩

/-- For every list of budgets, over whatever earlier runs have left, the runner fails as a
run may, or all its results and result files are right. -/
theorem runAll_right (hM : ∀ n, (M n).Lawful) (h : Mineable text)
    (heucs : ∀ budget ∈ r.budgets, (Pass2.run (.new budget) (filteredDb (TwuFilter.compute
      r.minUtility (numbered 0 (acceptedRows (sourceOf text))))
        (numbered 0 (acceptedRows (sourceOf text))))).oom = false)
    {files : ExperimentFiles} (hplaced : ∀ budget ∈ r.budgets, (r.config budget).Placed files text)
    (hids : r.idsFit M text 0 r.budgets files = true) :
    (∃ e, MayFail text e ∧ r.runAll M files = .error e) ∨
      ∃ results files', r.runAll M files = .ok (results, files') ∧
        r.AllRight (acceptedRows (sourceOf text)) r.budgets files results files' :=
  runFrom_spec hM h heucs hplaced hids

end ExperimentRunner

/-- Hash sets are iterated over in ascending order. -/
def tinyMachine : Machine where
  codec := .identity
  crc := FileChunkStore.crc32
  order := Session.asListed
  elapsedNs _ := 0
  availableMemory := 1073741824
  referenceOrder s := ((s.image toLex).sort (· ≤ ·)).map ofLex
  airHuimOrder s := ((s.image toLex).sort (· ≤ ·)).map ofLex

theorem iterationOf_sort (s : Finset Line) :
    IterationOf s (((s.image toLex).sort (· ≤ ·)).map ofLex) where
  nodup := (Finset.sort_nodup _ _).map ofLex.injective
  mem_iff l := by
    simp only [List.mem_map, Finset.mem_sort, Finset.mem_image]
    constructor
    · rintro ⟨_, ⟨l', hl', rfl⟩, rfl⟩
      exact hl'
    · exact fun hl => ⟨toLex l, ⟨l, hl, rfl⟩, rfl⟩

theorem tinyMachine_lawful : tinyMachine.Lawful where
  codec _ _ := rfl
  sized := Codec.sized_identity
  referenceOrder := iterationOf_sort
  airHuimOrder := iterationOf_sort

def tinyText : Text := "1 2:40:20 20\n1 3:60:30 30\n".toList

/-- Two budgets below a megabyte, which share the result file and the directory of pages. -/
def tinyRunner : ExperimentRunner where
  budgets := [100, 60]
  datasetPath := ["tiny.txt"]
  minUtility := 45
  outputRoot := ["results"]
  chunkStoreRoot := ["results", "chunks"]
  referencePath := some ["reference.txt"]

def tinyFiles : ExperimentFiles where
  texts path :=
    if path = ["tiny.txt"] then some tinyText
    else if path = ["reference.txt"] then some "1 #UTIL: 50\n3 1 #UTIL: 60\n".toList
    else none
  chunks _ _ := none

namespace ExperimentRunner

/-- The reference has both high-utility itemsets, and the runs return. -/
theorem runAll_right_tiny :
    ∃ results files', tinyRunner.runAll (fun _ => tinyMachine) tinyFiles = .ok (results, files') ∧
      tinyRunner.AllRight (acceptedRows (sourceOf tinyText))
        [100, 60] tinyFiles results files' := by
  have hmineable : Mineable tinyText := ⟨by decide, by decide, by decide, by decide⟩
  have hplaced : ∀ budget ∈ tinyRunner.budgets,
      (tinyRunner.config budget).Placed tinyFiles tinyText := by
    have houtput : ∀ budget ∈ tinyRunner.budgets,
        (tinyRunner.config budget).outputPath ≠ ["tiny.txt"] ∧
          some ["reference.txt"] ≠ some (tinyRunner.config budget).outputPath := by decide
    intro budget hbudget
    obtain ⟨hdataset, hreference⟩ := houtput budget hbudget
    refine ⟨rfl, fun s hs => ?_, hdataset, hreference⟩
    cases hs
    decide
  have hreturns : (tinyRunner.runAll (fun _ => tinyMachine) tinyFiles).isOk = true := by
    decide +kernel
  rcases runAll_right (fun _ => tinyMachine_lawful) hmineable (by decide) hplaced
    (by decide +kernel) with ⟨e, -, hfault⟩ | hright
  · rw [hfault] at hreturns
    cases hreturns
  · exact hright

end ExperimentRunner

end AirHuim
