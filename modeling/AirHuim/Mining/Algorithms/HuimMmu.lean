import AirHuim.Mining.Algorithms.FhmBudget

/-!
# HUIM-MMU

Mining of a stream in windows that overlap by half. Every window is handed to an
FHM run that shares the context of the stream, its progress counter and its guard
included. So the count that FHM returns is that of all windows so far, and the
reservations of one window's pairs are missing from the budget of the next. The
main results say exactly when the count and the windows come out right all the same.
The FHM runs are those of a build with overflow checks.
-/

namespace AirHuim

open Library Basket

namespace HuimMmu

/-- What has come out of the windows mined so far. `appended` is the output file,
as one part for each window. -/
structure Mined where
  totalHuis : ℕ
  appended : List (List Line)
  world : World

/-- The rows before the first rejected line, at which the loop over the stream ends. -/
def rowsRead : DataSource → List SpmfRow
  | .ok row :: lines => row :: rowsRead lines
  | _ => []

/-- A window is dumped to a file of its own, which FHM mines in the context of the
stream; what FHM has written is appended to the output. Its `i64` sums are checked. -/
def mineWindow (ctx : MiningContext) (window : List SpmfRow) (s : Mined) : Except Fault Mined := do
  let (chunkHuis, w) ← Fhm.runChecked (window.map .ok) { ctx with world := s.world }
  return ⟨s.totalHuis + chunkHuis, s.appended ++ [w.lines], w⟩

/-- The loop over the stream, and the window that is left at its end. A full window
loses its oldest half once it is mined. -/
def streamLoop (windowSize : ℕ) (ctx : MiningContext) :
    List SpmfRow → List SpmfRow → Mined → Except Fault Mined
  | window, [], s => if window.isEmpty then return s else mineWindow ctx window s
  | window, row :: rows, s =>
      if windowSize ≤ (window ++ [row]).length then do
        let s ← mineWindow ctx (window ++ [row]) s
        streamLoop windowSize ctx ((window ++ [row]).drop (windowSize / 2)) rows s
      else streamLoop windowSize ctx (window ++ [row]) rows s

def stream (windowSize : ℕ) (source : DataSource) (ctx : MiningContext) : Except Fault Mined :=
  if (rowsRead source).length < 2 ^ 32 then
    streamLoop windowSize ctx [] (rowsRead source) ⟨0, [], ctx.world⟩
  else .error .overflow

def Mined.result (s : Mined) : ℕ × World :=
  (s.totalHuis, { s.world with lines := s.appended.flatten })

/-- `HuimMmu::run`: the count it returns and the world it leaves. -/
def run (windowSize : ℕ) (source : DataSource) (ctx : MiningContext) : Except Fault (ℕ × World) :=
  (stream windowSize source ctx).map Mined.result

/-! ## The windows of a stream -/

/-- The windows mined from here on, with the window at hand. -/
def windowsFrom (windowSize : ℕ) : List SpmfRow → List SpmfRow → List (List SpmfRow)
  | window, [] => if window.isEmpty then [] else [window]
  | window, row :: rows =>
      if windowSize ≤ (window ++ [row]).length then
        (window ++ [row]) :: windowsFrom windowSize ((window ++ [row]).drop (windowSize / 2)) rows
      else windowsFrom windowSize (window ++ [row]) rows

def windows (windowSize : ℕ) (source : DataSource) : List (List SpmfRow) :=
  windowsFrom windowSize [] (rowsRead source)

def mineAll (ctx : MiningContext) : List (List SpmfRow) → Mined → Except Fault Mined
  | [], s => return s
  | window :: ws, s => do
      let s ← mineWindow ctx window s
      mineAll ctx ws s

theorem streamLoop_eq (windowSize : ℕ) (ctx : MiningContext) (window rows : List SpmfRow)
    (s : Mined) :
    streamLoop windowSize ctx window rows s = mineAll ctx
      (windowsFrom windowSize window rows) s := by
  induction rows generalizing window s with
  | nil =>
    unfold streamLoop windowsFrom
    split_ifs
    · rfl
    · cases hmine : mineWindow ctx window s with
      | error e => simp [mineAll, hmine, bind, Except.bind]
      | ok s' => simp [mineAll, hmine, bind, Except.bind, pure, Except.pure]
  | cons row rows ih =>
    unfold streamLoop windowsFrom
    split_ifs
    · simp only [mineAll, ih]
    · exact ih _ _

theorem stream_ok {windowSize : ℕ} {source : DataSource} {ctx : MiningContext} {s : Mined}
    (h : stream windowSize source ctx = .ok s) :
    mineAll ctx (windows windowSize source) ⟨0, [], ctx.world⟩ = .ok s := by
  unfold stream at h
  split_ifs at h
  rwa [streamLoop_eq] at h

theorem mem_of_mem_windowsFrom {windowSize : ℕ} {window rows w : List SpmfRow}
    (hw : w ∈ windowsFrom windowSize window rows) {row : SpmfRow} (hrow : row ∈ w) :
    row ∈ window ∨ row ∈ rows := by
  induction rows generalizing window with
  | nil =>
    unfold windowsFrom at hw
    split_ifs at hw
    · cases hw
    · rw [List.mem_singleton.mp hw] at hrow
      exact Or.inl hrow
  | cons first rows ih =>
    have hpush : ∀ r, r ∈ window ++ [first] → r ∈ window ∨ r ∈ first :: rows := by
      intro r hr
      rcases List.mem_append.mp hr with hr | hr
      · exact Or.inl hr
      · exact Or.inr (List.mem_singleton.mp hr ▸ List.mem_cons_self)
    unfold windowsFrom at hw
    split_ifs at hw
    · rcases List.mem_cons.mp hw with rfl | hw
      · exact hpush row hrow
      · rcases ih hw with h | h
        · exact hpush row (List.mem_of_mem_drop h)
        · exact Or.inr (List.mem_cons_of_mem first h)
    · rcases ih hw with h | h
      · exact hpush row h
      · exact Or.inr (List.mem_cons_of_mem first h)

theorem exists_mem_windowsFrom {windowSize : ℕ} {window rows : List SpmfRow} {row : SpmfRow}
    (hrow : row ∈ window ∨ row ∈ rows) : ∃ w ∈ windowsFrom windowSize window rows, row ∈ w := by
  induction rows generalizing window with
  | nil =>
    have hrow := hrow.resolve_right List.not_mem_nil
    have hne : ¬ window.isEmpty = true := by
      cases window with
      | nil => cases hrow
      | cons first window => simp
    unfold windowsFrom
    rw [if_neg hne]
    exact ⟨window, List.mem_singleton_self window, hrow⟩
  | cons first rows ih =>
    have hpush : row ∈ window ++ [first] ∨ row ∈ rows := by
      simp only [List.mem_append, List.mem_cons] at hrow ⊢
      tauto
    unfold windowsFrom
    split_ifs
    · rcases hpush with h | h
      · exact ⟨_, List.mem_cons_self, h⟩
      · obtain ⟨w, hw, hmem⟩ := ih (Or.inr h)
        exact ⟨w, List.mem_cons_of_mem _ hw, hmem⟩
    · exact ih hpush

/-- The windows hold the rows of the stream, all of them and no others. -/
theorem exists_mem_windows_iff (windowSize : ℕ) (source : DataSource) (row : SpmfRow) :
    (∃ window ∈ windows windowSize source, row ∈ window) ↔ row ∈ rowsRead source := by
  constructor
  · rintro ⟨window, hwindow, hrow⟩
    exact (mem_of_mem_windowsFrom hwindow hrow).resolve_left List.not_mem_nil
  · exact fun hrow => exists_mem_windowsFrom (Or.inr hrow)

/-! ## The count -/

/-- What one window adds: its lines, and the number of all lines so far to the total. -/
theorem mineWindow_counts {ctx : MiningContext} {window : List SpmfRow} {s s' : Mined}
    (h : mineWindow ctx window s = .ok s') :
    ∃ w, Fhm.run (window.map .ok) { ctx with world := s.world } = .ok (w.huisFound, w) ∧
      s' = ⟨s.totalHuis + w.huisFound, s.appended ++ [w.lines], w⟩ ∧
      w.huisFound = s.world.huisFound + w.lines.length := by
  unfold mineWindow at h
  cases hrun : Fhm.runChecked (window.map .ok) { ctx with world := s.world } with
  | error e =>
    rw [hrun] at h
    cases h
  | ok result =>
    obtain ⟨n, w⟩ := result
    rw [hrun] at h
    have hsame := Fhm.run_of_runChecked hrun
    obtain ⟨rfl, hcount, -⟩ := Fhm.run_counts _ hsame
    exact ⟨w, hsame, (Except.ok.inj h).symm, hcount⟩

/-- The sum of running totals that starts at `found`. -/
def cumulative : ℕ → List ℕ → ℕ
  | _, [] => 0
  | found, n :: ns => found + n + cumulative (found + n) ns

theorem sum_le_cumulative (found : ℕ) (ns : List ℕ) : ns.sum ≤ cumulative found ns := by
  induction ns generalizing found with
  | nil => exact le_rfl
  | cons n ns ih =>
    have := ih (found + n)
    simp only [cumulative, List.sum_cons]
    omega

/-- Running totals add up to the sum if nothing is found before the last summand. -/
theorem cumulative_eq_sum_iff (found : ℕ) (ns : List ℕ) :
    cumulative found ns = ns.sum ↔ (ns = [] ∨ found = 0) ∧ ∀ n ∈ ns.dropLast, n = 0 := by
  induction ns generalizing found with
  | nil => simp [cumulative]
  | cons n ns ih =>
    have hle := sum_le_cumulative (found + n) ns
    have hsplit : cumulative found (n :: ns) = (n :: ns).sum ↔
        found = 0 ∧ cumulative (found + n) ns = ns.sum := by
      simp only [cumulative, List.sum_cons]
      omega
    rw [hsplit, ih]
    cases ns with
    | nil => simp
    | cons m ns =>
      simp only [List.dropLast_cons_cons, List.forall_mem_cons, reduceCtorEq, false_or]
      constructor
      · rintro ⟨rfl, hn, hrest⟩
        exact ⟨rfl, by omega, hrest⟩
      · rintro ⟨rfl, rfl, hrest⟩
        exact ⟨rfl, rfl, hrest⟩

theorem mineAll_counts {ctx : MiningContext} {ws : List (List SpmfRow)} {s s' : Mined}
    (h : mineAll ctx ws s = .ok s') :
    ∃ parts, s'.appended = s.appended ++ parts ∧
      s'.totalHuis = s.totalHuis + cumulative s.world.huisFound (parts.map List.length) := by
  induction ws generalizing s with
  | nil =>
    cases h
    exact ⟨[], (List.append_nil _).symm, rfl⟩
  | cons window ws ih =>
    unfold mineAll at h
    cases hmine : mineWindow ctx window s with
    | error e =>
      rw [hmine] at h
      cases h
    | ok s₁ =>
      rw [hmine] at h
      obtain ⟨w, -, rfl, hcount⟩ := mineWindow_counts hmine
      obtain ⟨parts, happended, htotal⟩ := ih h
      refine ⟨w.lines :: parts, ?_, ?_⟩
      · rw [happended, List.append_assoc, List.singleton_append]
      · rw [htotal, List.map_cons, cumulative, ← hcount, Nat.add_assoc]

/-- From a fresh counter: the count is the number of lines if and only if no window
but the last has one. -/
theorem totalHuis_eq_iff {windowSize : ℕ} {source : DataSource} {ctx : MiningContext} {s : Mined}
    (h : stream windowSize source ctx = .ok s) (hfresh : ctx.world.huisFound = 0) :
    s.totalHuis = s.appended.flatten.length ↔ ∀ part ∈ s.appended.dropLast, part = [] := by
  obtain ⟨parts, happended, htotal⟩ := mineAll_counts (stream_ok h)
  simp only [List.nil_append, Nat.zero_add, hfresh] at happended htotal
  rw [happended, htotal, List.length_flatten, cumulative_eq_sum_iff, ← List.map_dropLast]
  simp only [or_true, true_and, List.forall_mem_map, List.length_eq_zero_iff]

/-! ## What each window gets -/

/-- The rows of a window as FHM filters them. -/
def rowsOf (minUtility : Utility) (window : List SpmfRow) : List FilteredTransaction :=
  filteredDb (TwuFilter.compute minUtility (numbered 0 window)) (numbered 0 window)

/-- What a window leaves of a budget: the reservations of its pairs are never freed. -/
def leftAfter (minUtility : Utility) (left : ℕ) (window : List SpmfRow) : ℕ :=
  left - 32 * (Eucs.admitted left (rowsOf minUtility window)).length

/-- Every pair of every high-utility itemset of the window was counted up to the threshold. -/
def Tracked (minUtility : Utility) (left : ℕ) (window : List SpmfRow) : Prop :=
  ∀ X ∈ highUtilitySets (baskets window) minUtility, Fhm.PairsTracked left minUtility window X

/-- The same of all windows, each under what the ones before it have left. -/
def AllTracked (minUtility : Utility) : ℕ → List (List SpmfRow) → Prop
  | _, [] => True
  | left, window :: ws =>
      Tracked minUtility left window ∧ AllTracked minUtility (leftAfter minUtility left window) ws

instance (minUtility : Utility) (left : ℕ) (window : List SpmfRow) :
    Decidable (Tracked minUtility left window) :=
  inferInstanceAs (Decidable (∀ _ ∈ _, _))

instance AllTracked.decidable (minUtility : Utility) :
    (left : ℕ) → (ws : List (List SpmfRow)) → Decidable (AllTracked minUtility left ws)
  | _, [] => inferInstanceAs (Decidable True)
  | left, window :: ws =>
      have := AllTracked.decidable minUtility (leftAfter minUtility left window) ws
      inferInstanceAs (Decidable (_ ∧ _))

/-- The lines of a window are those of its high-utility itemsets whose pairs were counted. -/
abbrev WindowLines (minUtility : Utility) (left : ℕ) (window : List SpmfRow) (lines : List Line) :
    Prop :=
  Lists (fun l : Line => l.1.toFinset) lines
    (fun X => HighUtility (baskets window) minUtility X ∧
      Fhm.PairsTracked left minUtility window X)
    fun l => l.1.Nodup ∧ l.2 = utility (baskets window) l.1.toFinset ∧
      HighUtility (baskets window) minUtility l.1.toFinset ∧
      Fhm.PairsTracked left minUtility window l.1.toFinset

section

variable {minUtility : Utility} {left : ℕ} {window : List SpmfRow} {lines : List Line}

theorem WindowLines.exact_iff (h : WindowLines minUtility left window lines) :
    ExactOutput window minUtility lines ↔ Tracked minUtility left window := by
  constructor
  · intro hexact X hX
    obtain ⟨l, hl, rfl⟩ := List.mem_map.mp (hexact.complete X (mem_highUtilitySets.mp hX))
    exact (h.sound l hl).2.2.2
  · intro htracked
    apply Lists.mono h
    · exact fun X hX => ⟨hX, htracked X (mem_highUtilitySets.mpr hX)⟩
    · rintro l - ⟨hnodup, hu, hX, -⟩
      exact ⟨hnodup, hX, hu⟩

/-- The number of lines of a window, and when none is missing. -/
theorem WindowLines.length_le (h : WindowLines minUtility left window lines) :
    lines.length ≤ (highUtilitySets (baskets window) minUtility).card ∧
      (lines.length = (highUtilitySets (baskets window) minUtility).card ↔
        Tracked minUtility left window) := by
  have hlength : lines.length = ((highUtilitySets (baskets window) minUtility).filter
      fun X => Fhm.PairsTracked left minUtility window X).card := by
    apply Lists.length_eq_card (h.mono (fun _ hX => hX) fun _ _ hl => hl.2.2)
    intro X
    rw [Finset.mem_filter, mem_highUtilitySets]
  rw [hlength]
  exact ⟨Finset.card_filter_le _ _, Finset.card_filter_eq_iff⟩

end

/-- The parts of the output, one for each window. -/
def AllLines (minUtility : Utility) : ℕ → List (List SpmfRow) → List (List Line) → Prop
  | _, [], [] => True
  | left, window :: ws, part :: parts =>
      WindowLines minUtility left window part ∧
        AllLines minUtility (leftAfter minUtility left window) ws parts
  | _, _, _ => False

theorem mineAll_lines {ctx : MiningContext} {budget used : ℕ} {ws : List (List SpmfRow)}
    {s s' : Mined} (hwf : ∀ window ∈ ws, ∀ row ∈ window, row.WellFormed)
    (hguard : s.world.guard.Reserved budget used) (h : mineAll ctx ws s = .ok s') :
    ∃ parts, s'.appended = s.appended ++ parts ∧
      AllLines ctx.minUtility (budget - used) ws parts := by
  induction ws generalizing s used with
  | nil =>
    cases h
    exact ⟨[], (List.append_nil _).symm, trivial⟩
  | cons window ws ih =>
    obtain ⟨hwindow, hws⟩ := List.forall_mem_cons.mp hwf
    unfold mineAll at h
    cases hmine : mineWindow ctx window s with
    | error e =>
      rw [hmine] at h
      cases h
    | ok s₁ =>
      rw [hmine] at h
      obtain ⟨w, hrun, rfl, -⟩ := mineWindow_counts hmine
      have hown :
          ({ ctx with world := s.world } : MiningContext).world.guard.Reserved budget used :=
        hguard
      have hlines : WindowLines ctx.minUtility (budget - used) window w.lines :=
        Fhm.lists_run hwindow hown hrun
      have hreserved := (Eucs.addAll_new_reserved hguard (rowsOf ctx.minUtility window)).2.2
      have hleft :
          w.guard = (Eucs.addAll (rowsOf ctx.minUtility window) .new s.world.guard).2.2 := by
        rw [(Fhm.run_counts _ hrun).2.2, Fhm.pass2, Pass2.run_guard]
        rfl
      rw [← hleft] at hreserved
      obtain ⟨parts, happended, hparts⟩ := ih hws hreserved h
      refine ⟨w.lines :: parts, ?_, hlines, ?_⟩
      · rw [happended, List.append_assoc, List.singleton_append]
      · rw [← Nat.sub_sub] at hparts
        exact hparts

section

variable {minUtility : Utility} {left : ℕ} {ws : List (List SpmfRow)} {parts : List (List Line)}

theorem AllLines.exact_iff (h : AllLines minUtility left ws parts) :
    List.Forall₂ (fun window lines => ExactOutput window minUtility lines) ws parts ↔
      AllTracked minUtility left ws := by
  induction ws generalizing left parts with
  | nil =>
    cases parts with
    | nil => simp [AllTracked]
    | cons part parts => exact h.elim
  | cons window ws ih =>
    cases parts with
    | nil => exact h.elim
    | cons part parts => rw [List.forall₂_cons, AllTracked, h.1.exact_iff, ih h.2]

theorem AllLines.length_le (h : AllLines minUtility left ws parts) :
    List.Forall₂ (· ≤ ·) (parts.map List.length)
        (ws.map fun window => (highUtilitySets (baskets window) minUtility).card) ∧
      (parts.map List.length =
          ws.map (fun window => (highUtilitySets (baskets window) minUtility).card) ↔
        AllTracked minUtility left ws) := by
  induction ws generalizing left parts with
  | nil =>
    cases parts with
    | nil => simp [AllTracked]
    | cons part parts => exact h.elim
  | cons window ws ih =>
    cases parts with
    | nil => exact h.elim
    | cons part parts =>
      obtain ⟨hle, hiff⟩ := ih h.2
      constructor
      · exact List.Forall₂.cons h.1.length_le.1 hle
      · rw [List.map_cons, List.map_cons, List.cons.injEq, hiff, h.1.length_le.2, AllTracked]

end

theorem sum_eq_sum_iff_of_forall₂_le {ns ms : List ℕ} (h : List.Forall₂ (· ≤ ·) ns ms) :
    ns.sum = ms.sum ↔ ns = ms := by
  constructor
  · intro hsum
    induction h with
    | nil => rfl
    | @cons n m ns ms hle hrest ih =>
      have hle' := hrest.sum_le_sum
      simp only [List.sum_cons] at hsum
      rw [ih (by omega), show n = m by omega]
  · rintro rfl
    rfl

/-! ## The run -/

section

variable {windowSize budget : ℕ} {source : DataSource} {ctx : MiningContext} {s : Mined}

/-- What a stream leaves under a budget. -/
theorem stream_lines (hwf : ∀ row ∈ rowsRead source, row.WellFormed)
    (hguard : ctx.world.guard = .new budget) (h : stream windowSize source ctx = .ok s) :
    AllLines ctx.minUtility budget (windows windowSize source) s.appended := by
  have hwindows : ∀ window ∈ windows windowSize source, ∀ row ∈ window, row.WellFormed :=
    fun window hwindow row hrow =>
      hwf row ((exists_mem_windows_iff windowSize source row).mp ⟨window, hwindow, hrow⟩)
  have hreserved : (⟨0, [], ctx.world⟩ : Mined).world.guard.Reserved budget 0 := by
    rw [hguard]
    exact MemoryGuard.reserved_new budget
  obtain ⟨parts, happended, hparts⟩ := mineAll_lines hwindows hreserved (stream_ok h)
  rw [happended]
  exact hparts

/-- Every window gets its own high-utility itemsets if and only if the reservations
that are never freed have left room for all pairs that matter. -/
theorem windows_exact_iff (hwf : ∀ row ∈ rowsRead source, row.WellFormed)
    (hguard : ctx.world.guard = .new budget) (h : stream windowSize source ctx = .ok s) :
    List.Forall₂ (fun window lines => ExactOutput window ctx.minUtility lines)
        (windows windowSize source) s.appended ↔
      AllTracked ctx.minUtility budget (windows windowSize source) :=
  (stream_lines hwf hguard h).exact_iff

theorem windows_exact_iff_tinyDb :
    ∃ s, stream 2 (tinyDb.map .ok) (createCtx 45 none 64) = .ok s ∧
      (List.Forall₂ (fun window lines => ExactOutput window 45 lines)
          (windows 2 (tinyDb.map .ok)) s.appended ↔
        AllTracked 45 64 (windows 2 (tinyDb.map .ok))) := by
  obtain ⟨s, h⟩ : ∃ s, stream 2 (tinyDb.map .ok) (createCtx 45 none 64) = .ok s :=
    exists_of_isOk (by decide +kernel)
  exact ⟨s, h, windows_exact_iff (by decide) rfl h⟩

/-- A budget with room for the pairs of every single window is not enough. -/
theorem not_windows_exact :
    ¬ ∀ (windowSize : ℕ) (source : DataSource) (minUtility : Utility) (budget : ℕ) (s : Mined),
      2 ≤ windowSize → (∀ row ∈ rowsRead source, row.WellFormed) →
      (∀ window ∈ windows windowSize source,
        (Eucs.addAll (rowsOf minUtility window) .new (.new budget)).1 = true) →
      stream windowSize source (createCtx minUtility none budget) = .ok s →
      List.Forall₂ (fun window lines => ExactOutput window minUtility lines)
        (windows windowSize source) s.appended := by
  intro hall
  obtain ⟨s, h⟩ : ∃ s, stream 2 (tinyDb.map .ok) (createCtx 45 none 64) = .ok s :=
    exists_of_isOk (by decide +kernel)
  have hexact := hall 2 (tinyDb.map .ok) 45 64 s le_rfl (by decide) (by decide +kernel) h
  have htracked := (stream_lines (by decide) rfl h).exact_iff.mp hexact
  exact absurd htracked (by decide +kernel)

/-- The count is the number of lines if and only if only the last window has any;
it is the number of high-utility itemsets of all windows if and only if only the
last window has any and none of them is lost. -/
theorem count_exact_iff {count : ℕ} {w : World} (hfresh : ctx.world.huisFound = 0)
    (hguard : ctx.world.guard = .new budget) (h : stream windowSize source ctx = .ok s)
    (hrun : run windowSize source ctx = .ok (count, w)) :
    (count = w.lines.length ↔ ∀ part ∈ s.appended.dropLast, part = []) ∧
      ((∀ row ∈ rowsRead source, row.WellFormed) →
        ((count = w.lines.length ∧ w.lines.length =
            ((windows windowSize source).map fun window =>
              (highUtilitySets (baskets window) ctx.minUtility).card).sum) ↔
          (∀ window ∈ (windows windowSize source).dropLast,
              highUtilitySets (baskets window) ctx.minUtility = ∅) ∧
            AllTracked ctx.minUtility budget (windows windowSize source))) := by
  rw [run, h] at hrun
  obtain ⟨rfl, rfl⟩ := Prod.mk.inj (Except.ok.inj hrun)
  have hcount := totalHuis_eq_iff h hfresh
  refine ⟨hcount, fun hwf => ?_⟩
  obtain ⟨hle, hsame⟩ := (stream_lines hwf hguard h).length_le
  have hsum := sum_eq_sum_iff_of_forall₂_le hle
  rw [← hsame, hcount, List.length_flatten, hsum]
  -- with all lengths right, the parts before the last are empty when the windows' sets are
  have hlast : (∀ part ∈ s.appended.dropLast, part = []) ↔
      ∀ n ∈ (s.appended.map List.length).dropLast, n = 0 := by
    rw [← List.map_dropLast]
    simp only [List.forall_mem_map, List.length_eq_zero_iff]
  have hlast' : (∀ window ∈ (windows windowSize source).dropLast,
        highUtilitySets (baskets window) ctx.minUtility = ∅) ↔
      ∀ n ∈ ((windows windowSize source).map fun window =>
        (highUtilitySets (baskets window) ctx.minUtility).card).dropLast, n = 0 := by
    rw [← List.map_dropLast]
    simp only [List.forall_mem_map, Finset.card_eq_zero]
  rw [hlast, hlast']
  constructor
  · rintro ⟨hzero, heq⟩
    rw [heq] at hzero
    exact ⟨hzero, heq⟩
  · rintro ⟨hzero, heq⟩
    rw [← heq] at hzero
    exact ⟨hzero, heq⟩

theorem count_exact_iff_tinyDb :
    ∃ s count w, stream 2 (tinyDb.map .ok) (createCtx 45 none 1024) = .ok s ∧
      run 2 (tinyDb.map .ok) (createCtx 45 none 1024) = .ok (count, w) ∧
      (count = w.lines.length ↔ ∀ part ∈ s.appended.dropLast, part = []) ∧
      ((count = w.lines.length ∧ w.lines.length = ((windows 2 (tinyDb.map .ok)).map fun window =>
          (highUtilitySets (baskets window) 45).card).sum) ↔
        (∀ window ∈ (windows 2 (tinyDb.map .ok)).dropLast,
            highUtilitySets (baskets window) 45 = ∅) ∧
          AllTracked 45 1024 (windows 2 (tinyDb.map .ok))) := by
  obtain ⟨s, h⟩ : ∃ s, stream 2 (tinyDb.map .ok) (createCtx 45 none 1024) = .ok s :=
    exists_of_isOk (by decide +kernel)
  have hrun : run 2 (tinyDb.map .ok) (createCtx 45 none 1024) = .ok s.result := by
    rw [run, h]
    rfl
  have hexact := count_exact_iff rfl rfl h hrun
  exact ⟨s, _, _, h, hrun, hexact.1, hexact.2 (by decide)⟩

/-- On three transactions, in windows of two, six lines are counted as thirteen. -/
theorem not_count_exact :
    ¬ ∀ (windowSize : ℕ) (source : DataSource) (minUtility : Utility) (budget count : ℕ)
      (w : World),
      2 ≤ windowSize → (∀ row ∈ rowsRead source, row.WellFormed) →
      run windowSize source (createCtx minUtility none budget) = .ok (count, w) →
      count = w.lines.length ∧ w.lines.length =
        ((windows windowSize source).map fun window =>
          (highUtilitySets (baskets window) minUtility).card).sum := by
  intro hall
  have hrun : (run 2 (tinyDb.map .ok) (createCtx 45 none 1024)).map
      (fun r => (r.1, r.2.lines.length)) = .ok (13, 6) := by decide +kernel
  cases h : run 2 (tinyDb.map .ok) (createCtx 45 none 1024) with
  | error e =>
    rw [h] at hrun
    cases hrun
  | ok r =>
    obtain ⟨count, w⟩ := r
    rw [h] at hrun
    obtain ⟨rfl, hlines⟩ := Prod.mk.inj (Except.ok.inj hrun)
    have hcount := (hall 2 (tinyDb.map .ok) 45 1024 13 w le_rfl (by decide) h).1
    rw [hlines] at hcount
    cases hcount

end

end HuimMmu

end AirHuim
