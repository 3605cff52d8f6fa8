import AirHuim.Preprocessing.DbReader
import AirHuim.Mining.Algorithms.CheckedWeights
import AirHuim.Mining.Algorithms.FhmChecked

/-!
# Lines that the reader rejects

FHM drops a rejected line in both of its passes, Two-Phase returns its error. So
on a text with a rejected line the one mines what is left of the database and the
other fails, and on every other text they agree. Both runs are those of a build with
overflow checks.
-/

namespace AirHuim

open Library Basket

/-- Two runs that both fail, or both return with the same pairs. -/
def SameOutcome (r r' : Except Fault (ℕ × World)) : Prop :=
  (r.isOk = false ∧ r'.isOk = false) ∨
    ∃ result result', r = .ok result ∧ r' = .ok result' ∧
      emitted result.2.lines = emitted result'.2.lines

/-- FHM runs as on the database without the rejected lines. -/
theorem Fhm.runChecked_acceptedRows (source : DataSource) (ctx : MiningContext) :
    Fhm.runChecked source ctx = Fhm.runChecked ((acceptedRows source).map .ok) ctx := by
  unfold Fhm.runChecked
  rw [readDb_eq, readDb_map_ok]
  split
  · change Except.bind (Except.ok _) _ = Except.bind (Except.ok _) _
    simp only [Except.bind, okOnly_dbReader, okOnly_map_ok]
  · rfl

/-- What propagates the errors returns only if there are none. -/
theorem isOk_of_mapM_id {txs : List (Except Fault RawTransaction)} {ys : List RawTransaction}
    (h : txs.mapM id = .ok ys) : ∀ tx ∈ txs, tx.isOk := by
  induction txs generalizing ys with
  | nil => exact fun tx htx => (List.not_mem_nil htx).elim
  | cons tx txs ih =>
    rw [List.mapM_cons] at h
    intro tx' htx'
    cases tx with
    | error e => cases h
    | ok tx =>
      cases hrest : txs.mapM id with
      | error e => simp [hrest, bind, Except.bind] at h
      | ok zs =>
        rcases List.mem_cons.mp htx' with rfl | htx'
        · rfl
        · exact ih hrest tx' htx'

theorem exists_error_dbReader {source : DataSource} (h : ¬ AllAccepted source) (tid : ℕ) :
    ∃ tx ∈ dbReader tid source, tx.isOk = false := by
  induction source generalizing tid with
  | nil => exact (h fun _ hl => (List.not_mem_nil hl).elim).elim
  | cons line source ih =>
    cases line with
    | error e => exact ⟨_, List.mem_cons_self, rfl⟩
    | ok row =>
      have hrest : ¬ AllAccepted source := by
        intro hall
        apply h
        intro l hl
        rcases List.mem_cons.mp hl with rfl | hl
        · rfl
        · exact hall l hl
      obtain ⟨tx, htx, herror⟩ := ih hrest (tid + 1)
      exact ⟨tx, List.mem_cons_of_mem _ htx, herror⟩

/-- Two-Phase returns the error of a rejected line. -/
theorem TwoPhase.runChecked_rejected {source : DataSource} (h : ¬ AllAccepted source)
    (ctx : MiningContext) : (TwoPhase.runChecked source ctx).isOk = false := by
  obtain ⟨tx, htx, herror⟩ := exists_error_dbReader h 0
  unfold TwoPhase.runChecked
  rw [readDb_eq]
  split
  · cases htxs : (dbReader 0 source).mapM id with
    | error e =>
      change (Except.bind ((dbReader 0 source).mapM id) _).isOk = false
      rw [htxs]
      rfl
    | ok txs =>
      rw [isOk_of_mapM_id htxs tx htx] at herror
      cases herror
  · rfl

theorem runChecked_overlong {source : DataSource} (h : ¬ (acceptedRows source).length < 2 ^ 32)
    (ctx : MiningContext) :
    (Fhm.runChecked source ctx).isOk = false ∧ (TwoPhase.runChecked source ctx).isOk = false := by
  unfold Fhm.runChecked TwoPhase.runChecked
  rw [readDb_eq, if_neg h]
  exact ⟨rfl, rfl⟩

/-- The rows and the weights of a run of FHM that returns fit. -/
theorem Fhm.fits_of_runChecked {source : DataSource} {ctx : MiningContext} {result : ℕ × World}
    (h : Fhm.runChecked source ctx = .ok result) :
    (acceptedRows source).length < 2 ^ 32 ∧
      TwuFilter.SumsFit (numbered 0 (acceptedRows source)) := by
  rw [Fhm.runChecked_acceptedRows, Fhm.runChecked, readDb_map_ok] at h
  split_ifs at h with hlen
  · replace h : Fhm.mineChecked ctx (okOnly _) = .ok result := h
    rw [okOnly_map_ok] at h
    exact ⟨hlen, Fhm.sumsFit_of_mineChecked h⟩
  · cases h

section

variable {text : Text} (ctx ctx' : MiningContext)

/-- FHM returns what is exact for the accepted lines, or overflows. -/
theorem Fhm.runChecked_accepted (hwf : ∀ row ∈ acceptedRows (sourceOf text), row.WellFormed)
    (hpool : ∀ n, ctx.world.pool.fails n = false)
    (heucs : (Fhm.pass2 ctx (numbered 0 (acceptedRows (sourceOf text)))).oom = false) :
    ((∃ result, Fhm.runChecked (sourceOf text) ctx = .ok result) ∨
        Fhm.runChecked (sourceOf text) ctx = .error .overflow ∧
          ¬ LightDb (acceptedRows (sourceOf text))) ∧
      ∀ result, Fhm.runChecked (sourceOf text) ctx = .ok result →
        ExactOutput (acceptedRows (sourceOf text)) ctx.minUtility result.2.lines := by
  have hE : Task.Allows (fun _ => False) ctx.world := fun n hn => by simp [hpool n] at hn
  refine ⟨?_, fun result hreturns => ?_⟩
  · rw [Fhm.runChecked_acceptedRows]
    exact Fhm.runChecked_returns ctx hwf hpool
  · have hlen := (Fhm.fits_of_runChecked hreturns).1
    rw [Fhm.runChecked_acceptedRows] at hreturns
    have hrun := Fhm.run_of_runChecked hreturns
    rcases Fhm.run_spec_of_complete ctx hwf hE heucs hlen with ⟨e, he, -⟩ | ⟨w, hw, -, hexact⟩
    · exact he.elim
    · rw [hw] at hrun
      obtain rfl := Except.ok.inj hrun
      exact hexact

/-- Two-Phase returns what is exact if no line is rejected and the weights fit, and
fails otherwise. -/
theorem TwoPhase.runChecked_accepted (hwf : ∀ row ∈ acceptedRows (sourceOf text), row.WellFormed)
    (hpool : ∀ n, ctx.world.pool.fails n = false)
    (hguard : (ctx.world.guard.tryAlloc ((acceptedRows (sourceOf text)).length * 8)).1 = true) :
    (AllAccepted (sourceOf text) ∧ (acceptedRows (sourceOf text)).length < 2 ^ 32 ∧
        TwuFilter.SumsFit (numbered 0 (acceptedRows (sourceOf text))) →
      ∃ result, TwoPhase.runChecked (sourceOf text) ctx = .ok result ∧
        ExactOutput (acceptedRows (sourceOf text)) ctx.minUtility result.2.lines) ∧
      (¬ (AllAccepted (sourceOf text) ∧ (acceptedRows (sourceOf text)).length < 2 ^ 32 ∧
          TwuFilter.SumsFit (numbered 0 (acceptedRows (sourceOf text)))) →
        (TwoPhase.runChecked (sourceOf text) ctx).isOk = false) := by
  constructor
  · rintro ⟨hall, hlen, hfit⟩
    obtain ⟨w, lines, hrun, hperm, hexact⟩ := TwoPhase.run_spec ctx hwf hpool hguard hlen
    have hchecked := TwoPhase.runChecked_map_ok ctx (acceptedRows (sourceOf text))
    rw [if_pos hfit, hrun, ← eq_map_ok_of_allAccepted hall] at hchecked
    exact ⟨_, hchecked, hexact.perm hperm.symm⟩
  · intro hnot
    by_cases hall : AllAccepted (sourceOf text)
    · by_cases hlen : (acceptedRows (sourceOf text)).length < 2 ^ 32
      · have hfit := fun hfit => hnot ⟨hall, hlen, hfit⟩
        rw [eq_map_ok_of_allAccepted hall, TwoPhase.runChecked_map_ok, if_neg hfit]
        rfl
      · exact (runChecked_overlong hlen ctx).2
    · exact TwoPhase.runChecked_rejected hall ctx

/-- FHM and Two-Phase have the same outcome on a text on which FHM returns exactly if no
line of it is rejected, and on one on which FHM overflows exactly if Two-Phase does so
too, in a `tid` or a weight, or a line is rejected. -/
theorem sameOutcome_iff (hwf : ∀ row ∈ acceptedRows (sourceOf text), row.WellFormed)
    (hmin : ctx'.minUtility = ctx.minUtility) (hpool : ∀ n, ctx.world.pool.fails n = false)
    (hpool' : ∀ n, ctx'.world.pool.fails n = false)
    (heucs : (Fhm.pass2 ctx (numbered 0 (acceptedRows (sourceOf text)))).oom = false)
    (hguard : (ctx'.world.guard.tryAlloc ((acceptedRows (sourceOf text)).length * 8)).1 = true) :
    ((∃ result, Fhm.runChecked (sourceOf text) ctx = .ok result) ∨
        Fhm.runChecked (sourceOf text) ctx = .error .overflow ∧
          ¬ LightDb (acceptedRows (sourceOf text))) ∧
      (∀ result, Fhm.runChecked (sourceOf text) ctx = .ok result →
        (SameOutcome (Fhm.runChecked (sourceOf text) ctx)
          (TwoPhase.runChecked (sourceOf text) ctx') ↔ AllAccepted (sourceOf text))) ∧
      (Fhm.runChecked (sourceOf text) ctx = .error .overflow →
        (SameOutcome (Fhm.runChecked (sourceOf text) ctx)
          (TwoPhase.runChecked (sourceOf text) ctx') ↔
            ¬ (AllAccepted (sourceOf text) ∧ (acceptedRows (sourceOf text)).length < 2 ^ 32 ∧
              TwuFilter.SumsFit (numbered 0 (acceptedRows (sourceOf text)))))) := by
  obtain ⟨hends, hexact⟩ := Fhm.runChecked_accepted ctx hwf hpool heucs
  obtain ⟨hreturns, hfails⟩ := TwoPhase.runChecked_accepted ctx' hwf hpool' hguard
  rw [hmin] at hreturns
  refine ⟨hends, fun result hfhm => ?_, fun hfhm => ?_⟩
  · obtain ⟨hlen, hfit⟩ := Fhm.fits_of_runChecked hfhm
    have hexact := hexact result hfhm
    rw [hfhm]
    constructor
    · rintro (⟨hfault, -⟩ | ⟨_, result', -, htwo, -⟩)
      · cases hfault
      · by_contra hall
        have hfault := hfails fun h => hall h.1
        rw [htwo] at hfault
        cases hfault
    · intro hall
      obtain ⟨result', htwo, hexact'⟩ := hreturns ⟨hall, hlen, hfit⟩
      exact Or.inr ⟨result, result', rfl, htwo, hexact.emitted_eq hexact'⟩
  · rw [hfhm]
    constructor
    · rintro (⟨-, hfault⟩ | ⟨_, _, hfault, -⟩) hfine
      · obtain ⟨result', htwo, -⟩ := hreturns hfine
        rw [htwo] at hfault
        cases hfault
      · cases hfault
    · exact fun hnot => Or.inl ⟨rfl, hfails hnot⟩

/-- Two transactions, a comment and a blank line. -/
def cleanText : Text := "1 2:40:20 20\n# bought online\n\n1 3:60:30 30\n".toList

theorem sameOutcome_iff_clean :
    ∃ result, Fhm.runChecked (sourceOf cleanText) (createCtx 45 none 1073741824) = .ok result ∧
      (SameOutcome (Fhm.runChecked (sourceOf cleanText) (createCtx 45 none 1073741824))
        (TwoPhase.runChecked (sourceOf cleanText) (createCtx 45 none 1073741824)) ↔
          AllAccepted (sourceOf cleanText)) := by
  have hwf : ∀ row ∈ acceptedRows (sourceOf cleanText), row.WellFormed := by decide
  have hlight : LightDb (acceptedRows (sourceOf cleanText)) :=
    ⟨by decide, by decide, by decide⟩
  obtain ⟨hends, hiff, -⟩ := sameOutcome_iff (createCtx 45 none 1073741824)
    (createCtx 45 none 1073741824) hwf rfl (fun _ => rfl) (fun _ => rfl) (by decide) (by decide)
  obtain ⟨result, hrun⟩ := hends.resolve_right fun h => h.2 hlight
  exact ⟨result, hrun, hiff result hrun⟩

/-- The second transaction has a utility too few. -/
def tornText : Text := "1 2:40:20 20\n1 3:60:30\n".toList

theorem not_sameOutcome_torn :
    ¬ SameOutcome (Fhm.runChecked (sourceOf tornText) (createCtx 30 none 1073741824))
      (TwoPhase.runChecked (sourceOf tornText) (createCtx 30 none 1073741824)) := by
  have hwf : ∀ row ∈ acceptedRows (sourceOf tornText), row.WellFormed := by decide
  have hlight : LightDb (acceptedRows (sourceOf tornText)) := ⟨by decide, by decide, by decide⟩
  obtain ⟨hends, -⟩ :=
    Fhm.runChecked_accepted (createCtx 30 none 1073741824) hwf (fun _ => rfl) (by decide)
  obtain ⟨result, hfhm⟩ := hends.resolve_right fun h => h.2 hlight
  have htwo : (TwoPhase.runChecked (sourceOf tornText) (createCtx 30 none 1073741824)).isOk =
      false := TwoPhase.runChecked_rejected (by decide) _
  rw [hfhm]
  rintro (⟨hfault, -⟩ | ⟨_, result', -, hreturns, -⟩)
  · cases hfault
  · rw [hreturns] at htwo
    cases htwo

end

end AirHuim
