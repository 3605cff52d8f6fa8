import Mathlib.Data.Finset.Card
import Mathlib.Data.List.Nodup
import Mathlib.Data.List.Flatten
import Mathlib.Data.List.Perm.Basic
import Mathlib.Tactic

/-!
# Lists that enumerate a region without repetition

`Lists f out lower upper` says that `out` names, through `f`, no key twice, that
it names every key of `lower`, and that each of its elements satisfies `upper`.
A search that splits its region into disjoint parts is proved correct by the
rules below, one for each way in which the parts' outputs are put together.
-/

namespace AirHuim.Library

variable {β κ τ : Type*}

structure Lists (f : β → κ) (out : List β) (lower : κ → Prop) (upper : β → Prop) : Prop where
  nodup : (out.map f).Nodup
  complete : ∀ k, lower k → k ∈ out.map f
  sound : ∀ b ∈ out, upper b

namespace Lists

variable {f : β → κ} {out xs ys : List β} {lower lower' l₁ l₂ : κ → Prop}
  {upper upper' u₁ u₂ : β → Prop}

theorem nil (h : ∀ k, ¬ lower k) : Lists f [] lower upper :=
  ⟨List.nodup_nil, fun k hk => (h k hk).elim, fun _ hb => (List.not_mem_nil hb).elim⟩

theorem singleton {b : β} (hl : ∀ k, lower k → k = f b) (hu : upper b) :
    Lists f [b] lower upper :=
  ⟨List.nodup_singleton _, fun k hk => by simp [hl k hk], fun c hc => by
    rw [List.mem_singleton.mp hc]; exact hu⟩

theorem mono (h : Lists f out lower upper) (hl : ∀ k, lower' k → lower k)
    (hu : ∀ b ∈ out, upper b → upper' b) : Lists f out lower' upper' :=
  ⟨h.nodup, fun k hk => h.complete k (hl k hk), fun b hb => hu b hb (h.sound b hb)⟩

theorem append (hx : Lists f xs l₁ u₁) (hy : Lists f ys l₂ u₂)
    (hdisj : ∀ b c, u₁ b → u₂ c → f b ≠ f c) :
    Lists f (xs ++ ys) (fun k => l₁ k ∨ l₂ k) (fun b => u₁ b ∨ u₂ b) := by
  refine ⟨?_, ?_, ?_⟩
  · rw [List.map_append, List.nodup_append]
    refine ⟨hx.nodup, hy.nodup, ?_⟩
    intro a ha c hc
    obtain ⟨b, hb, rfl⟩ := List.mem_map.mp ha
    obtain ⟨d, hd, rfl⟩ := List.mem_map.mp hc
    exact hdisj b d (hx.sound b hb) (hy.sound d hd)
  · rintro k (hk | hk)
    · exact List.map_append ▸ List.mem_append_left _ (hx.complete k hk)
    · exact List.map_append ▸ List.mem_append_right _ (hy.complete k hk)
  · intro b hb
    rcases List.mem_append.mp hb with hb | hb
    · exact Or.inl (hx.sound b hb)
    · exact Or.inr (hy.sound b hb)

theorem perm (h : Lists f xs lower upper) (hp : xs.Perm ys) : Lists f ys lower upper :=
  ⟨(hp.map f).nodup_iff.mp h.nodup, fun k hk => (hp.map f).subset (h.complete k hk),
    fun b hb => h.sound b (hp.symm.subset hb)⟩

theorem filter (h : Lists f out lower upper) (p : β → Bool) {P : κ → Prop}
    (hP : ∀ b ∈ out, p b = true ↔ P (f b)) :
    Lists f (out.filter p) (fun k => lower k ∧ P k) (fun b => upper b ∧ P (f b)) := by
  refine ⟨h.nodup.sublist (List.filter_sublist.map f), ?_, ?_⟩
  · rintro k ⟨hk, hPk⟩
    obtain ⟨b, hb, rfl⟩ := List.mem_map.mp (h.complete k hk)
    exact List.mem_map_of_mem (List.mem_filter.mpr ⟨hb, (hP b hb).mpr hPk⟩)
  · intro b hb
    obtain ⟨hb, hp⟩ := List.mem_filter.mp hb
    exact ⟨h.sound b hb, (hP b hb).mp hp⟩

/-- Two searches of one region that agree on what belongs to it name the same keys. -/
theorem mem_iff {p : κ → Prop} (h : Lists f out p fun b => p (f b)) (k : κ) :
    k ∈ out.map f ↔ p k := by
  refine ⟨?_, h.complete k⟩
  intro hk
  obtain ⟨b, hb, rfl⟩ := List.mem_map.mp hk
  exact h.sound b hb

/-- A search that names the keys of a finite set is as long as the set is large. -/
theorem length_eq_card [DecidableEq κ] {p : κ → Prop} (h : Lists f out p fun b => p (f b))
    {s : Finset κ} (hs : ∀ k, k ∈ s ↔ p k) : out.length = s.card := by
  have hset : (out.map f).toFinset = s := by
    ext k
    rw [List.mem_toFinset, h.mem_iff, hs]
  rw [← hset, List.toFinset_card_of_nodup h.nodup, List.length_map]

end Lists

end AirHuim.Library
