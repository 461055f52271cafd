import Mathlib.Logic.Relation
import Mathlib.Data.Nat.Notation

/-! # Deterministic machines

The step of a machine gives its next state or its result. A run is given a number of
steps; a measure that every step lowers says how many are enough.
-/
namespace Unworkable.Library

section Machine
variable {σ ρ : Type*} (next : σ → σ ⊕ ρ)

def runFor : ℕ → σ → Option ρ
  | 0,_ => none
  | n + 1,s => match next s with
    | .inl t => runFor n t
    | .inr r => some r

def Reaches (s t : σ) : Prop := Relation.ReflTransGen (fun a b => next a = .inl b) s t

def Ends (s : σ) (r : ρ) : Prop := ∃ t, Reaches next s t ∧ next t = .inr r

variable {next} {s t u : σ} {r r' : ρ}

theorem Reaches.refl : Reaches next s s := Relation.ReflTransGen.refl

theorem Reaches.trans (h : Reaches next s t) (h' : Reaches next t u) : Reaches next s u :=
  Relation.ReflTransGen.trans h h'

theorem Reaches.step (h : next s = .inl t) : Reaches next s t := Relation.ReflTransGen.single h

theorem Reaches.head (h : next s = .inl t) (h' : Reaches next t u) : Reaches next s u := Relation.ReflTransGen.head h h'

theorem Ends.stop (h : next s = .inr r) : Ends next s r := ⟨s,.refl,h⟩

theorem Ends.head (h : next s = .inl t) (h' : Ends next t r) : Ends next s r := by
  obtain ⟨u,hu,hr⟩ := h'
  exact ⟨u,hu.head h,hr⟩

theorem Reaches.ends (h : Reaches next s t) (h' : Ends next t r) : Ends next s r := by
  obtain ⟨u,hu,hr⟩ := h'
  exact ⟨u,h.trans hu,hr⟩

/-- What stops later on was going to stop so. -/
theorem Reaches.ends_iff (h : Reaches next s t) : Ends next s r ↔ Ends next t r := by
  refine ⟨?_,h.ends⟩
  induction h using Relation.ReflTransGen.head_induction_on with
  | refl => exact id
  | head hstep _ ih =>
    rintro ⟨u,hu,hr⟩
    apply ih
    cases hu using Relation.ReflTransGen.head_induction_on with
    | refl =>
      rw [hstep] at hr
      cases hr
    | head hstep' hrest =>
      rw [hstep] at hstep'
      cases hstep'
      exact ⟨u,hrest,hr⟩

theorem Ends.unique (h : Ends next s r) (h' : Ends next s r') : r = r' := by
  obtain ⟨t,ht,hr⟩ := h
  obtain ⟨u,hu,hr'⟩ := ht.ends_iff.mp h'
  cases hu using Relation.ReflTransGen.head_induction_on with
  | refl => exact Sum.inr.inj (hr.symm.trans hr')
  | head hstep _ =>
    rw [hr] at hstep
    cases hstep

theorem runFor_ends {n : ℕ} (h : runFor next n s = some r) : Ends next s r := by
  induction n generalizing s with
  | zero => cases h
  | succ n ih =>
    unfold runFor at h
    split at h
    · rename_i t ht
      exact (ih h).head ht
    · rename_i r' hr
      cases h
      exact .stop hr

/-- A measure that every step lowers bounds the steps a run takes. -/
theorem runFor_of_measure {μ : σ → ℕ} (hμ : ∀ s t, next s = .inl t → μ t < μ s) {n : ℕ} (hn : μ s < n) :
    ∃ r, runFor next n s = some r := by
  induction n generalizing s with
  | zero => exact absurd hn (Nat.not_lt_zero _)
  | succ n ih =>
    unfold runFor
    split
    · rename_i t ht
      have hlt := hμ s t ht
      exact ih (by omega)
    · rename_i r _
      exact ⟨r,rfl⟩

/-- An invariant of the steps holds wherever the machine gets. -/
theorem Reaches.invariant {I : σ → Prop} (h : Reaches next s t) (hI : ∀ s t, I s → next s = .inl t → I t)
    (hs : I s) : I t := by
  induction h with
  | refl => exact hs
  | tail _ hstep ih => exact hI _ _ ih hstep

end Machine

end Unworkable.Library
