import Unworkable.Library.ChunkedReader

/-! # Computations in lockstep

Two fallible computations are in lockstep if they end in the same error, or in results that
are related. Sequences, branches and loops of computations in lockstep are in lockstep.
-/
namespace Unworkable.Library

universe u v

section Except
variable {ε : Type*} {α α' : Type u} {β β' : Type v} {R : α → β → Prop} {S : α' → β' → Prop}

inductive Lockstep (R : α → β → Prop) : Except ε α → Except ε β → Prop
  | ok {a : α} {b : β} (h : R a b) : Lockstep R (.ok a) (.ok b)
  | error (e : ε) : Lockstep R (.error e) (.error e)

namespace Lockstep
variable {x : Except ε α} {y : Except ε β}

theorem bind {f : α → Except ε α'} {g : β → Except ε β'} (h : Lockstep R x y)
    (hfg : ∀ a b, R a b → Lockstep S (f a) (g b)) : Lockstep S (x >>= f) (y >>= g) := by
  cases h with
  | ok h => exact hfg _ _ h
  | error e => exact .error e

theorem map {f : α → α'} {g : β → β'} (h : Lockstep R x y) (hfg : ∀ a b, R a b → S (f a) (g b)) :
    Lockstep S (x.map f) (y.map g) := by
  cases h with
  | ok h => exact .ok (hfg _ _ h)
  | error e => exact .error e

theorem mono {R' : α → β → Prop} (h : Lockstep R x y) (himp : ∀ a b, R a b → R' a b) : Lockstep R' x y := by
  cases h with
  | ok h => exact .ok (himp _ _ h)
  | error e => exact .error e

theorem ite {c : Prop} [Decidable c] {x' : Except ε α} {y' : Except ε β} (h : Lockstep R x y) (h' : Lockstep R x' y') :
    Lockstep R (if c then x else x') (if c then y else y') := by
  split
  · exact h
  · exact h'

theorem foldlM {γ : Type*} {f : α → γ → Except ε α} {g : β → γ → Except ε β}
    (hfg : ∀ a b c, R a b → Lockstep R (f a c) (g b c)) (cs : List γ) {a : α} {b : β} (h : R a b) :
    Lockstep R (cs.foldlM f a) (cs.foldlM g b) := by
  induction cs generalizing a b with
  | nil => exact .ok h
  | cons c cs ih =>
    rw [List.foldlM_cons,List.foldlM_cons]
    exact (hfg a b c h).bind fun _ _ => ih

/-- A computation that does not touch what the relation is about. -/
theorem same (x : Except ε α) : Lockstep Eq x x := by
  cases x with
  | ok a => exact .ok rfl
  | error e => exact .error e

theorem left (h : Lockstep R x y) {a : α} (hx : x = .ok a) : ∃ b, y = .ok b ∧ R a b := by
  subst hx
  cases h with
  | ok h => exact ⟨_,rfl,h⟩

theorem right (h : Lockstep R x y) {b : β} (hy : y = .ok b) : ∃ a, x = .ok a ∧ R a b := by
  subst hy
  cases h with
  | ok h => exact ⟨_,rfl,h⟩

theorem map_eq (h : Lockstep R x y) {f : α → β} (hf : ∀ a b, R a b → f a = b) : x.map f = y := by
  cases h with
  | ok h => exact congrArg Except.ok (hf _ _ h)
  | error e => rfl

theorem eq {y : Except ε α} (h : Lockstep Eq x y) : x = y := by
  cases h with
  | ok h => exact congrArg Except.ok h
  | error e => rfl

theorem error_iff (h : Lockstep R x y) {e : ε} : x = .error e ↔ y = .error e := by
  cases h with
  | ok h => simp
  | error e' => simp

end Lockstep

end Except

section Traced
variable {κ ε σ τ : Type*} {R : σ → τ → Prop} {A : Reader κ ε σ} {B : Reader κ ε τ}

/-- The operations of two readers go in lockstep, and ask for the same bytes. -/
structure Reader.Follows (A : Reader κ ε σ) (B : Reader κ ε τ) (R : σ → τ → Prop) : Prop where
  arm : ∀ s t, R s t → R (A.arm s) (B.arm t)
  pending : ∀ s t, R s t → A.pending s = B.pending t
  push : ∀ s t bs, R s t → R (A.push s bs) (B.push t bs)
  finish : ∀ s t, R s t → Lockstep R (A.finish s).result (B.finish t).result
  settle : ∀ s t, R s t → Lockstep R (A.settle s) (B.settle t)

theorem Traced.lockstep_bind {x : Traced κ ε σ} {y : Traced κ ε τ} {f : σ → Traced κ ε σ} {g : τ → Traced κ ε τ}
    (h : Lockstep R x.result y.result) (hfg : ∀ s t, R s t → Lockstep R (f s).result (g t).result) :
    Lockstep R (x.bind f).result (y.bind g).result := by
  rcases x with ⟨xs,x⟩
  rcases y with ⟨ys,y⟩
  cases h with
  | ok h => exact hfg _ _ h
  | error e => exact .error e

/-- One entry of the callbacks. -/
theorem Reader.Follows.invoke (h : A.Follows B R) {s : σ} {t : τ} (hst : R s t) (avail : Bytes) :
    Lockstep R (A.invoke s avail).result (B.invoke t avail).result := by
  have harm := h.arm s t hst
  unfold Reader.invoke
  dsimp only
  rw [h.pending _ _ harm]
  have hpush := h.push _ _ (avail.take (B.pending (B.arm t))) harm
  rw [h.pending _ _ hpush]
  refine Traced.lockstep_bind ?_ h.settle
  split
  · exact .ok hpush
  · exact h.finish _ _ hpush

end Traced

end Unworkable.Library
