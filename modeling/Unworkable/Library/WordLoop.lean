import Unworkable.Library.Machine
import Mathlib.Data.Nat.ModEq
import Mathlib.Tactic.Ring

/-! # Loops over a machine word

`for (i = 0; i < bound; i += step)` with a counter that wraps at a modulus. The body gives
a new state or leaves the loop with a result.
-/
namespace Unworkable.Library

section Loop
variable {σ β : Type*} (modulus step bound : ℕ) (body : σ → ℕ → σ ⊕ β) (done : σ → β)

def loopTurn : σ × ℕ → (σ × ℕ) ⊕ β
  | (s,i) => if i < bound then
      match body s i with
      | .inl t => .inl (t,(i + step) % modulus)
      | .inr b => .inr b
    else .inr (done s)

/-- The body on a list of counters: it gets through, or leaves. -/
def passes : List ℕ → σ → σ ⊕ β
  | [],s => .inl s
  | i :: is,s => match body s i with
    | .inl t => passes is t
    | .inr b => .inr b

def counters : List ℕ := (List.range ((bound + step - 1) / step)).map (· * step)

variable {modulus step bound body done} {s : σ}

theorem mem_counters {i : ℕ} (hstep : 0 < step) : i ∈ counters step bound ↔ step ∣ i ∧ i < bound := by
  unfold counters
  simp only [List.mem_map,List.mem_range]
  constructor
  · rintro ⟨k,hk,rfl⟩
    refine ⟨Dvd.intro_left k rfl,?_⟩
    have hle := Nat.mul_le_mul_right step (Nat.succ_le_of_lt hk)
    have hdiv := Nat.div_mul_le_self (bound + step - 1) step
    rw [Nat.succ_mul] at hle
    omega
  · rintro ⟨⟨k,rfl⟩,hlt⟩
    refine ⟨k,?_,Nat.mul_comm k step⟩
    apply (Nat.le_div_iff_mul_le hstep).mpr
    rw [Nat.succ_mul,Nat.mul_comm]
    omega

/-- From a counter on, the loop goes through the multiples of the step that are left. -/
theorem loopTurn_from (hstep : 0 < step) (hbound : bound ≤ modulus) (n k : ℕ)
    (hn : k + n = (bound + step - 1) / step) (s : σ) :
    (∀ b, passes body ((List.range' k n).map (· * step)) s = .inr b →
      Ends (loopTurn modulus step bound body done) (s,k * step % modulus) b) ∧
    ∀ t, passes body ((List.range' k n).map (· * step)) s = .inl t →
      Reaches (loopTurn modulus step bound body done) (s,k * step % modulus) (t,(k + n) * step % modulus) := by
  induction n generalizing k s with
  | zero =>
    constructor
    · intro b hb
      cases hb
    · intro t ht
      cases ht
      exact .refl
  | succ n ih =>
    have hlt : k * step < bound := by
      have hle : (k + 1) * step ≤ bound + step - 1 := (Nat.le_div_iff_mul_le hstep).mp (by omega)
      rw [Nat.succ_mul] at hle
      omega
    have hturn : loopTurn modulus step bound body done (s,k * step % modulus) = match body s (k * step) with
        | .inl t => .inl (t,(k * step + step) % modulus)
        | .inr b => .inr b := by
      rw [Nat.mod_eq_of_lt (hlt.trans_le hbound)]
      exact if_pos hlt
    rw [List.range'_succ,List.map_cons,passes]
    cases hbody : body s (k * step) with
    | inl t =>
      rw [hbody,← Nat.succ_mul] at hturn
      obtain ⟨hleaves,hgets⟩ := ih (k + 1) (by omega) t
      rw [Nat.add_right_comm] at hgets
      exact ⟨fun b h => (hleaves b h).head hturn,fun u h => (hgets u h).head hturn⟩
    | inr b =>
      rw [hbody] at hturn
      constructor
      · intro c hc
        cases hc
        exact .stop hturn
      · intro t ht
        cases ht

/-- A loop ends if its body leaves it at one of the counters. -/
theorem loopTurn_leaves (hstep : 0 < step) (hbound : bound ≤ modulus) {b : β}
    (h : passes body (counters step bound) s = .inr b) :
    Ends (loopTurn modulus step bound body done) (s,0) b := by
  obtain ⟨hleaves,-⟩ := @loopTurn_from σ β modulus step bound body done hstep hbound _ 0 (Nat.zero_add _) s
  rw [← List.range_eq_range',Nat.zero_mul,Nat.zero_mod] at hleaves
  exact hleaves b h

/-- A loop whose counter does not wrap ends when the body has got through the counters. -/
theorem loopTurn_gets_through (hstep : 0 < step) (hbound : bound + step ≤ modulus) {t : σ}
    (h : passes body (counters step bound) s = .inl t) : Ends (loopTurn modulus step bound body done)
    (s,0) (done t) := by
  obtain ⟨-,hgets⟩ := @loopTurn_from σ β modulus step bound body done hstep (by omega) _ 0 (Nat.zero_add _) s
  rw [← List.range_eq_range',Nat.zero_mul,Nat.zero_mod,Nat.zero_add] at hgets
  refine (hgets t h).ends (.stop ?_)
  have hle := Nat.div_mul_le_self (bound + step - 1) step
  have hlt := @Nat.lt_div_mul_add (bound + step - 1) step hstep
  rw [Nat.mod_eq_of_lt (by omega)]
  exact if_neg (by omega)

/-- A loop whose counter wraps to a counter before it does not end, unless its body leaves it. -/
theorem loopTurn_hangs (hdvd : step ∣ modulus) (hmod : 0 < modulus) (hbound : modulus < bound + step)
    {I : σ → Prop} (hI : ∀ s i, I s → step ∣ i → i < modulus → ∃ t, body s i = .inl t ∧ I t) (hs : I s) (b : β) :
    ¬ Ends (loopTurn modulus step bound body done) (s,0) b := by
  have hturn : ∀ s i, I s ∧ step ∣ i ∧ i < modulus →
      ∃ t, loopTurn modulus step bound body done (s,i) = .inl (t,(i + step) % modulus) ∧ I t := by
    rintro s i ⟨hs,hi,hlt⟩
    obtain ⟨t,ht,hIt⟩ := hI s i hs hi hlt
    refine ⟨t,?_,hIt⟩
    have hle : i + step ≤ modulus := Nat.le_of_lt_add_of_dvd (by omega) (Nat.dvd_add_self_right.mpr hi) hdvd
    rw [loopTurn,if_pos (by omega),ht]
  rintro ⟨⟨t,i⟩,hreaches,hstop⟩
  have hinv : I t ∧ step ∣ i ∧ i < modulus := by
    refine hreaches.invariant (I := fun p => I p.1 ∧ step ∣ p.2 ∧ p.2 < modulus) ?_ ⟨hs,Nat.dvd_zero step,hmod⟩
    rintro ⟨t,i⟩ ⟨t',i'⟩ hinv hnext
    obtain ⟨u,hu,hIu⟩ := hturn t i hinv
    rw [hu] at hnext
    cases hnext
    refine ⟨hIu,?_,Nat.mod_lt _ hmod⟩
    exact (Nat.dvd_mod_iff hdvd).mpr (Nat.dvd_add_self_right.mpr hinv.2.1)
  obtain ⟨u,hu,-⟩ := hturn t i hinv
  rw [hu] at hstop
  cases hstop

end Loop

end Unworkable.Library
