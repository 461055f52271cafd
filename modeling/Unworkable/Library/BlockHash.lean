import Mathlib.Data.List.Basic
import Mathlib.Data.Nat.Notation
import Mathlib.Tactic.Common

/-! # Hashing in blocks

A hash with a compression function takes its input one symbol at a time: a block that
fills is compressed, and what is left waits for more. An implementation that takes its input in
buffers is compared with this, and one that takes it all at once with a fold over its blocks.
-/
namespace Unworkable.Library

section Absorb
variable {σ α : Type*} (compress : σ → List α → σ) (n : ℕ)

def absorbOne (w : σ × List α) (b : α) : σ × List α :=
  if w.2.length + 1 < n then (w.1,w.2 ++ [b]) else (compress w.1 (w.2 ++ [b]),[])

def absorb (w : σ × List α) (bs : List α) : σ × List α := bs.foldl (absorbOne compress n) w

def wholeBlocks : ℕ → List α → List (List α)
  | 0,_ => []
  | k + 1,bs => bs.take n :: wholeBlocks k (bs.drop n)

variable {compress n} {w : σ × List α} {s : σ} {bs cs : List α}

theorem absorb_append : absorb compress n w (bs ++ cs) = absorb compress n (absorb compress n w bs) cs :=
  List.foldl_append

/-- Input that does not fill the block waits. -/
theorem absorb_short (h : w.2.length + bs.length < n) : absorb compress n w bs = (w.1,w.2 ++ bs) := by
  induction bs generalizing w with
  | nil => simp [absorb]
  | cons b bs ih =>
    rw [List.length_cons] at h
    have hone : absorbOne compress n w b = (w.1,w.2 ++ [b]) := if_pos (by omega)
    rw [absorb,List.foldl_cons,hone]
    have ih := @ih (w.1,w.2 ++ [b]) (by simp only [List.length_append,List.length_singleton]; omega)
    rw [absorb] at ih
    rw [ih,List.append_assoc,List.singleton_append]

/-- Input that just fills the block is compressed with what waited. -/
theorem absorb_fill (h : w.2.length + bs.length = n) (hne : bs ≠ []) :
    absorb compress n w bs = (compress w.1 (w.2 ++ bs),[]) := by
  obtain ⟨cs,b,rfl⟩ := (List.eq_nil_or_concat bs).resolve_left hne
  rw [List.concat_eq_append] at h ⊢
  rw [List.length_append,List.length_singleton] at h
  have hlast : ¬ (w.2 ++ cs).length + 1 < n := by
    rw [List.length_append]
    omega
  have hshort : absorb compress n w cs = (w.1,w.2 ++ cs) := absorb_short (by omega)
  rw [absorb_append,hshort]
  show absorbOne compress n (w.1,w.2 ++ cs) b = _
  rw [absorbOne,if_neg hlast,List.append_assoc]

/-- From an empty block on, whole blocks are compressed one after another. -/
theorem absorb_blocks (hn : 0 < n) (k : ℕ) (h : bs.length = n * k) :
    absorb compress n (s,[]) bs = ((wholeBlocks n k bs).foldl compress s,[]) := by
  induction k generalizing s bs with
  | zero =>
    rw [Nat.mul_zero,List.length_eq_zero_iff] at h
    subst h
    rfl
  | succ k ih =>
    rw [Nat.mul_succ] at h
    have htake : (bs.take n).length = n := by
      rw [List.length_take]
      omega
    have hdrop : (bs.drop n).length = n * k := by
      rw [List.length_drop]
      omega
    have hfill : absorb compress n (s,[]) (bs.take n) = (compress s (bs.take n),[]) :=
      absorb_fill (by simp only [List.length_nil]; omega) (List.ne_nil_of_length_pos (by omega))
    conv_lhs => rw [← List.take_append_drop n bs]
    rw [absorb_append,hfill,ih hdrop,wholeBlocks,List.foldl_cons]

/-- What waits is what the whole blocks leave of the input. -/
theorem length_absorb (hn : 0 < n) (hw : w.2.length < n) :
    (absorb compress n w bs).2.length = (w.2.length + bs.length) % n := by
  induction bs generalizing w with
  | nil => exact (Nat.mod_eq_of_lt hw).symm
  | cons b bs ih =>
    rw [absorb,List.foldl_cons,← absorb]
    by_cases hlt : w.2.length + 1 < n
    · rw [absorbOne,if_pos hlt,ih (by simpa using hlt)]
      simp only [List.length_append,List.length_cons,List.length_nil]
      congr 1
      omega
    · have hfull : w.2.length + 1 = n := by omega
      rw [absorbOne,if_neg hlt,ih (by simpa using hn),List.length_cons,List.length_nil,Nat.zero_add,
        ← Nat.add_mod_left,← hfull]
      congr 1
      omega

end Absorb

end Unworkable.Library
