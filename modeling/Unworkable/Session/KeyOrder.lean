import Mathlib.Data.Prod.Lex
import Unworkable.Library.RedBlack
import Unworkable.Session.Requests

/-! # The order of the request index

The nodes of the index are in a red-black tree by piece and offset, compared through 32-bit
differences. Keys less than 2^31 apart are in the lexicographic order, and the tree finds what is in it.
-/
namespace Unworkable
open Library

def rbIndex (ks : List (ℕ × ℕ)) : RbTree (ℕ × ℕ) := ks.foldl (RbTree.insert pieceDlIdxnodeCmp) .nil

/-- On a set of keys the comparison is a strict total order, the lexicographic one, and a tree of such keys finds all
that were inserted. -/
structure IndexOrder (K : Set (ℕ × ℕ)) : Prop where
  zero : ∀ x ∈ K, ∀ y ∈ K, pieceDlIdxnodeCmp x y = 0 ↔ x = y
  antisymm : ∀ x ∈ K, ∀ y ∈ K, pieceDlIdxnodeCmp x y < 0 ↔ 0 < pieceDlIdxnodeCmp y x
  trans : ∀ x ∈ K, ∀ y ∈ K, ∀ z ∈ K, pieceDlIdxnodeCmp x y < 0 → pieceDlIdxnodeCmp y z < 0 → pieceDlIdxnodeCmp x z < 0
  lex : ∀ x ∈ K, ∀ y ∈ K, pieceDlIdxnodeCmp x y < 0 ↔ toLex x < toLex y
  found : ∀ ks : List (ℕ × ℕ), (∀ k ∈ ks, k ∈ K) → ∀ k ∈ ks, (rbIndex ks).find pieceDlIdxnodeCmp k = some k

def WordKeys (K : Set (ℕ × ℕ)) : Prop := ∀ k ∈ K, k.1 < 4294967296 ∧ k.2 < 4294967296

/-- Pieces, and offsets in one piece, are less than 2^31 apart. -/
def NearKeys (K : Set (ℕ × ℕ)) : Prop :=
  ∀ x ∈ K, ∀ y ∈ K, x.1 < y.1 + 2147483648 ∧ (x.1 = y.1 → x.2 < y.2 + 2147483648)

section Compare
variable {K : Set (ℕ × ℕ)} {x y : ℕ × ℕ} {a b : ℕ}

theorem toInt32_sub32 (hab : a < b + 2147483648) (hba : b < a + 2147483648) :
    toInt32 (sub32 a b) = (a : ℤ) - b := by
  unfold toInt32 sub32 wrap32
  split <;> omega

/-- Words at least 2^31 apart come out the wrong way round. -/
theorem toInt32_sub32_far (ha : a < 4294967296) (hab : b + 2147483648 ≤ a) : toInt32 (sub32 a b) < 0 := by
  unfold toInt32 sub32 wrap32
  split <;> omega

theorem sub32_eq_zero (ha : a < 4294967296) (hb : b < 4294967296) : sub32 a b = 0 ↔ a = b := by
  unfold sub32 wrap32
  omega

theorem pieceDlIdxnodeCmp_eq (hx : x.1 < 4294967296) (hy : y.1 < 4294967296) : pieceDlIdxnodeCmp x y =
    if x.1 = y.1 then toInt32 (sub32 x.2 y.2) else toInt32 (sub32 x.1 y.1) := by
  unfold pieceDlIdxnodeCmp
  simp only [sub32_eq_zero hx hy]

/-- Only a key itself compares as equal to it. -/
theorem pieceDlIdxnodeCmp_eq_zero (hx : x.1 < 4294967296 ∧ x.2 < 4294967296) (hy : y.1 < 4294967296 ∧ y.2 < 4294967296)
    (h : pieceDlIdxnodeCmp x y = 0) : x = y := by
  have hword {a b : ℕ} (ha : a < 4294967296) (hb : b < 4294967296) (hab : toInt32 (sub32 a b) = 0) : a = b := by
    unfold toInt32 sub32 wrap32 at hab
    split at hab <;> omega
  rw [pieceDlIdxnodeCmp_eq hx.1 hy.1] at h
  split_ifs at h with heq
  · exact Prod.ext heq (hword hx.2 hy.2 h)
  · exact absurd (hword hx.1 hy.1 h) heq

theorem lex_lt : toLex x < toLex y ↔ x.1 < y.1 ∨ x.1 = y.1 ∧ x.2 < y.2 := Prod.Lex.toLex_lt_toLex

/-- Near keys are compared in their order. -/
theorem orders_lex (hwords : WordKeys K) (hnear : NearKeys K) : Orders pieceDlIdxnodeCmp toLex K := by
  have hcmp : ∀ x ∈ K, ∀ y ∈ K, (pieceDlIdxnodeCmp x y < 0 ↔ toLex x < toLex y) ∧
      (0 < pieceDlIdxnodeCmp x y ↔ toLex y < toLex x) := by
    intro x hx y hy
    have hxi := (hwords x hx).1
    have hyi := (hwords y hy).1
    obtain ⟨hxy,hxyo⟩ := hnear x hx y hy
    obtain ⟨hyx,hyxo⟩ := hnear y hy x hx
    rw [pieceDlIdxnodeCmp_eq hxi hyi,lex_lt,lex_lt]
    by_cases hidx : x.1 = y.1
    · rw [if_pos hidx,toInt32_sub32 (hxyo hidx) (hyxo hidx.symm)]
      omega
    · rw [if_neg hidx,toInt32_sub32 hxy hyx]
      omega
  exact ⟨fun x hx y hy => (hcmp x hx y hy).1,fun x hx y hy => (hcmp x hx y hy).2⟩

theorem find_rbIndex (hwords : WordKeys K) (hnear : NearKeys K) {ks : List (ℕ × ℕ)} (hks : ∀ k ∈ ks, k ∈ K)
    (hx : x ∈ ks) :
    (rbIndex ks).find pieceDlIdxnodeCmp x = some x := by
  have hfind : (rbIndex ks).find pieceDlIdxnodeCmp x = _ :=
    RbTree.find_foldl_insert (orders_lex hwords hnear) ks hks RbTree.sorted_nil (hks x hx)
  have hsome : (ks.find? fun k => decide (toLex k = toLex x)).isSome = true :=
    List.find?_isSome.mpr ⟨x,hx,decide_eq_true rfl⟩
  obtain ⟨y,hy⟩ := Option.isSome_iff_exists.mp hsome
  have hyx := List.find?_some hy
  cases toLex_inj.mp (of_decide_eq_true hyx)
  exact hfind.trans ((Option.none_or).trans hy)

theorem nearKeys_of_lex (hwords : WordKeys K) (hlex : ∀ x ∈ K, ∀ y ∈ K, pieceDlIdxnodeCmp x y < 0 ↔
    toLex x < toLex y) : NearKeys K := by
  intro x hx y hy
  obtain ⟨hxi,hxo⟩ := hwords x hx
  obtain ⟨hyi,hyo⟩ := hwords y hy
  have hxy := hlex x hx y hy
  rw [pieceDlIdxnodeCmp_eq hxi hyi,lex_lt] at hxy
  constructor
  · by_contra hfar
    have hne : x.1 ≠ y.1 := by omega
    rw [if_neg hne] at hxy
    have hlt := hxy.mp (toInt32_sub32_far hxi (Nat.not_lt.mp hfar))
    omega
  · intro hidx
    by_contra hfar
    rw [if_pos hidx] at hxy
    have hlt := hxy.mp (toInt32_sub32_far hxo (Nat.not_lt.mp hfar))
    omega

end Compare

/-- The comparison orders a set of keys as it should, exactly if they are near each other. -/
theorem index_order_iff (K : Set (ℕ × ℕ)) (hwords : WordKeys K) : IndexOrder K ↔ NearKeys K := by
  constructor
  · intro h
    exact nearKeys_of_lex hwords h.lex
  · intro hnear
    have ho := orders_lex hwords hnear
    constructor
    · intro x hx y hy
      have hneg := ho.neg x hx y hy
      have hpos := ho.pos x hx y hy
      refine Iff.trans ?_ toLex_inj
      constructor
      · intro hzero
        apply le_antisymm
        · exact not_lt.mp fun h => absurd (hpos.mpr h) (by omega)
        · exact not_lt.mp fun h => absurd (hneg.mpr h) (by omega)
      · intro heq
        apply le_antisymm
        · exact not_lt.mp fun h => heq.not_gt (hpos.mp h)
        · exact not_lt.mp fun h => heq.not_lt (hneg.mp h)
    · intro x hx y hy
      rw [ho.neg x hx y hy,ho.pos y hy x hx]
    · intro x hx y hy z hz hxy hyz
      rw [ho.neg x hx y hy] at hxy
      rw [ho.neg y hy z hz] at hyz
      rw [ho.neg x hx z hz]
      exact hxy.trans hyz
    · exact ho.neg
    · exact fun ks hks k hk => find_rbIndex hwords hnear hks hk

/-- A torrent of a hundred pieces of up to a million bytes. -/
theorem index_order_hundred : IndexOrder {k | k.1 < 100 ∧ k.2 < 1000000} := by
  refine (index_order_iff {k | k.1 < 100 ∧ k.2 < 1000000} ?_).mpr ?_
  · rintro k ⟨hidx,hoff⟩
    omega
  · rintro x ⟨hx,hxo⟩ y ⟨hy,hyo⟩
    omega

/-- Blocks of one piece, the later ones more than 2^31 bytes behind the first. -/
def farOffsets : List (ℕ × ℕ) :=
  [0,1610612736,1879048192,2281701376,2415919104,2550136832,2684354560,2818572288].map fun off => (0,off)

/-- Two blocks 2^31 bytes apart in one piece are each in front of the other, and with enough blocks in the tree
the first is not found any more. -/
theorem far_offsets : ¬ IndexOrder {k | k.1 < 4294967296 ∧ k.2 < 4294967296} ∧
    pieceDlIdxnodeCmp (0,0) (0,2147483648) < 0 ∧ pieceDlIdxnodeCmp (0,2147483648) (0,0) < 0 ∧
    (0,0) ∈ farOffsets ∧ (rbIndex farOffsets).find pieceDlIdxnodeCmp (0,0) = none := by
  refine ⟨?_,by decide,by decide,by decide,by decide +kernel⟩
  intro h
  have hanti := (h.antisymm (0,0) ⟨by decide,by decide⟩ (0,2147483648) ⟨by decide,by decide⟩).mp (by decide)
  exact absurd hanti (by decide)

end Unworkable
