import Unworkable.Library.Words

/-! # Decimal numerals

Numbers as `printf` writes them, and the reading of a string of digits.
-/
namespace Unworkable.Library

def ascii (s : String) : Bytes := s.toList.map (fun c => UInt8.ofNat c.toNat)

/-- `%u`. -/
def decimal (n : ℕ) : Bytes := if n = 0 then [48] else (Nat.digits 10 n).reverse.map (fun d => UInt8.ofNat (48 + d))

/-- `%jd`. -/
def decimalInt (z : ℤ) : Bytes := if z < 0 then 45 :: decimal z.natAbs else decimal z.natAbs

def isDigit (b : UInt8) : Bool := decide (48 ≤ b.toNat ∧ b.toNat ≤ 57)

/-- The value of a string of digits behind digits of value `n`. -/
def readDigits (n : ℕ) : Bytes → Option ℕ
  | [] => some n
  | b :: bs => if isDigit b then readDigits (10 * n + (b.toNat - 48)) bs else none

def readDecimal (bs : Bytes) : Option ℕ := if bs = [] then none else readDigits 0 bs

def isSpace (b : UInt8) : Bool := b = 32 ∨ (9 ≤ b ∧ b ≤ 13)

def readSigned : Bytes → Option ℤ
  | 45 :: ds => (readDecimal ds).map (fun n : ℕ => -(n : ℤ))
  | 43 :: ds => (readDecimal ds).map Int.ofNat
  | ds => (readDecimal ds).map Int.ofNat

section Digits
variable {n : ℕ} {b : UInt8} {bs : Bytes}

theorem toNat_digit {d : ℕ} (h : d < 10) : (UInt8.ofNat (48 + d)).toNat = 48 + d := by
  rw [UInt8.toNat_ofNat']
  omega

theorem isDigit_digit {d : ℕ} (h : d < 10) : isDigit (UInt8.ofNat (48 + d)) = true := by
  unfold isDigit
  rw [toNat_digit h,decide_eq_true_eq]
  omega

theorem isDigit_of_mem_decimal (h : b ∈ decimal n) : isDigit b = true := by
  unfold decimal at h
  split at h
  · rw [List.mem_singleton.mp h]
    decide
  · obtain ⟨d,hd,rfl⟩ := List.mem_map.mp h
    exact isDigit_digit (Nat.digits_lt_base (by decide) (List.mem_reverse.mp hd))

theorem decimal_ne_nil (n : ℕ) : decimal n ≠ [] := by
  unfold decimal
  split
  · exact List.cons_ne_nil _ _
  · rename_i hn
    simp [Nat.digits_ne_nil_iff_ne_zero.mpr hn]

theorem readDigits_append (n : ℕ) (bs cs : Bytes) :
    readDigits n (bs ++ cs) = (readDigits n bs).bind (readDigits · cs) := by
  induction bs generalizing n with
  | nil => rfl
  | cons b bs ih =>
    simp only [List.cons_append,readDigits]
    split
    · exact ih _
    · rfl

theorem readDigits_digits (l : List ℕ) (h : ∀ d ∈ l, d < 10) :
    readDigits 0 (l.reverse.map (fun d => UInt8.ofNat (48 + d))) = some (Nat.ofDigits 10 l) := by
  induction l with
  | nil => rfl
  | cons d l ih =>
    have hd := h d List.mem_cons_self
    rw [List.reverse_cons,List.map_append,readDigits_append,ih (fun x hx => h x (List.mem_cons_of_mem d hx)),
      Option.bind_some,List.map_singleton]
    simp only [readDigits,isDigit_digit hd,if_true,toNat_digit hd,Nat.ofDigits_cons]
    congr 1
    omega

/-- Reading undoes writing. -/
theorem readDecimal_decimal (n : ℕ) : readDecimal (decimal n) = some n := by
  rw [readDecimal,if_neg (decimal_ne_nil n)]
  unfold decimal
  split
  · rename_i hn
    rw [hn]
    rfl
  · rw [readDigits_digits _ (fun d hd => Nat.digits_lt_base (by decide) hd),Nat.ofDigits_digits]

theorem length_decimal_le {k : ℕ} (hk : 0 < k) (h : n < 10 ^ k) : (decimal n).length ≤ k := by
  unfold decimal
  split
  · exact hk
  · rw [List.length_map,List.length_reverse]
    exact (Nat.digits_length_le_iff (by decide) n).mpr h

theorem lt_length_decimal {k : ℕ} (h : 10 ^ k ≤ n) : k < (decimal n).length := by
  have hn : n ≠ 0 := by
    have hpow := Nat.one_le_pow k 10 (by decide)
    omega
  rw [decimal,if_neg hn,List.length_map,List.length_reverse]
  exact (Nat.lt_digits_length_iff (by decide) n).mpr h

theorem isDigit_of_readDigits {m : ℕ} (h : readDigits n bs = some m) : ∀ b ∈ bs, isDigit b = true := by
  induction bs generalizing n with
  | nil => exact nofun
  | cons b bs ih =>
    unfold readDigits at h
    split at h
    · rename_i hb
      intro c hc
      rcases List.mem_cons.mp hc with rfl | hc
      · exact hb
      · exact ih h c hc
    · cases h

theorem readDecimal_ne_nil {m : ℕ} (h : readDecimal bs = some m) : bs ≠ [] := by
  rintro rfl
  cases h

theorem isDigit_of_readDecimal {m : ℕ} (h : readDecimal bs = some m) : ∀ b ∈ bs, isDigit b = true := by
  rw [readDecimal,if_neg (readDecimal_ne_nil h)] at h
  exact isDigit_of_readDigits h

theorem readSigned_of_readDecimal {m : ℕ} (h : readDecimal bs = some m) : readSigned bs = some (m : ℤ) := by
  obtain ⟨b,bs,rfl⟩ := List.exists_cons_of_ne_nil (readDecimal_ne_nil h)
  have hb := isDigit_of_readDecimal h b List.mem_cons_self
  unfold readSigned
  split
  · rename_i heq
    cases heq
    exact absurd hb (by decide)
  · rename_i heq
    cases heq
    exact absurd hb (by decide)
  · rw [h]
    rfl

theorem isSpace_of_isDigit (h : isDigit b = true) : isSpace b = false := by
  unfold isDigit at h
  have hb := of_decide_eq_true h
  unfold isSpace
  rw [decide_eq_false_iff_not]
  rintro (rfl | ⟨-,hle⟩)
  · exact absurd hb.1 (by decide)
  · have hle' : b.toNat ≤ 13 := hle
    omega

theorem mem_decimalInt {z : ℤ} (h : b ∈ decimalInt z) : b = 45 ∨ isDigit b = true := by
  unfold decimalInt at h
  split at h
  · rcases List.mem_cons.mp h with rfl | h
    · exact .inl rfl
    · exact .inr (isDigit_of_mem_decimal h)
  · exact .inr (isDigit_of_mem_decimal h)

theorem isSpace_of_mem_decimalInt {z : ℤ} (h : b ∈ decimalInt z) : isSpace b = false := by
  rcases mem_decimalInt h with rfl | hd
  · decide
  · exact isSpace_of_isDigit hd

theorem readSigned_decimalInt (z : ℤ) : readSigned (decimalInt z) = some z := by
  unfold decimalInt
  by_cases hz : z < 0
  · simp only [hz,if_true,readSigned,readDecimal_decimal,Option.map_some,Option.some.injEq]
    omega
  · simp only [hz,if_false]
    rw [readSigned_of_readDecimal (readDecimal_decimal z.natAbs)]
    exact congrArg some (Int.natAbs_of_nonneg (not_lt.mp hz))

end Digits

end Unworkable.Library
