import Unworkable.Library.Words

/-! # Bits packed into bytes, most significant first -/
namespace Unworkable.Library

/-- Bit `i` of a packed field; beyond its end there are only zeros. -/
def bitAt (bs : Bytes) (i : ℕ) : Bool := ((bs[i / 8]?).getD 0).toNat.testBit (7 - i % 8)

def setBitAt (bs : Bytes) (i : ℕ) : Bytes :=
  bs.set (i / 8) (UInt8.ofNat (((bs[i / 8]?).getD 0).toNat ||| 2 ^ (7 - i % 8)))

@[simp] theorem length_setBitAt (bs : Bytes) (i : ℕ) : (setBitAt bs i).length = bs.length := by simp [setBitAt]

theorem toNat_or_bit (b : UInt8) {k : ℕ} (hk : k < 8) : (UInt8.ofNat (b.toNat ||| 2 ^ k)).toNat =
    b.toNat ||| 2 ^ k := by
  have hlt : b.toNat ||| 2 ^ k < 2 ^ 8 :=
    Nat.or_lt_two_pow b.toNat_lt (Nat.pow_lt_pow_right (by decide) hk)
  rw [UInt8.toNat_ofNat']
  exact Nat.mod_eq_of_lt hlt

theorem bitAt_setBitAt {bs : Bytes} {i : ℕ} (hi : i / 8 < bs.length) (j : ℕ) :
    bitAt (setBitAt bs i) j = (decide (j = i) || bitAt bs j) := by
  unfold bitAt setBitAt
  by_cases hbyte : j / 8 = i / 8
  · have hsame : (j = i) ↔ 7 - i % 8 = 7 - j % 8 := by omega
    rw [hbyte,List.getElem?_set_self hi,Option.getD_some,toNat_or_bit _ (by omega),Nat.testBit_or,Nat.testBit_two_pow,
      Bool.or_comm,decide_eq_decide.mpr hsame]
  · have hne : ¬ j = i := by
      rintro rfl
      exact hbyte rfl
    rw [List.getElem?_set_ne (Ne.symm hbyte)]
    simp [hne]

theorem bitAt_zeros (n i : ℕ) : bitAt (List.replicate n 0) i = false := by
  unfold bitAt
  rw [List.getElem?_replicate]
  split <;> simp

theorem bitAt_ones {n i : ℕ} (h : i / 8 < n) : bitAt (List.replicate n 0xFF) i = true := by
  have hones : ∀ k < 8, (255 : ℕ).testBit k = true := by decide
  unfold bitAt
  rw [List.getElem?_replicate,if_pos h]
  exact hones _ (by omega)

end Unworkable.Library
