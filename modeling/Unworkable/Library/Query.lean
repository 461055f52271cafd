import Mathlib.Data.List.TakeWhile
import Unworkable.Library.Words

/-! # Queries of a URL

The fields of a query are separated by ampersands, each has a name, an equals sign and a value, and bytes of a value
may be written as a percent sign and two hexadecimal digits. Reading what was written gives back the fields, as long
as no separator is in a name or a value.
-/
namespace Unworkable.Library

def hexDigit (n : ℕ) : UInt8 := UInt8.ofNat (if n < 10 then 48 + n else 87 + n)

/-- `%02x`. -/
def hexByte (b : UInt8) : Bytes := [hexDigit (b.toNat / 16),hexDigit (b.toNat % 16)]

def hexValue (b : UInt8) : Option ℕ :=
  if 48 ≤ b ∧ b ≤ 57 then some (b.toNat - 48)
  else if 97 ≤ b ∧ b ≤ 102 then some (b.toNat - 87)
  else if 65 ≤ b ∧ b ≤ 70 then some (b.toNat - 55)
  else none

def percentEncode (bs : Bytes) : Bytes := bs.flatMap fun b => 37 :: hexByte b

def percentDecode : Bytes → Option Bytes
  | [] => some []
  | b :: bs =>
    if b = 37 then match bs with
      | h :: l :: bs => do
        let high ← hexValue h
        let low ← hexValue l
        let rest ← percentDecode bs
        some (UInt8.ofNat (16 * high + low) :: rest)
      | _ => none
    else (percentDecode bs).map (b :: ·)

def writeField (f : Bytes × Bytes) : Bytes := f.1 ++ 61 :: f.2

def writeFields (fs : List (Bytes × Bytes)) : Bytes := ([38] : Bytes).intercalate (fs.map writeField)

def readField (bs : Bytes) : Option (Bytes × Bytes) :=
  match bs.dropWhile (· ≠ 61) with
  | [] => none
  | _ :: value => (percentDecode value).map fun v => (bs.takeWhile (· ≠ 61),v)

def readFields (bs : Bytes) : Option (List (Bytes × Bytes)) := (bs.splitOn 38).mapM readField

section Percent
variable {b : UInt8} {bs cs : Bytes}

theorem toNat_hexDigit {n : ℕ} (h : n < 16) : (hexDigit n).toNat = if n < 10 then 48 + n else 87 + n := by
  unfold hexDigit
  rw [UInt8.toNat_ofNat']
  split <;> omega

theorem hexValue_hexDigit {n : ℕ} (h : n < 16) : hexValue (hexDigit n) = some n := by
  have hn := toNat_hexDigit h
  unfold hexValue
  simp only [UInt8.le_iff_toNat_le,hn]
  split_ifs <;> simp_all <;> omega

theorem hexDigit_ne {n : ℕ} (h : n < 16) (hb : b.toNat < 48) : hexDigit n ≠ b := by
  intro heq
  have hn := toNat_hexDigit h
  rw [heq] at hn
  split at hn <;> omega

theorem percentDecode_percentEncode (bs : Bytes) : percentDecode (percentEncode bs) = some bs := by
  induction bs with
  | nil => rfl
  | cons b bs ih =>
    have hb := b.toNat_lt
    have hhigh : hexValue (hexDigit (b.toNat / 16)) = some (b.toNat / 16) := hexValue_hexDigit (by omega)
    have hlow : hexValue (hexDigit (b.toNat % 16)) = some (b.toNat % 16) := hexValue_hexDigit (by omega)
    show percentDecode (37 :: hexDigit (b.toNat / 16) :: hexDigit (b.toNat % 16) :: percentEncode bs) = _
    rw [percentDecode,if_pos rfl]
    simp only [hhigh,hlow,ih,Option.bind_eq_bind,Option.bind_some]
    rw [Nat.div_add_mod,UInt8.ofNat_toNat]

/-- Text without percent signs stands for itself. -/
theorem percentDecode_plain (h : (37 : UInt8) ∉ bs) : percentDecode bs = some bs := by
  induction bs with
  | nil => rfl
  | cons b bs ih =>
    rw [List.mem_cons,not_or] at h
    unfold percentDecode
    rw [if_neg (Ne.symm h.1),ih h.2]
    rfl

/-- Decoding makes no text longer, and one with a percent sign shorter. -/
theorem length_percentDecode (bs : Bytes) : ∀ cs, percentDecode bs = some cs → cs.length ≤ bs.length ∧
    ((37 : UInt8) ∈ bs → cs.length < bs.length) := by
  fun_induction percentDecode bs with
  | case1 =>
    intro cs h
    cases h
    exact ⟨le_rfl,fun h => absurd h List.not_mem_nil⟩
  | case2 h l bs ih =>
    intro cs h
    obtain ⟨high,-,h⟩ := Option.bind_eq_some_iff.mp h
    obtain ⟨low,-,h⟩ := Option.bind_eq_some_iff.mp h
    obtain ⟨rest,hrest,h⟩ := Option.bind_eq_some_iff.mp h
    cases h
    have hlen := (ih rest hrest).1
    simp only [List.length_cons]
    omega
  | case3 => nofun
  | case4 b bs hb ih =>
    intro cs h
    obtain ⟨rest,hrest,rfl⟩ := Option.map_eq_some_iff.mp h
    obtain ⟨hle,hlt⟩ := ih rest hrest
    simp only [List.length_cons]
    refine ⟨by omega,fun hmem => ?_⟩
    rcases List.mem_cons.mp hmem with rfl | hmem
    · exact absurd rfl hb
    · have := hlt hmem
      omega

/-- There is nothing but percent signs and digits in an encoded text. -/
theorem mem_percentEncode (h : b ∈ percentEncode bs) : b = 37 ∨ ∃ n < 16, b = hexDigit n := by
  obtain ⟨c,-,hb⟩ := List.mem_flatMap.mp h
  have hc := c.toNat_lt
  rcases List.mem_cons.mp hb with rfl | hb
  · exact .inl rfl
  rcases List.mem_cons.mp hb with rfl | hb
  · exact .inr ⟨_,by omega,rfl⟩
  · exact .inr ⟨_,by omega,List.mem_singleton.mp hb⟩

theorem not_mem_percentEncode (hb : b.toNat < 48) (hne : b ≠ 37) : b ∉ percentEncode bs := by
  intro h
  rcases mem_percentEncode h with rfl | ⟨n,hn,rfl⟩
  · exact hne rfl
  · exact hexDigit_ne hn hb rfl

theorem length_percentEncode (bs : Bytes) : (percentEncode bs).length = 3 * bs.length := by
  induction bs with
  | nil => rfl
  | cons b bs ih =>
    show (percentEncode bs).length + 1 + 1 + 1 = 3 * (bs.length + 1)
    omega

end Percent

section Fields

/-- Fields with names and values that can be told apart, and what the values stand for. -/
inductive Encodes : List (Bytes × Bytes) → List (Bytes × Bytes) → Prop
  | nil : Encodes [] []
  | cons {name text value : Bytes} {fs fs' : List (Bytes × Bytes)} (hname : (61 : UInt8) ∉ name)
    (hamp : (38 : UInt8) ∉ name)
      (htext : (38 : UInt8) ∉ text) (hvalue : percentDecode text = some value) (h : Encodes fs fs') :
      Encodes ((name,text) :: fs) ((name,value) :: fs')

variable {fs fs' : List (Bytes × Bytes)}

theorem readField_writeField_eq {name text : Bytes} (hname : (61 : UInt8) ∉ name) :
    readField (writeField (name,text)) = (percentDecode text).map fun value => (name,value) := by
  have hkeep : ∀ b ∈ name, decide (b ≠ 61) = true := by
    intro b hb
    apply decide_eq_true
    rintro rfl
    exact hname hb
  have hdrop : (name ++ 61 :: text).dropWhile (· ≠ 61) = 61 :: text := by
    rw [List.dropWhile_append_of_pos hkeep,List.dropWhile_cons_of_neg (by decide)]
  have htake : (name ++ 61 :: text).takeWhile (· ≠ 61) = name := by
    rw [List.takeWhile_append_of_pos hkeep,List.takeWhile_cons_of_neg (by decide),List.append_nil]
  unfold readField writeField
  dsimp only
  rw [hdrop,htake]

theorem readField_writeField {name text value : Bytes} (hname : (61 : UInt8) ∉ name)
    (hvalue : percentDecode text = some value) :
    readField (writeField (name,text)) = some (name,value) := by
  rw [readField_writeField_eq hname,hvalue]
  rfl

theorem Encodes.mapM (h : Encodes fs fs') : (fs.map writeField).mapM readField = some fs' := by
  induction h with
  | nil => rfl
  | cons hname _ _ hvalue _ ih =>
    rw [List.map_cons,List.mapM_cons,readField_writeField hname hvalue,ih]
    rfl

theorem Encodes.separate (h : Encodes fs fs') : ∀ bs ∈ fs.map writeField, (38 : UInt8) ∉ bs := by
  induction h with
  | nil => nofun
  | cons hname hamp htext _ _ ih =>
    refine List.forall_mem_cons.mpr ⟨?_,ih⟩
    unfold writeField
    rw [List.mem_append,List.mem_cons]
    rintro (h | h | h)
    · exact hamp h
    · exact absurd h (by decide)
    · exact htext h

/-- Reading undoes writing. -/
theorem readFields_writeFields (h : Encodes fs fs') (hne : fs ≠ []) : readFields (writeFields fs) = some fs' := by
  unfold readFields writeFields
  rw [List.splitOn_intercalate _ h.separate (by simpa using hne)]
  exact h.mapM

/-- The first of the parts between separators is what is in front of the first separator. -/
theorem splitOn_eq_cons (b : UInt8) (bs : Bytes) : ∃ rest, bs.splitOn b = bs.takeWhile (· ≠ b) :: rest := by
  have hkeep : b ∉ bs.takeWhile (· ≠ b) := by
    intro h
    exact absurd (List.mem_takeWhile_imp h) (by simp)
  cases hrest : bs.dropWhile (· ≠ b) with
  | nil =>
    have hall : bs.takeWhile (· ≠ b) = bs := by
      have happend := List.takeWhile_append_dropWhile (p := (· ≠ b)) (l := bs)
      rwa [hrest,List.append_nil] at happend
    rw [hall] at hkeep ⊢
    exact ⟨[],List.splitOn_eq_singleton hkeep⟩
  | cons c cs =>
    have hhead : (bs.dropWhile (· ≠ b)).head? = some c := by rw [hrest,List.head?_cons]
    have hc : c = b := by
      have hstop := List.head?_dropWhile_not (· ≠ b) bs
      rw [hhead] at hstop
      simpa using hstop
    refine ⟨cs.splitOn b,?_⟩
    conv_lhs => rw [← List.takeWhile_append_dropWhile (p := (· ≠ b)) (l := bs),hrest,hc]
    exact List.splitOn_append_cons_self_of_not_mem hkeep cs

/-- Behind fields that can be told apart, a value is read up to its first ampersand. -/
theorem readFields_append {seen : List (Bytes × Bytes)} {name rest : Bytes} (h : Encodes fs fs')
    (hne : fs ≠ []) (hname : (61 : UInt8) ∉ name)
    (hamp : (38 : UInt8) ∉ name) (hread : readFields (writeFields fs ++ 38 :: (name ++ 61 :: rest)) = some seen) :
    ∃ value more, percentDecode (rest.takeWhile (· ≠ 38)) = some value ∧ seen = fs' ++ (name,value) :: more := by
  have hkeep : ∀ b ∈ name, decide (b ≠ 38) = true := by
    intro b hb
    apply decide_eq_true
    rintro rfl
    exact hamp hb
  obtain ⟨parts,hparts⟩ := splitOn_eq_cons 38 (name ++ 61 :: rest)
  have hfirst : (name ++ 61 :: rest).takeWhile (· ≠ 38) = writeField (name,rest.takeWhile (· ≠ 38)) := by
    rw [List.takeWhile_append_of_pos hkeep,List.takeWhile_cons_of_pos (by decide)]
    rfl
  rw [readFields,List.splitOn_append_cons_self,hparts,hfirst,writeFields,
    List.splitOn_intercalate _ h.separate (by simpa using hne),
    List.mapM_append,h.mapM] at hread
  obtain ⟨_,hfs,hread⟩ := Option.bind_eq_some_iff.mp hread
  cases hfs
  obtain ⟨_,hread,hseen⟩ := Option.bind_eq_some_iff.mp hread
  rw [List.mapM_cons] at hread
  obtain ⟨first,hfirst,hread⟩ := Option.bind_eq_some_iff.mp hread
  obtain ⟨more,-,hmore⟩ := Option.bind_eq_some_iff.mp hread
  cases hmore
  cases hseen
  rw [readField_writeField_eq hname] at hfirst
  obtain ⟨value,hvalue,rfl⟩ := Option.map_eq_some_iff.mp hfirst
  exact ⟨value,more,hvalue,rfl⟩

end Fields

end Unworkable.Library
