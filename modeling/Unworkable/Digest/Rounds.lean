import Unworkable.Digest.Sha1
import Unworkable.Library.SecureHash
import Mathlib.Tactic.IntervalCases

/-! # The unrolled rounds

Five rounds bring the working variables back to their names, so the calls of the source are
the rounds of the standard with the variables renamed each time. The sixteen words of the block
are at any time the part of the schedule that is still needed.
-/
namespace Unworkable
open Library

/-- The macro of round `t`. -/
def roundOp (t : ℕ) : RoundOp :=
  if t < 16 then .R0 else if t < 20 then .R1 else if t < 40 then .R2 else if t < 60 then .R3 else .R4

def Reg.turn (k : ℕ) : Reg :=
  match k % 5 with
  | 0 => .a
  | 1 => .b
  | 2 => .c
  | 3 => .d
  | _ => .e

/-- The variable that stands for the `k`th one in round `t`. -/
def role (t k : ℕ) : Reg := .turn (k + 4 * t)

def roundCall (t : ℕ) : RoundCall := ⟨roundOp t,role t 0,role t 1,role t 2,role t 3,role t 4,t⟩

/-- The unrolled loop, rolled up. -/
theorem sha1Rounds_eq : sha1Rounds = (List.range 80).map roundCall := by decide +kernel

def Regs.view (r : Regs) (t : ℕ) : SecureHash.Value :=
  ⟨r.get (role t 0),r.get (role t 1),r.get (role t 2),r.get (role t 3),r.get (role t 4)⟩

/-- The block in front of round `t`: words not yet reached are as they were loaded, and
the last sixteen that were are words of the schedule. -/
structure BlockAt (o : ByteOrder) (block : Bytes) (l : List Word) (t : ℕ) : Prop where
  length : l.length = 16
  loaded : ∀ i, t ≤ i → i < 16 → l.getD i 0 = o.wordAt block i
  scheduled : ∀ i, i < t → t ≤ i + 16 → l.getD (i % 16) 0 = SecureHash.schedule block i

section Words
variable {o : ByteOrder} {block : Bytes} {l : List Word} {t : ℕ}

/-- The byte swap of `blk0`. -/
theorem swap_word (b₀ b₁ b₂ b₃ : UInt8) : (rol (ByteOrder.littleEndian.word b₀ b₁ b₂ b₃) 24 &&& 0xFF00FF00) |||
    (rol (ByteOrder.littleEndian.word b₀ b₁ b₂ b₃) 8 &&& 0x00FF00FF) = ByteOrder.bigEndian.word b₀ b₁ b₂ b₃ := by
  unfold rol ByteOrder.word
  apply BitVec.eq_of_getLsbD_eq
  intro i hi
  simp only [BitVec.getLsbD_or,BitVec.getLsbD_and,BitVec.getLsbD_shiftLeft,BitVec.getLsbD_ushiftRight,
    BitVec.getLsbD_append]
  interval_cases i <;> simp

theorem ch_eq (w x y : Word) : (w &&& (x ^^^ y)) ^^^ y = SecureHash.ch w x y := by
  unfold SecureHash.ch
  ext i hi
  simp only [BitVec.getElem_and,BitVec.getElem_xor,BitVec.getElem_not]
  cases w[i] <;> cases x[i] <;> cases y[i] <;> rfl

theorem maj_eq (w x y : Word) : ((w ||| x) &&& y) ||| (w &&& x) = SecureHash.maj w x y := by
  unfold SecureHash.maj
  ext i hi
  simp only [BitVec.getElem_or,BitVec.getElem_and,BitVec.getElem_xor]
  cases w[i] <;> cases x[i] <;> cases y[i] <;> rfl

theorem roundOp_mix (t : ℕ) (w x y : Word) : (roundOp t).mix w x y = SecureHash.func t w x y := by
  unfold roundOp SecureHash.func
  split_ifs
  all_goals first | exact ch_eq w x y | exact maj_eq w x y | rfl | omega

theorem roundOp_const (t : ℕ) : (roundOp t).const = SecureHash.const t := by
  unfold roundOp SecureHash.const
  split_ifs
  all_goals first | rfl | omega

theorem BlockAt.load (o : ByteOrder) (block : Bytes) : BlockAt o block (o.load block) 0 where
  length := by simp [ByteOrder.load]
  loaded i _ hi := by simp [ByteOrder.load,List.getD_eq_getElem?_getD,hi]
  scheduled i hi := absurd hi (Nat.not_lt_zero i)

/-- What a round reads from the block is the word of the schedule, whatever the byte order. -/
theorem BlockAt.loaded_word (h : BlockAt o block l t) (ht : t < 16) : (blk0 o l t).1 = SecureHash.schedule block t := by
  rw [SecureHash.schedule_low ht]
  cases o with
  | littleEndian =>
    show (rol (l.getD t 0) 24 &&& 0xFF00FF00) ||| (rol (l.getD t 0) 8 &&& 0x00FF00FF) = _
    rw [h.loaded t (le_refl t) ht]
    exact swap_word _ _ _ _
  | bigEndian => exact h.loaded t (le_refl t) ht

theorem BlockAt.expanded_word (h : BlockAt o block l t) (ht : 16 ≤ t) : (blk l t).1 = SecureHash.schedule block t := by
  have hmask (k : ℕ) : k &&& 15 = k % 16 := Nat.and_two_pow_sub_one_eq_mod k 4
  have hback (k j : ℕ) (hk : k = t + 16 - j) (hj : 0 < j) (hj' : j ≤ 16) :
      l.getD (k &&& 15) 0 = SecureHash.schedule block (t - j) := by
    have hi := h.scheduled (t - j) (by omega) (by omega)
    rw [← hi,hmask]
    congr 1
    omega
  rw [SecureHash.schedule_high ht]
  show rol _ 1 = _
  rw [hback (t + 13) 3 (by omega) (by omega) (by omega),hback (t + 8) 8 (by omega) (by omega) (by omega),
    hback (t + 2) 14 (by omega) (by omega) (by omega),hback t 16 (by omega) (by omega) (by omega)]
  rfl

/-- Writing the word of the schedule where the oldest one was. -/
theorem BlockAt.set (h : BlockAt o block l t) : BlockAt o block (l.set (t % 16) (SecureHash.schedule block t))
    (t + 1) where
  length := by rw [List.length_set,h.length]
  loaded i hi hlt := by
    rw [List.getD_eq_getElem?_getD,List.getElem?_set_ne (by omega),← List.getD_eq_getElem?_getD]
    exact h.loaded i (by omega) hlt
  scheduled i hi hle := by
    have hlen := h.length
    rw [List.getD_eq_getElem?_getD]
    by_cases heq : i = t
    · subst heq
      rw [List.getElem?_set_self (by omega),Option.getD_some]
    · rw [List.getElem?_set_ne (by omega),← List.getD_eq_getElem?_getD]
      exact h.scheduled i (by omega) (by omega)

/-- A big-endian machine loads the words of the schedule. -/
theorem BlockAt.keep (h : BlockAt .bigEndian block l t) (ht : t < 16) : BlockAt .bigEndian block l (t + 1) where
  length := h.length
  loaded i hi hlt := h.loaded i (by omega) hlt
  scheduled i hi hle := by
    by_cases heq : i = t
    · subst heq
      rw [Nat.mod_eq_of_lt ht,SecureHash.schedule_low ht]
      exact h.loaded i (le_refl i) ht
    · exact h.scheduled i (by omega) (by omega)

theorem BlockAt.expand (h : BlockAt o block l t) : ((roundOp t).expand o l t).1 = SecureHash.schedule block t ∧
    BlockAt o block ((roundOp t).expand o l t).2 (t + 1) := by
  by_cases ht : t < 16
  · have hop : (roundOp t).expand o = blk0 o := by rw [roundOp,if_pos ht]; rfl
    rw [hop]
    refine ⟨h.loaded_word ht,?_⟩
    have hword := h.loaded_word ht
    cases o with
    | littleEndian =>
      have hset := h.set
      rw [Nat.mod_eq_of_lt ht,← hword] at hset
      exact hset
    | bigEndian => exact h.keep ht
  · have hop : (roundOp t).expand o = blk := by
      rw [roundOp,if_neg ht]
      split_ifs <;> rfl
    rw [hop]
    have hword := h.expanded_word (by omega)
    have hmask : t &&& 15 = t % 16 := Nat.and_two_pow_sub_one_eq_mod t 4
    refine ⟨hword,?_⟩
    show BlockAt o block (l.set (t &&& 15) (blk l t).1) (t + 1)
    rw [hword,hmask]
    exact h.set

theorem role_mod (t k : ℕ) : role t k = role (t % 5) k := by
  unfold role Reg.turn
  rw [show (k + 4 * t) % 5 = (k + 4 * (t % 5)) % 5 by omega]

theorem role_succ (t k : ℕ) : role (t + 1) k = role (t % 5 + 1) k := by
  unfold role Reg.turn
  rw [show (k + 4 * (t + 1)) % 5 = (k + 4 * (t % 5 + 1)) % 5 by omega]

theorem rol_five (x : Word) : rol x 5 = x.rotateLeft 5 := rfl

/-- A call computes a round of the standard. -/
theorem roundCall_view (r : Regs) (t : ℕ) (hx : ((roundOp t).expand o l t).1 = SecureHash.schedule block t) :
    ((roundCall t).run o (r,l)).1.view (t + 1) = SecureHash.round block (r.view t) t := by
  have hcases : t % 5 = 0 ∨ t % 5 = 1 ∨ t % 5 = 2 ∨ t % 5 = 3 ∨ t % 5 = 4 := by omega
  unfold RoundCall.run roundCall Regs.view SecureHash.round
  simp only [roundOp_mix,roundOp_const,hx,role_succ t,role_mod t]
  rcases hcases with hm | hm | hm | hm | hm
  all_goals
    rw [hm]
    simp only [role,Reg.turn,Regs.get,Regs.set,SecureHash.Value.mk.injEq,true_and,and_true]
    refine ⟨?_,rfl⟩
    rw [rol_five]
    ac_rfl

/-- After `n` calls. -/
theorem foldl_calls (o : ByteOrder) (block : Bytes) (r : Regs) (n : ℕ) :
    BlockAt o block (((List.range n).map roundCall).foldl (RoundCall.run o) (r,o.load block)).2 n ∧
    (((List.range n).map roundCall).foldl (RoundCall.run o) (r,o.load block)).1.view n =
      SecureHash.rounds block n (r.view 0) := by
  induction n with
  | zero => exact ⟨.load o block,rfl⟩
  | succ n ih =>
    obtain ⟨hblock,hview⟩ := ih
    rw [List.range_succ,List.map_append,List.foldl_append,SecureHash.rounds_succ,← hview]
    obtain ⟨hword,hnext⟩ := hblock.expand
    exact ⟨hnext,roundCall_view _ n hword⟩

end Words

/-- The state as the hash value of the standard. -/
def Regs.value (r : Regs) : SecureHash.Value := ⟨r.a,r.b,r.c,r.d,r.e⟩

/-- `SHA1Transform` is the compression of the standard, in either byte order. -/
theorem sha1Transform_value (o : ByteOrder) (state : Regs) (buffer : Bytes) :
    (sha1Transform o state buffer).value = SecureHash.compress state.value buffer := by
  obtain ⟨-,hview⟩ := foldl_calls o buffer state 80
  rw [← sha1Rounds_eq] at hview
  -- eighty rounds are sixteen turns of the five names
  have hsame : (sha1Rounds.foldl (RoundCall.run o) (state,o.load buffer)).1.value =
      SecureHash.rounds buffer 80 state.value :=
    hview
  unfold SecureHash.compress sha1Transform
  rw [← hsame]
  generalize (sha1Rounds.foldl (RoundCall.run o) (state,o.load buffer)).1 = r
  rfl

end Unworkable
