import Unworkable.Library.Machine
import Unworkable.Tracker.Buffer

/-! # Setting a buffer

`buf_set` puts the response body into the buffer that `buf_getc` then reads it from. Its three
lengths are one at the start of the buffer only.
-/
namespace Unworkable
open Library

/-- `BUF`. The memory at `cb_buf` has `cb_size` bytes, and `cb_cur` is an offset in it. -/
structure Buf where
  autoext : Bool
  bytes : Bytes
  cur : ℕ
  len : ℕ
  pos : ℕ

section Set
variable (stale : ℕ → UInt8)

def bufGrow (b : Buf) (len : ℕ) : Buf := { b with bytes := xrealloc stale b.bytes (b.bytes.length + len) }

/-- The end of `buf_set`: the copy, and the valid data. -/
def setCopy (b : Buf) (src : Bytes) (rlen off : ℕ) : Except Halt (Buf × ℕ) :=
  if src.length < rlen ∨ b.bytes.length < off + rlen then .error .wild
  else .ok ({ b with
      bytes := splice b.bytes off (src.take rlen)
      len := rlen
      cur := if rlen = 0 then off else b.cur },rlen)

/-- `buf_set`, with all of a source. It is in memory with the buffer, so that its length and an offset add up to
a `size_t`; an offset past the buffer makes the length wrap. -/
def bufSet (b : Buf) (src : Bytes) (off : ℕ) : Except Halt (Buf × ℕ) :=
  if b.bytes.length < src.length + off then
    if b.autoext then setCopy (bufGrow stale b (src.length + off - b.bytes.length)) src (src.length + off) off
    else if b.bytes.length < off then .error .wild
    else setCopy b src (b.bytes.length - off) off
  else setCopy b src src.length off

end Set

/-- `buf_getc`. There is no character at the end of the valid data. -/
def bufGetc (b : Buf) : Except Halt (Option UInt8 × Buf) :=
  if b.pos < b.len then
    match b.bytes[b.cur + b.pos]? with
    | none => .error .wild
    | some c => .ok (some c,{ b with pos := b.pos + 1 })
  else .ok (none,b)

/-- A turn of a reader that keeps the characters it gets. -/
def getcTurn : Bytes × Buf → (Bytes × Buf) ⊕ Except Halt Bytes
  | (out,b) => match bufGetc b with
    | .error e => .inr (.error e)
    | .ok (none,_) => .inr (.ok out)
    | .ok (some c,b) => .inl (out ++ [c],b)

def Buf.taken (b : Buf) (src : Bytes) (off : ℕ) : ℕ :=
  if b.autoext then src.length else min src.length (b.bytes.length - off)

/-- What `buf_set` is to leave, with its value. -/
structure Buf.IsSet (b : Buf) (src : Bytes) (off : ℕ) (b' : Buf) (n : ℕ) : Prop where
  value : n = b.taken src off
  copied : window b'.bytes off (b.taken src off) = src.take (b.taken src off)
  size : b'.bytes.length = max b.bytes.length (off + b.taken src off)
  kept : ∀ i < b.bytes.length, i < off ∨ off + b.taken src off ≤ i → b'.bytes[i]? = b.bytes[i]?
  read : Ends getcTurn ([],{ b' with pos := 0 }) (.ok (b.bytes.take off ++ src.take (b.taken src off)))

/-- `buf_set` stays in the source and in the buffer, and leaves what it is to leave. -/
def SetsRight (stale : ℕ → UInt8) (b : Buf) (src : Bytes) (off : ℕ) : Prop :=
  ∃ b' n, bufSet stale b src off = .ok (b',n) ∧ b.IsSet src off b' n

section Read
variable {b : Buf} {out : Bytes}

/-- From a position on, a reader gets the rest of the valid data. -/
theorem getcTurn_rest (hvalid : b.cur + b.len ≤ b.bytes.length) (n : ℕ) (hn : b.pos + n = b.len) :
    Ends getcTurn (out,b) (.ok (out ++ window b.bytes (b.cur + b.pos) n)) := by
  induction n generalizing b out with
  | zero =>
    apply Ends.stop
    have hend : bufGetc b = .ok (none,b) := if_neg (by omega)
    rw [getcTurn,hend]
    simp [window]
  | succ n ih =>
    have hlt : b.cur + b.pos < b.bytes.length := by omega
    have hgetc : bufGetc b = .ok (some b.bytes[b.cur + b.pos],{ b with pos := b.pos + 1 }) := by
      rw [bufGetc,if_pos (by omega),List.getElem?_eq_getElem hlt]
    have hturn : getcTurn (out,b) = .inl (out ++ [b.bytes[b.cur + b.pos]],{ b with pos := b.pos + 1 }) := by
      rw [getcTurn,hgetc]
    have hrest := @ih { b with pos := b.pos + 1 } (out ++ [b.bytes[b.cur + b.pos]]) hvalid (by simp only; omega)
    apply Ends.head hturn
    have hwindow : window b.bytes (b.cur + b.pos) (n + 1) =
        b.bytes[b.cur + b.pos] :: window b.bytes (b.cur + (b.pos + 1)) n := by
      unfold window
      rw [List.drop_eq_getElem_cons hlt,List.take_succ_cons,Nat.add_assoc]
    have happend := List.append_cons out b.bytes[b.cur + b.pos] (window b.bytes (b.cur + (b.pos + 1)) n)
    rw [hwindow,happend]
    exact hrest

theorem getcs_window (hvalid : b.cur + b.len ≤ b.bytes.length) :
    Ends getcTurn ([],{ b with pos := 0 }) (.ok (window b.bytes b.cur b.len)) :=
  @getcTurn_rest { b with pos := 0 } [] hvalid b.len (Nat.zero_add _)

end Read

section Copy
variable {stale : ℕ → UInt8} {b b' : Buf} {src : Bytes} {rlen off n : ℕ}

theorem setCopy_ok (h : setCopy b src rlen off = .ok (b',n)) : rlen ≤ src.length ∧ off + rlen ≤ b.bytes.length ∧
    n = rlen ∧
    b' = { b with bytes := splice b.bytes off (src.take rlen), len := rlen,
                  cur := if rlen = 0 then off else b.cur } := by
  unfold setCopy at h
  split at h
  · cases h
  · rename_i hfits
    cases h
    exact ⟨by omega,by omega,rfl,rfl⟩

/-- What is read back has the length that was copied. -/
theorem setCopy_read {w : Bytes} (hcur : b.cur = 0) (h : setCopy b src rlen off = .ok (b',n))
    (hread : Ends getcTurn ([],{ b' with pos := 0 }) (.ok w)) : w.length = rlen := by
  obtain ⟨hsrc,hfits,-,rfl⟩ := setCopy_ok h
  have hlen : (src.take rlen).length = rlen := by rw [List.length_take,Nat.min_eq_left hsrc]
  have hsize := @length_splice _ b.bytes (src.take rlen) off (by omega)
  have hvalid : (if rlen = 0 then off else b.cur) + rlen ≤ (splice b.bytes off (src.take rlen)).length := by
    rw [hsize,hcur]
    split <;> omega
  have hwindow := getcs_window (b := { b with
    bytes := splice b.bytes off (src.take rlen), len := rlen, cur := if rlen = 0 then off else b.cur }) hvalid
  cases hread.unique hwindow
  exact length_window hvalid

/-- At the start of the buffer. -/
theorem setCopy_start (hcur : b.cur = 0) (hsrc : rlen ≤ src.length) (hfits : rlen ≤ b.bytes.length) :
    ∃ b', setCopy b src rlen 0 = .ok (b',rlen) ∧ b'.bytes = splice b.bytes 0 (src.take rlen) ∧
      Ends getcTurn ([],{ b' with pos := 0 }) (.ok (src.take rlen)) := by
  have hok : setCopy b src rlen 0 = .ok (_,rlen) := if_neg (by omega)
  refine ⟨_,hok,rfl,?_⟩
  have hlen : (src.take rlen).length = rlen := by rw [List.length_take,Nat.min_eq_left hsrc]
  have hsize := @length_splice _ b.bytes (src.take rlen) 0 (by omega)
  have hread := getcs_window (b := { b with
    bytes := splice b.bytes 0 (src.take rlen), len := rlen, cur := if rlen = 0 then 0 else b.cur }) (by
      simp only
      rw [hsize,hcur]
      split <;> omega)
  simp only [hcur,ite_self] at hread
  have hcopied : window (splice b.bytes 0 (src.take rlen)) 0 rlen = src.take rlen := by
    have htake := @take_splice _ b.bytes 0 (src.take rlen) (Nat.zero_le _)
    rwa [Nat.zero_add,hlen,List.take_zero,List.nil_append] at htake
  rw [hcopied] at hread
  simpa only [hcur,ite_self] using hread

end Copy

section Set
variable {stale : ℕ → UInt8} {b : Buf} {src : Bytes} {off : ℕ}

theorem length_bufGrow (len : ℕ) : (bufGrow stale b len).bytes.length = b.bytes.length + len := by
  unfold bufGrow xrealloc
  rw [List.length_append,List.length_take,length_allocated]
  omega

theorem bufGrow_getElem? (len : ℕ) {i : ℕ} (hi : i < b.bytes.length) : (bufGrow stale b len).bytes[i]? =
    b.bytes[i]? := by
  unfold bufGrow xrealloc
  have hlt : i < (b.bytes.take (b.bytes.length + len)).length := by
    rw [List.length_take]
    omega
  rw [List.getElem?_append_left hlt,List.getElem?_take,if_pos (by omega)]

/-- A copy to the start leaves what it is to leave. -/
theorem setCopy_isSet {g : Buf} (hcur : g.cur = 0) (hsize : g.bytes.length = max b.bytes.length (b.taken src 0))
    (hkept : ∀ i < b.bytes.length, g.bytes[i]? = b.bytes[i]?) (hsrc : b.taken src 0 ≤ src.length) :
    ∃ b' n, setCopy g src (b.taken src 0) 0 = .ok (b',n) ∧ b.IsSet src 0 b' n := by
  have hfits : b.taken src 0 ≤ g.bytes.length := hsize ▸ Nat.le_max_right _ _
  obtain ⟨b',hb',hbytes,hread⟩ := setCopy_start hcur hsrc hfits
  refine ⟨b',_,hb',?_⟩
  have hlen : (src.take (b.taken src 0)).length = b.taken src 0 := by rw [List.length_take,Nat.min_eq_left hsrc]
  constructor
  · rfl
  · have htake := @take_splice _ g.bytes 0 (src.take (b.taken src 0)) (Nat.zero_le _)
    rwa [Nat.zero_add,hlen,List.take_zero,List.nil_append,← hbytes] at htake
  · rw [hbytes,length_splice (by omega),hsize,Nat.zero_add]
  · intro i hi hout
    rw [hbytes,getElem?_splice_outside (by omega) (by omega),hkept i hi]
  · exact hread

theorem bufSet_start (hcur : b.cur = 0) : SetsRight stale b src 0 := by
  unfold SetsRight bufSet
  simp only [Nat.add_zero,Nat.not_lt_zero,if_false,Nat.sub_zero]
  by_cases hgrow : b.bytes.length < src.length
  · rw [if_pos hgrow]
    cases hauto : b.autoext with
    | true =>
      have htaken : b.taken src 0 = src.length := if_pos hauto
      have hsize : (bufGrow stale b (src.length - b.bytes.length)).bytes.length =
          max b.bytes.length (b.taken src 0) := by
        rw [length_bufGrow,htaken]
        omega
      have hset := @setCopy_isSet b src (bufGrow stale b (src.length - b.bytes.length)) hcur hsize
        (fun i hi => bufGrow_getElem? _ hi) htaken.le
      rw [htaken] at hset
      exact hset
    | false =>
      have htaken : b.taken src 0 = b.bytes.length := by
        rw [Buf.taken,hauto]
        exact Nat.min_eq_right hgrow.le
      have hset := @setCopy_isSet b src b hcur (by rw [htaken,Nat.max_self]) (fun i hi => rfl) (htaken ▸ hgrow.le)
      rw [htaken] at hset
      exact hset
  · rw [if_neg hgrow]
    have htaken : b.taken src 0 = src.length := by
      unfold Buf.taken
      split
      · rfl
      · exact Nat.min_eq_left (Nat.not_lt.mp hgrow)
    have hset := @setCopy_isSet b src b hcur (by rw [htaken]; omega) (fun i hi => rfl) htaken.le
    rw [htaken] at hset
    exact hset

/-- Anywhere else, what is read back is too short, or the copy is too long. -/
theorem bufSet_off (hcur : b.cur = 0) (hoff : off ≤ b.bytes.length) (hpos : 0 < off) : ¬ SetsRight stale b src off := by
  rintro ⟨b',n,hset,his⟩
  have hlen : (b.bytes.take off ++ src.take (b.taken src off)).length = off + min (b.taken src off) src.length := by
    rw [List.length_append,List.length_take,List.length_take,Nat.min_eq_left hoff]
  unfold bufSet at hset
  split at hset
  · split at hset
    · obtain ⟨hsrc,-⟩ := setCopy_ok hset
      omega
    · rename_i hgrow hauto
      rw [if_neg (Nat.not_lt.mpr hoff)] at hset
      have hread := hlen.symm.trans (setCopy_read hcur hset his.read)
      rw [Buf.taken,if_neg hauto] at hread
      omega
  · have hread := hlen.symm.trans (setCopy_read hcur hset his.read)
    unfold Buf.taken at hread
    split at hread
    · omega
    · omega

end Set

/-- `buf_set` copies what it is given, exactly at the start of a buffer. -/
theorem sets_right_iff (stale : ℕ → UInt8) (b : Buf) (src : Bytes) (off : ℕ) (hcur : b.cur = 0)
    (hoff : off ≤ b.bytes.length) : SetsRight stale b src off ↔ off = 0 := by
  constructor
  · intro h
    by_contra hne
    exact bufSet_off hcur hoff (Nat.pos_of_ne_zero hne) h
  · rintro rfl
    exact bufSet_start hcur

/-- Three bytes into a buffer of two that grows. -/
theorem sets_right_three : SetsRight (fun _ => 0) ⟨true,[1,2],0,0,0⟩ [7,8,9] 0 :=
  (sets_right_iff (fun _ => 0) ⟨true,[1,2],0,0,0⟩ [7,8,9] 0 rfl (Nat.zero_le _)).mpr rfl

/-- Behind two bytes: what fits is not read back to its end, and what does not fit is copied from past the source to
past the buffer. -/
theorem set_behind : ¬ SetsRight (fun _ => 0) ⟨true,[1,2,0,0],0,2,0⟩ [7,8] 2 ∧
    bufSet (fun _ => 0) ⟨true,[1,2,0,0],0,2,0⟩ [7,8] 2 = .ok (⟨true,[1,2,7,8],0,2,0⟩,2) ∧
    Ends getcTurn ([],⟨true,[1,2,7,8],0,2,0⟩) (.ok [1,2]) ∧
    bufSet (fun _ => 0) ⟨true,[1,2],0,2,0⟩ [7,8] 2 = .error .wild := by
  refine ⟨bufSet_off rfl (by decide) (by decide),rfl,?_,rfl⟩
  exact getcs_window (b := ⟨true,[1,2,7,8],0,2,0⟩) (by decide)

end Unworkable
