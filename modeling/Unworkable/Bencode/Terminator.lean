import Unworkable.Bencode.Value

/-! # The zero behind a string

The buffer of a token grows when the next character is about to be stored. A token that ends
on its last character leaves no room for a terminator.
-/
namespace Unworkable
open Library

def CharBuf.bytes (b : CharBuf) : Bytes := b.text ++ List.replicate (b.size - b.text.length) 0

def CharBuf.Ended (b : CharBuf) : Prop := b.text.length < b.size ∧ b.bytes[b.text.length]? = some 0

/-- The content that is due fills a buffer of the lexer, and nothing ends it early. -/
def Lexer.Fills (g : Lexer) (rest : Bytes) : Prop :=
  ∃ j : ℕ, g.bstrflag = true ∧ g.bstrlen = 128 + 20480 * (j : ℤ) ∧ 128 + 20480 * j ≤ rest.length ∧
    ∀ c ∈ rest.take (128 + 20480 * j), g.keeps c = true

section Buffer
variable {b : CharBuf}

theorem CharBuf.ended_iff : b.Ended ↔ b.text.length < b.size := by
  constructor
  · exact And.left
  · intro h
    refine ⟨h,?_⟩
    rw [CharBuf.bytes,List.getElem?_append_right (le_refl _),Nat.sub_self,List.getElem?_replicate]
    exact if_pos (Nat.sub_pos_of_lt h)

end Buffer

section Loop
variable {g : Lexer} {buf w rest cs : Bytes} {v : CharBuf} {pos : ℕ} {c : UInt8}

theorem lexSwitch_string {buflen : ℕ} (h : (lexSwitch g buf buflen pos c cs).token = .string v) : v = ⟨buf,buflen⟩ := by
  unfold lexSwitch at h
  split at h
  · split at h
    · cases h
      rfl
    · cases h
  split at h
  · split at h
    · cases h
      rfl
    · cases h
  split at h
  · cases h
  split at h
  · cases h
  · cases h

theorem not_full (n : ℕ) : ¬ bufSize (n + 1) ≤ n := Nat.not_le.mpr (le_bufSize (n + 1))

/-- A token without a terminator is content that fills its buffer. -/
theorem lexLoop_full (h : (lexLoop g buf (bufSize buf.length) pos rest).token = .string v)
    (hfull : v.size ≤ v.text.length) :
    ∃ w, v.text = buf ++ w ∧ w <+: rest ∧ (∀ c ∈ w, g.keeps c = true) ∧ g.bstrflag = true ∧
      (v.text.length : ℤ) = g.bstrlen ∧ bufSize v.text.length ≤ v.text.length := by
  by_cases hdue : g.emptyDue = true
  · rw [lexLoop_due hdue] at h
    cases h
    exact absurd hfull (not_full _)
  rw [Bool.not_eq_true] at hdue
  induction rest generalizing buf pos with
  | nil =>
    rw [lexLoop_nil hdue] at h
    cases h
  | cons c cs ih =>
    rw [lexLoop_cons hdue] at h
    by_cases hkeeps : g.keeps c = true
    · rw [if_pos hkeeps] at h
      split at h
      · rename_i hlast
        cases h
        refine ⟨[c],rfl,List.cons_prefix_cons.mpr ⟨rfl,List.nil_prefix⟩,?_,hlast.2,?_,?_⟩
        · intro b hb
          rwa [List.mem_singleton.mp hb]
        · rw [List.length_append,List.length_singleton,Nat.cast_add,Nat.cast_one]
          exact hlast.1
        · rwa [List.length_append,List.length_singleton] at hfull ⊢
      · obtain ⟨w,hw,hway,hall,hrest⟩ := ih h
        refine ⟨c :: w,?_,List.cons_prefix_cons.mpr ⟨rfl,hway⟩,?_,hrest⟩
        · rw [hw,List.append_assoc,List.singleton_append]
        · exact List.forall_mem_cons.mpr ⟨hkeeps,hall⟩
    · rw [if_neg hkeeps] at h
      cases lexSwitch_string h
      exact absurd hfull (not_full _)

/-- Content of such a length ends where its buffer does. -/
theorem yylex_fills (h : g.Fills rest) :
    ∃ v, (yylex g pos rest).token = .string v ∧ v.size = v.text.length := by
  obtain ⟨j,hflag,hlen,hle,hkeeps⟩ := h
  have hdue : g.emptyDue = false := by
    apply decide_eq_false
    rintro ⟨hzero,-⟩
    omega
  have hlt : 127 + 20480 * j < rest.length := by omega
  have hrest : rest = rest.take (127 + 20480 * j) ++ rest[127 + 20480 * j] :: rest.drop (128 + 20480 * j) := by
    have hdrop := List.drop_eq_getElem_cons hlt
    rw [show 127 + 20480 * j + 1 = 128 + 20480 * j by omega] at hdrop
    rw [← hdrop,List.take_append_drop]
  have htake : rest.take (128 + 20480 * j) = rest.take (127 + 20480 * j) ++ [rest[127 + 20480 * j]] := by
    rw [show 128 + 20480 * j = 127 + 20480 * j + 1 by omega,List.take_succ_eq_append_getElem hlt]
  have hwlen : (rest.take (127 + 20480 * j)).length = 127 + 20480 * j := by
    rw [List.length_take,Nat.min_eq_left hlt.le]
  rw [htake] at hkeeps
  have hskips : g.Skips 0 (rest.take (127 + 20480 * j)) := by
    refine ⟨fun c hc => hkeeps c (List.mem_append_left _ hc),?_⟩
    intro _ k hk hk'
    rw [hwlen] at hk'
    omega
  have hlast : g.keeps rest[127 + 20480 * j] = true := hkeeps _ (List.mem_append_right _ List.mem_cons_self)
  have hcount : (((rest.take (127 + 20480 * j)).length : ℤ) + 1 = g.bstrlen ∧ g.bstrflag = true) := by
    rw [hwlen]
    exact ⟨by omega,hflag⟩
  have hsize : bufSize (127 + 20480 * j + 1) = 127 + 20480 * j + 1 :=
    Nat.le_antisymm (bufSize_eq.mpr ⟨j,by omega⟩) (le_bufSize _)
  have hlex := @yylex_skips g pos (rest.take (127 + 20480 * j)) (rest[127 + 20480 * j] ::
    rest.drop (128 + 20480 * j)) hdue hskips
  rw [← hrest,lexLoop_cons hdue,if_pos hlast,if_pos hcount] at hlex
  rw [hlex]
  refine ⟨_,rfl,?_⟩
  rw [List.length_append,hwlen,List.length_singleton,hsize]

end Loop

/-- The strings that the lexer returns are terminated, exactly if none is content of a length at which its buffer
was about to grow. -/
theorem yylex_ended_iff (g : Lexer) (pos : ℕ) (rest : Bytes) :
    (∀ v, (yylex g pos rest).token = .string v → v.Ended ∧ v.cString = .ok (v.text.takeWhile (· ≠ 0))) ↔
      ¬ g.Fills rest := by
  constructor
  · intro h hfills
    obtain ⟨v,hv,hsize⟩ := @yylex_fills g rest pos hfills
    have hlt := CharBuf.ended_iff.mp (h v hv).1
    omega
  · intro hfills v hv
    have hended : v.text.length < v.size := by
      by_contra hnot
      obtain ⟨w,hw,hway,hkeeps,hflag,hlen,hfull⟩ := lexLoop_full hv (Nat.not_lt.mp hnot)
      rw [List.nil_append] at hw
      obtain ⟨j,hj⟩ := bufSize_eq.mp hfull
      rw [hw] at hj hlen
      apply hfills
      refine ⟨j,hflag,?_,hj ▸ hway.length_le,?_⟩
      · rw [← hlen,hj]
        push_cast
        rfl
      · rwa [← hj,← List.prefix_iff_eq_take.mp hway]
    exact ⟨CharBuf.ended_iff.mpr hended,CharBuf.cString_of_lt hended⟩

/-- The content of a string of 128 characters is returned without a terminator. -/
theorem content_unended : ∃ p, Reaches yystep (.start {} [] (ascii "128:" ++ List.replicate 128 120)) p ∧
    (yylex p.lex p.pos p.rest).token = .string ⟨List.replicate 128 120,128⟩ ∧
      ¬ CharBuf.Ended ⟨List.replicate 128 120,128⟩ := by
  refine ⟨⟨⟨128,true,false,true⟩,[],.list [],[.colon,.strNumber 128,.bstrflag,.bencode],4,List.replicate 128 120⟩,
    ?_,?_,?_⟩
  · have hnumber : yystep (.start {} [] (ascii "128:" ++ List.replicate 128 120)) =
        .inl ⟨⟨128,true,true,false⟩,[],.list [],[.strNumber 128,.bstrflag,.bencode],3,
          58 :: List.replicate 128 120⟩ := rfl
    have hcolon : yystep ⟨⟨128,true,true,false⟩,[],.list [],[.strNumber 128,.bstrflag,.bencode],3,
      58 :: List.replicate 128 120⟩ =
        .inl ⟨⟨128,true,false,true⟩,[],.list [],[.colon,.strNumber 128,.bstrflag,.bencode],4,
          List.replicate 128 120⟩ := rfl
    exact .head hnumber (.head hcolon .refl)
  · decide +kernel
  · rw [CharBuf.ended_iff]
    decide +kernel

end Unworkable
