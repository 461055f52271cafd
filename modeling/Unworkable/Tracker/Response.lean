import Unworkable.Session.Tracker
import Unworkable.Tracker.Buffer
import Mathlib.Data.List.TakeWhile

/-! # The header of a response

The response is looked at with C string functions, but its buffer has no terminator: behind the bytes
read comes what the allocation happens to hold.
-/
namespace Unworkable
open Library

def crlfcrlf : Bytes := [13,10,13,10]

/-- What becomes of a response, up to the parser of its body. -/
inductive HttpOutcome where
  /-- "server did not send a valid HTTP/1.0 response" -/
  | invalid
  /-- "HTTP response indicates error (code: %s)" -/
  | refused (code : Bytes)
  /-- "HTTP response had no content" -/
  | empty
  | content (body : Bytes)
  deriving DecidableEq

/-- `handle_announce_error` up to the parser, for the bytes read, of which there are some, and what the
allocation holds behind them. The length of the body is a `size_t` difference. -/
def responseContent (rx memory : Bytes) : Except Halt HttpOutcome :=
  let c := rx ++ memory
  if c.take 8 ≠ ascii "HTTP/1.0" ∧ c.take 8 ≠ ascii "HTTP/1.1" then .ok .invalid
  else if (c.drop 9).take 3 ≠ ascii "200" then .ok (.refused (((c.drop 9).take 3).takeWhile (· ≠ 0)))
  else do
    match ← strstr crlfcrlf (c.drop 9) with
    | none => .ok .empty
    | some found =>
      let content := found.drop 4
      if content.length < memory.length then .error .wild
      else .ok (.content (content.take (content.length - memory.length)))

/-- The body is passed to the parser, and its tree gives the reply. -/
theorem announceReply_eq {rx : Bytes} (hrx : rx ≠ []) (memory : Bytes) : announceReply rx memory = (do
    match ← responseContent rx memory with
    | .invalid => .ok .invalid
    | .refused _ => .ok .refused
    | .empty => .ok .empty
    | .content body => do
      let root ← bencTree body
      contentReply root) := by
  unfold announceReply responseContent
  rw [if_neg hrx]
  dsimp only
  split
  · rfl
  split
  · rfl
  show (strstr crlfcrlf _ >>= _) = ((strstr crlfcrlf _ >>= _) >>= _)
  cases strstr crlfcrlf ((rx ++ memory).drop 9) with
  | error e => rfl
  | ok found =>
    cases found with
    | none => rfl
    | some found =>
      simp only [ok_bind]
      split
      · rfl
      · rfl

def IsBody (rx body : Bytes) : Prop :=
  ∃ head, rx = head ++ crlfcrlf ++ body ∧ ∀ head' rest, rx = head' ++ crlfcrlf ++ rest → head.length ≤ head'.length

/-- Whatever lies behind the bytes read, the outcome is the same, and a body consists of bytes read.
There are more than 256 bytes behind them, for which the last read had made room. -/
def DependsOnRead (rx : Bytes) : Prop := ∀ memory memory' : Bytes, 256 < memory.length → 256 < memory'.length →
  responseContent rx memory = responseContent rx memory' ∧ ∃ outcome, responseContent rx memory = .ok outcome ∧
    ∀ body, outcome = .content body → IsBody rx body

/-- The bytes read are no beginning of a status line, or there is a terminator among them behind its first
nine, or they are twelve at least and the code is not 200 or an empty line comes behind it. -/
def ReadSettles (rx : Bytes) : Prop :=
  ¬ rx.take 8 <+: ascii "HTTP/1.0" ∧ ¬ rx.take 8 <+: ascii "HTTP/1.1" ∨
    8 ≤ rx.length ∧ 0 ∈ rx.drop 9 ∨
    12 ≤ rx.length ∧ ((rx.drop 9).take 3 ≠ ascii "200" ∨ crlfcrlf <:+: rx.drop 9)

section Settled
variable {rx memory : Bytes}

/-- The first bytes of the buffer are those read, as far as these go. -/
theorem take_append_of_le {n : ℕ} (h : n ≤ rx.length) (memory : Bytes) : (rx ++ memory).take n = rx.take n :=
  List.take_append_of_le_length h

theorem responseContent_invalid (hzero : ¬ rx.take 8 <+: ascii "HTTP/1.0") (hone : ¬ rx.take 8 <+: ascii "HTTP/1.1")
    (memory : Bytes) : responseContent rx memory = .ok .invalid := by
  have hbegin : rx.take 8 <+: (rx ++ memory).take 8 := (List.prefix_append rx memory).take 8
  unfold responseContent
  refine if_pos ⟨?_,?_⟩
  · intro heq
    exact hzero (heq ▸ hbegin)
  · intro heq
    exact hone (heq ▸ hbegin)

/-- Behind a status line that has been read completely comes the code. -/
theorem responseContent_valid (hlen : 8 ≤ rx.length) (hvalid : rx.take 8 = ascii "HTTP/1.0" ∨
    rx.take 8 = ascii "HTTP/1.1")
    (memory : Bytes) : responseContent rx memory =
      if ((rx ++ memory).drop 9).take 3 ≠ ascii "200" then
        .ok (.refused ((((rx ++ memory).drop 9).take 3).takeWhile (· ≠ 0)))
      else (do
        match ← strstr crlfcrlf ((rx ++ memory).drop 9) with
        | none => .ok .empty
        | some found =>
          let content := found.drop 4
          if content.length < memory.length then .error .wild
          else .ok (.content (content.take (content.length - memory.length)))) := by
  unfold responseContent
  refine if_neg ?_
  rw [take_append_of_le hlen]
  rintro ⟨hzero,hone⟩
  rcases hvalid with h | h
  · exact hzero h
  · exact hone h

theorem drop_nine (rx memory : Bytes) : (rx ++ memory).drop 9 = rx.drop 9 ++ memory.drop (9 - rx.length) :=
  List.drop_append

theorem valid_of_begin (hlen : 8 ≤ rx.length) (h : rx.take 8 <+: ascii "HTTP/1.0" ∨ rx.take 8 <+: ascii "HTTP/1.1") :
    rx.take 8 = ascii "HTTP/1.0" ∨ rx.take 8 = ascii "HTTP/1.1" := by
  have height : (rx.take 8).length = 8 := by
    rw [List.length_take]
    omega
  exact h.imp (fun h => h.eq_of_length height) (fun h => h.eq_of_length height)

/-- There is no empty line before the end of the code. -/
theorem crlfcrlf_behind (hvalid : rx.take 8 = ascii "HTTP/1.0" ∨ rx.take 8 = ascii "HTTP/1.1")
    (hcode : (rx.drop 9).take 3 = ascii "200") {head rest : Bytes} (h : rx = head ++ crlfcrlf ++ rest) :
    9 ≤ head.length := by
  by_contra hlt
  have hcr : rx[head.length]? = some 13 := by
    rw [h,List.append_assoc,List.getElem?_append_right (le_refl _),Nat.sub_self]
    rfl
  have hlf : rx[head.length + 1]? = some 10 := by
    rw [h,List.append_assoc,List.getElem?_append_right (show head.length ≤ head.length + 1 by omega),
      Nat.add_sub_cancel_left]
    rfl
  by_cases height : head.length = 8
  · have htwo : ((rx.drop 9).take 3)[0]? = some 10 := by
      rw [List.getElem?_take,if_pos (by decide),List.getElem?_drop]
      rw [height] at hlf
      exact hlf
    rw [hcode] at htwo
    cases htwo
  · have hmem : 13 ∈ rx.take 8 := by
      apply List.mem_of_getElem? (i := head.length)
      rw [List.getElem?_take,if_pos (by omega)]
      exact hcr
    rcases hvalid with h | h
    · rw [h] at hmem
      exact absurd hmem (by decide)
    · rw [h] at hmem
      exact absurd hmem (by decide)

theorem isBody_of_drop (hvalid : rx.take 8 = ascii "HTTP/1.0" ∨ rx.take 8 = ascii "HTTP/1.1")
    (hcode : (rx.drop 9).take 3 = ascii "200") {head body : Bytes} (h : rx.drop 9 = head ++ crlfcrlf ++ body)
    (hfirst : ∀ head' rest, rx.drop 9 = head' ++ crlfcrlf ++ rest → head.length ≤ head'.length) : IsBody rx body := by
  refine ⟨rx.take 9 ++ head,?_,?_⟩
  · rw [List.append_assoc,List.append_assoc,← List.append_assoc head,← h,List.take_append_drop]
  · intro head' rest heq
    have hnine := crlfcrlf_behind hvalid hcode heq
    have hdrop : rx.drop 9 = head'.drop 9 ++ crlfcrlf ++ rest := by
      rw [heq,List.append_assoc,List.drop_append_of_le_length hnine,List.append_assoc]
    have hle := hfirst (head'.drop 9) rest hdrop
    rw [List.length_drop] at hle
    rw [List.length_append,List.length_take]
    omega

/-- A code that has been read completely, and behind it a terminator or an empty line. -/
theorem settled_code (hlen : 12 ≤ rx.length) (hvalid : rx.take 8 = ascii "HTTP/1.0" ∨ rx.take 8 = ascii "HTTP/1.1")
    (h : (rx.drop 9).take 3 ≠ ascii "200" ∨ 0 ∈ rx.drop 9 ∨ crlfcrlf <:+: rx.drop 9) :
    ∃ outcome, (∀ memory, responseContent rx memory = .ok outcome) ∧ ∀ body, outcome = .content body →
      IsBody rx body := by
  have hcode : ∀ memory, ((rx ++ memory).drop 9).take 3 = (rx.drop 9).take 3 := by
    intro memory
    rw [drop_nine]
    exact List.take_append_of_le_length (by rw [List.length_drop]; omega)
  by_cases hok : (rx.drop 9).take 3 = ascii "200"
  swap
  · refine ⟨.refused (((rx.drop 9).take 3).takeWhile (· ≠ 0)),?_,fun body heq => by cases heq⟩
    intro memory
    rw [responseContent_valid (by omega) hvalid,hcode,if_pos hok]
  have hsettles := h.resolve_left (fun hne => hne hok)
  have hbody : ∀ memory, responseContent rx memory = (do
      match ← strstr crlfcrlf (rx.drop 9 ++ memory) with
      | none => .ok .empty
      | some found =>
        let content := found.drop 4
        if content.length < memory.length then .error .wild
        else .ok (.content (content.take (content.length - memory.length)))) := by
    intro memory
    rw [responseContent_valid (by omega) hvalid,hcode,if_neg (not_not.mpr hok),drop_nine,
      show 9 - rx.length = 0 by omega,List.drop_zero]
  rcases strstr_settled (show crlfcrlf ≠ [] by decide) (show (0 : UInt8) ∉ crlfcrlf by decide) hsettles with
    hnone | ⟨head,body,hsplit,hfirst,hfound⟩
  · refine ⟨.empty,?_,fun body heq => by cases heq⟩
    intro memory
    rw [hbody,hnone]
    rfl
  · refine ⟨.content body,?_,?_⟩
    · intro memory
      rw [hbody,hfound,ok_bind]
      have hcontent : (crlfcrlf ++ (body ++ memory)).drop 4 = body ++ memory := List.drop_left' rfl
      simp only [hcontent,List.length_append]
      rw [if_neg (by omega),Nat.add_sub_cancel]
      exact congrArg (fun b => Except.ok (HttpOutcome.content b)) List.take_left
    · intro body' heq
      cases heq
      exact isBody_of_drop hvalid hok hsplit hfirst

/-- A code with a terminator in it. -/
theorem settled_short (hlen : 8 ≤ rx.length) (hshort : rx.length < 12)
    (hvalid : rx.take 8 = ascii "HTTP/1.0" ∨ rx.take 8 = ascii "HTTP/1.1") (hzero : 0 ∈ rx.drop 9) (memory : Bytes) :
    responseContent rx memory = .ok (.refused ((rx.drop 9).takeWhile (· ≠ 0))) := by
  have hcode : ((rx ++ memory).drop 9).take 3 =
      rx.drop 9 ++ (memory.drop (9 - rx.length)).take (3 - (rx.drop 9).length) := by
    rw [drop_nine,List.take_append,List.take_of_length_le (by rw [List.length_drop]; omega)]
  have hne : ((rx ++ memory).drop 9).take 3 ≠ ascii "200" := by
    intro heq
    rw [hcode] at heq
    have hmem : (0 : UInt8) ∈ ascii "200" := heq ▸ List.mem_append_left _ hzero
    exact absurd hmem (by decide)
  rw [responseContent_valid hlen hvalid,if_pos hne,hcode,List.takeWhile_append,if_neg]
  intro hall
  have heq := List.IsPrefix.eq_of_length (List.takeWhile_prefix _) hall
  rw [← heq] at hzero
  exact absurd (List.mem_takeWhile_imp hzero) (by decide)

theorem settled_depends (h : ReadSettles rx) : DependsOnRead rx := by
  have hall : ∃ outcome, (∀ memory, responseContent rx memory = .ok outcome) ∧
      ∀ body, outcome = .content body → IsBody rx body := by
    by_cases hbegin : rx.take 8 <+: ascii "HTTP/1.0" ∨ rx.take 8 <+: ascii "HTTP/1.1"
    swap
    · rw [not_or] at hbegin
      exact ⟨.invalid,responseContent_invalid hbegin.1 hbegin.2,fun body heq => by cases heq⟩
    rcases h with ⟨hzero,hone⟩ | ⟨hlen,hzero⟩ | ⟨hlen,hsettles⟩
    · exact (hbegin.elim hzero hone).elim
    · have hvalid := valid_of_begin hlen hbegin
      by_cases hshort : rx.length < 12
      · exact ⟨_,settled_short hlen hshort hvalid hzero,fun body heq => by cases heq⟩
      · exact settled_code (by omega) hvalid (.inr (.inl hzero))
    · exact settled_code hlen (valid_of_begin (by omega) hbegin) (hsettles.imp_right .inr)
  obtain ⟨outcome,hsame,hbody⟩ := hall
  intro memory memory' _ _
  exact ⟨(hsame memory).trans (hsame memory').symm,outcome,hsame memory,hbody⟩

theorem long_memory (bs : Bytes) (b : UInt8) : 256 < (bs ++ List.replicate 257 b).length := by
  rw [List.length_append,List.length_replicate]
  omega

/-- A status line that is cut off is completed by what lies behind it. -/
theorem cut_status_line {line : Bytes} (hline : line = ascii "HTTP/1.0" ∨ line = ascii "HTTP/1.1")
    (hbegin : rx <+: line)
    (hlen : rx.length < 8) : ¬ DependsOnRead rx := by
  obtain ⟨missing,hmissing⟩ := hbegin
  intro h
  have hinvalid : responseContent rx (List.replicate 257 0) = .ok .invalid := by
    have hzero : 0 ∈ (rx ++ List.replicate 257 0).take 8 := by
      rw [List.take_append,List.mem_append]
      right
      rw [List.take_replicate]
      exact List.mem_replicate.mpr ⟨by omega,rfl⟩
    unfold responseContent
    refine if_pos ⟨?_,?_⟩
    · intro heq
      rw [heq] at hzero
      exact absurd hzero (by decide)
    · intro heq
      rw [heq] at hzero
      exact absurd hzero (by decide)
  have hrefused : responseContent rx (missing ++ List.replicate 257 48) = .ok (.refused [48,48,48]) := by
    unfold responseContent
    rw [← List.append_assoc,hmissing]
    rcases hline with rfl | rfl <;> rfl
  have heq := (h (List.replicate 257 0) (missing ++ List.replicate 257 48) (long_memory [] 0)
    (long_memory missing 48)).1
  rw [hinvalid,hrefused] at heq
  cases heq

/-- A code that is cut off is completed by what lies behind it. -/
theorem cut_code (hlen : 8 ≤ rx.length) (hshort : rx.length < 12)
    (hvalid : rx.take 8 = ascii "HTTP/1.0" ∨ rx.take 8 = ascii "HTTP/1.1") (hzero : 0 ∉ rx.drop 9) :
    ¬ DependsOnRead rx := by
  have hrefused : ∀ b : UInt8, b ≠ 0 → b ≠ 48 → ∃ code : Bytes, code[2]? = some b ∧
      responseContent rx (List.replicate 257 b) = .ok (.refused code) := by
    intro b hb hne
    have hlast : (((rx ++ List.replicate 257 b).drop 9).take 3)[2]? = some b := by
      rw [List.getElem?_take,if_pos (by decide),List.getElem?_drop,List.getElem?_append_right (by omega),
        List.getElem?_replicate,if_pos (by omega)]
    have hcode : ((rx ++ List.replicate 257 b).drop 9).take 3 ≠ ascii "200" := by
      intro heq
      rw [heq] at hlast
      exact hne (Option.some.inj hlast).symm
    have hall : (((rx ++ List.replicate 257 b).drop 9).take 3).takeWhile (· ≠ 0) =
        ((rx ++ List.replicate 257 b).drop 9).take 3 := by
      have hmem : ∀ c ∈ ((rx ++ List.replicate 257 b).drop 9).take 3, c ≠ 0 := by
        intro c hc heq
        rw [heq] at hc
        have hc := List.mem_of_mem_take hc
        rw [drop_nine,List.mem_append] at hc
        rcases hc with hc | hc
        · exact hzero hc
        · exact hb (List.eq_of_mem_replicate (List.mem_of_mem_drop hc)).symm
      apply List.takeWhile_eq_self_iff.mpr
      intro c hc
      exact decide_eq_true (hmem c hc)
    refine ⟨_,hlast,?_⟩
    rw [responseContent_valid hlen hvalid,if_pos hcode,hall]
  intro h
  obtain ⟨code,hlast,hfour⟩ := hrefused 52 (by decide) (by decide)
  obtain ⟨code',hlast',hfive⟩ := hrefused 53 (by decide) (by decide)
  have heq := (h (List.replicate 257 52) (List.replicate 257 53) (long_memory [] 52) (long_memory [] 53)).1
  rw [hfour,hfive] at heq
  cases heq
  cases hlast.symm.trans hlast'

/-- A header without an end is continued by what lies behind it. -/
theorem cut_header (hlen : 12 ≤ rx.length) (hvalid : rx.take 8 = ascii "HTTP/1.0" ∨ rx.take 8 = ascii "HTTP/1.1")
    (hcode : (rx.drop 9).take 3 = ascii "200") (hzero : 0 ∉ rx.drop 9) (hnone : ¬ crlfcrlf <:+: rx.drop 9) :
    ¬ DependsOnRead rx := by
  intro h
  obtain ⟨-,outcome,houtcome,-⟩ := h (crlfcrlf ++ List.replicate 257 0) (crlfcrlf ++ List.replicate 257 0)
    (long_memory crlfcrlf 0) (long_memory crlfcrlf 0)
  obtain ⟨found,hfound,hlt⟩ := strstr_behind (show crlfcrlf ≠ [] by decide) hzero hnone (List.replicate 257 0)
  have hok : ((rx ++ (crlfcrlf ++ List.replicate 257 0)).drop 9).take 3 = ascii "200" := by
    rw [drop_nine,List.take_append_of_le_length (by rw [List.length_drop]; omega),hcode]
  rw [responseContent_valid (by omega) hvalid,if_neg (not_not.mpr hok),drop_nine,show 9 - rx.length = 0 by omega,
    List.drop_zero,hfound,ok_bind] at houtcome
  simp only at houtcome
  rw [if_pos] at houtcome
  · cases houtcome
  · have hfour : crlfcrlf.length = 4 := rfl
    rw [List.length_drop,List.length_append]
    omega

end Settled

/-- The outcome depends on nothing but the bytes read, and a body consists of them, if and only if they settle it. -/
theorem depends_on_read_iff (rx : Bytes) : DependsOnRead rx ↔ ReadSettles rx := by
  constructor
  swap
  · exact settled_depends
  intro h
  by_contra hopen
  unfold ReadSettles at hopen
  rw [not_or,not_or] at hopen
  obtain ⟨hbegin,hzero,hlong⟩ := hopen
  have hbegin : rx.take 8 <+: ascii "HTTP/1.0" ∨ rx.take 8 <+: ascii "HTTP/1.1" := by
    by_contra hno
    rw [not_or] at hno
    exact hbegin hno
  by_cases hlen : rx.length < 8
  · rw [List.take_of_length_le (by omega)] at hbegin
    rcases hbegin with hbegin | hbegin
    · exact cut_status_line (.inl rfl) hbegin hlen h
    · exact cut_status_line (.inr rfl) hbegin hlen h
  have hvalid := valid_of_begin (by omega) hbegin
  have hzero : 0 ∉ rx.drop 9 := fun hmem => hzero ⟨by omega,hmem⟩
  by_cases hshort : rx.length < 12
  · exact cut_code (by omega) hshort hvalid hzero h
  · have hsettles : ¬ ((rx.drop 9).take 3 ≠ ascii "200" ∨ crlfcrlf <:+: rx.drop 9) := fun hs => hlong ⟨by omega,hs⟩
    rw [not_or,not_not] at hsettles
    exact cut_header (by omega) hvalid hsettles.1 hzero hsettles.2 h

/-- A response that was closed behind its status line. -/
theorem header_only_open : ¬ DependsOnRead (ascii "HTTP/1.0 200 OK") := by
  intro h
  obtain ⟨heq,-⟩ := h (List.replicate 257 0) (crlfcrlf ++ List.replicate 257 0) (long_memory [] 0)
    (long_memory crlfcrlf 0)
  have hempty : responseContent (ascii "HTTP/1.0 200 OK") (List.replicate 257 0) = .ok .empty := by
    decide +kernel
  have hwild : responseContent (ascii "HTTP/1.0 200 OK") (crlfcrlf ++ List.replicate 257 0) = .error .wild := by
    decide +kernel
  rw [hempty,hwild] at heq
  cases heq

end Unworkable
