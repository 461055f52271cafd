import Unworkable.Bencode.Node

/-! # The bencode lexer

`yylex` with the four globals that the parser's actions set for it. The input is what is
left of the buffer, and its position; pushing a character back leaves it in place.
-/
namespace Unworkable
open Library

def bencBufferSize : ℕ := 128
def bencBufferIncrement : ℕ := 20480

inductive Token where
  | stop (len : ℕ)
  | string (value : CharBuf)
  | colon
  | intStart
  | dictStart
  | listStart
  /-- The token 0. -/
  | eof
  deriving DecidableEq, Repr

structure Lexer where
  bstrlen : ℤ := 0
  bstrflag : Bool := false
  bdone : Bool := false
  bcdone : Bool := false
  deriving DecidableEq, Repr

/-- What a call of `yylex` leaves. -/
structure Lexed where
  token : Token
  lex : Lexer
  pos : ℕ
  rest : Bytes
  deriving DecidableEq, Repr

/-- The character is added to the buffer, either because the lexer is inside a string or
because it means nothing. -/
def Lexer.keeps (g : Lexer) (c : UInt8) : Bool :=
  c = 58 ∧ !g.bdone ∧ g.bcdone ∨ c ≠ 58 ∧ g.bstrflag ∨ c ∉ ([58,101,105,100,108] : Bytes)

def Lexer.emptyDue (g : Lexer) : Bool := g.bstrlen = 0 ∧ g.bstrflag ∧ g.bcdone

def Lexer.reset (g : Lexer) : Lexer := { g with bstrlen := 0, bstrflag := false, bcdone := false }

/-- The `switch` of `yylex`, on a character that is not kept. -/
def lexSwitch (g : Lexer) (buf : Bytes) (buflen pos : ℕ) (c : UInt8) (cs : Bytes) : Lexed :=
  if c = 58 then
    if !g.bdone ∧ 0 < buf.length then
      ⟨.string ⟨buf,buflen⟩,{ g with bdone := true, bcdone := false },pos,c :: cs⟩
    else ⟨.colon,{ g with bdone := false, bcdone := true },pos + 1,cs⟩
  else if c = 101 then
    if !g.bdone ∧ 0 < buf.length then ⟨.string ⟨buf,buflen⟩,{ g with bdone := true },pos,c :: cs⟩
    else ⟨.stop (pos + 1),{ g with bdone := false },pos + 1,cs⟩
  else if c = 105 then ⟨.intStart,g,pos + 1,cs⟩
  else if c = 100 then ⟨.dictStart,g,pos + 1,cs⟩
  else ⟨.listStart,g,pos + 1,cs⟩

/-- The loop of `yylex`, with `buf` stored in a buffer of `buflen` bytes. -/
def lexLoop (g : Lexer) (buf : Bytes) (buflen pos : ℕ) (rest : Bytes) : Lexed :=
  let buflen := if buf.length = buflen then buflen + bencBufferIncrement else buflen
  if g.emptyDue then ⟨.string ⟨buf,buflen⟩,g.reset,pos,rest⟩
  else match rest with
  | [] => ⟨.eof,g,pos,[]⟩
  | c :: cs =>
    if g.keeps c then
      if (buf.length + 1 : ℤ) = g.bstrlen ∧ g.bstrflag then ⟨.string ⟨buf ++ [c],buflen⟩,g.reset,pos + 1,cs⟩
      else lexLoop g (buf ++ [c]) buflen (pos + 1) cs
    else lexSwitch g buf buflen pos c cs

def yylex (g : Lexer) (pos : ℕ) (rest : Bytes) : Lexed := lexLoop g [] bencBufferSize pos rest

/-- `strtonum` over the whole range of `long long`, on a C string. -/
def strtonum (s : Bytes) : Option ℤ :=
  (readSigned (s.dropWhile isSpace)).filter (fun z => -9223372036854775808 ≤ z ∧ z ≤ 9223372036854775807)

theorem strtonum_range {s : Bytes} {z : ℤ} (h : strtonum s = some z) :
    -9223372036854775808 ≤ z ∧ z ≤ 9223372036854775807 := by
  obtain ⟨-,hrange⟩ := Option.filter_eq_some_iff.mp h
  exact of_decide_eq_true hrange

def bufSize (n : ℕ) : ℕ := bencBufferSize + bencBufferIncrement * ((n - 128 + 20479) / 20480)

theorem le_bufSize (n : ℕ) : n ≤ bufSize n := by
  unfold bufSize bencBufferSize bencBufferIncrement
  omega

theorem bufSize_grow (n : ℕ) : (if n = bufSize n then bufSize n + bencBufferIncrement else bufSize n) =
    bufSize (n + 1) := by
  unfold bufSize bencBufferSize bencBufferIncrement
  split <;> omega

/-- A number in front of a colon or an end. -/
structure LexedNumber (g : Lexer) (v : CharBuf) (g' : Lexer) : Prop where
  ne_nil : v.text ≠ []
  terminated : v.text.length < v.size
  fresh : g.bdone = false
  lex : g.bcdone = false ∧ g' = { g with bdone := true, bcdone := false } ∨ g.bstrflag = false ∧
    g' = { g with bdone := true }

structure LexedContent (g : Lexer) (v : CharBuf) (g' : Lexer) : Prop where
  flag : g.bstrflag = true
  length : (v.text.length : ℤ) = g.bstrlen
  due : v.text = [] → g.bcdone = true
  lex : g' = g.reset

/-- What a call of the lexer can do to the globals, by the token it returns. -/
def LexedAs (g : Lexer) : Token → Lexer → Prop
  | .string v,g' => LexedNumber g v g' ∨ LexedContent g v g'
  | .colon,g' => g' = { g with bdone := false, bcdone := true }
  | .stop _,g' => g' = { g with bdone := false }
  | _,g' => g' = g

section Loop
variable {g : Lexer} {buf : Bytes} {pos : ℕ} {rest cs : Bytes} {c : UInt8}

theorem lexLoop_due (h : g.emptyDue = true) :
    lexLoop g buf (bufSize buf.length) pos rest = ⟨.string ⟨buf,bufSize (buf.length + 1)⟩,g.reset,pos,rest⟩ := by
  unfold lexLoop
  dsimp only
  rw [bufSize_grow,if_pos h]

theorem lexLoop_nil (h : g.emptyDue = false) : lexLoop g buf (bufSize buf.length) pos [] = ⟨.eof,g,pos,[]⟩ := by
  unfold lexLoop
  dsimp only
  rw [h]
  rfl

theorem lexLoop_cons (h : g.emptyDue = false) : lexLoop g buf (bufSize buf.length) pos (c :: cs) =
    if g.keeps c then
      if (buf.length + 1 : ℤ) = g.bstrlen ∧ g.bstrflag then
        ⟨.string ⟨buf ++ [c],bufSize (buf.length + 1)⟩,g.reset,pos + 1,cs⟩
      else lexLoop g (buf ++ [c]) (bufSize (buf ++ [c]).length) (pos + 1) cs
    else lexSwitch g buf (bufSize (buf.length + 1)) pos c cs := by
  rw [lexLoop]
  rw [bufSize_grow,h,List.length_append,List.length_singleton]
  rfl

theorem lexSwitch_as {buflen : ℕ} (hlen : buf.length < buflen) (hkeeps : g.keeps c = false) :
    LexedAs g (lexSwitch g buf buflen pos c cs).token (lexSwitch g buf buflen pos c cs).lex := by
  unfold Lexer.keeps at hkeeps
  rw [decide_eq_false_iff_not] at hkeeps
  unfold lexSwitch
  split
  · rename_i hc
    split
    · rename_i hdone
      have hd : g.bdone = false := by simpa using hdone.1
      refine .inl ⟨List.length_pos_iff.mp hdone.2,hlen,hd,.inl ⟨?_,rfl⟩⟩
      rw [← Bool.not_eq_true]
      exact fun hcd => hkeeps (.inl ⟨hc,by simp [hd],hcd⟩)
    · rfl
  rename_i hc
  split
  · split
    · rename_i hdone
      refine .inl ⟨List.length_pos_iff.mp hdone.2,hlen,by simpa using hdone.1,.inr ⟨?_,rfl⟩⟩
      rw [← Bool.not_eq_true]
      exact fun hflag => hkeeps (.inr (.inl ⟨hc,hflag⟩))
    · rfl
  split
  · rfl
  split
  · rfl
  · rfl

theorem lexLoop_as (hbuf : g.emptyDue = true → buf = []) :
    LexedAs g (lexLoop g buf (bufSize buf.length) pos rest).token
    (lexLoop g buf (bufSize buf.length) pos rest).lex := by
  by_cases hdue : g.emptyDue = true
  · rw [lexLoop_due hdue,hbuf hdue]
    obtain ⟨hlen,hflag,hcdone⟩ := of_decide_eq_true hdue
    exact .inr ⟨hflag,by simpa using hlen.symm,fun _ => hcdone,rfl⟩
  rw [Bool.not_eq_true] at hdue
  induction rest generalizing buf pos with
  | nil =>
    rw [lexLoop_nil hdue]
    rfl
  | cons c cs ih =>
    rw [lexLoop_cons hdue]
    split
    · split
      · rename_i hfull
        refine .inr ⟨hfull.2,?_,fun hnil => absurd hnil (by simp),rfl⟩
        rw [← hfull.1]
        simp
      · exact ih (fun h => absurd h (by simp [hdue]))
    · rename_i hkeeps
      exact lexSwitch_as (le_bufSize _) (by simpa using hkeeps)

/-- A call consumes input, unless it meets the end or a string of length zero is due. -/
theorem lexLoop_rest (hdue : g.emptyDue = false) : (lexLoop g buf (bufSize buf.length) pos rest).token = .eof ∨
    (lexLoop g buf (bufSize buf.length) pos rest).rest.length < rest.length ∨
      buf ≠ [] ∧ (lexLoop g buf (bufSize buf.length) pos rest).rest.length ≤ rest.length := by
  induction rest generalizing buf pos with
  | nil =>
    rw [lexLoop_nil hdue]
    exact .inl rfl
  | cons c cs ih =>
    rw [lexLoop_cons hdue]
    split
    · split
      · exact .inr (.inl (Nat.lt_succ_self _))
      · rcases ih with heof | hlt | ⟨-,hle⟩
        · exact .inl heof
        · exact .inr (.inl (Nat.lt_succ_of_lt hlt))
        · exact .inr (.inl (Nat.lt_succ_of_le hle))
    · unfold lexSwitch
      split
      · split
        · rename_i hdone
          exact .inr (.inr ⟨List.length_pos_iff.mp hdone.2,le_refl _⟩)
        · exact .inr (.inl (Nat.lt_succ_self _))
      split
      · split
        · rename_i hdone
          exact .inr (.inr ⟨List.length_pos_iff.mp hdone.2,le_refl _⟩)
        · exact .inr (.inl (Nat.lt_succ_self _))
      repeat' split
      all_goals exact .inr (.inl (Nat.lt_succ_self _))

end Loop

end Unworkable
