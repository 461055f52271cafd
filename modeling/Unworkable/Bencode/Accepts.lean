import Unworkable.Bencode.Strict

/-! # What the bencode parser accepts

The bytes behind a parse, by the stack of the parser: what a stack stands for, what a token
adds to it, and that a parse which succeeds has read a spelling to the end.
-/
namespace Unworkable
open Library

section Lexing
variable {g : Lexer} {buf rest : Bytes} {pos : ℕ}

theorem not_plainChar {c : UInt8} : plainChar c = false ↔ c = 58 ∨ c = 101 ∨ c = 105 ∨ c = 100 ∨ c = 108 := by
  unfold plainChar
  rw [decide_eq_false_iff_not,not_not]
  simp only [List.mem_cons,List.not_mem_nil,or_false]

/-- The input up to the first letter or colon. -/
theorem plain_or_split (rest : Bytes) : (∀ c ∈ rest, plainChar c = true) ∨
    ∃ w c cs, rest = w ++ c :: cs ∧ (∀ b ∈ w, plainChar b = true) ∧ plainChar c = false := by
  induction rest with
  | nil => exact .inl (List.forall_mem_nil _)
  | cons c cs ih =>
    cases hc : plainChar c with
    | false => exact .inr ⟨[],c,cs,rfl,List.forall_mem_nil _,hc⟩
    | true =>
      rcases ih with hplain | ⟨w,b,bs,rfl,hw,hb⟩
      · exact .inl (List.forall_mem_cons.mpr ⟨hc,hplain⟩)
      · exact .inr ⟨c :: w,b,bs,rfl,List.forall_mem_cons.mpr ⟨hc,hw⟩,hb⟩

/-- A call between two values, by the first letter or colon. -/
theorem yylex_calm (rest : Bytes) :
    (∀ c ∈ rest, plainChar c = true) ∧ (yylex {} pos rest).token = .eof ∨
    ∃ w c cs, rest = w ++ c :: cs ∧ (∀ b ∈ w, plainChar b = true) ∧
      ((c = 58 ∨ c = 101) ∧ w ≠ [] ∧ yylex {} pos rest =
          ⟨.string ⟨w,bufSize (w.length + 1)⟩,{ bdone := true },pos + w.length,c :: cs⟩ ∨
        c = 58 ∧ (yylex {} pos rest).token = .colon ∨
        c = 101 ∧ w = [] ∧ yylex {} pos rest = ⟨.stop (pos + 1),{},pos + 1,cs⟩ ∨
        c = 105 ∧ yylex {} pos rest = ⟨.intStart,{},pos + w.length + 1,cs⟩ ∨
        c = 100 ∧ yylex {} pos rest = ⟨.dictStart,{},pos + w.length + 1,cs⟩ ∨
        c = 108 ∧ yylex {} pos rest = ⟨.listStart,{},pos + w.length + 1,cs⟩) := by
  rcases plain_or_split rest with hplain | ⟨w,c,cs,rfl,hw,hc⟩
  · exact .inl ⟨hplain,yylex_eof rfl (skips_zero rfl hplain)⟩
  refine .inr ⟨w,c,cs,rfl,hw,?_⟩
  rcases not_plainChar.mp hc with rfl | rfl | rfl | rfl | rfl
  · by_cases hnil : w = []
    · subst hnil
      exact .inr (.inl ⟨rfl,rfl⟩)
    · exact .inl ⟨.inl rfl,hnil,yylex_number (.inl rfl) hnil hw⟩
  · by_cases hnil : w = []
    · subst hnil
      exact .inr (.inr (.inl ⟨rfl,rfl,yylex_stop rfl⟩))
    · exact .inl ⟨.inr rfl,hnil,yylex_number (.inr rfl) hnil hw⟩
  · exact .inr (.inr (.inr (.inl ⟨rfl,yylex_start (.inl ⟨rfl,rfl⟩) hw⟩)))
  · exact .inr (.inr (.inr (.inr (.inl ⟨rfl,yylex_start (.inr (.inl ⟨rfl,rfl⟩)) hw⟩))))
  · exact .inr (.inr (.inr (.inr (.inr ⟨rfl,yylex_start (.inr (.inr ⟨rfl,rfl⟩)) hw⟩))))

/-- The call for the first key of a dictionary. -/
theorem yylex_firstKey (rest : Bytes) : (yylex { bstrflag := true } pos rest).token = .eof ∨
    (yylex { bstrflag := true } pos rest).token = .colon ∨
    ∃ w cs, rest = w ++ 58 :: cs ∧ 58 ∉ w ∧ yylex { bstrflag := true } pos rest =
      ⟨.string ⟨w,bufSize (w.length + 1)⟩,{ bstrflag := true, bdone := true },pos + w.length,58 :: cs⟩ := by
  by_cases hcolon : 58 ∈ rest
  · obtain ⟨w,cs,rfl,hw⟩ := List.eq_append_cons_of_mem hcolon
    by_cases hnil : w = []
    · subst hnil
      exact .inr (.inl rfl)
    · exact .inr (.inr ⟨w,cs,rfl,hw,yylex_key hnil hw⟩)
  · exact .inl (yylex_eof rfl (skips_key hcolon))

/-- Behind the number of a string the lexer looks for a colon, unless the string is over
before. -/
theorem lexLoop_colon {n : ℤ} (h : (lexLoop ⟨n,true,true,false⟩ buf (bufSize buf.length) pos rest).token = .colon) :
    ∃ w, rest = w ++ 58 :: (lexLoop ⟨n,true,true,false⟩ buf (bufSize buf.length) pos rest).rest ∧ 58 ∉ w ∧
      ∀ i, buf.length < i → i ≤ buf.length + w.length → (i : ℤ) ≠ n := by
  have hdue : (⟨n,true,true,false⟩ : Lexer).emptyDue = false := decide_eq_false fun h => Bool.false_ne_true h.2.2
  induction rest generalizing buf pos with
  | nil =>
    rw [lexLoop_nil hdue] at h
    cases h
  | cons c cs ih =>
    rw [lexLoop_cons hdue] at h ⊢
    by_cases hc : c = 58
    · subst hc
      refine ⟨[],rfl,List.not_mem_nil,?_⟩
      intro i hlt hle
      rw [List.length_nil] at hle
      omega
    · have hkeeps : (⟨n,true,true,false⟩ : Lexer).keeps c = true := decide_eq_true (.inr (.inl ⟨hc,rfl⟩))
      rw [if_pos hkeeps] at h ⊢
      by_cases hfull : (buf.length + 1 : ℤ) = n
      · rw [if_pos ⟨hfull,rfl⟩] at h
        cases h
      · rw [if_neg (fun h => hfull h.1)] at h ⊢
        obtain ⟨w,hw,hcolon,hshort⟩ := ih h
        refine ⟨c :: w,by rw [List.cons_append,← hw],?_,?_⟩
        · rintro (_ | ⟨_,h⟩)
          · exact hc rfl
          · exact hcolon h
        · intro i hlt hle
          rw [List.length_append,List.length_singleton] at hshort
          rw [List.length_cons] at hle
          by_cases hi : i = buf.length + 1
          · subst hi
            rw [Nat.cast_add,Nat.cast_one]
            exact hfull
          · exact hshort i (by omega) (by omega)

/-- Behind the colon everything is content. -/
theorem lexLoop_content {n : ℤ} {v : CharBuf}
    (h : (lexLoop ⟨n,true,false,true⟩ buf (bufSize buf.length) pos rest).token = .string v) :
    ∃ w, rest = w ++ (lexLoop ⟨n,true,false,true⟩ buf (bufSize buf.length) pos rest).rest ∧ v.text = buf ++ w := by
  by_cases hdue : (⟨n,true,false,true⟩ : Lexer).emptyDue = true
  · rw [lexLoop_due hdue] at h ⊢
    cases h
    exact ⟨[],rfl,(List.append_nil _).symm⟩
  rw [Bool.not_eq_true] at hdue
  induction rest generalizing buf pos with
  | nil =>
    rw [lexLoop_nil hdue] at h
    cases h
  | cons c cs ih =>
    have hkeeps : (⟨n,true,false,true⟩ : Lexer).keeps c = true := by
      apply decide_eq_true
      by_cases hc : c = 58
      · exact .inl ⟨hc,rfl,rfl⟩
      · exact .inr (.inl ⟨hc,rfl⟩)
    rw [lexLoop_cons hdue,if_pos hkeeps] at h ⊢
    split at h
    · rename_i hfull
      rw [if_pos hfull]
      cases h
      exact ⟨[c],rfl,rfl⟩
    · rename_i hfull
      rw [if_neg hfull]
      obtain ⟨w,hw,hv⟩ := ih h
      refine ⟨c :: w,by rw [List.cons_append,← hw],?_⟩
      rw [hv,List.append_assoc,List.singleton_append]

theorem yylex_colon {n : ℤ} (h : (yylex ⟨n,true,true,false⟩ pos rest).token = .colon) :
    ∃ w, rest = w ++ 58 :: (yylex ⟨n,true,true,false⟩ pos rest).rest ∧ 58 ∉ w ∧ (n ≤ 0 ∨ (w.length : ℤ) < n) := by
  obtain ⟨w,hw,hcolon,hshort⟩ := lexLoop_colon h
  refine ⟨w,hw,hcolon,?_⟩
  by_contra hn
  rw [List.length_nil,Nat.zero_add] at hshort
  exact hshort n.toNat (by omega) (by omega) (by omega)

theorem yylex_string {n : ℤ} {v : CharBuf} (h : (yylex ⟨n,true,false,true⟩ pos rest).token = .string v) :
    rest = v.text ++ (yylex ⟨n,true,false,true⟩ pos rest).rest ∧ (v.text.length : ℤ) = n := by
  obtain ⟨w,hw,hv⟩ := lexLoop_content h
  rw [List.nil_append] at hv
  refine ⟨by rw [hv]; exact hw,?_⟩
  have has : LexedAs ⟨n,true,false,true⟩ (yylex ⟨n,true,false,true⟩ pos rest).token _ := lexLoop_as (fun _ => rfl)
  rw [h] at has
  rcases has with hnumber | hcontent
  · rcases hnumber.lex with ⟨hcdone,-⟩ | ⟨hflag,-⟩
    · cases hcdone
    · cases hflag
  · exact hcontent.length

end Lexing

section Concat
variable {d : ℕ} {x : Spelled} {k : SpelledStr}

theorem bytesAll_concat (xs : List Spelled) : bytesAll (xs ++ [x]) = bytesAll xs ++ x.bytes := by
  induction xs with
  | nil => exact List.append_nil _
  | cons y ys ih => rw [List.cons_append,bytesAll,ih,bytesAll,List.append_assoc]

theorem okAll_concat {xs : List Spelled} (h : OkAll d xs) (hx : x.Ok d) : OkAll d (xs ++ [x]) := by
  induction xs with
  | nil => exact ⟨hx,trivial⟩
  | cons y ys ih => exact ⟨h.1,ih h.2⟩

theorem bytesEntries_concat (es : List (SpelledStr × Spelled)) :
    bytesEntries (es ++ [(k,x)]) = bytesEntries es ++ (k.bytes ++ x.bytes) := by
  induction es with
  | nil => exact congrArg (k.bytes ++ ·) (List.append_nil _)
  | cons e es ih =>
    obtain ⟨l,y⟩ := e
    rw [List.cons_append,bytesEntries,ih,bytesEntries,List.append_assoc,List.append_assoc]

theorem okLater_concat {es : List (SpelledStr × Spelled)} (h : OkLater d es) (hk : k.Later) (hx : x.Ok d) :
    OkLater d (es ++ [(k,x)]) := by
  induction es with
  | nil => exact ⟨hk,hx,trivial⟩
  | cons e es ih => exact ⟨h.1,h.2.1,ih h.2.2⟩

theorem okEntries_concat {es : List (SpelledStr × Spelled)} (h : OkEntries d es) (hk : k.Later) (hx : x.Ok d) :
    OkEntries d (es ++ [(k,x)]) := by
  cases es with
  | nil => exact h.elim
  | cons e es => exact ⟨h.1,h.2.1,okLater_concat h.2.2 hk hx⟩

end Concat

/-- What the symbols of a stack stand for: the spellings of the values that are complete, and
the starts of the containers that are open. -/
inductive Open : List Item → ℕ → Bytes → Prop
  | bencode {xs : List Spelled} (hxs : OkAll 15 xs) : Open [.bencode] 0 (bytesAll xs)
  | listMark {st : List Item} {k : ℕ} {w junk : Bytes} (h : Open st k w) (hst : Hungry st) (hk : k < 15)
      (hjunk : ∀ c ∈ junk, plainChar c = true) : Open (.listMark :: st) (k + 1) (w ++ (junk ++ [108]))
  | listEntries {st : List Item} {k : ℕ} {w : Bytes} {xs : List Spelled} (first : Node) (h : Open (.listMark :: st) k w)
      (hne : xs ≠ []) (hxs : OkAll (15 - k) xs) : Open (.listEntries first :: .listMark :: st) k (w ++ bytesAll xs)
  | dictMark {st : List Item} {k : ℕ} {w junk : Bytes} (h : Open st k w) (hst : Hungry st) (hk : k < 15)
      (hjunk : ∀ c ∈ junk, plainChar c = true) : Open (.dictMark :: st) (k + 1) (w ++ (junk ++ [100]))
  | dictEntries {st : List Item} {k : ℕ} {w : Bytes} {es : List (SpelledStr × Spelled)} (first : Node)
      (h : Open (.dictMark :: st) k w) (hes : OkEntries (15 - k) es) :
      Open (.dictEntries first :: .dictMark :: st) k (w ++ bytesEntries es)
  | firstKey {st : List Item} {k : ℕ} {w : Bytes} {s : SpelledStr} (node : Node) (h : Open (.dictMark :: st) k w)
      (hs : s.First) : Open (.key node :: .dictMark :: st) k (w ++ s.bytes)
  | laterKey {st : List Item} {k : ℕ} {w : Bytes} {s : SpelledStr} (node first : Node)
      (h : Open (.dictEntries first :: st) k w) (hs : s.Later) :
        Open (.key node :: .dictEntries first :: st) k (w ++ s.bytes)

/-- The text of a string's number, by the stack it is read on and the character behind it. -/
inductive Starts : List Item → Bytes → UInt8 → Prop
  | first {st : List Item} {text : Bytes} (htext : 58 ∉ text) : Starts (.dictMark :: st) text 58
  | later {st : List Item} {text : Bytes} {c : UInt8} (hst : Hungry st ∨ ∃ first st', st = .dictEntries first :: st')
      (htext : ∀ b ∈ text, plainChar b = true) (hc : c = 58 ∨ c = 101) : Starts st text c

/-- The bytes behind a stack with a token of an unfinished value on top, and those that are left. -/
inductive Taken : List Item → ℕ → Bytes → Bytes → Prop
  | value {st : List Item} {k : ℕ} {w rest : Bytes} (h : Open st k w) : Taken st k w rest
  | intStart {st : List Item} {k : ℕ} {w junk rest : Bytes} (h : Open st k w) (hst : Hungry st)
      (hjunk : ∀ c ∈ junk, plainChar c = true) : Taken (.intStart :: st) k (w ++ (junk ++ [105])) rest
  | intNumber {st : List Item} {k : ℕ} {w junk text rest : Bytes} {c : UInt8} {n : ℤ} (h : Open st k w)
    (hst : Hungry st)
      (hjunk : ∀ c ∈ junk, plainChar c = true) (htext : ∀ c ∈ text, plainChar c = true) (hn : numberOf text = some n)
      (hc : c = 58 ∨ c = 101) : Taken (.intNumber n :: .intStart :: st) k (w ++ (junk ++ 105 :: text)) (c :: rest)
  | bstrflag {st : List Item} {k : ℕ} {w rest : Bytes} (h : Open (.dictMark :: st) k w) :
      Taken (.bstrflag :: .dictMark :: st) k w rest
  | strNumber {st : List Item} {k : ℕ} {w text rest : Bytes} {c : UInt8} {n : ℤ} (h : Open st k w)
    (hs : Starts st text c)
      (hn : numberOf text = some n) : Taken (.strNumber n :: .bstrflag :: st) k (w ++ text) (c :: rest)
  | colon {st : List Item} {k : ℕ} {w text rest : Bytes} {c : UInt8} {n : ℤ} {gap : Option Bytes} (h : Open st k w)
      (hs : Starts st text c) (hn : numberOf text = some n) (hc : c = 58 → gap = none)
      (hgap : ∀ u, gap = some u → 58 ∉ u ∧ (n ≤ 0 ∨ (u.length : ℤ) + 1 < n)) :
      Taken (.colon :: .strNumber n :: .bstrflag :: st) k
        (w ++ (text ++ (SpelledStr.mk text gap []).gapBytes ++ [58])) rest

def Fed (st : List Item) (d : ℕ) (x : Spelled) : Prop :=
  match st with
  | .dictMark :: _ => ∃ s, x = .str s ∧ s.First
  | .dictEntries _ :: _ => ∃ s, x = .str s ∧ s.Later
  | _ => x.Ok d

section Reductions
variable {lex : Lexer} {bs : List Node} {root node : Node} {st : List Item} {pos k : ℕ} {rest w : Bytes} {p' : Parser}
  {x : Spelled}

theorem Hungry.fed (hst : Hungry st) {d : ℕ} (hx : x.Ok d) : Fed st d x := by
  cases hst with
  | bencode => exact hx
  | listMark => exact hx
  | listEntries => exact hx
  | key => exact hx

theorem Acted.of_inl {α : Type} {y : Except Halt α} {f : α → Acted} (h : Acted.of y f = .inl p') :
    ∃ a, y = .ok a ∧ f a = .inl p' := by
  cases y with
  | error e => cases h
  | ok a => exact ⟨a,rfl,h⟩

theorem bencStackAdd_length {bs bs' : List Node} (h : bencStackAdd node bs = .ok bs') : bs'.length = bs.length := by
  cases bs with
  | nil => cases h
  | cons top bs =>
    cases h
    rfl

/-- A value is complete. -/
theorem reduceValue_open (h : Open st k w) (hk : bs.length = k) (hx : Fed st (15 - k) x)
    (hp : reduceValue ⟨lex,bs,root,st,pos,rest⟩ node = .inl p') :
    p'.rest = rest ∧ Open p'.stack p'.bstack.length (w ++ x.bytes) := by
  cases h with
  | bencode hxs =>
    cases hp
    refine ⟨rfl,?_⟩
    have hopen := Open.bencode (okAll_concat hxs hx)
    rw [bytesAll_concat] at hopen
    rw [hk]
    exact hopen
  | listMark h hst hlt hjunk =>
    cases hp
    refine ⟨rfl,?_⟩
    have hopen := Open.listEntries node (.listMark h hst hlt hjunk) (List.cons_ne_nil x []) ⟨hx,trivial⟩
    rw [bytesAll,bytesAll,List.append_nil] at hopen
    rw [hk]
    exact hopen
  | listEntries first h hne hxs =>
    obtain ⟨bs',hadd,hp⟩ := Acted.of_inl hp
    cases hp
    refine ⟨rfl,?_⟩
    have hopen := Open.listEntries first h (List.append_ne_nil_of_left_ne_nil hne _) (okAll_concat hxs hx)
    rw [bytesAll_concat,← List.append_assoc] at hopen
    rw [bencStackAdd_length hadd,hk]
    exact hopen
  | dictMark h hst hlt hjunk =>
    obtain ⟨s,rfl,hs⟩ := hx
    cases hp
    refine ⟨rfl,?_⟩
    rw [hk]
    exact .firstKey node (.dictMark h hst hlt hjunk) hs
  | dictEntries first h hes =>
    obtain ⟨s,rfl,hs⟩ := hx
    cases hp
    refine ⟨rfl,?_⟩
    rw [hk]
    exact .laterKey node first (.dictEntries first h hes) hs
  | firstKey key h hs =>
    cases key
    case string len key =>
      cases hp
      refine ⟨rfl,?_⟩
      have hes : OkEntries (15 - k) [(_,x)] := ⟨hs,hx,trivial⟩
      have hopen := Open.dictEntries (.entry key node) h hes
      rw [bytesEntries,bytesEntries,List.append_nil,← List.append_assoc] at hopen
      rw [hk]
      exact hopen
    all_goals cases hp
  | laterKey key first h hs =>
    cases key
    case string len key =>
      obtain ⟨bs',hadd,hp⟩ := Acted.of_inl hp
      cases hp
      refine ⟨rfl,?_⟩
      cases h with
      | dictEntries _ h hes =>
        have hopen := Open.dictEntries first h (okEntries_concat hes hs hx)
        rw [bytesEntries_concat,← List.append_assoc,← List.append_assoc] at hopen
        rw [bencStackAdd_length hadd,hk]
        exact hopen
    all_goals cases hp

end Reductions

def Consumes (w rest : Bytes) (p' : Parser) : Prop :=
  ∃ w', w' ++ p'.rest = w ++ rest ∧ Taken p'.stack p'.bstack.length w' p'.rest

section Steps
variable {lex : Lexer} {bs : List Node} {root node : Node} {st : List Item} {pos k : ℕ} {rest w junk text cs : Bytes}
  {c : UInt8} {n : ℤ} {p' : Parser} {x : Spelled}

theorem Open.le (h : Open st k w) : k ≤ 15 := by
  induction h with
  | bencode => exact Nat.zero_le _
  | listMark _ _ hlt => exact hlt
  | dictMark _ _ hlt => exact hlt
  | listEntries _ _ _ _ ih => exact ih
  | dictEntries _ _ _ ih => exact ih
  | firstKey _ _ _ ih => exact ih
  | laterKey _ _ _ _ ih => exact ih

theorem yystep_token {t : Token} (ht : (yylex lex pos rest).token = t)
    (hp : yystep ⟨lex,bs,root,st,pos,rest⟩ = .inl p') :
    yyact ⟨(yylex lex pos rest).lex,bs,root,st,(yylex lex pos rest).pos,(yylex lex pos rest).rest⟩ t = .inl p' := by
  rw [← ht]
  exact hp

theorem reduceNumber_inl {next : ℤ → Item}
    (hp : reduceNumber ⟨lex,bs,root,st,pos,rest⟩ ⟨text,bufSize (text.length + 1)⟩ next = .inl p') :
    ∃ n, numberOf text = some n ∧ p'.stack = next n :: st ∧ p'.bstack = bs ∧ p'.rest = rest := by
  cases hn : numberOf text with
  | none =>
    rw [reduceNumber_abort hn] at hp
    cases hp
  | some n =>
    rw [reduceNumber_of hn] at hp
    cases hp
    exact ⟨n,rfl,rfl,rfl,rfl⟩

/-- The number of a string. -/
theorem string_consumes (h : Open st k w) (hs : Starts st text c) (hk : bs.length = k)
    (hp : reduceNumber ⟨lex,bs,root,.bstrflag :: st,pos,c :: cs⟩ ⟨text,bufSize (text.length + 1)⟩ .strNumber =
      .inl p') :
    Consumes w (text ++ c :: cs) p' := by
  obtain ⟨n,hn,hstack,hbstack,hrest⟩ := reduceNumber_inl hp
  refine ⟨w ++ text,by rw [hrest,List.append_assoc],?_⟩
  rw [hstack,hbstack,hrest,hk]
  exact .strNumber h hs hn

/-- A container or an integer starts. -/
theorem start_consumes (h : Open st k w) (hst : Hungry st) (hk : bs.length = k) (hjunk : ∀ c ∈ junk, plainChar c = true)
    {t : Token} (ht : c = 105 ∧ t = .intStart ∨ c = 100 ∧ t = .dictStart ∨ c = 108 ∧ t = .listStart)
    (hp : shiftStart ⟨{},bs,root,st,pos,cs⟩ t = .inl p') : Consumes w (junk ++ c :: cs) p' := by
  have hpush {new : Node} {bs' : List Node} (h : bencStackPush bs new = .ok bs') : bs' = new :: bs ∧
      bs.length ≠ 15 := by
    unfold bencStackPush at h
    split at h
    · cases h
    · rename_i hne
      cases h
      exact ⟨rfl,hne⟩
  have hlen : w ++ (junk ++ [c]) ++ cs = w ++ (junk ++ c :: cs) := by simp
  rcases ht with ⟨rfl,rfl⟩ | ⟨rfl,rfl⟩ | ⟨rfl,rfl⟩
  · cases hp
    refine ⟨_,hlen,?_⟩
    rw [hk]
    exact .intStart h hst hjunk
  · obtain ⟨bs',hb,hp⟩ := Acted.of_inl hp
    obtain ⟨rfl,hne⟩ := hpush hb
    cases hp
    refine ⟨_,hlen,.bstrflag ?_⟩
    show Open _ (bs.length + 1) _
    rw [hk] at hne ⊢
    exact .dictMark h hst (lt_of_le_of_ne h.le hne) hjunk
  · obtain ⟨bs',hb,hp⟩ := Acted.of_inl hp
    obtain ⟨rfl,hne⟩ := hpush hb
    cases hp
    refine ⟨_,hlen,.value ?_⟩
    show Open _ (bs.length + 1) _
    rw [hk] at hne ⊢
    exact .listMark h hst (lt_of_le_of_ne h.le hne) hjunk

theorem value_consumes {spelled : Bytes} (h : Open st k w) (hk : bs.length = k) (hx : Fed st (15 - k) x) {w' : Bytes}
    (hw : w ++ x.bytes ++ cs = w' ++ spelled) (hp : reduceValue ⟨lex,bs,root,st,pos,cs⟩ node = .inl p') :
    Consumes w' spelled p' := by
  obtain ⟨hrest,hopen⟩ := reduceValue_open h hk hx hp
  refine ⟨w ++ x.bytes,by rw [hrest,hw],.value hopen⟩

/-- A list ends. -/
theorem list_consumes {first : Node} {len : ℕ} (h : Open (.listEntries first :: st) k w) (hk : bs.length = k)
    (hp : yyact ⟨{},bs,root,.listEntries first :: st,pos,cs⟩ (.stop len) = .inl p') : Consumes w (101 :: cs) p' := by
  cases h with
  | @listEntries st _ w xs _ h hne hxs =>
    cases h with
    | @listMark _ k w junk h hst hlt hjunk =>
      obtain ⟨⟨node,bs'⟩,hpop,hp⟩ := Acted.of_inl hp
      cases bs with
      | nil => cases hpop
      | cons top bs =>
        cases hpop
        rw [List.length_cons] at hk
        have hdepth : 15 - k = 15 - (k + 1) + 1 := by omega
        have hx : (Spelled.list junk xs).Ok (15 - k) := by
          rw [hdepth]
          exact ⟨hjunk,hne,hxs⟩
        refine value_consumes h (Nat.succ.inj hk) (hst.fed hx) ?_ hp
        simp [Spelled.bytes]

/-- A dictionary ends. -/
theorem dict_consumes {first : Node} {len : ℕ} (h : Open (.dictEntries first :: st) k w) (hk : bs.length = k)
    (hp : yyact ⟨{},bs,root,.dictEntries first :: st,pos,cs⟩ (.stop len) = .inl p') : Consumes w (101 :: cs) p' := by
  cases h with
  | @dictEntries st _ w es _ h hes =>
    cases h with
    | @dictMark _ k w junk h hst hlt hjunk =>
      obtain ⟨⟨node,bs'⟩,hpop,hp⟩ := Acted.of_inl hp
      cases bs with
      | nil => cases hpop
      | cons top bs =>
        cases hpop
        rw [List.length_cons] at hk
        have hdepth : 15 - k = 15 - (k + 1) + 1 := by omega
        have hx : (Spelled.dict junk es).Ok (15 - k) := by
          rw [hdepth]
          exact ⟨hjunk,hes⟩
        refine value_consumes h (Nat.succ.inj hk) (hst.fed hx) ?_ hp
        simp [Spelled.bytes]

/-- A turn where a value can start. -/
theorem hungry_consumes (h : Open st k w) (hst : Hungry st) (hk : bs.length = k)
    (hp : yystep ⟨{},bs,root,st,pos,rest⟩ = .inl p') : Consumes w rest p' := by
  rcases @yylex_calm pos rest with ⟨-,heof⟩ | ⟨junk,c,cs,rfl,hjunk,⟨hc,-,hlex⟩ | ⟨-,hcolon⟩ | ⟨rfl,rfl,hlex⟩ | hstart⟩
  · have hact := yystep_token heof hp
    cases hst <;> cases hact
  · rw [yystep_of hlex,yyact_string (.inl hst)] at hp
    exact string_consumes h (.later (.inl hst) hjunk hc) hk hp
  · have hact := yystep_token hcolon hp
    cases hst <;> cases hact
  · rw [yystep_of hlex] at hp
    cases hst with
    | listEntries first st => exact list_consumes h hk hp
    | bencode => cases hp
    | listMark => cases hp
    | key => cases hp
  · rcases hstart with ⟨rfl,hlex⟩ | ⟨rfl,hlex⟩ | ⟨rfl,hlex⟩
    · rw [yystep_of hlex,yyact_start hst (.inl rfl)] at hp
      exact start_consumes h hst hk hjunk (.inl ⟨rfl,rfl⟩) hp
    · rw [yystep_of hlex,yyact_start hst (.inr (.inr rfl))] at hp
      exact start_consumes h hst hk hjunk (.inr (.inl ⟨rfl,rfl⟩)) hp
    · rw [yystep_of hlex,yyact_start hst (.inr (.inl rfl))] at hp
      exact start_consumes h hst hk hjunk (.inr (.inr ⟨rfl,rfl⟩)) hp

/-- A turn where a later key can start. -/
theorem entries_consumes {first : Node} (h : Open (.dictEntries first :: st) k w) (hk : bs.length = k)
    (hp : yystep ⟨{},bs,root,.dictEntries first :: st,pos,rest⟩ = .inl p') : Consumes w rest p' := by
  rcases @yylex_calm pos rest with ⟨-,heof⟩ | ⟨junk,c,cs,rfl,hjunk,⟨hc,-,hlex⟩ | ⟨-,hcolon⟩ | ⟨rfl,rfl,hlex⟩ | hstart⟩
  · cases yystep_token heof hp
  · rw [yystep_of hlex] at hp
    exact string_consumes h (.later (.inr ⟨first,st,rfl⟩) hjunk hc) hk hp
  · cases yystep_token hcolon hp
  · rw [yystep_of hlex] at hp
    exact dict_consumes h hk hp
  · rcases hstart with ⟨-,hlex⟩ | ⟨-,hlex⟩ | ⟨-,hlex⟩
    all_goals
      rw [yystep_of hlex] at hp
      cases hp

/-- The number of an integer. -/
theorem intStart_consumes (h : Open st k w) (hst : Hungry st) (hk : bs.length = k)
    (hjunk : ∀ c ∈ junk, plainChar c = true)
    (hp : yystep ⟨{},bs,root,.intStart :: st,pos,rest⟩ = .inl p') : Consumes (w ++ (junk ++ [105])) rest p' := by
  rcases @yylex_calm pos rest with ⟨-,heof⟩ | ⟨text,c,cs,rfl,htext,⟨hc,-,hlex⟩ | ⟨-,hcolon⟩ | ⟨rfl,rfl,hlex⟩ | hstart⟩
  · cases yystep_token heof hp
  · rw [yystep_of hlex] at hp
    obtain ⟨n,hn,hstack,hbstack,hrest⟩ := reduceNumber_inl hp
    refine ⟨w ++ (junk ++ 105 :: text),by rw [hrest]; simp,?_⟩
    rw [hstack,hbstack,hrest,hk]
    exact .intNumber h hst hjunk htext hn hc
  · cases yystep_token hcolon hp
  · rw [yystep_of hlex] at hp
    cases hp
  · rcases hstart with ⟨-,hlex⟩ | ⟨-,hlex⟩ | ⟨-,hlex⟩
    all_goals
      rw [yystep_of hlex] at hp
      cases hp

/-- The end of an integer. -/
theorem intNumber_consumes (h : Open st k w) (hst : Hungry st) (hk : bs.length = k)
    (hjunk : ∀ c ∈ junk, plainChar c = true)
    (htext : ∀ c ∈ text, plainChar c = true) (hn : numberOf text = some n) (hc : c = 58 ∨ c = 101)
    (hp : yystep ⟨{ bdone := true },bs,root,.intNumber n :: .intStart :: st,pos,c :: cs⟩ = .inl p') :
    Consumes (w ++ (junk ++ 105 :: text)) (c :: cs) p' := by
  rcases hc with rfl | rfl
  · cases hp
  · rw [yystep_of (yylex_stop rfl)] at hp
    have hx : (Spelled.int junk text).Ok (15 - k) := ⟨hjunk,htext,by rw [hn]; rfl⟩
    refine value_consumes h hk (hst.fed hx) ?_ hp
    simp [Spelled.bytes]

theorem bstrflag_consumes (h : Open (.dictMark :: st) k w) (hk : bs.length = k)
    (hp : yystep ⟨{ bstrflag := true },bs,root,.bstrflag :: .dictMark :: st,pos,rest⟩ = .inl p') :
    Consumes w rest p' := by
  rcases @yylex_firstKey pos rest with heof | hcolon | ⟨text,cs,rfl,htext,hlex⟩
  · cases yystep_token heof hp
  · cases yystep_token hcolon hp
  · rw [yystep_of hlex] at hp
    exact string_consumes h (.first htext) hk hp

/-- The colon of a string. -/
theorem strNumber_consumes (h : Open st k w) (hs : Starts st text c) (hk : bs.length = k) (hn : numberOf text = some n)
    (hp : yystep ⟨⟨n,true,true,false⟩,bs,root,.strNumber n :: .bstrflag :: st,pos,c :: cs⟩ = .inl p') :
    Consumes (w ++ text) (c :: cs) p' := by
  have hact := yystep_token rfl hp
  cases ht : (yylex ⟨n,true,true,false⟩ pos (c :: cs)).token with
  | colon =>
    rw [ht] at hact
    obtain ⟨u,hu,hcolon,hshort⟩ := yylex_colon ht
    generalize yylex ⟨n,true,true,false⟩ pos (c :: cs) = l at hact hu
    cases hact
    rw [hu]
    cases u with
    | nil =>
      obtain ⟨rfl,-⟩ := List.cons.inj hu
      refine ⟨w ++ (text ++ [] ++ [58]),by simp,?_⟩
      show Taken _ bs.length _ _
      rw [hk]
      exact .colon h hs hn (fun _ => rfl) (fun _ hgap => by cases hgap)
    | cons b u =>
      obtain ⟨rfl,-⟩ := List.cons.inj hu
      have hb : c = 101 := by
        cases hs with
        | first => exact absurd List.mem_cons_self hcolon
        | later _ _ hc =>
          rcases hc with rfl | rfl
          · exact absurd List.mem_cons_self hcolon
          · rfl
      subst hb
      refine ⟨w ++ (text ++ 101 :: u ++ [58]),by simp,?_⟩
      show Taken _ bs.length _ _
      rw [hk]
      refine @Taken.colon st k w text _ 101 n (some u) h hs hn (fun h => by cases h) ?_
      rintro _ ⟨⟩
      refine ⟨fun hmem => hcolon (List.mem_cons_of_mem _ hmem),?_⟩
      rw [List.length_cons] at hshort
      exact_mod_cast hshort
  | _ =>
    rw [ht] at hact
    cases hact

/-- The content of a string. -/
theorem colon_consumes {gap : Option Bytes} (h : Open st k w) (hs : Starts st text c) (hk : bs.length = k)
    (hn : numberOf text = some n) (hc : c = 58 → gap = none)
    (hgap : ∀ u, gap = some u → 58 ∉ u ∧ (n ≤ 0 ∨ (u.length : ℤ) + 1 < n))
    (hp : yystep ⟨⟨n,true,false,true⟩,bs,root,.colon :: .strNumber n :: .bstrflag :: st,pos,cs⟩ = .inl p') :
    Consumes (w ++ (text ++ (SpelledStr.mk text gap []).gapBytes ++ [58])) cs p' := by
  have hact := yystep_token rfl hp
  cases ht : (yylex ⟨n,true,false,true⟩ pos cs).token with
  | string v =>
    rw [ht] at hact
    obtain ⟨hcs,rfl⟩ := yylex_string ht
    generalize yylex ⟨v.text.length,true,false,true⟩ pos cs = l at hact hcs
    have hok : (SpelledStr.mk text gap v.text).Ok := by
      refine ⟨hn,?_⟩
      intro u hu
      obtain ⟨hcolon,hshort⟩ := hgap u hu
      refine ⟨hcolon,?_⟩
      show v.text = [] ∨ u.length + 1 < v.text.length
      rcases hshort with hle | hlt
      · exact .inl (List.length_eq_zero_iff.mp (by omega))
      · exact .inr (by omega)
    have hfed : Fed st (15 - k) (.str ⟨text,gap,v.text⟩) := by
      cases hs with
      | first htext => exact ⟨_,rfl,hok,htext,hc rfl⟩
      | later hst htext =>
        rcases hst with hst | ⟨first,st',rfl⟩
        · exact hst.fed ⟨hok,htext⟩
        · exact ⟨_,rfl,hok,htext⟩
    refine value_consumes h hk hfed ?_ hact
    rw [hcs]
    simp [Spelled.bytes,SpelledStr.bytes,SpelledStr.gapBytes]
  | _ =>
    rw [ht] at hact
    cases hact

theorem yystep_consumes {p : Parser} (hf : p.Fits) (h : Taken p.stack p.bstack.length w p.rest)
    (hp : yystep p = .inl p') :
    Consumes w p.rest p' := by
  obtain ⟨lex,bs,root,st,pos,rest⟩ := p
  have hmode : Mode st lex := hf.mode
  dsimp only at h hp ⊢
  generalize hk : bs.length = k at h
  cases h with
  | value h =>
    cases h with
    | bencode hxs =>
      cases hmode
      exact hungry_consumes (.bencode hxs) (.bencode _) hk hp
    | listMark h hst hlt hjunk =>
      cases hmode
      exact hungry_consumes (.listMark h hst hlt hjunk) (.listMark _) hk hp
    | listEntries first h hne hxs =>
      cases hmode
      exact hungry_consumes (.listEntries first h hne hxs) (.listEntries _ _) hk hp
    | dictMark h hst hlt hjunk =>
      have hact := yystep_token rfl hp
      cases (yylex lex pos rest).token <;> cases hact
    | dictEntries first h hes =>
      cases hmode
      exact entries_consumes (.dictEntries first h hes) hk hp
    | firstKey node h hs =>
      cases hmode
      exact hungry_consumes (.firstKey node h hs) (.key _ _) hk hp
    | laterKey node first h hs =>
      cases hmode
      exact hungry_consumes (.laterKey node first h hs) (.key _ _) hk hp
  | intStart h hst hjunk =>
    cases hmode
    exact intStart_consumes h hst hk hjunk hp
  | intNumber h hst hjunk htext hn hc =>
    cases hmode
    exact intNumber_consumes h hst hk hjunk htext hn hc hp
  | bstrflag h =>
    cases hmode
    exact bstrflag_consumes h hk hp
  | strNumber h hs hn =>
    cases hmode
    exact strNumber_consumes h hs hk hn hp
  | colon h hs hn hc hgap =>
    cases hmode
    exact colon_consumes h hs hk hn hc hgap hp

/-- Only the end of the input between two values of the file accepts. -/
theorem yyact_accept {p : Parser} {t : Token} {bstack : List Node} (h : yyact p t = .inr (.accept root lex bstack)) :
    t = .eof ∧ ∃ st, p.stack = .bencode :: st := by
  have hof {α : Type} {y : Except Halt α} {f : α → Acted} (hf : ∀ a, f a ≠ .inr (.accept root lex bstack)) :
      Acted.of y f ≠ .inr (.accept root lex bstack) := by
    cases y with
    | error e => exact fun h => by cases h
    | ok a => exact hf a
  have hentry (q : Parser) (node : Node) : reduceEntry q node ≠ .inr (.accept root lex bstack) := by
    unfold reduceEntry
    split
    · exact fun h => by cases h
    · exact hof fun _ h => by cases h
    · exact fun h => by cases h
  have hvalue (q : Parser) (node : Node) : reduceValue q node ≠ .inr (.accept root lex bstack) := by
    unfold reduceValue
    split
    case h_3 => exact hof fun _ h => by cases h
    case h_6 => exact hentry _ _
    all_goals exact fun h => by cases h
  have hnumber (q : Parser) (v : CharBuf) (next : ℤ → Item) : reduceNumber q v next ≠
      .inr (.accept root lex bstack) := by
    apply hof
    intro text
    dsimp only
    split
    · exact fun h => by cases h
    · exact fun h => by cases h
  have hshift (q : Parser) (t : Token) : shiftStart q t ≠ .inr (.accept root lex bstack) := by
    unfold shiftStart
    split
    case h_2 => exact hof fun _ h => by cases h
    case h_3 => exact hof fun _ h => by cases h
    all_goals exact fun h => by cases h
  unfold yyact at h
  split at h
  case h_1 st hst => exact ⟨rfl,st,hst⟩
  case h_8 => cases h
  case h_9 => exact absurd h (hvalue _ _)
  case h_11 => exact absurd h (hvalue _ _)
  case h_12 => exact absurd h (hof fun _ => hvalue _ _)
  case h_13 => exact absurd h (hof fun _ => hvalue _ _)
  case h_18 => cases h
  all_goals first | exact absurd h (hnumber _ _ _) | exact absurd h (hshift _ _)

/-- A parse that succeeds has read its values and dropped the rest. -/
theorem accept_taken {p : Parser} {bstack : List Node} (hf : p.Fits) (h : Taken p.stack p.bstack.length w p.rest)
    (hp : yystep p = .inr (.accept root lex bstack)) :
    ∃ xs, w = bytesAll xs ∧ OkAll 15 xs ∧ ∀ c ∈ p.rest, plainChar c = true := by
  obtain ⟨lex',bs,root',st,pos,rest⟩ := p
  have hmode : Mode st lex' := hf.mode
  obtain ⟨heof,st,hst⟩ := yyact_accept hp
  dsimp only at hst
  subst hst
  cases hmode
  dsimp only at h ⊢
  have hplain : ∀ c ∈ rest, plainChar c = true := by
    rcases @yylex_calm pos rest with
      ⟨hplain,-⟩ | ⟨w,c,cs,-,-,⟨-,-,hlex⟩ | ⟨-,hcolon⟩ | ⟨-,-,hlex⟩ | ⟨-,hlex⟩ | ⟨-,hlex⟩ | ⟨-,hlex⟩⟩
    · exact hplain
    · rw [hlex] at heof
      cases heof
    · rw [hcolon] at heof
      cases heof
    all_goals
      rw [hlex] at heof
      cases heof
  generalize bs.length = k at h
  cases h with
  | value h =>
    cases h with
    | bencode hxs => exact ⟨_,rfl,hxs,hplain⟩

theorem Taken.ends {p : Parser} {bstack : List Node} (hf : p.Fits) (h : Taken p.stack p.bstack.length w p.rest)
    (hp : Ends yystep p (.accept root lex bstack)) :
    ∃ xs junk, w ++ p.rest = bytesAll xs ++ junk ∧ OkAll 15 xs ∧ ∀ c ∈ junk, plainChar c = true := by
  obtain ⟨q,hq,hstop⟩ := hp
  have hinv : q.Fits ∧ ∃ w', w' ++ q.rest = w ++ p.rest ∧ Taken q.stack q.bstack.length w' q.rest := by
    apply hq.invariant (I := fun q => q.Fits ∧ ∃ w', w' ++ q.rest = w ++ p.rest ∧
      Taken q.stack q.bstack.length w' q.rest)
    · rintro a b ⟨ha,w',hw',htaken⟩ hab
      have hsound := ha.step
      rw [hab] at hsound
      obtain ⟨w'',hw'',htaken'⟩ := yystep_consumes ha htaken hab
      exact ⟨hsound,w'',hw''.trans hw',htaken'⟩
    · exact ⟨hf,w,rfl,h⟩
  obtain ⟨hfits,w',hw',htaken⟩ := hinv
  obtain ⟨xs,rfl,hok,hplain⟩ := accept_taken hfits htaken hstop
  exact ⟨xs,q.rest,hw'.symm,hok,hplain⟩

end Steps

def Parses (s : Bytes) : Prop := ∃ root lex bstack, bencParseBuf {} [] s = some (.accept root lex bstack)

/-- Spellings of values one after another, and characters that mean nothing behind them. -/
def Lenient (s : Bytes) : Prop :=
  ∃ xs junk, s = bytesAll xs ++ junk ∧ OkAll 15 xs ∧ ∀ c ∈ junk, plainChar c = true

theorem parses_iff_lenient (s : Bytes) : Parses s ↔ Lenient s := by
  constructor
  · rintro ⟨root,lex,bstack,h⟩
    exact Taken.ends (Parser.fits_start s) (.value (@Open.bencode [] trivial)) (bencParseBuf_ends.mp h)
  · rintro ⟨xs,junk,rfl,hok,hjunk⟩
    exact ⟨_,_,_,bencParseBuf_reads hok hjunk⟩

end Unworkable
