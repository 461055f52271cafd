import Mathlib.Data.List.TakeWhile
import Unworkable.Bencode.Reads

/-! # Bencode proper

Bencode as it is meant: nothing in front of a type letter, digits for a number, the colon
right behind the length of a string. The parser reads all of it except what has an empty
list or dictionary in it, a number that does not fit in 64 bits or too many containers in
one another; there it returns no tree.
-/
namespace Unworkable
open Library

def IsDecimal (text : Bytes) : Prop := ∃ ds n, readDecimal ds = some n ∧ (text = ds ∨ text = 45 :: ds)

structure SpelledStr.Formed (s : SpelledStr) : Prop where
  number : readDecimal s.text = some s.content.length
  no_gap : s.gap = none

mutual
def Spelled.Formed : Spelled → Prop
  | .int junk text => junk = [] ∧ IsDecimal text
  | .str s => s.Formed
  | .list junk items => junk = [] ∧ FormedAll items
  | .dict junk entries => junk = [] ∧ FormedEntries entries

def FormedAll : List Spelled → Prop
  | [] => True
  | x :: xs => x.Formed ∧ FormedAll xs

def FormedEntries : List (SpelledStr × Spelled) → Prop
  | [] => True
  | (k,x) :: es => k.Formed ∧ x.Formed ∧ FormedEntries es
end

section Numbers
variable {text : Bytes} {z : ℤ} {c : UInt8}

theorem plainChar_of_isDigit (h : isDigit c = true) : plainChar c = true := by
  apply decide_eq_true
  intro hmem
  simp only [List.mem_cons,List.not_mem_nil,or_false] at hmem
  rcases hmem with rfl | rfl | rfl | rfl | rfl
  all_goals exact absurd h (by decide)

theorem IsDecimal.mem (h : IsDecimal text) (hc : c ∈ text) : c = 45 ∨ isDigit c = true := by
  obtain ⟨ds,n,hds,rfl | rfl⟩ := h
  · exact .inr (isDigit_of_readDecimal hds c hc)
  · rcases List.mem_cons.mp hc with rfl | hc
    · exact .inl rfl
    · exact .inr (isDigit_of_readDecimal hds c hc)

theorem IsDecimal.plain (h : IsDecimal text) : ∀ c ∈ text, plainChar c = true := by
  intro c hc
  rcases h.mem hc with rfl | hd
  · decide
  · exact plainChar_of_isDigit hd

theorem IsDecimal.ne_nil (h : IsDecimal text) : text ≠ [] := by
  obtain ⟨ds,n,hds,rfl | rfl⟩ := h
  · exact readDecimal_ne_nil hds
  · exact List.cons_ne_nil _ _

theorem isDecimal_decimalInt (z : ℤ) : IsDecimal (decimalInt z) := by
  refine ⟨decimal z.natAbs,z.natAbs,readDecimal_decimal _,?_⟩
  unfold decimalInt
  split
  · exact .inr rfl
  · exact .inl rfl

/-- On digits `strtonum` only checks the range. -/
theorem numberOf_eq (h : ∀ c ∈ text, c = 45 ∨ isDigit c = true) (hz : readSigned text = some z) :
    numberOf text = if -9223372036854775808 ≤ z ∧ z ≤ 9223372036854775807 then some z else none := by
  have hzero : text.takeWhile (· ≠ 0) = text := by
    apply List.takeWhile_eq_self_iff.mpr
    intro c hc
    rcases h c hc with rfl | hd
    · decide
    · apply decide_eq_true
      rintro rfl
      exact absurd hd (by decide)
  have hspace : text.dropWhile isSpace = text := by
    apply List.dropWhile_eq_self_iff.mpr
    intro hlen
    rcases h _ (List.getElem_mem hlen) with hc | hd
    · rw [hc]
      decide
    · rw [isSpace_of_isDigit hd]
      exact Bool.false_ne_true
  rw [numberOf,strtonum,hzero,hspace,hz,Option.filter_some]
  simp only [decide_eq_true_eq]

theorem SpelledStr.Formed.digits {s : SpelledStr} (h : s.Formed) : ∀ c ∈ s.text, isDigit c = true :=
  isDigit_of_readDecimal h.number

theorem SpelledStr.Formed.numberOf_text {s : SpelledStr} (h : s.Formed) :
    numberOf s.text = if (s.content.length : ℤ) ≤ 9223372036854775807 then some (s.content.length : ℤ) else none := by
  rw [numberOf_eq (fun c hc => .inr (h.digits c hc)) (readSigned_of_readDecimal h.number)]
  congr 1
  apply propext
  omega

theorem SpelledStr.Formed.ok {s : SpelledStr} (h : s.Formed) (hn : numberOf s.text ≠ none) : s.Ok := by
  refine ⟨?_,fun k hk => absurd hk (by rw [h.no_gap]; exact nofun)⟩
  rw [h.numberOf_text] at hn ⊢
  split
  · rfl
  · rename_i hlong
    rw [if_neg hlong] at hn
    exact absurd rfl hn

theorem SpelledStr.Formed.later {s : SpelledStr} (h : s.Formed) (hn : numberOf s.text ≠ none) : s.Later :=
  ⟨h.ok hn,fun c hc => plainChar_of_isDigit (h.digits c hc)⟩

theorem SpelledStr.Formed.first {s : SpelledStr} (h : s.Formed) (hn : numberOf s.text ≠ none) : s.First := by
  refine ⟨h.ok hn,?_,h.no_gap⟩
  intro hcolon
  exact absurd (h.digits 58 hcolon) (by decide)

theorem SpelledStr.Formed.fits {s : SpelledStr} (h : s.Formed) :
    numberOf s.text ≠ none ↔ s.content.length < 9223372036854775808 := by
  rw [h.numberOf_text]
  split
  · rename_i hle
    exact ⟨fun _ => by omega,fun _ h => by cases h⟩
  · rename_i hlt
    exact ⟨fun h => absurd rfl h,fun h => absurd h (by omega)⟩

theorem SpelledStr.Formed.later_iff {s : SpelledStr} (h : s.Formed) : s.Later ↔
    s.content.length < 9223372036854775808 := by
  rw [← h.fits]
  refine ⟨?_,h.later⟩
  intro hl
  rw [hl.number]
  exact Option.some_ne_none _

theorem SpelledStr.Formed.first_iff {s : SpelledStr} (h : s.Formed) : s.First ↔
    s.content.length < 9223372036854775808 := by
  rw [← h.fits]
  refine ⟨?_,h.first⟩
  intro hf
  rw [hf.number]
  exact Option.some_ne_none _

theorem SpelledStr.Formed.bytes_eq {s : SpelledStr} (h : s.Formed) : s.bytes = s.text ++ 58 :: s.content := by
  rw [bytes,gapBytes,h.no_gap,List.append_nil]

end Numbers

def Refuses (p : Parser) : Prop := Ends yystep p .abort ∨ ∃ msg, Ends yystep p (.halt (.errx msg))

theorem Refuses.head {p q : Parser} (h : yystep p = .inl q) (hq : Refuses q) : Refuses p :=
  hq.imp (.head h) fun ⟨msg,hq⟩ => ⟨msg,.head h hq⟩

theorem Refuses.after {p q : Parser} (h : Reaches yystep p q) (hq : Refuses q) : Refuses p :=
  hq.imp h.ends fun ⟨msg,hq⟩ => ⟨msg,h.ends hq⟩

theorem Refuses.abort {p : Parser} (h : yystep p = .inr .abort) : Refuses p := .inl (.stop h)

/-- From every stack that can take a value and leaves so much of the node stack, the parser
refuses these bytes. -/
def Refused (d : ℕ) (bytes : Bytes) : Prop :=
  ∀ bs root st pos rest, bs.length + d = 15 → Hungry st → Refuses ⟨{},bs,root,st,pos,bytes ++ rest⟩

section Steps
variable {bs : List Node} {root node : Node} {st : List Item} {pos d : ℕ} {rest text : Bytes} {lex : Lexer}

theorem reduceNumber_abort {next : ℤ → Item} (h : numberOf text = none) :
    reduceNumber ⟨lex,bs,root,st,pos,rest⟩ ⟨text,bufSize (text.length + 1)⟩ next = .inr .abort := by
  have hn : strtonum (text.takeWhile (· ≠ 0)) = none := h
  rw [reduceNumber,CharBuf.cString_of_lt (Nat.lt_of_succ_le (le_bufSize _))]
  unfold Acted.of
  dsimp only
  rw [hn]

theorem int_refused (htext : IsDecimal text) (hn : numberOf text = none) : Refused d (Spelled.int [] text).bytes := by
  intro bs root st pos rest _ hst
  have hbytes : (Spelled.int [] text).bytes ++ rest = [] ++ 105 :: (text ++ 101 :: rest) := by simp [Spelled.bytes]
  rw [hbytes]
  have hopen : yystep ⟨{},bs,root,st,pos,[] ++ 105 :: (text ++ 101 :: rest)⟩ =
      .inl ⟨{},bs,root,.intStart :: st,pos + 0 + 1,text ++ 101 :: rest⟩ := by
    rw [yystep_of (yylex_start (.inl ⟨rfl,rfl⟩) (List.forall_mem_nil _)),yyact_start hst (.inl rfl)]
    rfl
  apply Refuses.head hopen
  apply Refuses.abort
  rw [yystep_of (yylex_number (.inr rfl) htext.ne_nil htext.plain)]
  exact reduceNumber_abort hn

/-- A string between two values whose length does not fit. -/
theorem str_refuses {s : SpelledStr} (hst : Hungry st ∨ ∃ first st', st = .dictEntries first :: st') (hs : s.Formed)
    (hn : numberOf s.text = none) : Refuses ⟨{},bs,root,st,pos,s.bytes ++ rest⟩ := by
  rw [hs.bytes_eq,List.append_assoc,List.cons_append]
  apply Refuses.abort
  rw [yystep_of (yylex_number (.inl rfl) (readDecimal_ne_nil hs.number) fun c hc =>
    plainChar_of_isDigit (hs.digits c hc)),
    yyact_string hst]
  exact reduceNumber_abort hn

theorem key_refuses (hne : text ≠ []) (htext : 58 ∉ text) (hn : numberOf text = none) :
    Refuses ⟨{ bstrflag := true },bs,root,.bstrflag :: st,pos,text ++ 58 :: rest⟩ := by
  apply Refuses.abort
  rw [yystep_of (yylex_key hne htext)]
  exact reduceNumber_abort hn

theorem list_empty_refuses : Refuses ⟨{},bs,root,.listMark :: st,pos,101 :: rest⟩ := by
  apply Refuses.abort
  rw [yystep_of (yylex_stop rfl)]
  rfl

theorem numberOf_e (w : Bytes) : numberOf (101 :: w) = none := rfl

/-- The end of an empty dictionary is taken for the start of a number. -/
theorem dict_empty_refuses : Refuses ⟨{ bstrflag := true },bs,root,.bstrflag :: st,pos,101 :: rest⟩ := by
  by_cases hcolon : 58 ∈ rest
  · obtain ⟨u,v,rfl,hu⟩ := List.eq_append_cons_of_mem hcolon
    have hne : (58 : UInt8) ∉ 101 :: u := by
      rintro (_ | ⟨_,h⟩)
      exact hu h
    exact key_refuses (List.cons_ne_nil _ _) hne (numberOf_e u)
  · have hskips : ({ bstrflag := true } : Lexer).Skips 0 (101 :: rest) := by
      apply skips_key
      rintro (_ | ⟨_,h⟩)
      exact hcolon h
    apply Refuses.abort
    unfold yystep
    dsimp only
    rw [yylex_eof rfl hskips]
    rfl

/-- Stacks on which any number of values can follow. -/
inductive Repeats : List Item → ℕ → Prop
  | bencode (st : List Item) (k : ℕ) : Repeats (.bencode :: st) k
  | listMark (st : List Item) (k : ℕ) : Repeats (.listMark :: st) (k + 1)
  | listEntries (first : Node) (st : List Item) (k : ℕ) : Repeats (.listEntries first :: st) (k + 1)

theorem Repeats.hungry {k : ℕ} (h : Repeats st k) : Hungry st := by
  cases h with
  | bencode => exact .bencode _
  | listMark => exact .listMark _
  | listEntries => exact .listEntries _ _

theorem Repeats.reduce (h : Repeats st bs.length) : ∃ bs' root' st', bs'.length = bs.length ∧ Repeats st' bs'.length ∧
    reduceValue ⟨{},bs,root,st,pos,rest⟩ node = .inl ⟨{},bs',root',st',pos,rest⟩ := by
  generalize hk : bs.length = k at h
  cases h with
  | bencode st => exact ⟨bs,_,_,hk,.bencode st _,rfl⟩
  | listMark st k => exact ⟨bs,root,_,hk,by rw [hk]; exact .listEntries node _ k,rfl⟩
  | listEntries first st k =>
    obtain ⟨top,bs,rfl⟩ := List.exists_cons_of_length_eq_add_one hk
    exact ⟨bencNodeAdd top node :: bs,root,_,hk,
      by rw [List.length_cons] at *; rw [hk]; exact .listEntries first st k,rfl⟩

end Steps

section Dichotomy

theorem reduce_firstKey {bs : List Node} {root value : Node} {st : List Item} {pos len : ℕ} {rest : Bytes}
    {key : CharBuf} :
    reduceValue ⟨{},bs,root,.key (.string len key) :: .dictMark :: st,pos,rest⟩ value =
      .inl ⟨{},bs,root,.dictEntries (.entry key value) :: .dictMark :: st,pos,rest⟩ := rfl

theorem reduce_laterKey {bs : List Node} {root first value top : Node} {st : List Item} {pos len : ℕ} {rest : Bytes}
    {key : CharBuf} : reduceValue ⟨{},top :: bs,root,.key (.string len key) :: .dictEntries first :: st,
      pos,rest⟩ value =
      .inl ⟨{},bencNodeAdd top (.entry key value) :: bs,root,.dictEntries first :: st,pos,rest⟩ := rfl

/-- The node stack is full. -/
theorem start_refused {c : UInt8} {w : Bytes} (hc : c = 108 ∨ c = 100) : Refused 0 (c :: w) := by
  intro bs root st pos rest hd hst
  have hpush (node : Node) : bencStackPush bs node = .error (.errx "benc_stack_push: stack overflow") := if_pos hd
  rcases hc with rfl | rfl
  · refine .inr ⟨"benc_stack_push: stack overflow",.stop ?_⟩
    rw [List.cons_append,← List.nil_append (108 :: (w ++ rest)),
      yystep_of (yylex_start (.inr (.inr ⟨rfl,rfl⟩)) (List.forall_mem_nil _)),yyact_start hst
        (.inr (.inl rfl)),shiftStart,hpush]
    rfl
  · refine .inr ⟨"benc_stack_push: stack overflow",.stop ?_⟩
    rw [List.cons_append,← List.nil_append (100 :: (w ++ rest)),
      yystep_of (yylex_start (.inr (.inl ⟨rfl,rfl⟩)) (List.forall_mem_nil _)),yyact_start hst
        (.inr (.inr rfl)),shiftStart,hpush]
    rfl

mutual
/-- The parser reads a value, or refuses it wherever it stands. -/
theorem Spelled.Formed.reads (x : Spelled) (d : ℕ) (h : x.Formed) : x.Ok d ∨ Refused d x.bytes := by
  cases x with
  | int junk text =>
    obtain ⟨rfl,htext⟩ := h
    cases hn : numberOf text with
    | none => exact .inr (int_refused htext hn)
    | some n => exact .inl ⟨List.forall_mem_nil _,htext.plain,by rw [hn]; rfl⟩
  | str s =>
    by_cases hn : numberOf s.text = none
    · exact .inr fun bs root st pos rest _ hst => str_refuses (.inl hst) h hn
    · exact .inl (SpelledStr.Formed.later h hn)
  | list junk items =>
    obtain ⟨rfl,hitems⟩ := h
    cases d with
    | zero => exact .inr (start_refused (.inl rfl))
    | succ d =>
      by_cases hnil : items = []
      · apply Or.inr
        subst hnil
        intro bs root st pos rest hd hst
        exact .head (@yystep_list bs root st pos d (101 :: rest) [] hd hst (List.forall_mem_nil _)) list_empty_refuses
      rcases items_reads items d hitems with hok | hrefused
      · exact .inl ⟨List.forall_mem_nil _,hnil,hok⟩
      · apply Or.inr
        intro bs root st pos rest hd hst
        have hbytes : (Spelled.list [] items).bytes ++ rest = [] ++ 108 :: (bytesAll items ++ (101 :: rest)) := by
          simp [Spelled.bytes]
        rw [hbytes]
        apply Refuses.head (yystep_list hd hst (List.forall_mem_nil _))
        apply hrefused
        · rw [List.length_cons]
          omega
        · exact .listMark st _
  | dict junk entries =>
    obtain ⟨rfl,hentries⟩ := h
    cases d with
    | zero => exact .inr (start_refused (.inr rfl))
    | succ d =>
      rcases entries_reads entries d hentries with hok | hrefused
      · exact .inl ⟨List.forall_mem_nil _,hok⟩
      · apply Or.inr
        intro bs root st pos rest hd hst
        have hbytes : (Spelled.dict [] entries).bytes ++ rest =
            [] ++ 100 :: (bytesEntries entries ++ (101 :: rest)) := by
          simp [Spelled.bytes]
        rw [hbytes]
        exact .head (yystep_dict hd hst (List.forall_mem_nil _)) (hrefused bs root st _ rest hd)

theorem items_reads (xs : List Spelled) (d : ℕ) (h : FormedAll xs) : OkAll d xs ∨
    ∀ bs root st pos rest, bs.length + d = 15 → Repeats st bs.length →
      Refuses ⟨{},bs,root,st,pos,bytesAll xs ++ rest⟩ := by
  cases xs with
  | nil => exact .inl trivial
  | cons x xs =>
    obtain ⟨hx,hxs⟩ := h
    rcases hx.reads x d with hok | hrefused
    · rcases items_reads xs d hxs with hoks | hrefuses
      · exact .inl ⟨hok,hoks⟩
      · apply Or.inr
        intro bs root st pos rest hd hst
        obtain ⟨bs',root',st',hlen,hst',hq⟩ := @Repeats.reduce bs root (x.node pos) st (pos + x.bytes.length)
          (bytesAll xs ++ rest) hst
        rw [bytesAll,List.append_assoc]
        exact .after (run_value x hok hd hst.hungry hq) (hrefuses bs' root' st' _ rest (hlen ▸ hd) hst')
    · apply Or.inr
      intro bs root st pos rest hd hst
      rw [bytesAll,List.append_assoc]
      exact hrefused bs root st pos _ hd hst.hungry

theorem later_reads (es : List (SpelledStr × Spelled)) (d : ℕ) (h : FormedEntries es) : OkLater d es ∨
    ∀ top bs root first st pos rest, bs.length + (d + 1) = 15 →
      Refuses ⟨{},top :: bs,root,.dictEntries first :: st,pos,bytesEntries es ++ rest⟩ := by
  match es with
  | [] => exact .inl trivial
  | (k,x) :: es =>
    obtain ⟨hk,hx,hes⟩ := h
    by_cases hn : numberOf k.text = none
    · apply Or.inr
      intro top bs root first st pos rest _
      rw [bytesEntries,List.append_assoc]
      exact str_refuses (.inr ⟨first,st,rfl⟩) hk hn
    rcases hx.reads x d with hok | hrefused
    · rcases later_reads es d hes with hoks | hrefuses
      · exact .inl ⟨hk.later hn,hok,hoks⟩
      · apply Or.inr
        intro top bs root first st pos rest hd
        rw [bytesEntries,List.append_assoc,List.append_assoc]
        apply Refuses.after (run_str (.inr ⟨first,st,rfl⟩) (hk.later hn) rfl)
        exact .after (run_value x hok (by rw [List.length_cons]; omega) (.key _ _) reduce_laterKey)
          (hrefuses _ bs root first st _ rest hd)
    · apply Or.inr
      intro top bs root first st pos rest hd
      rw [bytesEntries,List.append_assoc,List.append_assoc]
      apply Refuses.after (run_str (.inr ⟨first,st,rfl⟩) (hk.later hn) rfl)
      exact hrefused (top :: bs) root _ _ _ (by rw [List.length_cons]; omega) (.key _ _)

theorem entries_reads (es : List (SpelledStr × Spelled)) (d : ℕ) (h : FormedEntries es) : OkEntries d es ∨
    ∀ bs root st pos rest, bs.length + (d + 1) = 15 → Refuses ⟨{ bstrflag := true },.dict [] 0 :: bs,root,
      .bstrflag :: .dictMark :: st,pos,bytesEntries es ++ (101 :: rest)⟩ := by
  match es with
  | [] => exact .inr fun bs root st pos rest _ => dict_empty_refuses
  | (k,x) :: es =>
    obtain ⟨hk,hx,hes⟩ := h
    by_cases hn : numberOf k.text = none
    · apply Or.inr
      intro bs root st pos rest _
      rw [bytesEntries,hk.bytes_eq,List.append_assoc,List.append_assoc,List.cons_append]
      refine key_refuses (readDecimal_ne_nil hk.number) ?_ hn
      intro hcolon
      exact absurd (hk.digits 58 hcolon) (by decide)
    rcases hx.reads x d with hok | hrefused
    · rcases later_reads es d hes with hoks | hrefuses
      · exact .inl ⟨hk.first hn,hok,hoks⟩
      · apply Or.inr
        intro bs root st pos rest hd
        rw [bytesEntries,List.append_assoc,List.append_assoc]
        apply Refuses.after (run_first (hk.first hn) rfl)
        exact .after (run_value x hok (by rw [List.length_cons]; omega) (.key _ _) reduce_firstKey)
          (hrefuses _ bs root _ _ _ _ hd)
    · apply Or.inr
      intro bs root st pos rest hd
      rw [bytesEntries,List.append_assoc,List.append_assoc]
      apply Refuses.after (run_first (hk.first hn) rfl)
      exact hrefused _ root _ _ _ (by rw [List.length_cons]; omega) (.key _ _)
end

/-- The parser reads a file of bencode values, or returns no tree. -/
theorem bencParseBuf_formed {xs : List Spelled} (h : FormedAll xs) :
    OkAll 15 xs ∨ ∀ root lex bstack, bencParseBuf {} [] (bytesAll xs) ≠ some (.accept root lex bstack) := by
  rcases items_reads xs 15 h with hok | hrefused
  · exact .inl hok
  · apply Or.inr
    intro root lex bstack hparse
    have hends := bencParseBuf_ends.mp hparse
    have hrefuses := hrefused [] bencRootCreate [.bencode] 0 [] rfl (.bencode [] 0)
    rw [List.append_nil] at hrefuses
    rcases hrefuses with habort | ⟨msg,hhalt⟩
    · cases hends.unique habort
    · cases hends.unique hhalt

end Dichotomy

end Unworkable
