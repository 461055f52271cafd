import Unworkable.Bencode.Syntax

/-! # The bencode parser reads every spelling

From a state that can take a value, the parser gets over every spelling of one to the state
in which the value is reduced.
-/
namespace Unworkable
open Library

section Lexing
variable {g : Lexer} {pos : ℕ} {buf w rest cs : Bytes} {c : UInt8}

/-- Characters that are kept behind `n` others, and none of them completes a string. -/
structure Lexer.Skips (g : Lexer) (n : ℕ) (w : Bytes) : Prop where
  keeps : ∀ c ∈ w, g.keeps c = true
  short : g.bstrflag = true → ∀ k, n < k → k ≤ n + w.length → (k : ℤ) ≠ g.bstrlen

theorem lexLoop_skips (hdue : g.emptyDue = false) (h : g.Skips buf.length w) :
    lexLoop g buf (bufSize buf.length) pos (w ++ rest) =
      lexLoop g (buf ++ w) (bufSize (buf ++ w).length) (pos + w.length) rest := by
  induction w generalizing buf pos with
  | nil => simp
  | cons c w ih =>
    have hnot : ¬ ((buf.length + 1 : ℤ) = g.bstrlen ∧ g.bstrflag = true) := by
      rintro ⟨heq,hflag⟩
      refine h.short hflag (buf.length + 1) (Nat.lt_succ_self _) ?_ (by exact_mod_cast heq)
      rw [List.length_cons]
      omega
    have hrest : g.Skips (buf ++ [c]).length w := by
      refine ⟨fun b hb => h.keeps b (List.mem_cons_of_mem c hb),?_⟩
      intro hflag k hlt hle
      rw [List.length_append,List.length_singleton] at hlt hle
      refine h.short hflag k (by omega) ?_
      rw [List.length_cons]
      omega
    rw [List.cons_append,lexLoop_cons hdue,if_pos (h.keeps c List.mem_cons_self),if_neg hnot,ih hrest]
    simp only [List.append_assoc,List.singleton_append,List.length_cons]
    congr 1
    omega

/-- The characters a token begins with. -/
theorem yylex_skips (hdue : g.emptyDue = false) (h : g.Skips 0 w) :
    yylex g pos (w ++ rest) = lexLoop g w (bufSize w.length) (pos + w.length) rest := by
  have hskip := @lexLoop_skips g pos [] w rest hdue h
  rwa [List.nil_append] at hskip

theorem yylex_switch (hdue : g.emptyDue = false) (h : g.Skips 0 w) (hc : g.keeps c = false) :
    yylex g pos (w ++ c :: cs) = lexSwitch g w (bufSize (w.length + 1)) (pos + w.length) c cs := by
  rw [yylex_skips hdue h,lexLoop_cons hdue,hc]
  rfl

theorem yylex_eof (hdue : g.emptyDue = false) (h : g.Skips 0 w) : (yylex g pos w).token = .eof := by
  have heof := @yylex_skips g pos w [] hdue h
  rw [List.append_nil] at heof
  rw [heof,lexLoop_nil hdue]

theorem skips_zero {g : Lexer} (hflag : g.bstrflag = false) (hw : ∀ c ∈ w, plainChar c = true) : g.Skips 0 w := by
  refine ⟨?_,fun h => absurd h (by simp [hflag])⟩
  intro c hc
  have hplain : c ∉ ([58,101,105,100,108] : Bytes) := of_decide_eq_true (hw c hc)
  exact decide_eq_true (.inr (.inr hplain))

/-- Behind the start of a dictionary the lexer keeps all but a colon. -/
theorem skips_key (hw : 58 ∉ w) : ({ bstrflag := true } : Lexer).Skips 0 w := by
  constructor
  · intro c hc
    apply decide_eq_true
    refine .inr (.inl ⟨?_,rfl⟩)
    rintro rfl
    exact hw hc
  · intro _ k hlt _ heq
    have hzero : k = 0 := Int.ofNat_inj.mp heq
    omega

/-- The content of a string. -/
theorem yylex_content (hw : (w.length : ℤ) = g.bstrlen) (hg : g = ⟨g.bstrlen,true,false,true⟩) :
    yylex g pos (w ++ rest) = ⟨.string ⟨w,bufSize w.length⟩,{},pos + w.length,rest⟩ := by
  rw [hg]
  cases List.eq_nil_or_concat w with
  | inl hnil =>
    subst hnil
    have hzero : g.bstrlen = 0 := hw.symm
    rw [hzero]
    exact lexLoop_due (g := ⟨0,true,false,true⟩) rfl
  | inr hlast =>
    obtain ⟨front,c,rfl⟩ := hlast
    have hlen : (front.length : ℤ) + 1 = g.bstrlen := by
      rw [← hw]
      simp
    have hdue : (⟨g.bstrlen,true,false,true⟩ : Lexer).emptyDue = false := by
      apply decide_eq_false
      rintro ⟨hzero,-⟩
      have hzero' : g.bstrlen = 0 := hzero
      omega
    have hkeeps (c : UInt8) : (⟨g.bstrlen,true,false,true⟩ : Lexer).keeps c = true := by
      apply decide_eq_true
      by_cases hc : c = 58
      · exact .inl ⟨hc,rfl,rfl⟩
      · exact .inr (.inl ⟨hc,rfl⟩)
    have hskips : (⟨g.bstrlen,true,false,true⟩ : Lexer).Skips 0 front := by
      refine ⟨fun b _ => hkeeps b,?_⟩
      intro _ k _ hk
      show (k : ℤ) ≠ g.bstrlen
      omega
    rw [List.concat_append,yylex_skips hdue hskips,lexLoop_cons hdue,if_pos (hkeeps c),if_pos ⟨hlen,rfl⟩]
    simp only [List.concat_eq_append,List.length_append,List.length_singleton]
    rfl

end Lexing

inductive Hungry : List Item → Prop
  | bencode (st : List Item) : Hungry (.bencode :: st)
  | listMark (st : List Item) : Hungry (.listMark :: st)
  | listEntries (first : Node) (st : List Item) : Hungry (.listEntries first :: st)
  | key (node : Node) (st : List Item) : Hungry (.key node :: st)

section Steps
variable {lex lex' : Lexer} {bs : List Node} {root : Node} {st : List Item} {pos pos' : ℕ}
  {rest rest' : Bytes} {t : Token}
  {text cs : Bytes} {n : ℤ} {q : Parser}

theorem yystep_of (h : yylex lex pos rest = ⟨t,lex',pos',rest'⟩) :
    yystep ⟨lex,bs,root,st,pos,rest⟩ = yyact ⟨lex',bs,root,st,pos',rest'⟩ t := by
  unfold yystep
  dsimp only
  rw [h]

theorem numberOf_ne_nil (h : numberOf text = some n) : text ≠ [] := by
  rintro rfl
  cases h

theorem reduceNumber_of {next : ℤ → Item} (h : numberOf text = some n) :
    reduceNumber ⟨lex,bs,root,st,pos,rest⟩ ⟨text,bufSize (text.length + 1)⟩ next =
      .inl ⟨if lex.bstrflag then { lex with bstrlen := n } else lex,bs,root,next n :: st,pos,rest⟩ := by
  have hn : strtonum (text.takeWhile (· ≠ 0)) = some n := h
  rw [reduceNumber,CharBuf.cString_of_lt (Nat.lt_of_succ_le (le_bufSize _))]
  unfold Acted.of
  dsimp only
  rw [hn]

theorem yyact_string (h : Hungry st ∨ ∃ first st', st = .dictEntries first :: st') (v : CharBuf) :
    yyact ⟨lex,bs,root,st,pos,rest⟩ (.string v) = reduceNumber
    (reduceBstrflag ⟨lex,bs,root,st,pos,rest⟩) v .strNumber := by
  rcases h with h | ⟨first,st',rfl⟩
  · cases h <;> rfl
  · rfl

theorem yyact_start (h : Hungry st) (ht : t = .intStart ∨ t = .listStart ∨ t = .dictStart) :
    yyact ⟨lex,bs,root,st,pos,rest⟩ t = shiftStart ⟨lex,bs,root,st,pos,rest⟩ t := by
  rcases ht with rfl | rfl | rfl
  · cases h <;> rfl
  · cases h <;> rfl
  · cases h <;> rfl

/-- A number read between two values, up to the colon or the `e` behind it. -/
theorem yylex_number {c : UInt8} (hc : c = 58 ∨ c = 101) (hne : text ≠ []) (htext : ∀ b ∈ text, plainChar b = true) :
    yylex {} pos (text ++ c :: cs) =
      ⟨.string ⟨text,bufSize (text.length + 1)⟩,{ bdone := true },pos + text.length,c :: cs⟩ := by
  have hpos := List.length_pos_iff.mpr hne
  rcases hc with rfl | rfl
  · rw [yylex_switch rfl (skips_zero rfl htext) rfl,lexSwitch,if_pos rfl,if_pos ⟨rfl,hpos⟩]
  · rw [yylex_switch rfl (skips_zero rfl htext) rfl,lexSwitch,if_neg (by decide),if_pos rfl,if_pos ⟨rfl,hpos⟩]

theorem yylex_key (hne : text ≠ []) (htext : 58 ∉ text) :
    yylex { bstrflag := true } pos (text ++ 58 :: cs) =
      ⟨.string ⟨text,bufSize (text.length + 1)⟩,{ bstrflag := true, bdone := true },pos + text.length,58 :: cs⟩ := by
  rw [yylex_switch rfl (skips_key htext) rfl,lexSwitch,if_pos rfl,if_pos ⟨rfl,List.length_pos_iff.mpr hne⟩]

theorem yylex_start {c : UInt8} (hc : c = 105 ∧ t = .intStart ∨ c = 100 ∧ t = .dictStart ∨ c = 108 ∧ t = .listStart)
    (htext : ∀ b ∈ text, plainChar b = true) :
    yylex {} pos (text ++ c :: cs) = ⟨t,{},pos + text.length + 1,cs⟩ := by
  rcases hc with ⟨rfl,rfl⟩ | ⟨rfl,rfl⟩ | ⟨rfl,rfl⟩
  all_goals
    rw [yylex_switch rfl (skips_zero rfl htext) rfl]
    rfl

theorem yylex_stop (hflag : lex.bstrflag = false) :
    yylex lex pos (101 :: cs) = ⟨.stop (pos + 1),{ lex with bdone := false },pos + 1,cs⟩ := by
  have hdue : lex.emptyDue = false := by
    apply decide_eq_false
    rintro ⟨-,h,-⟩
    rw [hflag] at h
    cases h
  have hkeeps : lex.keeps 101 = false := by
    apply decide_eq_false
    rintro (⟨h,-⟩ | ⟨-,h⟩ | h)
    · cases h
    · rw [hflag] at h
      cases h
    · exact h (by decide)
  refine (yylex_switch (w := []) hdue (skips_zero hflag nofun) hkeeps).trans ?_
  rw [lexSwitch,if_neg (by decide),if_pos rfl,if_neg (by simp)]
  rfl

/-- From the number of a string over its content. -/
theorem run_content {s : SpelledStr} (hok : s.Ok)
    (hq : reduceValue ⟨{},bs,root,st,pos + (s.gapBytes.length + 1) + s.content.length,rest⟩
      (.string s.content.length s.buf) = .inl q) :
    Reaches yystep ⟨⟨s.content.length,true,true,false⟩,bs,root,.strNumber s.content.length :: .bstrflag :: st,pos,
      s.gapBytes ++ 58 :: (s.content ++ rest)⟩ q := by
  have hskips : (⟨s.content.length,true,true,false⟩ : Lexer).Skips 0 s.gapBytes := by
    unfold SpelledStr.gapBytes
    split
    · exact ⟨nofun,fun _ k hlt hle => absurd hle (Nat.not_le.mpr hlt)⟩
    · rename_i k hk
      obtain ⟨hcolon,hlen⟩ := hok.gap k hk
      constructor
      · intro c hc
        apply decide_eq_true
        refine .inr (.inl ⟨?_,rfl⟩)
        rintro rfl
        rcases List.mem_cons.mp hc with h | h
        · cases h
        · exact hcolon h
      · intro _ i hlt hle heq
        have heq' : i = s.content.length := Int.ofNat_inj.mp heq
        rw [List.length_cons] at hle
        rcases hlen with hnil | hlen
        · rw [hnil,List.length_nil] at heq'
          omega
        · omega
  have hcolon : yylex ⟨s.content.length,true,true,false⟩ pos (s.gapBytes ++ 58 :: (s.content ++ rest)) =
      ⟨.colon,⟨s.content.length,true,false,true⟩,pos + s.gapBytes.length + 1,s.content ++ rest⟩ := by
    rw [yylex_switch (decide_eq_false fun h => Bool.false_ne_true h.2.2) hskips rfl,lexSwitch,if_pos rfl,
      if_neg (fun h => Bool.false_ne_true h.1)]
  have hcontent : yylex ⟨s.content.length,true,false,true⟩ (pos + s.gapBytes.length + 1) (s.content ++ rest) = _ :=
    yylex_content rfl rfl
  refine .head (yystep_of hcolon) (.step ?_)
  rw [yystep_of hcontent]
  have hrange : ((s.content.length : ℤ) % 18446744073709551616).toNat = s.content.length := by
    have hle := (strtonum_range hok.number).2
    omega
  show reduceValue _ _ = _
  rw [hrange]
  exact hq

end Steps

section Values
variable {bs ns : List Node} {root first node : Node} {st : List Item} {pos d : ℕ} {rest junk text : Bytes}
  {n : ℤ} {q : Parser}

theorem run_int (hst : Hungry st) (hjunk : ∀ c ∈ junk, plainChar c = true) (htext : ∀ c ∈ text, plainChar c = true)
    (hn : numberOf text = some n)
    (hq : reduceValue ⟨{},bs,root,st,pos + junk.length + 1 + text.length + 1,rest⟩ (.int n) = .inl q) :
    Reaches yystep ⟨{},bs,root,st,pos,junk ++ 105 :: (text ++ 101 :: rest)⟩ q := by
  have hnumber : yystep ⟨{},bs,root,.intStart :: st,pos + junk.length + 1,text ++ 101 :: rest⟩ =
      .inl ⟨{ bdone := true },bs,root,.intNumber n :: .intStart :: st,pos + junk.length + 1 + text.length,
          101 :: rest⟩ := by
    rw [yystep_of (yylex_number (.inr rfl) (numberOf_ne_nil hn) htext)]
    exact reduceNumber_of hn
  refine .head ?_ (.head hnumber (.step ?_))
  · rw [yystep_of (yylex_start (.inl ⟨rfl,rfl⟩) hjunk),yyact_start hst (.inl rfl)]
    rfl
  · rw [yystep_of (yylex_stop rfl)]
    exact hq

/-- A string read between two values. -/
theorem run_str {s : SpelledStr} (hst : Hungry st ∨ ∃ first st', st = .dictEntries first :: st') (hs : s.Later)
    (hq : reduceValue ⟨{},bs,root,st,pos + s.bytes.length,rest⟩ (.string s.content.length s.buf) = .inl q) :
    Reaches yystep ⟨{},bs,root,st,pos,s.bytes ++ rest⟩ q := by
  have hbytes : s.bytes ++ rest = s.text ++ (s.gapBytes ++ 58 :: (s.content ++ rest)) := by simp [SpelledStr.bytes]
  have hlen : pos + s.bytes.length = pos + s.text.length + (s.gapBytes.length + 1) + s.content.length := by
    simp only [SpelledStr.bytes,List.length_append,List.length_cons]
    omega
  rw [hlen] at hq
  rw [hbytes]
  refine .head ?_ (run_content hs.toOk hq)
  have hnext : ∃ c cs, (c = 58 ∨ c = 101) ∧ s.gapBytes ++ 58 :: (s.content ++ rest) = c :: cs := by
    unfold SpelledStr.gapBytes
    cases s.gap with
    | none => exact ⟨58,_,.inl rfl,rfl⟩
    | some k => exact ⟨101,_,.inr rfl,rfl⟩
  obtain ⟨c,cs,hc,hcs⟩ := hnext
  rw [hcs,yystep_of (yylex_number hc (numberOf_ne_nil hs.number) hs.text),yyact_string hst]
  exact reduceNumber_of hs.number

/-- The first key of a dictionary. -/
theorem run_first {s : SpelledStr} (hs : s.First)
    (hq : reduceValue ⟨{},bs,root,st,pos + s.bytes.length,rest⟩ (.string s.content.length s.buf) = .inl q) :
    Reaches yystep ⟨{ bstrflag := true },bs,root,.bstrflag :: st,pos,s.bytes ++ rest⟩ q := by
  have hgap : s.gapBytes = [] := by rw [SpelledStr.gapBytes,hs.no_gap]
  have hbytes : s.bytes ++ rest = s.text ++ 58 :: (s.content ++ rest) := by simp [SpelledStr.bytes,hgap]
  have hlen : pos + s.bytes.length = pos + s.text.length + (s.gapBytes.length + 1) + s.content.length := by
    simp only [SpelledStr.bytes,List.length_append,List.length_cons]
    omega
  rw [hlen] at hq
  rw [hbytes]
  have hcontent := @run_content bs root st (pos + s.text.length) rest q s hs.toOk hq
  rw [hgap,List.nil_append] at hcontent
  refine .head ?_ hcontent
  rw [yystep_of (yylex_key (numberOf_ne_nil hs.number) hs.text)]
  exact reduceNumber_of hs.number

theorem bencStackPush_ok (h : bs.length + (d + 1) = 15) : bencStackPush bs node = .ok (node :: bs) := by
  rw [bencStackPush,if_neg]
  unfold bencStackSize
  omega

theorem yystep_list (hd : bs.length + (d + 1) = 15) (hst : Hungry st) (hjunk : ∀ c ∈ junk, plainChar c = true) :
    yystep ⟨{},bs,root,st,pos,junk ++ 108 :: rest⟩ =
      .inl ⟨{},.list [] :: bs,root,.listMark :: st,pos + (junk.length + 1),rest⟩ := by
  rw [yystep_of (yylex_start (.inr (.inr ⟨rfl,rfl⟩)) hjunk),yyact_start hst (.inr (.inl rfl)),shiftStart,
    bencStackPush_ok hd]
  rfl

theorem yystep_dict (hd : bs.length + (d + 1) = 15) (hst : Hungry st) (hjunk : ∀ c ∈ junk, plainChar c = true) :
    yystep ⟨{},bs,root,st,pos,junk ++ 100 :: rest⟩ =
      .inl ⟨{ bstrflag := true },.dict [] 0 :: bs,root,.bstrflag :: .dictMark :: st,pos + (junk.length + 1),rest⟩ := by
  rw [yystep_of (yylex_start (.inr (.inl ⟨rfl,rfl⟩)) hjunk),yyact_start hst (.inr (.inr rfl)),shiftStart,
    bencStackPush_ok hd]
  rfl

mutual
/-- A value is read up to its reduction. -/
theorem run_value (x : Spelled) {bs : List Node} {root : Node} {st : List Item} {pos d : ℕ} {rest : Bytes} {q : Parser}
    (hok : x.Ok d) (hd : bs.length + d = 15) (hst : Hungry st)
    (hq : reduceValue ⟨{},bs,root,st,pos + x.bytes.length,rest⟩ (x.node pos) = .inl q) :
    Reaches yystep ⟨{},bs,root,st,pos,x.bytes ++ rest⟩ q := by
  cases x with
  | int junk text =>
    obtain ⟨hjunk,htext,hn⟩ := hok
    obtain ⟨n,hn⟩ := Option.isSome_iff_exists.mp hn
    have hbytes : (Spelled.int junk text).bytes ++ rest = junk ++ 105 :: (text ++ 101 :: rest) := by
      simp [Spelled.bytes]
    have hlen : pos + (Spelled.int junk text).bytes.length = pos + junk.length + 1 + text.length + 1 := by
      simp only [Spelled.bytes,List.length_append,List.length_cons,List.length_nil]
      omega
    rw [hlen,Spelled.node,hn] at hq
    rw [hbytes]
    exact run_int hst hjunk htext hn hq
  | str s => exact run_str (.inl hst) hok hq
  | list junk items =>
    cases d with
    | zero => exact hok.elim
    | succ d =>
      obtain ⟨hjunk,hne,hitems⟩ := hok
      cases items with
      | nil => exact (hne rfl).elim
      | cons x xs =>
        obtain ⟨hx,hxs⟩ := hitems
        have hbytes : (Spelled.list junk (x :: xs)).bytes ++ rest =
            junk ++ 108 :: (x.bytes ++ (bytesAll xs ++ 101 :: rest)) := by
          simp [Spelled.bytes,bytesAll]
        have hlen : pos + (Spelled.list junk (x :: xs)).bytes.length =
            pos + (junk.length + 1) + x.bytes.length + (bytesAll xs).length + 1 := by
          simp only [Spelled.bytes,bytesAll,List.length_append,List.length_cons,List.length_nil]
          omega
        rw [hlen] at hq
        rw [hbytes]
        have hdepth : (Node.list [] :: bs).length + d = 15 := by
          rw [List.length_cons]
          omega
        refine .head (yystep_list hd hst hjunk) (.trans (run_value x hx hdepth (.listMark st) rfl) ?_)
        refine .trans (run_items xs hxs hd) (.step ?_)
        rw [yystep_of (yylex_stop rfl)]
        exact hq
  | dict junk entries =>
    cases d with
    | zero => exact hok.elim
    | succ d =>
      obtain ⟨hjunk,hentries⟩ := hok
      cases entries with
      | nil => exact hentries.elim
      | cons e es =>
        obtain ⟨k,x⟩ := e
        obtain ⟨hk,hx,hes⟩ := hentries
        have hbytes : (Spelled.dict junk ((k,x) :: es)).bytes ++ rest =
            junk ++ 100 :: (k.bytes ++ (x.bytes ++ (bytesEntries es ++ 101 :: rest))) := by
          simp [Spelled.bytes,bytesEntries]
        have hstop : pos + (junk.length + 1) + ((bytesEntries ((k,x) :: es)).length + 1) =
            pos + (junk.length + 1) + k.bytes.length + x.bytes.length + (bytesEntries es).length + 1 := by
          simp only [bytesEntries,List.length_append]
          omega
        have hlen : pos + (Spelled.dict junk ((k,x) :: es)).bytes.length =
            pos + (junk.length + 1) + k.bytes.length + x.bytes.length + (bytesEntries es).length + 1 := by
          rw [← hstop]
          simp only [Spelled.bytes,List.length_append,List.length_cons,List.length_nil]
          omega
        rw [hlen,Spelled.node,hstop] at hq
        rw [hbytes]
        refine .head (yystep_dict hd hst hjunk) (.trans (run_first hk rfl) ?_)
        have hdepth : (Node.dict [] 0 :: bs).length + d = 15 := by
          rw [List.length_cons]
          omega
        refine .trans (run_value x hx hdepth (.key _ _) rfl) ?_
        refine .trans (run_entries es hes hd) (.step ?_)
        rw [yystep_of (yylex_stop rfl)]
        exact hq

theorem run_items (xs : List Spelled) {bs ns : List Node} {root first : Node} {st : List Item}
    {pos d : ℕ} {rest : Bytes}
    (hok : OkAll d xs) (hd : bs.length + (d + 1) = 15) :
    Reaches yystep ⟨{},.list ns :: bs,root,.listEntries first :: st,pos,bytesAll xs ++ rest⟩
      ⟨{},.list (ns ++ nodesAll pos xs) :: bs,root,.listEntries first :: st,pos + (bytesAll xs).length,rest⟩ := by
  cases xs with
  | nil =>
    rw [nodesAll,List.append_nil]
    exact .refl
  | cons x xs =>
    have hlen : (Node.list ns :: bs).length + d = 15 := by
      rw [List.length_cons]
      omega
    have hx : Reaches yystep ⟨{},.list ns :: bs,root,.listEntries first :: st,pos,x.bytes ++ (bytesAll xs ++ rest)⟩
        ⟨{},.list (ns ++ [x.node pos]) :: bs,root,.listEntries first :: st,pos + x.bytes.length,bytesAll xs ++ rest⟩ :=
      run_value x hok.1 hlen (.listEntries first st) rfl
    have hxs := @run_items xs bs (ns ++ [x.node pos]) root first st (pos + x.bytes.length) d rest hok.2 hd
    rw [List.append_assoc,Nat.add_assoc,← List.length_append] at hxs
    rw [bytesAll,List.append_assoc]
    exact hx.trans hxs

theorem run_entries (es : List (SpelledStr × Spelled)) {bs ns : List Node} {root first : Node} {st : List Item}
    {pos d stop : ℕ} {rest : Bytes} (hok : OkLater d es) (hd : bs.length + (d + 1) = 15) :
    Reaches yystep ⟨{},.dict ns stop :: bs,root,.dictEntries first :: st,pos,bytesEntries es ++ rest⟩
      ⟨{},.dict (ns ++ nodesEntries pos es) stop :: bs,root,.dictEntries first :: st,
        pos + (bytesEntries es).length,rest⟩ := by
  match es with
  | [] =>
    rw [nodesEntries,List.append_nil]
    exact .refl
  | (k,x) :: es =>
    obtain ⟨hk,hx,hes⟩ := hok
    have hdepth : (Node.dict ns stop :: bs).length + d = 15 := by
      rw [List.length_cons]
      omega
    have hkey : Reaches yystep
        ⟨{},.dict ns stop :: bs,root,.dictEntries first :: st,pos,k.bytes ++ (x.bytes ++ (bytesEntries es ++ rest))⟩
        ⟨{},.dict ns stop :: bs,root,.key (.string k.content.length k.buf) :: .dictEntries first :: st,
          pos + k.bytes.length,x.bytes ++ (bytesEntries es ++ rest)⟩ := run_str (.inr ⟨first,st,rfl⟩) hk rfl
    have hvalue : Reaches yystep
        ⟨{},.dict ns stop :: bs,root,.key (.string k.content.length k.buf) :: .dictEntries first :: st,
          pos + k.bytes.length,x.bytes ++ (bytesEntries es ++ rest)⟩
        ⟨{},.dict (ns ++ [.entry k.buf (x.node (pos + k.bytes.length))]) stop :: bs,root,.dictEntries first :: st,
          pos + k.bytes.length + x.bytes.length,bytesEntries es ++ rest⟩ := run_value x hx hdepth (.key _ _) rfl
    have hrest := @run_entries es bs (ns ++ [.entry k.buf (x.node (pos + k.bytes.length))]) root first st
      (pos + k.bytes.length + x.bytes.length) d stop rest hes hd
    have hlen : pos + (bytesEntries ((k,x) :: es)).length = pos + k.bytes.length + x.bytes.length +
        (bytesEntries es).length := by
      simp only [bytesEntries,List.length_append]
      omega
    rw [List.append_assoc] at hrest
    rw [hlen,bytesEntries,List.append_assoc,List.append_assoc]
    exact hkey.trans (hvalue.trans hrest)
end

/-- The values of a file. -/
theorem run_values (xs : List Spelled) (hok : OkAll 15 xs) :
    Reaches yystep ⟨{},[],.list ns,[.bencode],pos,bytesAll xs ++ rest⟩
    ⟨{},[],.list (ns ++ nodesAll pos xs),[.bencode],pos + (bytesAll xs).length,rest⟩ := by
  induction xs generalizing ns pos with
  | nil =>
    rw [nodesAll,List.append_nil]
    exact .refl
  | cons x xs ih =>
    have hx : Reaches yystep ⟨{},[],.list ns,[.bencode],pos,x.bytes ++ (bytesAll xs ++ rest)⟩
        ⟨{},[],.list (ns ++ [x.node pos]),[.bencode],pos + x.bytes.length,bytesAll xs ++ rest⟩ :=
      run_value x hok.1 rfl (.bencode []) rfl
    have hxs := @ih (ns ++ [x.node pos]) (pos + x.bytes.length) hok.2
    rw [List.append_assoc,Nat.add_assoc,← List.length_append] at hxs
    rw [bytesAll,List.append_assoc]
    exact hx.trans hxs

theorem bencParseBuf_reads {xs : List Spelled} (hok : OkAll 15 xs) (hjunk : ∀ c ∈ junk, plainChar c = true) :
    bencParseBuf {} [] (bytesAll xs ++ junk) = some (.accept (.list (nodesAll 0 xs)) {} []) := by
  apply bencParseBuf_ends.mpr
  apply (@run_values [] 0 junk xs hok).ends
  apply Ends.stop
  have hlex : yylex {} (0 + (bytesAll xs).length) junk = ⟨.eof,{},0 + (bytesAll xs).length + junk.length,[]⟩ := by
    have heof := @yylex_skips {} (0 + (bytesAll xs).length) junk [] rfl (skips_zero rfl hjunk)
    rwa [List.append_nil,lexLoop_nil rfl] at heof
  rw [yystep_of hlex]
  rfl

end Values

end Unworkable
