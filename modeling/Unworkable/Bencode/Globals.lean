import Unworkable.Bencode.Parser

/-! # The globals of the bencode parser

Between two tokens the globals of the lexer are settled by the top of the parser's stack, and
the nodes on the node stack are the containers the parser's stack has open. So a parse that
succeeds leaves everything as it found it.
-/
namespace Unworkable
open Library

/-- Stacks of the automaton, with the number of open containers. -/
inductive Stacked : List Item → ℕ → Prop
  | bencode : Stacked [.bencode] 0
  | intStart {st : List Item} {k : ℕ} (h : Stacked st k) : Stacked (.intStart :: st) k
  | intNumber {st : List Item} {k : ℕ} (n : ℤ) (h : Stacked st k) : Stacked (.intNumber n :: .intStart :: st) k
  | bstrflag {st : List Item} {k : ℕ} (h : Stacked st k) : Stacked (.bstrflag :: st) k
  | strNumber {st : List Item} {k : ℕ} (n : ℤ) (h : Stacked st k) : Stacked (.strNumber n :: .bstrflag :: st) k
  | colon {st : List Item} {k : ℕ} (n : ℤ) (h : Stacked st k) : Stacked (.colon :: .strNumber n :: .bstrflag :: st) k
  | listMark {st : List Item} {k : ℕ} (h : Stacked st k) : Stacked (.listMark :: st) (k + 1)
  | listEntries {st : List Item} {k : ℕ} (first : Node) (h : Stacked st k) :
    Stacked (.listEntries first :: .listMark :: st) (k + 1)
  | dictMark {st : List Item} {k : ℕ} (h : Stacked st k) : Stacked (.dictMark :: st) (k + 1)
  | dictEntries {st : List Item} {k : ℕ} (first : Node) (h : Stacked st k) :
    Stacked (.dictEntries first :: .dictMark :: st) (k + 1)
  | firstKey {st : List Item} {k : ℕ} (node : Node) (h : Stacked st k) : Stacked (.key node :: .dictMark :: st) (k + 1)
  | laterKey {st : List Item} {k : ℕ} (node first : Node) (h : Stacked st k) :
      Stacked (.key node :: .dictEntries first :: .dictMark :: st) (k + 1)

def Mode : List Item → Lexer → Prop
  | .bstrflag :: _,g => g = { bstrflag := true }
  | .strNumber n :: _,g => g = { bstrlen := n, bstrflag := true, bdone := true }
  | .colon :: .strNumber n :: _,g => g = { bstrlen := n, bstrflag := true, bcdone := true }
  | .intNumber _ :: _,g => g = { bdone := true }
  | _,g => g = {}

structure Parser.Fits (p : Parser) : Prop where
  stacked : Stacked p.stack p.bstack.length
  mode : Mode p.stack p.lex

def Acted.Sound : Acted → Prop
  | .inl p => p.Fits
  | .inr (.accept _ lex bstack) => lex = {} ∧ bstack = []
  | .inr .abort => True
  | .inr (.halt h) => h ≠ .wild

section Actions
variable {p : Parser} {node : Node} {st : List Item}

theorem Parser.fits_start (buf : Bytes) : (Parser.start {} [] buf).Fits := ⟨.bencode,rfl⟩

/-- Adding to the innermost container. -/
theorem sound_add {k : ℕ} (hk : p.bstack.length = k + 1) (hst : Stacked st (k + 1)) (hmode : Mode st p.lex) :
    Acted.Sound (.of (bencStackAdd node p.bstack) fun bstack => .inl { p with bstack := bstack, stack := st }) := by
  cases hb : p.bstack with
  | nil =>
    rw [hb] at hk
    cases hk
  | cons top bstack =>
    rw [hb,List.length_cons] at hk
    refine ⟨?_,hmode⟩
    show Stacked st (bstack.length + 1)
    rw [hk]
    exact hst

theorem reduceEntry_sound (hstack : Stacked p.stack p.bstack.length) (hlex : p.lex = {}) :
    (reduceEntry p node).Sound := by
  obtain ⟨lex,bstack,root,stack,pos,rest⟩ := p
  cases hlex
  generalize hk : bstack.length = k at hstack
  cases hstack
  case dictMark st k h =>
    exact ⟨by rw [hk]; exact .dictEntries node h,rfl⟩
  case dictEntries st k first h =>
    exact sound_add (p := ⟨{},bstack,root,_,pos,rest⟩) hk (.dictEntries first h) rfl
  all_goals trivial

theorem reduceValue_sound (hstack : Stacked p.stack p.bstack.length) (hlex : p.lex = {}) :
    (reduceValue p node).Sound := by
  obtain ⟨lex,bstack,root,stack,pos,rest⟩ := p
  cases hlex
  generalize hk : bstack.length = k at hstack
  cases hstack
  case bencode => exact ⟨by rw [hk]; exact .bencode,rfl⟩
  case listMark st k h => exact ⟨by rw [hk]; exact .listEntries node h,rfl⟩
  case listEntries st k first h =>
    exact sound_add (p := ⟨{},bstack,root,_,pos,rest⟩) hk (.listEntries first h) rfl
  case dictMark st k h => exact ⟨by rw [hk]; exact .firstKey node h,rfl⟩
  case dictEntries st k first h => exact ⟨by rw [hk]; exact .laterKey node first h,rfl⟩
  case firstKey st k key h =>
    cases key
    case string len value =>
      exact reduceEntry_sound (p := ⟨{},bstack,root,.dictMark :: st,pos,rest⟩) (by rw [hk]; exact .dictMark h) rfl
    all_goals trivial
  case laterKey st k key first h =>
    cases key
    case string len value =>
      exact reduceEntry_sound (p := ⟨{},bstack,root,.dictEntries first :: .dictMark :: st,pos,rest⟩)
        (by rw [hk]; exact .dictEntries first h) rfl
    all_goals trivial
  all_goals trivial

theorem reduceNumber_sound {value : CharBuf} {next : ℤ → Item} (hsize : value.text.length < value.size)
    (hstack : ∀ n, Stacked (next n :: p.stack) p.bstack.length)
    (hmode : ∀ n, Mode (next n :: p.stack) (if p.lex.bstrflag then { p.lex with bstrlen := n } else p.lex)) :
    (reduceNumber p value next).Sound := by
  rw [reduceNumber,CharBuf.cString_of_lt hsize]
  unfold Acted.of
  dsimp only
  split
  · trivial
  · exact ⟨hstack _,hmode _⟩

theorem bencStackPush_sound {f : List Node → Acted} (h : (f (node :: p.bstack)).Sound) :
    Acted.Sound (.of (bencStackPush p.bstack node) f) := by
  unfold bencStackPush
  split
  · exact nofun
  · exact h

theorem shiftStart_sound {t : Token} (hstack : Stacked p.stack p.bstack.length) (hlex : p.lex = {}) :
    (shiftStart p t).Sound := by
  cases t
  case intStart =>
    refine ⟨.intStart hstack,hlex⟩
  case listStart =>
    apply bencStackPush_sound
    exact ⟨.listMark hstack,hlex⟩
  case dictStart =>
    apply bencStackPush_sound
    refine ⟨.bstrflag (.dictMark hstack),?_⟩
    show ({ p.lex with bstrflag := true } : Lexer) = _
    rw [hlex]
  all_goals trivial

end Actions

section Tokens
variable {p : Parser} {t : Token} {g : Lexer} {v : CharBuf} {st : List Item}

/-- A string read between two values is the number of another string. -/
theorem LexedAs.calm (h : LexedAs {} (.string v) g) : v.text.length < v.size ∧ g = { bdone := true } := by
  rcases h with h | h
  · refine ⟨h.terminated,?_⟩
    rcases h.lex with ⟨-,hg⟩ | ⟨-,hg⟩
    · exact hg
    · exact hg
  · cases h.flag

theorem start_sound (hst : Stacked p.stack p.bstack.length) (h : LexedAs {} (.string v) p.lex) :
    (reduceNumber (reduceBstrflag p) v .strNumber).Sound := by
  obtain ⟨hsize,hlex⟩ := h.calm
  apply reduceNumber_sound hsize
  · intro n
    exact .strNumber n hst
  · intro n
    rw [reduceBstrflag,hlex]
    rfl

/-- Any other token between two values. -/
theorem LexedAs.starts (h : LexedAs {} t g) (hst : Stacked p.stack p.bstack.length) (hlex : p.lex = g) :
    (shiftStart p t).Sound := by
  cases t
  case intStart => exact shiftStart_sound hst (hlex.trans h)
  case listStart => exact shiftStart_sound hst (hlex.trans h)
  case dictStart => exact shiftStart_sound hst (hlex.trans h)
  all_goals trivial

theorem yyact_sound {lex : Lexer} (hst : Stacked p.stack p.bstack.length) (hmode : Mode p.stack lex)
    (h : LexedAs lex t p.lex) : (yyact p t).Sound := by
  obtain ⟨g,bstack,root,stack,pos,rest⟩ := p
  generalize hk : bstack.length = k at hst
  cases hst
  case bencode =>
    cases hmode
    cases t
    case eof => exact ⟨h,List.length_eq_zero_iff.mp hk⟩
    case string v => exact start_sound (by rw [hk]; exact .bencode) h
    all_goals exact h.starts (by rw [hk]; exact .bencode) rfl
  case intStart st hst =>
    cases hmode
    cases t
    case string v =>
      obtain ⟨hsize,hlex⟩ := LexedAs.calm h
      cases hlex
      exact reduceNumber_sound hsize (fun n => by rw [hk]; exact .intNumber n hst) (fun n => rfl)
    all_goals trivial
  case intNumber st n hst =>
    cases hmode
    cases t
    case stop len => exact reduceValue_sound (by rw [hk]; exact hst) h
    all_goals trivial
  case bstrflag st hst =>
    cases hmode
    cases t
    case string v =>
      rcases h with h | h
      · have hlex : g = { bstrflag := true, bdone := true } := by
          rcases h.lex with ⟨-,hg⟩ | ⟨hflag,-⟩
          · exact hg
          · cases hflag
        cases hlex
        exact reduceNumber_sound h.terminated (fun n => by rw [hk]; exact .strNumber n hst) (fun n => rfl)
      · have hnil : v.text = [] := List.length_eq_zero_iff.mp (Int.ofNat_eq_zero.mp h.length)
        cases h.due hnil
    all_goals trivial
  case strNumber st n hst =>
    cases hmode
    cases t
    case colon =>
      cases h
      exact ⟨by rw [hk]; exact .colon n hst,rfl⟩
    all_goals trivial
  case colon st n hst =>
    cases hmode
    cases t
    case string v =>
      have hlex : g = {} := by
        rcases h with h | h
        · rcases h.lex with ⟨hcdone,-⟩ | ⟨hflag,-⟩
          · cases hcdone
          · cases hflag
        · exact h.lex
      exact reduceValue_sound (by rw [hk]; exact hst) hlex
    all_goals trivial
  case listMark st k hst =>
    cases hmode
    cases t
    case string v => exact start_sound (by rw [hk]; exact .listMark hst) h
    case stop len => trivial
    all_goals exact h.starts (by rw [hk]; exact .listMark hst) rfl
  case listEntries st k first hst =>
    cases hmode
    cases t
    case string v => exact start_sound (by rw [hk]; exact .listEntries first hst) h
    case stop len =>
      obtain ⟨node,bstack,rfl⟩ := List.exists_cons_of_length_eq_add_one hk
      exact reduceValue_sound (by rw [List.length_cons] at hk; rw [Nat.succ.inj hk]; exact hst) h
    all_goals exact h.starts (by rw [hk]; exact .listEntries first hst) rfl
  case dictMark st k hst =>
    cases t <;> trivial
  case dictEntries st k first hst =>
    cases hmode
    cases t
    case string v => exact start_sound (by rw [hk]; exact .dictEntries first hst) h
    case stop len =>
      obtain ⟨node,bstack,rfl⟩ := List.exists_cons_of_length_eq_add_one hk
      exact reduceValue_sound (by rw [List.length_cons] at hk; rw [Nat.succ.inj hk]; exact hst) h
    all_goals trivial
  case firstKey st k node hst =>
    cases hmode
    cases t
    case string v => exact start_sound (by rw [hk]; exact .firstKey node hst) h
    all_goals exact h.starts (by rw [hk]; exact .firstKey node hst) rfl
  case laterKey st k node first hst =>
    cases hmode
    cases t
    case string v => exact start_sound (by rw [hk]; exact .laterKey node first hst) h
    all_goals exact h.starts (by rw [hk]; exact .laterKey node first hst) rfl

theorem yylex_as (p : Parser) : LexedAs p.lex (yylex p.lex p.pos p.rest).token (yylex p.lex p.pos p.rest).lex :=
  lexLoop_as (fun _ => rfl)

theorem Parser.Fits.step (h : p.Fits) : (yystep p).Sound :=
  yyact_sound (p := { p with lex := _, pos := _, rest := _ }) h.stacked h.mode (yylex_as p)

/-- The parser stops, or goes on with the same globals and the same input. -/
def Acted.Goes (p : Parser) (a : Acted) : Prop := ∀ p', a = .inl p' → p'.rest = p.rest ∧ p'.lex = p.lex

theorem Acted.Goes.of {α : Type} {x : Except Halt α} {f : α → Acted} (h : ∀ a, (f a).Goes p) :
    (Acted.of x f).Goes p := by
  intro p' hp'
  cases x with
  | error e => cases hp'
  | ok a => exact h a p' hp'

theorem Acted.Goes.stop {e : ParseEnd} : Acted.Goes p (.inr e) := nofun

theorem Acted.Goes.go {q : Parser} (hrest : q.rest = p.rest) (hlex : q.lex = p.lex) : Acted.Goes p (.inl q) := by
  intro p' hp'
  cases hp'
  exact ⟨hrest,hlex⟩

theorem reduceEntry_goes (p : Parser) (entry : Node) : (reduceEntry p entry).Goes p := by
  unfold reduceEntry
  split
  · exact .go rfl rfl
  · exact .of (fun _ => .go rfl rfl)
  · exact .stop

theorem reduceValue_goes (p : Parser) (node : Node) : (reduceValue p node).Goes p := by
  unfold reduceValue
  split
  · exact .go rfl rfl
  · exact .go rfl rfl
  · exact .of (fun _ => .go rfl rfl)
  · exact .go rfl rfl
  · exact .go rfl rfl
  · exact reduceEntry_goes { p with stack := _ } _
  · exact .stop

/-- A number is never empty. -/
theorem reduceNumber_goes {next : ℤ → Item} {p' : Parser} (h : reduceNumber p v next = .inl p') :
    p'.rest = p.rest ∧ v.text ≠ [] := by
  unfold reduceNumber at h
  cases hs : v.cString with
  | error e =>
    rw [hs] at h
    cases h
  | ok s =>
    rw [hs] at h
    unfold Acted.of at h
    dsimp only at h
    split at h
    · cases h
    · rename_i lval hlval
      cases h
      refine ⟨rfl,?_⟩
      intro hnil
      unfold CharBuf.cString at hs
      split at hs
      · cases hs
        rw [hnil] at hlval
        cases hlval
      · cases hs

theorem shiftStart_goes {p' : Parser} (h : shiftStart p t = .inl p') : p'.rest = p.rest ∧ t ≠ .eof ∧
    ∀ v, t ≠ .string v := by
  unfold shiftStart at h
  split at h
  · cases h
    exact ⟨rfl,nofun,nofun⟩
  · unfold Acted.of at h
    split at h <;> cases h
    exact ⟨rfl,nofun,nofun⟩
  · unfold Acted.of at h
    split at h <;> cases h
    exact ⟨rfl,nofun,nofun⟩
  · cases h

/-- An action leaves the input alone; the end of it ends the parse, and an empty string
leaves the globals alone. -/
theorem yyact_goes {p' : Parser} (h : yyact p t = .inl p') :
    p'.rest = p.rest ∧ t ≠ .eof ∧ ∀ v, t = .string v → v.text = [] → p'.lex = p.lex := by
  have hnumber {v : CharBuf} {q : Parser} {next : ℤ → Item} (h : reduceNumber q v next = .inl p')
    (hq : q.rest = p.rest) :
      p'.rest = p.rest ∧ Token.string v ≠ .eof ∧ ∀ w, Token.string v = .string w → w.text = [] → p'.lex = p.lex := by
    obtain ⟨hrest,hne⟩ := reduceNumber_goes h
    refine ⟨hrest.trans hq,nofun,?_⟩
    rintro w ⟨⟩ hnil
    exact (hne hnil).elim
  have hvalue {t : Token} {q : Parser} {node : Node} (h : reduceValue q node = .inl p') (ht : t ≠ .eof)
      (hrest : q.rest = p.rest) (hlex : q.lex = p.lex) : p'.rest = p.rest ∧ t ≠ .eof ∧ ∀ v, t = .string v →
          v.text = [] → p'.lex = p.lex := by
    obtain ⟨h1,h2⟩ := reduceValue_goes q node p' h
    exact ⟨h1.trans hrest,ht,fun _ _ _ => h2.trans hlex⟩
  have hstart (h : shiftStart p t = .inl p') :
      p'.rest = p.rest ∧ t ≠ .eof ∧ ∀ v, t = .string v → v.text = [] → p'.lex = p.lex := by
    obtain ⟨hrest,heof,hne⟩ := shiftStart_goes h
    exact ⟨hrest,heof,fun v hv => (hne v hv).elim⟩
  unfold yyact at h
  split at h
  case h_1 => cases h
  case h_8 =>
    cases h
    exact ⟨rfl,nofun,nofun⟩
  case h_12 =>
    cases hb : p.bstack with
    | nil =>
      rw [hb] at h
      cases h
    | cons node bstack =>
      rw [hb] at h
      change reduceValue _ _ = _ at h
      exact hvalue h nofun rfl rfl
  case h_13 =>
    cases hb : p.bstack with
    | nil =>
      rw [hb] at h
      cases h
    | cons node bstack =>
      rw [hb] at h
      change reduceValue _ _ = _ at h
      exact hvalue h nofun rfl rfl
  case h_18 => cases h
  all_goals first | exact hnumber h rfl | exact hvalue h nofun rfl rfl | exact hstart h

def Parser.work (p : Parser) : ℕ := 2 * p.rest.length + if p.lex.emptyDue then 1 else 0

theorem yystep_work {p' : Parser} (h : yystep p = .inl p') : p'.work < p.work := by
  unfold yystep at h
  obtain ⟨hrest,heof,hempty⟩ := yyact_goes h
  dsimp only at hrest heof hempty
  have hle : (if p'.lex.emptyDue then 1 else 0) ≤ 1 := by split <;> omega
  unfold Parser.work
  rw [hrest]
  by_cases hdue : p.lex.emptyDue = true
  · have hlex : yylex p.lex p.pos p.rest = ⟨.string ⟨[],bufSize 1⟩,p.lex.reset,p.pos,p.rest⟩ := lexLoop_due hdue
    rw [hlex] at hempty ⊢
    have hnot : p'.lex.emptyDue = false := by
      rw [hempty _ rfl rfl]
      rfl
    rw [hdue,hnot]
    exact Nat.lt_succ_self _
  · rcases lexLoop_rest (g := p.lex) (by simpa using hdue) with h | hlt | ⟨hne,-⟩
    · exact (heof h).elim
    · have hlt' : (yylex p.lex p.pos p.rest).rest.length < p.rest.length := hlt
      omega
    · exact (hne rfl).elim

/-- `yyparse` comes to an end on every input, whatever the globals are. -/
theorem bencParseBuf_terminates (lex : Lexer) (bstack : List Node) (buf : Bytes) :
    ∃ r, bencParseBuf lex bstack buf = some r := by
  apply runFor_of_measure (fun _ _ h => yystep_work h)
  have hle : (if lex.emptyDue then 1 else 0) ≤ 1 := by split <;> omega
  show 2 * buf.length + (if lex.emptyDue then 1 else 0) < 2 * buf.length + 2
  omega

theorem bencParseBuf_ends {lex : Lexer} {bstack : List Node} {buf : Bytes} {r : ParseEnd} :
    bencParseBuf lex bstack buf = some r ↔ Ends yystep (.start lex bstack buf) r := by
  refine ⟨runFor_ends,?_⟩
  intro h
  obtain ⟨r',hr'⟩ := bencParseBuf_terminates lex bstack buf
  rw [hr',h.unique (runFor_ends hr')]

theorem Parser.Fits.ends {r : ParseEnd} (h : p.Fits) (hr : Ends yystep p r) : Acted.Sound (.inr r) := by
  obtain ⟨q,hq,hstop⟩ := hr
  have hfits : q.Fits := by
    apply hq.invariant _ h
    intro a b ha hab
    have hsound := ha.step
    rwa [hab] at hsound
  rw [← hstop]
  exact hfits.step

end Tokens

theorem bencParseBuf_sound {buf : Bytes} {r : ParseEnd} (h : bencParseBuf {} [] buf = some r) : Acted.Sound (.inr r) :=
  (Parser.fits_start buf).ends (bencParseBuf_ends.mp h)

/-- Parses that succeed one after another leave the globals zero and the node stack empty, so
each gives what it gives in a fresh process; whatever is parsed next, the parser comes to an
end and takes no node from an empty stack. -/
theorem parses_independent (bufs : List Bytes) (roots : List Node) (lex : Lexer) (bstack : List Node)
    (h : bencParseAll {} [] bufs = some (roots,lex,bstack)) : lex = {} ∧ bstack = [] ∧
      List.Forall₂ (fun buf root => bencParseBuf {} [] buf = some (.accept root {} [])) bufs roots ∧
      ∀ buf, (∃ r, bencParseBuf lex bstack buf = some r) ∧ bencParseBuf lex bstack buf ≠ some (.halt .wild) := by
  induction bufs generalizing roots with
  | nil =>
    cases h
    refine ⟨rfl,rfl,.nil,?_⟩
    intro buf
    refine ⟨bencParseBuf_terminates {} [] buf,?_⟩
    intro hwild
    exact bencParseBuf_sound hwild rfl
  | cons buf bufs ih =>
    unfold bencParseAll at h
    split at h
    · rename_i root lex' bstack' hparse
      obtain ⟨hlex,hbstack⟩ := bencParseBuf_sound hparse
      cases hlex
      cases hbstack
      obtain ⟨⟨roots',rest⟩,hrest,hroots⟩ := Option.map_eq_some_iff.mp h
      cases hroots
      obtain ⟨rfl,rfl,hall,hnext⟩ := ih roots' hrest
      exact ⟨rfl,rfl,.cons hparse hall,hnext⟩
    · cases h

/-- A dictionary in front of stray bytes, then an integer. -/
theorem parses_independent_two : ∃ roots lex bstack,
    bencParseAll {} [] [ascii "d1:ali5eeexy",ascii "i7e"] = some (roots,lex,bstack) ∧ roots.length = 2 ∧ lex = {} ∧
      bstack = [] ∧ List.Forall₂ (fun buf root => bencParseBuf {} [] buf = some (.accept root {} []))
        [ascii "d1:ali5eeexy",ascii "i7e"] roots := by
  have hall : (bencParseAll {} [] [ascii "d1:ali5eeexy",ascii "i7e"]).map (fun r => r.1.length) = some 2 := by
    decide +kernel
  obtain ⟨⟨roots,lex,bstack⟩,hparse,hlen⟩ := Option.map_eq_some_iff.mp hall
  obtain ⟨hlex,hbstack,hparses,-⟩ := parses_independent _ _ _ _ hparse
  exact ⟨roots,lex,bstack,hparse,hlen,hlex,hbstack,hparses⟩

end Unworkable
