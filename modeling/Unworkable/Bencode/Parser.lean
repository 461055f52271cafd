import Unworkable.Bencode.Lexer
import Unworkable.Library.Machine
import Unworkable.Library.Outcome

/-! # The bencode parser

The automaton yacc makes of the grammar, from one token to the next. An entry of its stack
is a state with the value of the symbol that led there. States whose only action is one
reduction act without a token: the symbols they complete are reduced as soon as they are on
the stack, and the marker that sets `bstrflag` is there before the first key of a dictionary
is read, but after the first token of any other string.
-/
namespace Unworkable
open Library

def bencStackSize : ℕ := 16

inductive Item where
  | bencode
  | intStart
  /-- A number behind `INT_START`. -/
  | intNumber (n : ℤ)
  | bstrflag
  /-- A number behind `bstrflag`. -/
  | strNumber (n : ℤ)
  | colon
  /-- `LIST_START` and the marker that pushes the node. -/
  | listMark
  | listEntries (first : Node)
  | dictMark
  | dictEntries (first : Node)
  /-- The `bstring` an entry starts with. -/
  | key (node : Node)

/-- The state of `yyparse` between two tokens, the globals included. -/
structure Parser where
  lex : Lexer
  bstack : List Node
  root : Node
  stack : List Item
  pos : ℕ
  rest : Bytes

/-- How `yyparse` ends. -/
inductive ParseEnd where
  /-- It returns 0. -/
  | accept (root : Node) (lex : Lexer) (bstack : List Node)
  /-- It returns 1, after a syntax error or `YYERROR`. -/
  | abort
  | halt (h : Halt)

def bencStackPush (bstack : List Node) (node : Node) : Except Halt (List Node) :=
  if bstack.length = bencStackSize - 1 then .error (.errx "benc_stack_push: stack overflow") else .ok (node :: bstack)

def bencStackPop : List Node → Except Halt (Node × List Node)
  | [] => .error .wild
  | node :: bstack => .ok (node,bstack)

/-- `benc_node_add(benc_stack_peek(), new)`. -/
def bencStackAdd (new : Node) : List Node → Except Halt (List Node)
  | [] => .error .wild
  | node :: bstack => .ok (bencNodeAdd node new :: bstack)

abbrev Acted := Parser ⊕ ParseEnd

def Acted.of {α : Type} (x : Except Halt α) (f : α → Acted) : Acted :=
  match x with
  | .ok a => f a
  | .error h => .inr (.halt h)

/-- A `bdict_entry` is complete. -/
def reduceEntry (p : Parser) (entry : Node) : Acted :=
  match p.stack with
  | .dictMark :: _ => .inl { p with stack := .dictEntries entry :: p.stack }
  | .dictEntries _ :: _ => .of (bencStackAdd entry p.bstack) fun bstack => .inl { p with bstack := bstack }
  | _ => .inr .abort

/-- A `bstring`, `bint`, `blist` or `bdict` is complete. -/
def reduceValue (p : Parser) (node : Node) : Acted :=
  match p.stack with
  | .bencode :: _ => .inl { p with root := bencNodeAdd p.root node }
  | .listMark :: _ => .inl { p with stack := .listEntries node :: p.stack }
  | .listEntries _ :: _ => .of (bencStackAdd node p.bstack) fun bstack => .inl { p with bstack := bstack }
  | .dictMark :: _ => .inl { p with stack := .key node :: p.stack }
  | .dictEntries _ :: _ => .inl { p with stack := .key node :: p.stack }
  | .key (.string _ key) :: stack => reduceEntry { p with stack := stack } (.entry key node)
  | _ => .inr .abort

/-- The action of `number`, in a state that goes on with `next`. -/
def reduceNumber (p : Parser) (value : CharBuf) (next : ℤ → Item) : Acted :=
  .of value.cString fun s => match strtonum s with
  | none => .inr .abort
  | some lval => .inl { p with
      lex := if p.lex.bstrflag then { p.lex with bstrlen := lval } else p.lex
      stack := next lval :: p.stack }

/-- The empty reduction in front of a `bstring`. -/
def reduceBstrflag (p : Parser) : Parser :=
  { p with lex := { p.lex with bstrflag := true }, stack := .bstrflag :: p.stack }

/-- `INT_START`, `LIST_START` or `DICT_START` where a value can be. -/
def shiftStart (p : Parser) : Token → Acted
  | .intStart => .inl { p with stack := .intStart :: p.stack }
  | .listStart => .of (bencStackPush p.bstack (.list [])) fun bstack =>
      .inl { p with bstack := bstack, stack := .listMark :: p.stack }
  | .dictStart => .of (bencStackPush p.bstack (.dict [] 0)) fun bstack =>
      .inl (reduceBstrflag { p with bstack := bstack, stack := .dictMark :: p.stack })
  | _ => .inr .abort

def yyact (p : Parser) (t : Token) : Acted :=
  match p.stack,t with
  | .bencode :: _,.eof => .inr (.accept p.root p.lex p.bstack)
  | .bencode :: _,.string value => reduceNumber (reduceBstrflag p) value .strNumber
  | .listMark :: _,.string value => reduceNumber (reduceBstrflag p) value .strNumber
  | .listEntries _ :: _,.string value => reduceNumber (reduceBstrflag p) value .strNumber
  | .dictEntries _ :: _,.string value => reduceNumber (reduceBstrflag p) value .strNumber
  | .key _ :: _,.string value => reduceNumber (reduceBstrflag p) value .strNumber
  | .bstrflag :: _,.string value => reduceNumber p value .strNumber
  | .strNumber _ :: _,.colon => .inl { p with stack := .colon :: p.stack }
  | .colon :: .strNumber n :: .bstrflag :: stack,.string value =>
    reduceValue { p with stack := stack } (.string (n % 18446744073709551616).toNat value)
  | .intStart :: _,.string value => reduceNumber p value .intNumber
  | .intNumber n :: .intStart :: stack,.stop _ => reduceValue { p with stack := stack } (.int n)
  | .listEntries first :: .listMark :: stack,.stop _ =>
    .of (bencStackPop p.bstack) fun (node,bstack) =>
      reduceValue { p with bstack := bstack, stack := stack } (bencNodeAddHead node first)
  | .dictEntries first :: .dictMark :: stack,.stop len =>
    .of (bencStackPop p.bstack) fun (node,bstack) =>
      reduceValue { p with bstack := bstack, stack := stack } (bencNodeAddHead (node.setStop len) first)
  | .bencode :: _,t => shiftStart p t
  | .listMark :: _,t => shiftStart p t
  | .listEntries _ :: _,t => shiftStart p t
  | .key _ :: _,t => shiftStart p t
  | _,_ => .inr .abort

/-- One turn of `yyparse`: a token is read and acted on. -/
def yystep (p : Parser) : Acted :=
  let l := yylex p.lex p.pos p.rest
  yyact { p with lex := l.lex, pos := l.pos, rest := l.rest } l.token

/-- `yyparse` for a number of tokens. -/
def yyparse (tokens : ℕ) (p : Parser) : Option ParseEnd := runFor yystep tokens p

/-- The parser on a new buffer. Its globals are as the last parse left them. -/
def Parser.start (lex : Lexer) (bstack : List Node) (buf : Bytes) : Parser where
  lex := lex
  bstack := bstack
  root := bencRootCreate
  stack := [.bencode]
  pos := 0
  rest := buf

/-- `benc_parse_buf` on a fresh root. The number of tokens is never short. -/
def bencParseBuf (lex : Lexer) (bstack : List Node) (buf : Bytes) : Option ParseEnd :=
  yyparse (2 * buf.length + 2) (.start lex bstack buf)

/-- Parses one after another in a process: a parse that fails is its last. -/
def bencParseAll (lex : Lexer) (bstack : List Node) : List Bytes → Option (List Node × Lexer × List Node)
  | [] => some ([],lex,bstack)
  | buf :: bufs => match bencParseBuf lex bstack buf with
    | some (.accept root lex bstack) => (bencParseAll lex bstack bufs).map (fun r => (root :: r.1,r.2))
    | _ => none

end Unworkable
