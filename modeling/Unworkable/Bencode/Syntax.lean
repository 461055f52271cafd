import Unworkable.Bencode.Globals

/-! # What the bencode parser reads

The inputs of the parser, spelled out: characters that mean nothing are dropped in front of
a type letter, a number may be anything `strtonum` takes, and the number of a string may
also end with an `e` and be followed by further characters up to the colon.
-/
namespace Unworkable
open Library

def plainChar (c : UInt8) : Bool := c ∉ ([58,101,105,100,108] : Bytes)

/-- A string: its number, the characters from an `e` to the colon if there are any, and its
content. -/
structure SpelledStr where
  text : Bytes
  gap : Option Bytes
  content : Bytes

inductive Spelled where
  | int (junk text : Bytes)
  | str (s : SpelledStr)
  | list (junk : Bytes) (items : List Spelled)
  | dict (junk : Bytes) (entries : List (SpelledStr × Spelled))

def numberOf (text : Bytes) : Option ℤ := strtonum (text.takeWhile (· ≠ 0))

def SpelledStr.gapBytes (s : SpelledStr) : Bytes :=
  match s.gap with
  | none => []
  | some k => 101 :: k

def SpelledStr.bytes (s : SpelledStr) : Bytes := s.text ++ s.gapBytes ++ 58 :: s.content

def SpelledStr.buf (s : SpelledStr) : CharBuf := ⟨s.content,bufSize s.content.length⟩

/-- The number is the length of the content. With a gap, the string must not be over before
the colon. -/
structure SpelledStr.Ok (s : SpelledStr) : Prop where
  number : numberOf s.text = some s.content.length
  gap : ∀ k, s.gap = some k → 58 ∉ k ∧ (s.content = [] ∨ k.length + 1 < s.content.length)

/-- A string that does not come first in a dictionary. -/
structure SpelledStr.Later (s : SpelledStr) : Prop extends s.Ok where
  text : ∀ c ∈ s.text, plainChar c = true

structure SpelledStr.First (s : SpelledStr) : Prop extends s.Ok where
  text : 58 ∉ s.text
  no_gap : s.gap = none

mutual
def Spelled.bytes : Spelled → Bytes
  | .int junk text => junk ++ 105 :: (text ++ [101])
  | .str s => s.bytes
  | .list junk items => junk ++ 108 :: (bytesAll items ++ [101])
  | .dict junk entries => junk ++ 100 :: (bytesEntries entries ++ [101])

def bytesAll : List Spelled → Bytes
  | [] => []
  | x :: xs => x.bytes ++ bytesAll xs

def bytesEntries : List (SpelledStr × Spelled) → Bytes
  | [] => []
  | (k,x) :: es => k.bytes ++ (x.bytes ++ bytesEntries es)
end

mutual
def Spelled.node (pos : ℕ) : Spelled → Node
  | .int _ text => .int ((numberOf text).getD 0)
  | .str s => .string s.content.length s.buf
  | .list junk items => .list (nodesAll (pos + (junk.length + 1)) items)
  | .dict junk entries => .dict (nodesEntries (pos + (junk.length + 1)) entries)
      (pos + (junk.length + 1) + ((bytesEntries entries).length + 1))

def nodesAll (pos : ℕ) : List Spelled → List Node
  | [] => []
  | x :: xs => x.node pos :: nodesAll (pos + x.bytes.length) xs

def nodesEntries (pos : ℕ) : List (SpelledStr × Spelled) → List Node
  | [] => []
  | (k,x) :: es => .entry k.buf (x.node (pos + k.bytes.length)) ::
    nodesEntries (pos + k.bytes.length + x.bytes.length) es
end

mutual
def Spelled.Ok : ℕ → Spelled → Prop
  | _,.int junk text => (∀ c ∈ junk, plainChar c = true) ∧ (∀ c ∈ text, plainChar c = true) ∧ (numberOf text).isSome
  | _,.str s => s.Later
  | 0,.list _ _ => False
  | d + 1,.list junk items => (∀ c ∈ junk, plainChar c = true) ∧ items ≠ [] ∧ OkAll d items
  | 0,.dict _ _ => False
  | d + 1,.dict junk entries => (∀ c ∈ junk, plainChar c = true) ∧ OkEntries d entries

def OkAll (d : ℕ) : List Spelled → Prop
  | [] => True
  | x :: xs => x.Ok d ∧ OkAll d xs

def OkEntries (d : ℕ) : List (SpelledStr × Spelled) → Prop
  | [] => False
  | (k,x) :: es => k.First ∧ x.Ok d ∧ OkLater d es

def OkLater (d : ℕ) : List (SpelledStr × Spelled) → Prop
  | [] => True
  | (k,x) :: es => k.Later ∧ x.Ok d ∧ OkLater d es
end

end Unworkable
