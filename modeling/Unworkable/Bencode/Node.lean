import Unworkable.Library.Decimal
import Unworkable.Torrent.State

/-! # Bencode nodes

The tree of `struct benc_node`s. The flags of a node are its constructor; the type bit a
dictionary entry also carries is the one of its value.
-/
namespace Unworkable
open Library

/-- A buffer of the lexer: the characters stored and the bytes allocated, the rest of which
are zero. -/
structure CharBuf where
  text : Bytes
  size : ℕ
  deriving DecidableEq, Repr

/-- The C string at the start of a buffer. Without a terminator it does not end inside. -/
def CharBuf.cString (b : CharBuf) : Except Halt Bytes :=
  if 0 ∈ b.text ∨ b.text.length < b.size then .ok (b.text.takeWhile (· ≠ 0)) else .error .wild

theorem CharBuf.cString_of_lt {b : CharBuf} (h : b.text.length < b.size) : b.cString = .ok (b.text.takeWhile (· ≠ 0)) :=
  if_pos (.inr h)

inductive Node where
  | string (len : ℕ) (value : CharBuf)
  | int (number : ℤ)
  | list (children : List Node)
  | dict (children : List Node) (stop : ℕ)
  | entry (key : CharBuf) (value : Node)

def Node.children : Node → List Node
  | .list ns => ns
  | .dict ns _ => ns
  | _ => []

def Node.setChildren (ns : List Node) : Node → Node
  | .list _ => .list ns
  | .dict _ stop => .dict ns stop
  | n => n

/-- `node->end = len`. -/
def Node.setStop (stop : ℕ) : Node → Node
  | .dict ns _ => .dict ns stop
  | n => n

def bencNodeAdd (node new : Node) : Node := node.setChildren (node.children ++ [new])
def bencNodeAddHead (node new : Node) : Node := node.setChildren (new :: node.children)
def bencRootCreate : Node := .list []

/-- `strcmp` with the name of a key: as long as that is shorter than any buffer, it stops
before the end of the buffer. -/
def CharBuf.spells (b : CharBuf) (key : Bytes) : Bool := b.text.takeWhile (· ≠ 0) = key

mutual
def bencNodeFind (key : Bytes) : Node → Option Node
  | .entry k v => if k.spells key then some v else findIn key v
  | .list ns => findAmong key ns
  | .dict ns _ => findAmong key ns
  | .string _ _ => none
  | .int _ => none

def findIn (key : Bytes) : Node → Option Node
  | .list ns => findAmong key ns
  | .dict ns _ => findAmong key ns
  | .entry _ _ => none
  | .string _ _ => none
  | .int _ => none

def findAmong (key : Bytes) : List Node → Option Node
  | [] => none
  | n :: ns => (bencNodeFind key n).or (findAmong key ns)
end

section Children
variable (ns : List Node) (n : Node) (stop : ℕ)

@[simp] theorem bencNodeAdd_list : bencNodeAdd (.list ns) n = .list (ns ++ [n]) := rfl
@[simp] theorem bencNodeAdd_dict : bencNodeAdd (.dict ns stop) n = .dict (ns ++ [n]) stop := rfl
@[simp] theorem bencNodeAddHead_list : bencNodeAddHead (.list ns) n = .list (n :: ns) := rfl
@[simp] theorem bencNodeAddHead_dict : bencNodeAddHead (.dict ns stop) n = .dict (n :: ns) stop := rfl

end Children

end Unworkable
