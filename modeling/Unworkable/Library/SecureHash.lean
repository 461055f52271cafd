import Unworkable.Library.BlockHash
import Unworkable.Library.Words

/-! # The secure hash algorithm

The hash of a message as the standard has it: the message is padded, its blocks are
compressed in turn, each by 80 rounds over a schedule that is worked out in front.
-/
namespace Unworkable.Library

namespace SecureHash

def ch (x y z : BitVec 32) : BitVec 32 := (x &&& y) ^^^ (~~~x &&& z)
def parity (x y z : BitVec 32) : BitVec 32 := x ^^^ y ^^^ z
def maj (x y z : BitVec 32) : BitVec 32 := (x &&& y) ^^^ (x &&& z) ^^^ (y &&& z)

/-- The logical function of round `t`. -/
def func (t : ℕ) : BitVec 32 → BitVec 32 → BitVec 32 → BitVec 32 :=
  if t < 20 then ch else if t < 40 then parity else if t < 60 then maj else parity

/-- The constant of round `t`. -/
def const (t : ℕ) : BitVec 32 :=
  if t < 20 then 0x5A827999 else if t < 40 then 0x6ED9EBA1 else if t < 60 then 0x8F1BBCDC else 0xCA62C1D6

def blockWord (block : Bytes) (i : ℕ) : BitVec 32 :=
  (block.getD (4 * i) 0).toBitVec ++ (block.getD (4 * i + 1) 0).toBitVec ++ (block.getD (4 * i + 2) 0).toBitVec ++
    (block.getD (4 * i + 3) 0).toBitVec

def schedule (block : Bytes) (t : ℕ) : BitVec 32 :=
  if t < 16 then blockWord block t
  else (schedule block (t - 3) ^^^ schedule block (t - 8) ^^^ schedule block (t - 14) ^^^ schedule
    block (t - 16)).rotateLeft 1
termination_by t

/-- The working variables, and the hash value. -/
structure Value where
  a : BitVec 32
  b : BitVec 32
  c : BitVec 32
  d : BitVec 32
  e : BitVec 32
  deriving DecidableEq

def initial : Value := ⟨0x67452301,0xEFCDAB89,0x98BADCFE,0x10325476,0xC3D2E1F0⟩

def round (block : Bytes) (v : Value) (t : ℕ) : Value where
  a := v.a.rotateLeft 5 + func t v.b v.c v.d + v.e + const t + schedule block t
  b := v.a
  c := v.b.rotateLeft 30
  d := v.c
  e := v.d

def rounds (block : Bytes) (n : ℕ) (v : Value) : Value := (List.range n).foldl (round block) v

def compress (v : Value) (block : Bytes) : Value :=
  let w := rounds block 80 v
  ⟨v.a + w.a,v.b + w.b,v.c + w.c,v.d + w.d,v.e + w.e⟩

/-- The zero bytes that bring a message and one byte more to 56 over a number of blocks. -/
def padding (len : ℕ) : ℕ := (119 - len % 64) % 64

def lengthField (bits : ℕ) : Bytes := (List.range 8).map (fun i => UInt8.ofNat (bits / 256 ^ (7 - i)))

/-- A message with its padding. Lengths are taken in 64 bits. -/
def pad (msg : Bytes) : Bytes :=
  msg ++ 0x80 :: List.replicate (padding msg.length) 0 ++ lengthField (8 * msg.length % 18446744073709551616)

def wordBytes (x : BitVec 32) : Bytes := (List.range 4).map (fun i => UInt8.ofNat (x.toNat / 256 ^ (3 - i)))

def Value.bytes (v : Value) : Bytes := wordBytes v.a ++ wordBytes v.b ++ wordBytes v.c ++ wordBytes v.d ++ wordBytes v.e

def hash (msg : Bytes) : Bytes := ((wholeBlocks 64 ((pad msg).length / 64) (pad msg)).foldl compress initial).bytes

section Schedule
variable {block : Bytes} {t : ℕ}

theorem schedule_low (h : t < 16) : schedule block t = blockWord block t := by
  rw [schedule,if_pos h]

theorem schedule_high (h : 16 ≤ t) : schedule block t =
    (schedule block (t - 3) ^^^ schedule block (t - 8) ^^^ schedule block (t - 14) ^^^ schedule block
      (t - 16)).rotateLeft 1 := by
  conv_lhs => rw [schedule,if_neg (by omega)]

theorem rounds_succ (block : Bytes) (n : ℕ) (v : Value) : rounds block (n + 1) v = round block
    (rounds block n v) n := by
  rw [rounds,List.range_succ,List.foldl_append]
  rfl

end Schedule

section Pad
variable (msg : Bytes)

theorem length_lengthField (bits : ℕ) : (lengthField bits).length = 8 := rfl

/-- A padded message is made of whole blocks. -/
theorem length_pad : (pad msg).length = 64 * ((pad msg).length / 64) := by
  have hlen : (pad msg).length = msg.length + 1 + padding msg.length + 8 := by
    simp only [pad,List.length_append,List.length_cons,List.length_replicate,length_lengthField]
    omega
  rw [hlen,padding]
  omega

/-- A hash of symbols that absorbs a padded message ends with the hash value. -/
theorem absorb_pad : absorb compress 64 (initial,[]) (pad msg) =
    ((wholeBlocks 64 ((pad msg).length / 64) (pad msg)).foldl compress initial,[]) :=
  absorb_blocks (by decide) _ (length_pad msg)

end Pad

end SecureHash

end Unworkable.Library
