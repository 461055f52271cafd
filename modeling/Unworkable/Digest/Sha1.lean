import Unworkable.Library.Region
import Mathlib.Data.Nat.Bitwise

/-! # SHA-1

`SHA1Transform` with its unrolled rounds, and the context that takes its input in buffers. The
rounds are the calls of the source in their order, each with the working variables it names. A
block is the union of 64 bytes and 16 words, read in the byte order of the machine.
-/
namespace Unworkable
open Library

abbrev Word := BitVec 32

inductive ByteOrder where
  | littleEndian
  | bigEndian
  deriving DecidableEq, Repr

def rol (value : Word) (bits : ℕ) : Word := (value <<< bits) ||| (value >>> (32 - bits))

def ByteOrder.word : ByteOrder → (b₀ b₁ b₂ b₃ : UInt8) → Word
  | .littleEndian,b₀,b₁,b₂,b₃ => b₃.toBitVec ++ b₂.toBitVec ++ b₁.toBitVec ++ b₀.toBitVec
  | .bigEndian,b₀,b₁,b₂,b₃ => b₀.toBitVec ++ b₁.toBitVec ++ b₂.toBitVec ++ b₃.toBitVec

/-- `block->l[i]` of a block filled by `memcpy`. -/
def ByteOrder.wordAt (o : ByteOrder) (buffer : Bytes) (i : ℕ) : Word :=
  o.word (buffer.getD (4 * i) 0) (buffer.getD (4 * i + 1) 0) (buffer.getD (4 * i + 2) 0) (buffer.getD (4 * i + 3) 0)

def ByteOrder.load (o : ByteOrder) (buffer : Bytes) : List Word := (List.range 16).map (o.wordAt buffer)

/-- `blk0`, with the block as its assignment leaves it. -/
def blk0 (o : ByteOrder) (l : List Word) (i : ℕ) : Word × List Word :=
  match o with
  | .littleEndian =>
    let x := (rol (l.getD i 0) 24 &&& 0xFF00FF00) ||| (rol (l.getD i 0) 8 &&& 0x00FF00FF)
    (x,l.set i x)
  | .bigEndian => (l.getD i 0,l)

/-- `blk`, with the block as its assignment leaves it. -/
def blk (l : List Word) (i : ℕ) : Word × List Word :=
  let x := rol (l.getD ((i + 13) &&& 15) 0 ^^^ l.getD ((i + 8) &&& 15) 0 ^^^ l.getD ((i + 2) &&& 15) 0 ^^^
    l.getD (i &&& 15) 0) 1
  (x,l.set (i &&& 15) x)

/-- The working variables, and the five words of `context->state`. -/
structure Regs where
  a : Word
  b : Word
  c : Word
  d : Word
  e : Word
  deriving DecidableEq, Repr

inductive Reg where
  | a
  | b
  | c
  | d
  | e
  deriving DecidableEq, Repr

def Regs.get (r : Regs) : Reg → Word
  | .a => r.a
  | .b => r.b
  | .c => r.c
  | .d => r.d
  | .e => r.e

def Regs.set (r : Regs) (x : Word) : Reg → Regs
  | .a => { r with a := x }
  | .b => { r with b := x }
  | .c => { r with c := x }
  | .d => { r with d := x }
  | .e => { r with e := x }

/-- The macros `R0` to `R4`. -/
inductive RoundOp where
  | R0
  | R1
  | R2
  | R3
  | R4
  deriving DecidableEq, Repr

def RoundOp.mix : RoundOp → (w x y : Word) → Word
  | .R0,w,x,y => (w &&& (x ^^^ y)) ^^^ y
  | .R1,w,x,y => (w &&& (x ^^^ y)) ^^^ y
  | .R2,w,x,y => w ^^^ x ^^^ y
  | .R3,w,x,y => ((w ||| x) &&& y) ||| (w &&& x)
  | .R4,w,x,y => w ^^^ x ^^^ y

def RoundOp.const : RoundOp → Word
  | .R0 => 0x5A827999
  | .R1 => 0x5A827999
  | .R2 => 0x6ED9EBA1
  | .R3 => 0x8F1BBCDC
  | .R4 => 0xCA62C1D6

def RoundOp.expand (o : ByteOrder) : RoundOp → List Word → ℕ → Word × List Word
  | .R0 => blk0 o
  | .R1 => blk
  | .R2 => blk
  | .R3 => blk
  | .R4 => blk

/-- A use of a round macro: `R(v,w,x,y,z,i)`. -/
structure RoundCall where
  op : RoundOp
  v : Reg
  w : Reg
  x : Reg
  y : Reg
  z : Reg
  i : ℕ
  deriving DecidableEq, Repr

/-- `z+=..;w=rol(w,30);`. -/
def RoundCall.run (o : ByteOrder) (s : Regs × List Word) (q : RoundCall) : Regs × List Word :=
  let (x,l) := q.op.expand o s.2 q.i
  let r := s.1.set (s.1.get q.z + (q.op.mix (s.1.get q.w) (s.1.get q.x) (s.1.get q.y) + x + q.op.const +
    rol (s.1.get q.v) 5)) q.z
  (r.set (rol (r.get q.w) 30) q.w,l)

section Rounds
open RoundOp Reg

/-- "4 rounds of 20 operations each. Loop unrolled." -/
def sha1Rounds : List RoundCall := [
  ⟨R0,a,b,c,d,e,0⟩,⟨R0,e,a,b,c,d,1⟩,⟨R0,d,e,a,b,c,2⟩,⟨R0,c,d,e,a,b,3⟩,
  ⟨R0,b,c,d,e,a,4⟩,⟨R0,a,b,c,d,e,5⟩,⟨R0,e,a,b,c,d,6⟩,⟨R0,d,e,a,b,c,7⟩,
  ⟨R0,c,d,e,a,b,8⟩,⟨R0,b,c,d,e,a,9⟩,⟨R0,a,b,c,d,e,10⟩,⟨R0,e,a,b,c,d,11⟩,
  ⟨R0,d,e,a,b,c,12⟩,⟨R0,c,d,e,a,b,13⟩,⟨R0,b,c,d,e,a,14⟩,⟨R0,a,b,c,d,e,15⟩,
  ⟨R1,e,a,b,c,d,16⟩,⟨R1,d,e,a,b,c,17⟩,⟨R1,c,d,e,a,b,18⟩,⟨R1,b,c,d,e,a,19⟩,
  ⟨R2,a,b,c,d,e,20⟩,⟨R2,e,a,b,c,d,21⟩,⟨R2,d,e,a,b,c,22⟩,⟨R2,c,d,e,a,b,23⟩,
  ⟨R2,b,c,d,e,a,24⟩,⟨R2,a,b,c,d,e,25⟩,⟨R2,e,a,b,c,d,26⟩,⟨R2,d,e,a,b,c,27⟩,
  ⟨R2,c,d,e,a,b,28⟩,⟨R2,b,c,d,e,a,29⟩,⟨R2,a,b,c,d,e,30⟩,⟨R2,e,a,b,c,d,31⟩,
  ⟨R2,d,e,a,b,c,32⟩,⟨R2,c,d,e,a,b,33⟩,⟨R2,b,c,d,e,a,34⟩,⟨R2,a,b,c,d,e,35⟩,
  ⟨R2,e,a,b,c,d,36⟩,⟨R2,d,e,a,b,c,37⟩,⟨R2,c,d,e,a,b,38⟩,⟨R2,b,c,d,e,a,39⟩,
  ⟨R3,a,b,c,d,e,40⟩,⟨R3,e,a,b,c,d,41⟩,⟨R3,d,e,a,b,c,42⟩,⟨R3,c,d,e,a,b,43⟩,
  ⟨R3,b,c,d,e,a,44⟩,⟨R3,a,b,c,d,e,45⟩,⟨R3,e,a,b,c,d,46⟩,⟨R3,d,e,a,b,c,47⟩,
  ⟨R3,c,d,e,a,b,48⟩,⟨R3,b,c,d,e,a,49⟩,⟨R3,a,b,c,d,e,50⟩,⟨R3,e,a,b,c,d,51⟩,
  ⟨R3,d,e,a,b,c,52⟩,⟨R3,c,d,e,a,b,53⟩,⟨R3,b,c,d,e,a,54⟩,⟨R3,a,b,c,d,e,55⟩,
  ⟨R3,e,a,b,c,d,56⟩,⟨R3,d,e,a,b,c,57⟩,⟨R3,c,d,e,a,b,58⟩,⟨R3,b,c,d,e,a,59⟩,
  ⟨R4,a,b,c,d,e,60⟩,⟨R4,e,a,b,c,d,61⟩,⟨R4,d,e,a,b,c,62⟩,⟨R4,c,d,e,a,b,63⟩,
  ⟨R4,b,c,d,e,a,64⟩,⟨R4,a,b,c,d,e,65⟩,⟨R4,e,a,b,c,d,66⟩,⟨R4,d,e,a,b,c,67⟩,
  ⟨R4,c,d,e,a,b,68⟩,⟨R4,b,c,d,e,a,69⟩,⟨R4,a,b,c,d,e,70⟩,⟨R4,e,a,b,c,d,71⟩,
  ⟨R4,d,e,a,b,c,72⟩,⟨R4,c,d,e,a,b,73⟩,⟨R4,b,c,d,e,a,74⟩,⟨R4,a,b,c,d,e,75⟩,
  ⟨R4,e,a,b,c,d,76⟩,⟨R4,d,e,a,b,c,77⟩,⟨R4,c,d,e,a,b,78⟩,⟨R4,b,c,d,e,a,79⟩]

end Rounds

def sha1Transform (o : ByteOrder) (state : Regs) (buffer : Bytes) : Regs :=
  let r := (sha1Rounds.foldl (RoundCall.run o) (state,o.load buffer)).1
  ⟨state.a + r.a,state.b + r.b,state.c + r.c,state.d + r.d,state.e + r.e⟩

/-- `context->count += len << 3`, of 64 bits. -/
def addCount (count len : ℕ) : ℕ := (count + (len <<< 3) % 18446744073709551616) % 18446744073709551616

theorem addCount_eq (count len : ℕ) : addCount count len = (count + 8 * len) % 18446744073709551616 := by
  unfold addCount
  rw [Nat.shiftLeft_eq,Nat.add_mod_mod,Nat.mul_comm]

theorem addCount_dvd {count : ℕ} (len : ℕ) (h : 8 ∣ count) : 8 ∣ addCount count len := by
  rw [addCount_eq]
  omega

theorem addCount_lt (count len : ℕ) : addCount count len < 18446744073709551616 := Nat.mod_lt _ (by decide)

/-- `SHA1_CTX`. The count is one of bits, of whole bytes. -/
structure Sha1Ctx where
  state : Regs
  count : ℕ
  buffer : Bytes
  count_bytes : 8 ∣ count
  count_lt : count < 18446744073709551616
  length_buffer : buffer.length = 64

/-- `SHA1Init`: the buffer stays as it is. -/
def sha1Init (ctx : Sha1Ctx) : Sha1Ctx :=
  { ctx with
    state := ⟨0x67452301,0xEFCDAB89,0x98BADCFE,0x10325476,0xC3D2E1F0⟩
    count := 0
    count_bytes := Nat.dvd_zero 8
    count_lt := by decide }

/-- The loop of `SHA1Update` over the whole blocks behind the first one. -/
def transformLoop (o : ByteOrder) (data : Bytes) (state : Regs) (i : ℕ) : Regs × ℕ :=
  if i + 63 < data.length then transformLoop o data (sha1Transform o state (window data i 64)) (i + 64) else (state,i)
termination_by data.length - i

theorem transformLoop_rest (o : ByteOrder) (data : Bytes) (state : Regs) (i : ℕ) :
    (data.drop (transformLoop o data state i).2).length ≤ 63 := by
  fun_induction transformLoop o data state i with
  | case1 state i h ih => exact ih
  | case2 state i h =>
    rw [List.length_drop]
    omega

/-- The number of bytes that wait in the buffer. -/
def Sha1Ctx.waiting (ctx : Sha1Ctx) : ℕ := (ctx.count >>> 3) &&& 63

theorem Sha1Ctx.waiting_eq (ctx : Sha1Ctx) : ctx.waiting = ctx.count / 8 % 64 := by
  unfold waiting
  rw [Nat.shiftRight_eq_div_pow]
  exact Nat.and_two_pow_sub_one_eq_mod _ 6

theorem Sha1Ctx.waiting_lt (ctx : Sha1Ctx) : ctx.waiting < 64 := by
  rw [ctx.waiting_eq]
  exact Nat.mod_lt _ (by decide)

def Sha1Ctx.filled (ctx : Sha1Ctx) (data : Bytes) : Bytes := splice ctx.buffer ctx.waiting
    (data.take (64 - ctx.waiting))

theorem Sha1Ctx.length_filled (ctx : Sha1Ctx) (data : Bytes) : (ctx.filled data).length = 64 := by
  have hlt := ctx.waiting_lt
  have hbuf := ctx.length_buffer
  rw [← hbuf]
  apply length_splice
  rw [List.length_take]
  omega

/-- The state behind the blocks that data complete, and where the rest of the data starts. -/
def Sha1Ctx.transformed (o : ByteOrder) (ctx : Sha1Ctx) (data : Bytes) : Regs × ℕ :=
  transformLoop o data (sha1Transform o ctx.state (ctx.filled data)) (64 - ctx.waiting)

def sha1Update (o : ByteOrder) (ctx : Sha1Ctx) (data : Bytes) : Sha1Ctx :=
  if h : ctx.waiting + data.length > 63 then
    { state := (ctx.transformed o data).1
      count := addCount ctx.count data.length
      buffer := splice (ctx.filled data) 0 (data.drop (ctx.transformed o data).2)
      count_bytes := addCount_dvd _ ctx.count_bytes
      count_lt := addCount_lt _ _
      length_buffer := by
        rw [← ctx.length_filled data]
        apply length_splice
        have hrest : (data.drop (ctx.transformed o data).2).length ≤ 63 := transformLoop_rest o data _ _
        rw [ctx.length_filled]
        omega }
  else
    { state := ctx.state
      count := addCount ctx.count data.length
      buffer := splice ctx.buffer ctx.waiting data
      count_bytes := addCount_dvd _ ctx.count_bytes
      count_lt := addCount_lt _ _
      length_buffer := by
        rw [← ctx.length_buffer]
        apply length_splice
        rw [ctx.length_buffer]
        omega }

theorem sha1Update_count (o : ByteOrder) (ctx : Sha1Ctx) (data : Bytes) :
    (sha1Update o ctx data).count = addCount ctx.count data.length := by
  unfold sha1Update
  split <;> rfl

/-- A mask of whole bytes. -/
theorem and_504 {n : ℕ} (h : 8 ∣ n) : n &&& 504 = n % 512 := by
  obtain ⟨k,rfl⟩ := h
  have hshift : 8 * k &&& 504 = (k &&& 63) <<< 3 := by
    rw [Nat.shiftLeft_and_distrib,Nat.shiftLeft_eq,Nat.mul_comm]
    rfl
  have hmod : k &&& 63 = k % 64 := Nat.and_two_pow_sub_one_eq_mod k 6
  rw [hshift,hmod,Nat.shiftLeft_eq]
  omega

def Sha1Ctx.zeros (ctx : Sha1Ctx) : ℕ := (960 - ctx.count % 512) % 512 / 8

theorem sha1Update_zeros (o : ByteOrder) (ctx : Sha1Ctx) (h : (ctx.count &&& 504) ≠ 448) :
    (sha1Update o ctx [0]).zeros + 1 = ctx.zeros := by
  have hdvd := ctx.count_bytes
  rw [and_504 hdvd] at h
  unfold Sha1Ctx.zeros
  rw [sha1Update_count,addCount_eq,List.length_singleton]
  omega

/-- `while ((context->count & 504) != 448)`. -/
def padLoop (o : ByteOrder) (ctx : Sha1Ctx) : Sha1Ctx :=
  if _ : (ctx.count &&& 504) ≠ 448 then padLoop o (sha1Update o ctx [0]) else ctx
termination_by ctx.zeros
decreasing_by
  rename_i h
  have hless := sha1Update_zeros o ctx h
  omega

def finalcount (count : ℕ) : Bytes := (List.range 8).map
    (fun i => UInt8.ofNat ((count >>> ((7 - (i &&& 7)) * 8)) &&& 255))

def sha1Pad (o : ByteOrder) (ctx : Sha1Ctx) : Sha1Ctx :=
  sha1Update o (padLoop o (sha1Update o ctx [128])) (finalcount ctx.count)

/-- `context->state[i]`. -/
def Regs.word (r : Regs) : ℕ → Word
  | 0 => r.a
  | 1 => r.b
  | 2 => r.c
  | 3 => r.d
  | _ => r.e

/-- The loop of `SHA1Final`. -/
def digestBytes (state : Regs) : Bytes :=
  (List.range 20).map (fun i => UInt8.ofNat ((state.word (i >>> 2) >>> ((3 - (i &&& 3)) * 8)) &&& 255).toNat)

def Sha1Ctx.wiped : Sha1Ctx where
  state := ⟨0,0,0,0,0⟩
  count := 0
  buffer := List.replicate 64 0
  count_bytes := Nat.dvd_zero 8
  count_lt := by decide
  length_buffer := List.length_replicate

/-- `SHA1Final`, with a digest to write to. -/
def sha1Final (o : ByteOrder) (ctx : Sha1Ctx) : Bytes × Sha1Ctx := (digestBytes (sha1Pad o ctx).state,.wiped)

end Unworkable
