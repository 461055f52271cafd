import Unworkable.Digest.Rounds

/-! # The digest of a stream

A context has taken in a message if its count is the message's length in bits and its buffer
holds what the whole blocks leave over. Updates of any lengths keep this, so the digest is
that of the data one after another.
-/
namespace Unworkable
open Library

/-- The context has taken in `msg` since it was initialised. -/
structure Sha1Ctx.Holds (ctx : Sha1Ctx) (msg : Bytes) : Prop where
  count : ctx.count = 8 * msg.length % 18446744073709551616
  absorbed : absorb SecureHash.compress 64 (SecureHash.initial,[]) msg = (ctx.state.value,ctx.buffer.take ctx.waiting)

section Update
variable {o : ByteOrder} {ctx : Sha1Ctx} {msg : Bytes}

theorem sha1Init_holds (ctx : Sha1Ctx) : (sha1Init ctx).Holds [] where
  count := rfl
  absorbed := by
    have hcount : (sha1Init ctx).count = 0 := rfl
    rw [Sha1Ctx.waiting_eq,hcount,Nat.zero_div,Nat.zero_mod,List.take_zero]
    rfl

theorem Sha1Ctx.Holds.waiting (h : ctx.Holds msg) : ctx.waiting = msg.length % 64 := by
  rw [ctx.waiting_eq,h.count]
  omega

theorem Sha1Ctx.length_pending (ctx : Sha1Ctx) : (ctx.buffer.take ctx.waiting).length = ctx.waiting := by
  have hlt := ctx.waiting_lt
  rw [List.length_take,ctx.length_buffer]
  omega

theorem Sha1Ctx.filled_eq (ctx : Sha1Ctx) {data : Bytes} (h : 64 ≤ ctx.waiting + data.length) :
    ctx.filled data = ctx.buffer.take ctx.waiting ++ data.take (64 - ctx.waiting) := by
  have hlt := ctx.waiting_lt
  have hlen : (data.take (64 - ctx.waiting)).length = 64 - ctx.waiting := by
    rw [List.length_take]
    omega
  have htake := @take_splice _ ctx.buffer ctx.waiting (data.take (64 - ctx.waiting)) (by rw [ctx.length_buffer]; omega)
  rwa [List.take_of_length_le] at htake
  rw [← Sha1Ctx.filled,ctx.length_filled]
  omega

/-- The loop compresses whole blocks of the data. -/
theorem transformLoop_absorb (o : ByteOrder) (data : Bytes) (s : Regs) (i : ℕ) :
    absorb SecureHash.compress 64 (s.value,[]) (data.drop i) = absorb SecureHash.compress 64
      ((transformLoop o data s i).1.value,[]) (data.drop (transformLoop o data s i).2) := by
  fun_induction transformLoop o data s i with
  | case1 s i h ih =>
    have hsplit : data.drop i = window data i 64 ++ data.drop (i + 64) := by
      rw [window,← List.drop_drop,List.take_append_drop]
    have hlen : (window data i 64).length = 64 := length_window (by omega)
    have hfill : absorb SecureHash.compress 64 (s.value,[]) (window data i 64) =
        ((sha1Transform o s (window data i 64)).value,[]) := by
      rw [sha1Transform_value]
      exact absorb_fill (by rw [hlen]; rfl) (List.ne_nil_of_length_pos (by omega))
    rw [hsplit,absorb_append,hfill]
    exact ih
  | case2 s i h => rfl

/-- One update, of any length. -/
theorem sha1Update_holds (h : ctx.Holds msg) (data : Bytes) : (sha1Update o ctx data).Holds (msg ++ data) := by
  have hcount : (sha1Update o ctx data).count = 8 * (msg ++ data).length % 18446744073709551616 := by
    rw [sha1Update_count,addCount_eq,h.count,List.length_append]
    omega
  refine ⟨hcount,?_⟩
  have hwait : (sha1Update o ctx data).waiting = (msg.length + data.length) % 64 := by
    rw [Sha1Ctx.waiting_eq,hcount,List.length_append]
    omega
  have hpending := ctx.length_pending
  have hall := @length_absorb _ _ SecureHash.compress 64 (SecureHash.initial,[]) (msg ++ data) (by decide) (by decide)
  rw [List.length_nil,Nat.zero_add,List.length_append] at hall
  rw [absorb_append,h.absorbed] at hall ⊢
  rw [hwait]
  unfold sha1Update
  by_cases hfull : ctx.waiting + data.length > 63
  · rw [dif_pos hfull]
    have hlt := ctx.waiting_lt
    have hlen : (data.take (64 - ctx.waiting)).length = 64 - ctx.waiting := by
      rw [List.length_take]
      omega
    have hrest : (data.drop (ctx.transformed o data).2).length ≤ 63 := transformLoop_rest o data _ _
    -- the block is filled, the loop takes the whole blocks behind it, and the rest waits
    have hfill : absorb SecureHash.compress 64 (ctx.state.value,ctx.buffer.take ctx.waiting)
      (data.take (64 - ctx.waiting)) =
        ((sha1Transform o ctx.state (ctx.filled data)).value,[]) := by
      rw [sha1Transform_value,ctx.filled_eq (by omega)]
      exact absorb_fill (by rw [hpending,hlen]; omega) (List.ne_nil_of_length_pos (by omega))
    have hdata : absorb SecureHash.compress 64 (ctx.state.value,ctx.buffer.take ctx.waiting) data =
        ((ctx.transformed o data).1.value,data.drop (ctx.transformed o data).2) := by
      conv_lhs => rw [← List.take_append_drop (64 - ctx.waiting) data]
      rw [absorb_append,hfill,transformLoop_absorb o data _ _]
      exact absorb_short (by rw [List.length_nil,Nat.zero_add]; exact Nat.lt_succ_of_le hrest)
    rw [hdata] at hall ⊢
    rw [← hall]
    have htake := @take_splice _ (ctx.filled data) 0 (data.drop (ctx.transformed o data).2) (Nat.zero_le _)
    rw [Nat.zero_add,List.take_zero,List.nil_append] at htake
    rw [htake]
  · rw [dif_neg hfull]
    have hshort : absorb SecureHash.compress 64 (ctx.state.value,ctx.buffer.take ctx.waiting) data =
        (ctx.state.value,ctx.buffer.take ctx.waiting ++ data) := absorb_short (by rw [hpending]; omega)
    have htake := @take_splice _ ctx.buffer ctx.waiting data (by rw [ctx.length_buffer]; omega)
    have hsum : (msg.length + data.length) % 64 = ctx.waiting + data.length := by
      have hw := h.waiting
      omega
    rw [hshort,hsum]
    exact congrArg _ htake.symm

theorem updates_hold (h : ctx.Holds msg) (chunks : List Bytes) :
    (chunks.foldl (sha1Update o) ctx).Holds (msg ++ chunks.flatten) := by
  induction chunks generalizing ctx msg with
  | nil => simpa using h
  | cons data chunks ih =>
    rw [List.foldl_cons,List.flatten_cons,← List.append_assoc]
    exact ih (sha1Update_holds h data)

theorem padLoop_holds (h : ctx.Holds msg) : (padLoop o ctx).Holds (msg ++ List.replicate ctx.zeros 0) := by
  fun_induction padLoop o ctx generalizing msg with
  | case1 ctx hmore ih =>
    have hless := sha1Update_zeros o ctx hmore
    have hone := ih (sha1Update_holds h [0])
    rwa [List.append_assoc,List.singleton_append,← List.replicate_succ,hless] at hone
  | case2 ctx hdone =>
    have hmod := and_504 ctx.count_bytes
    have hzero : ctx.zeros = 0 := by
      unfold Sha1Ctx.zeros
      omega
    rwa [hzero,List.replicate_zero,List.append_nil]

end Update

section Output

theorem ofNat_and_255 (n : ℕ) : UInt8.ofNat (n &&& 255) = UInt8.ofNat n := by
  apply UInt8.toNat_inj.mp
  rw [UInt8.toNat_ofNat',UInt8.toNat_ofNat']
  show (n &&& 2 ^ 8 - 1) % 2 ^ 8 = n % 2 ^ 8
  rw [Nat.and_two_pow_sub_one_eq_mod,Nat.mod_mod]

theorem finalcount_eq (count : ℕ) : finalcount count = SecureHash.lengthField count := by
  unfold finalcount SecureHash.lengthField
  apply List.map_congr_left
  intro i hi
  have hand : i &&& 7 = i := by
    have hmod : i &&& 7 = i % 8 := Nat.and_two_pow_sub_one_eq_mod i 3
    rw [hmod,Nat.mod_eq_of_lt (List.mem_range.mp hi)]
  rw [ofNat_and_255,hand,Nat.shiftRight_eq_div_pow,Nat.mul_comm,Nat.pow_mul]

theorem digestBytes_eq (r : Regs) : digestBytes r = r.value.bytes := by
  have hbyte (x : Word) (k : ℕ) : UInt8.ofNat ((x >>> (k * 8)) &&& 255).toNat = UInt8.ofNat (x.toNat / 256 ^ k) := by
    rw [BitVec.toNat_and,BitVec.toNat_ushiftRight,Nat.shiftRight_eq_div_pow,Nat.mul_comm,Nat.pow_mul]
    exact ofNat_and_255 _
  have hword (x : Word) : SecureHash.wordBytes x = [UInt8.ofNat ((x >>> (3 * 8)) &&& 255).toNat,
      UInt8.ofNat ((x >>> (2 * 8)) &&& 255).toNat,UInt8.ofNat ((x >>> (1 * 8)) &&& 255).toNat,
      UInt8.ofNat ((x >>> (0 * 8)) &&& 255).toNat] := by
    rw [hbyte,hbyte,hbyte,hbyte]
    rfl
  unfold SecureHash.Value.bytes
  rw [hword,hword,hword,hword,hword]
  rfl

/-- Padding a context that holds a message. -/
theorem sha1Pad_value {ctx : Sha1Ctx} {msg : Bytes} (o : ByteOrder) (h : ctx.Holds msg) :
    digestBytes (sha1Pad o ctx).state = SecureHash.hash msg := by
  have hone := sha1Update_holds (o := o) h [128]
  have hzeros : (sha1Update o ctx [128]).zeros = SecureHash.padding msg.length := by
    have hcount := hone.count
    rw [List.length_append,List.length_singleton] at hcount
    unfold Sha1Ctx.zeros SecureHash.padding
    omega
  have hpadded := sha1Update_holds (o := o) (padLoop_holds (o := o) hone) (finalcount ctx.count)
  rw [hzeros,finalcount_eq,h.count] at hpadded
  have hmsg : msg ++ [128] ++ List.replicate (SecureHash.padding msg.length) 0 ++
      SecureHash.lengthField (8 * msg.length % 18446744073709551616) = SecureHash.pad msg := by
    unfold SecureHash.pad
    simp only [List.append_assoc,List.singleton_append]
  have habs := hpadded.absorbed
  rw [hmsg,SecureHash.absorb_pad] at habs
  have hvalue := congrArg Prod.fst habs
  rw [digestBytes_eq,SecureHash.hash]
  unfold sha1Pad
  rw [finalcount_eq,h.count]
  exact congrArg SecureHash.Value.bytes hvalue.symm

/-- The digest of bytes in memory, as `torrent_piece_checkhash` computes it. -/
def sha1Digest (o : ByteOrder) (data : Bytes) : Bytes := (sha1Final o (sha1Update o (sha1Init .wiped) data)).1

theorem sha1Digest_eq (o : ByteOrder) (data : Bytes) : sha1Digest o data = SecureHash.hash data := by
  have hall := updates_hold (o := o) (sha1Init_holds .wiped) [data]
  rw [List.nil_append,List.flatten_singleton] at hall
  exact sha1Pad_value o hall

end Output

/-- Data passed to `SHA1Update` in any portions, from `SHA1Init` on a context of any contents to
`SHA1Final`, have the digest of the data one after another, and the context is wiped. -/
theorem sha1_streamed (o : ByteOrder) (ctx : Sha1Ctx) (chunks : List Bytes) :
    sha1Final o (chunks.foldl (sha1Update o) (sha1Init ctx)) = (SecureHash.hash chunks.flatten,.wiped) := by
  have hall := updates_hold (o := o) (sha1Init_holds ctx) chunks
  rw [List.nil_append] at hall
  rw [sha1Final,sha1Pad_value o hall]

end Unworkable
