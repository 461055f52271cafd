import Unworkable.Session.Announced
import Unworkable.Wire.Obedience

/-! # What is written is what is read

The messages one instance writes to a peer, read by another instance of the same torrent.
However the bytes arrive, the reader makes one call for each message that is not a keep-alive,
in order, and finds in the body the values that were written.
-/
namespace Unworkable
open Library

/-- The messages this client writes after its handshake, with the values they carry. -/
inductive WireMsg where
  | keepalive
  | choke
  | unchoke
  | interested
  | haveall
  | havenone
  | haves (idx : ℕ)
  | bitfield (bits : Bytes)
  | request (idx off len : ℕ)
  | cancel (idx off len : ℕ)
  | reject (idx off len : ℕ)
  | piece (idx off : ℕ) (block : Bytes)
  deriving DecidableEq, Repr

namespace WireMsg

/-- The id of a message and its fields; a keep-alive has none. -/
def body : WireMsg → Option (UInt8 × Bytes)
  | keepalive => none
  | choke => some (msgChokeId,[])
  | unchoke => some (msgUnchokeId,[])
  | interested => some (msgInterestedId,[])
  | haveall => some (msgHaveallId,[])
  | havenone => some (msgHavenoneId,[])
  | haves idx => some (msgHaveId,be32 idx)
  | bitfield bits => some (msgBitfieldId,bits)
  | request idx off len => some (msgRequestId,be32 idx ++ be32 off ++ be32 len)
  | cancel idx off len => some (msgCancelId,be32 idx ++ be32 off ++ be32 len)
  | reject idx off len => some (msgRejectId,be32 idx ++ be32 off ++ be32 len)
  | piece idx off block => some (msgPieceId,be32 idx ++ be32 off ++ block)

def bytes (m : WireMsg) : Bytes :=
  match m.body with
  | none => [0,0,0,0]
  | some (id,fields) => message id fields

/-- The fields are 32-bit words and the message is not longer than the reader allows. -/
def Fits : WireMsg → Prop
  | haves idx => idx < 4294967296
  | bitfield bits => bits.length + 1 ≤ maxMessageLen
  | request idx off len => idx < 4294967296 ∧ off < 4294967296 ∧ len < 4294967296
  | cancel idx off len => idx < 4294967296 ∧ off < 4294967296 ∧ len < 4294967296
  | reject idx off len => idx < 4294967296 ∧ off < 4294967296 ∧ len < 4294967296
  | piece idx off block => idx < 4294967296 ∧ off < 4294967296 ∧ block.length + 9 ≤ maxMessageLen
  | _ => True

end WireMsg

/-- A call is made for the message: same id, and the fields `network_peer_process_message` takes from
the body are those written. -/
def Call.Carries (env : Env) (c : Call) : WireMsg → Prop
  | .keepalive => False
  | .choke => c.id = msgChokeId
  | .unchoke => c.id = msgUnchokeId
  | .interested => c.id = msgInterestedId
  | .haveall => c.id = msgHaveallId
  | .havenone => c.id = msgHavenoneId
  | .haves idx => c.id = msgHaveId ∧ msgField env c.msg 1 = idx
  | .bitfield bits => c.id = msgBitfieldId ∧ c.msg.length - 1 = bits.length ∧ c.msg.drop 1 = bits
  | .request idx off len => c.id = msgRequestId ∧
      msgField env c.msg 1 = idx ∧ msgField env c.msg 5 = off ∧ msgField env c.msg 9 = len
  | .cancel idx off len => c.id = msgCancelId ∧
      msgField env c.msg 1 = idx ∧ msgField env c.msg 5 = off ∧ msgField env c.msg 9 = len
  | .reject idx off len => c.id = msgRejectId ∧
      msgField env c.msg 1 = idx ∧ msgField env c.msg 5 = off ∧ msgField env c.msg 9 = len
  | .piece idx off block => c.id = msgPieceId ∧ msgField env c.msg 1 = idx ∧ msgField env c.msg 5 = off ∧
      c.msg.length - 9 = block.length ∧ c.msg.drop 9 = block

section Decode
variable {env : Env}

theorem length_be32 (n : ℕ) : (be32 n).length = 4 := rfl

/-- A 32-bit word written at some place of a body is read back there. -/
theorem msgField_be32 (pre post : Bytes) {n : ℕ} (h : n < 4294967296) :
    msgField env (pre ++ (be32 n ++ post)) pre.length = n := by
  have hat : ∀ k < 4, msgByte env (pre ++ (be32 n ++ post)) (pre.length + k) = (be32 n).getD k 0 := by
    intro k hk
    have hlt : k < (be32 n).length := hk
    rw [msgByte,List.getElem?_append_right (Nat.le_add_right _ _),Nat.add_sub_cancel_left,List.getElem?_append_left hlt,
      List.getElem?_eq_getElem hlt]
    simp [List.getElem?_eq_getElem hlt]
  have h0 := hat 0 (by decide)
  rw [Nat.add_zero] at h0
  rw [msgField,h0,hat 1 (by decide),hat 2 (by decide),hat 3 (by decide)]
  exact readBe32_be32 h

theorem msgField_first (id : UInt8) (post : Bytes) {n : ℕ} (h : n < 4294967296) :
    msgField env (id :: (be32 n ++ post)) 1 = n := msgField_be32 [id] post h

theorem msgField_second (id : UInt8) (a : ℕ) (post : Bytes) {n : ℕ} (h : n < 4294967296) :
    msgField env (id :: (be32 a ++ (be32 n ++ post))) 5 = n := msgField_be32 (id :: be32 a) post h

theorem msgField_third (id : UInt8) (a b : ℕ) (post : Bytes) {n : ℕ} (h : n < 4294967296) :
    msgField env (id :: (be32 a ++ (be32 b ++ (be32 n ++ post)))) 9 = n := msgField_be32
    (id :: (be32 a ++ be32 b)) post h

/-- The body of a message that fits carries the values of the message. -/
theorem carries_of_body {m : WireMsg} {id : UInt8} {fields : Bytes} {c : Call} (hb : m.body = some (id,fields))
    (hm : m.Fits) (hid : c.id = id) (hmsg : c.msg = id :: fields) : c.Carries env m := by
  have hthree : ∀ {idx off len : ℕ}, idx < 4294967296 ∧ off < 4294967296 ∧ len < 4294967296 →
      fields = be32 idx ++ be32 off ++ be32 len →
      msgField env c.msg 1 = idx ∧ msgField env c.msg 5 = off ∧ msgField env c.msg 9 = len := by
    rintro idx off len ⟨h₁,h₂,h₃⟩ rfl
    rw [hmsg,List.append_assoc,← List.append_nil (be32 len)]
    exact ⟨msgField_first _ _ h₁,msgField_second _ _ _ h₂,msgField_third _ _ _ _ h₃⟩
  cases m with
  | keepalive => cases hb
  | choke => cases hb; exact hid
  | unchoke => cases hb; exact hid
  | interested => cases hb; exact hid
  | haveall => cases hb; exact hid
  | havenone => cases hb; exact hid
  | haves idx =>
    cases hb
    refine ⟨hid,?_⟩
    rw [hmsg,← List.append_nil (be32 idx)]
    exact msgField_first _ _ hm
  | bitfield bits =>
    cases hb
    exact ⟨hid,by rw [hmsg]; rfl,by rw [hmsg]; rfl⟩
  | request idx off len =>
    obtain ⟨rfl,rfl⟩ := Prod.mk.inj (Option.some.inj hb)
    exact ⟨hid,hthree hm rfl⟩
  | cancel idx off len =>
    obtain ⟨rfl,rfl⟩ := Prod.mk.inj (Option.some.inj hb)
    exact ⟨hid,hthree hm rfl⟩
  | reject idx off len =>
    obtain ⟨rfl,rfl⟩ := Prod.mk.inj (Option.some.inj hb)
    exact ⟨hid,hthree hm rfl⟩
  | piece idx off block =>
    obtain ⟨rfl,rfl⟩ := Prod.mk.inj (Option.some.inj hb)
    refine ⟨hid,?_,?_,?_,?_⟩
    · rw [hmsg,List.append_assoc]
      exact msgField_first _ _ hm.1
    · rw [hmsg,List.append_assoc]
      exact msgField_second _ _ _ hm.2.1
    · rw [hmsg]
      simp only [List.length_cons,List.length_append,length_be32]
      omega
    · rw [hmsg]
      rfl

/-- The body of a message that fits is one the reader takes. -/
theorem length_body_le {m : WireMsg} {id : UInt8} {fields : Bytes} (hb : m.body = some (id,fields)) (hm : m.Fits) :
    fields.length + 1 ≤ maxMessageLen := by
  cases m with
  | bitfield bits =>
    cases hb
    exact hm
  | piece idx off block =>
    obtain ⟨rfl,rfl⟩ := Prod.mk.inj (Option.some.inj hb)
    have hlen := hm.2.2
    simp only [List.length_append,length_be32]
    omega
  | keepalive => cases hb
  | _ => cases hb; simp [length_be32,maxMessageLen]

end Decode

/-- Between two messages: the reader is past the handshake and waits for a length field. -/
structure Waiting (q : Peer) : Prop where
  handshake1 : q.state.handshake1 = false
  handshake2 : q.state.handshake2 = false
  sendbitfield : q.state.sendbitfield = false
  rxpending : q.rxpending = 0

/-- A peer of a new connection, nothing of whose handshake has arrived. -/
structure Fresh (q : Peer) : Prop where
  handshake1 : q.state.handshake1 = true
  sendbitfield : q.state.sendbitfield = false
  rxpending : q.rxpending = 0

section Reading
variable {sha1 : Bytes → Bytes} {env : Env} {p : PeerId} {s s' : Session}

/-- A length field is taken in one entry: beyond the limit it kills its sender, and else the body is awaited. -/
theorem Waiting.feed_field (h : Waiting (s.peer p)) (sha1 : Bytes → Bytes) (env : Env) {n : ℕ} (hn : n < 4294967296) :
    ∃ q : Peer, q.state = { (s.peer p).state with gotlen := false } ∧ q.bitfield = (s.peer p).bitfield ∧
      feedPeer sha1 env p s (be32 n) = .pure (s.setPeer p (fun _ =>
        if n > maxMessageLen then { q with rxmsglen := n, state := .deadOnly }
        else { q with rxmsg := [], rxmsglen := n, rxpending := n, state := { q.state with gotlen := true } })) := by
  have harm : armRead env (s.peer p) = { s.peer p with
      state := { (s.peer p).state with gotlen := false }, rxmsg := [], rxmsglen := 4, rxpending := 4 } := by
    simp [armRead,h.rxpending,h.handshake1]
  have hmsg : (afterRead env (s.peer p) (be32 n)).rxmsg = be32 n := by simp [afterRead,pushRead,harm,length_be32]
  have hpend : (afterRead env (s.peer p) (be32 n)).rxpending = 0 := by simp [afterRead,pushRead,harm,length_be32]
  have hstate : (afterRead env (s.peer p) (be32 n)).state = { (s.peer p).state with gotlen := false } := by
    simp [afterRead,pushRead,harm]
  have hbit : (afterRead env (s.peer p) (be32 n)).bitfield = (s.peer p).bitfield := by simp [afterRead,pushRead,harm]
  generalize hq : afterRead env (s.peer p) (be32 n) = q at hmsg hpend hstate hbit
  have hlen : msgField env q.rxmsg 0 = n := by
    have hfield : msgField env ([] ++ (be32 n ++ [])) 0 = n := msgField_be32 [] [] hn
    rw [hmsg]
    simpa using hfield
  have hfin : finishLength env q = if n > maxMessageLen then { q with rxmsglen := n, state := .deadOnly }
      else { q with rxmsg := [], rxmsglen := n, rxpending := n, state := { q.state with gotlen := true } } := by
    simp only [finishLength,hlen]
  have hset : (s.setPeer p (afterRead env · (be32 n))).setPeer p (finishLength env) =
      s.setPeer p (fun _ => finishLength env q) := by
    rw [Session.setPeer_setPeer,Session.setPeer_const,hq]
  have hquiet : Quiet p (s.setPeer p (fun _ => finishLength env q)) := by
    rw [Quiet,Session.setPeer_self,hfin]
    split
    · rfl
    · simp only [hstate]
      exact h.sendbitfield
  refine ⟨q,hstate,hbit,?_⟩
  rw [← hfin,feedPeer_eq_response h.sendbitfield (by simp [be32]) (by simp [harm,length_be32]),peerResponse_eq,
    if_neg (by rw [hq,hpend]; simp)]
  simp only [finishRead,Session.setPeer_self,hq,hstate,h.handshake1,h.handshake2,Bool.false_eq_true,if_false,
    Bool.not_false,if_true,Traced.pure_bind]
  rw [hset,sendBitfield_of_quiet env p hquiet]
  rfl

/-- The reader has the length of a message and awaits its body; what the peer has announced is as it was. -/
structure Expects (q : Peer) (n : ℕ) (q' : Peer) : Prop where
  handshake1 : q'.state.handshake1 = false
  handshake2 : q'.state.handshake2 = false
  sendbitfield : q'.state.sendbitfield = false
  gotlen : q'.state.gotlen = true
  rxpending : q'.rxpending = n
  rxmsg : q'.rxmsg = []
  track : q'.track = q.track

/-- A length field within the limit is read and the body, if there is one, is awaited. -/
theorem Waiting.feed_length (h : Waiting (s.peer p)) (sha1 : Bytes → Bytes) (env : Env) {n : ℕ}
    (hn : n ≤ maxMessageLen) :
    ∃ q, feedPeer sha1 env p s (be32 n) = .pure (s.setPeer p (fun _ => q)) ∧ Expects (s.peer p) n q := by
  obtain ⟨q,hstate,hbit,hfeed⟩ := h.feed_field sha1 env (n := n) (by unfold maxMessageLen at hn; omega)
  rw [if_neg (by omega)] at hfeed
  refine ⟨_,hfeed,?_,?_,?_,rfl,rfl,rfl,?_⟩
  · simp only [hstate]
    exact h.handshake1
  · simp only [hstate]
    exact h.handshake2
  · simp only [hstate]
    exact h.sendbitfield
  · simp only [Peer.track,hstate,hbit]

/-- A length field beyond the limit kills its sender. -/
theorem Waiting.feed_refused (h : Waiting (s.peer p)) (sha1 : Bytes → Bytes) (env : Env) {n : ℕ} (hn : n < 4294967296)
    (hmax : n > maxMessageLen) :
    ∃ q, feedPeer sha1 env p s (be32 n) = .pure (s.setPeer p (fun _ => q)) ∧ DeadPeer q := by
  obtain ⟨q,-,-,hfeed⟩ := h.feed_field sha1 env hn
  rw [if_pos hmax] at hfeed
  exact ⟨_,hfeed,rfl,rfl,rfl,rfl⟩

/-- After a message the reader is between two messages again, also when the sender was killed. -/
theorem waiting_of_processed {id : UInt8} {msg : Bytes} (h₁ : (s.peer p).state.handshake1 = false)
    (h₂ : (s.peer p).state.handshake2 = false) (hsb : (s.peer p).state.sendbitfield = false)
    (hz : (s.peer p).rxpending = 0) (h : networkPeerProcessMessage sha1 env s p id msg = .ok s') :
    Waiting (s'.peer p) := by
  rcases calm_or_killed h with hcalm | rfl
  · exact ⟨by rw [hcalm.handshake1,h₁],by rw [hcalm.handshake2,h₂],by rw [hcalm.sendbitfield,hsb],
      by rw [hcalm.rxpending,hz]⟩
  · unfold killPeer Session.setState
    rw [Session.setPeer_self]
    exact ⟨rfl,rfl,rfl,hz⟩

/-- The entries for a whole message end with its body complete. -/
theorem Waiting.feed_body (h : Waiting (s.peer p)) (sha1 : Bytes → Bytes) (env : Env) (id : UInt8) {fields : Bytes}
    (hlen : fields.length + 1 ≤ maxMessageLen) : ∃ q : Peer, Waiting q ∧ q.state.gotlen = true ∧
      q.rxmsg = id :: fields ∧
      q.track = (s.peer p).track ∧ feedPeer sha1 env p s (message id fields) =
        (finishRead sha1 env p (s.setPeer p (fun _ => q))).bind (fun s => ⟨[],sendBitfield env p s⟩) := by
  obtain ⟨t,ht,he⟩ := h.feed_length sha1 env hlen
  have hpend := he.rxpending
  have harm : armRead env t = t := armRead_of_pending env (by omega)
  have hread : afterRead env t (id :: fields) =
      { t with rxmsg := id :: fields, totalrx := t.totalrx + (fields.length + 1), rxpending := 0 } := by
    simp [afterRead,harm,pushRead,hpend,he.rxmsg]
  refine ⟨afterRead env t (id :: fields),?_,?_,?_,?_,?_⟩
  · rw [hread]
    exact ⟨he.handshake1,he.handshake2,he.sendbitfield,rfl⟩
  · rw [hread]
    exact he.gotlen
  · rw [hread]
  · rw [hread]
    exact he.track
  · have hself : (s.setPeer p (fun _ => t)).peer p = t := Session.setPeer_self s p _
    rw [message,feedPeer_append,ht,Traced.pure_bind,feedPeer_eq_response (by rw [Quiet,hself]; exact he.sendbitfield)
      (by simp) (by rw [hself,harm,hpend]; simp),peerResponse_eq,if_neg (by rw [hself,hread]; simp)]
    rw [Session.setPeer_setPeer]

/-- A whole message makes one call, with its id and its body. -/
theorem Waiting.feed_message (h : Waiting (s.peer p)) (sha1 : Bytes → Bytes) (env : Env) (id : UInt8) {fields : Bytes}
    (hlen : fields.length + 1 ≤ maxMessageLen) :
    ∃ c : Call, c.id = id ∧ c.msg = id :: fields ∧ (feedPeer sha1 env p s (message id fields)).calls = [c] ∧
      ∀ s', (feedPeer sha1 env p s (message id fields)).result = .ok s' → Waiting (s'.peer p) ∧
        ∃ q u, q.track = (s.peer p).track ∧ networkPeerProcessMessage sha1 env (s.setPeer p (fun _ => q)) p id
        (id :: fields) =
          .ok u ∧ s' = u.setPeer p (fun q => { q with rxmsg := [] }) := by
  obtain ⟨q,hq,hgot,hmsg,htrack,hfeed⟩ := h.feed_body sha1 env id hlen
  have hpeer : (s.setPeer p (fun _ => q)).peer p = q := Session.setPeer_self s p _
  have hcall : finishRead sha1 env p (s.setPeer p (fun _ => q)) = _ :=
    finishRead_message (by rw [hpeer]; exact hq.handshake1) (by rw [hpeer]; exact hq.handshake2)
      (by rw [hpeer]; exact hgot)
  rw [hpeer,hmsg] at hcall
  rw [hfeed,hcall]
  refine ⟨⟨id,id :: fields,q⟩,rfl,rfl,?_,?_⟩
  · simp only [Traced.bind]
    split <;> simp
  · intro s' hs'
    obtain ⟨v,hv,hs'⟩ := Traced.bind_result_ok.mp hs'
    obtain ⟨w,hw,rfl⟩ := map_ok.mp hv
    have hwait := waiting_of_processed (by rw [hpeer]; exact hq.handshake1) (by rw [hpeer]; exact hq.handshake2)
      (by rw [hpeer]; exact hq.sendbitfield) (by rw [hpeer]; exact hq.rxpending) hw
    have hclear : Waiting ((w.setPeer p (fun q => { q with rxmsg := [] })).peer p) := by
      rw [Session.setPeer_self]
      exact ⟨hwait.handshake1,hwait.handshake2,hwait.sendbitfield,hwait.rxpending⟩
    have hsame : s' = w.setPeer p (fun q => { q with rxmsg := [] }) :=
      (Except.ok.inj ((sendBitfield_of_quiet env p hclear.sendbitfield).symm.trans hs')).symm
    rw [hsame]
    exact ⟨hclear,q,w,htrack,hw,rfl⟩

theorem Waiting.feed_keepalive (h : Waiting (s.peer p)) (sha1 : Bytes → Bytes) (env : Env) :
    ∃ q, feedPeer sha1 env p s [0,0,0,0] = .pure (s.setPeer p (fun _ => q)) ∧ Waiting q ∧
      q.track = (s.peer p).track := by
  obtain ⟨q,hfeed,he⟩ := h.feed_length sha1 env (Nat.zero_le maxMessageLen)
  exact ⟨q,hfeed,⟨he.handshake1,he.handshake2,he.sendbitfield,he.rxpending⟩,he.track⟩

/-- The first part of a handshake is the plain protocol string. -/
theorem Fresh.feed_handshake1 (h : Fresh (s.peer p)) (sha1 : Bytes → Bytes) (env : Env) :
    ∃ q, feedPeer sha1 env p s (19 :: btProtocol) = .pure (s.setPeer p (fun _ => q)) ∧ q.state.handshake1 = false ∧
      q.state.handshake2 = true ∧ q.state.sendbitfield = false ∧ q.rxpending = 48 ∧ q.rxmsg = [] ∧
      q.track = (s.peer p).track := by
  have harm : armRead env (s.peer p) =
      { s.peer p with lastrecv := env.now, rxmsg := [], rxmsglen := 20, rxpending := 20 } := by
    simp [armRead,h.rxpending,h.handshake1]
  have hmsg : (afterRead env (s.peer p) (19 :: btProtocol)).rxmsg = 19 :: btProtocol := by
    simp [afterRead,pushRead,harm,btProtocol]
  have hpend : (afterRead env (s.peer p) (19 :: btProtocol)).rxpending = 0 := by
    simp [afterRead,pushRead,harm,btProtocol]
  have hstate : (afterRead env (s.peer p) (19 :: btProtocol)).state = (s.peer p).state := by
    simp [afterRead,pushRead,harm]
  have hbit : (afterRead env (s.peer p) (19 :: btProtocol)).bitfield = (s.peer p).bitfield := by
    simp [afterRead,pushRead,harm]
  generalize hq : afterRead env (s.peer p) (19 :: btProtocol) = q at hmsg hpend hstate hbit
  have hfin : finishHandshake1 q = { q with
      pstrlen := 19, rxmsg := [], rxpending := 48, rxmsglen := 48
      state := { q.state with handshake1 := false, handshake2 := true } } := by
    have hok : (q.rxmsg.headD 0).toNat = 19 ∧ (q.rxmsg.drop 1).take 19 = btProtocol := by
      rw [hmsg]
      decide
    simp only [finishHandshake1]
    rw [if_pos hok,hok.1]
  have hset : (s.setPeer p (afterRead env · (19 :: btProtocol))).setPeer p finishHandshake1 =
      s.setPeer p (fun _ => finishHandshake1 q) := by
    rw [Session.setPeer_setPeer,Session.setPeer_const,hq]
  have hquiet : Quiet p (s.setPeer p (fun _ => finishHandshake1 q)) := by
    rw [Quiet,Session.setPeer_self,hfin]
    simp [hstate,h.sendbitfield]
  refine ⟨finishHandshake1 q,?_,?_⟩
  · rw [feedPeer_eq_response h.sendbitfield (by simp) (by simp [harm,btProtocol]),peerResponse_eq,
      if_neg (by rw [hq,hpend]; simp)]
    simp only [finishRead,Session.setPeer_self,hq,hstate,h.handshake1,if_true,Traced.pure_bind]
    rw [hset,sendBitfield_of_quiet env p hquiet]
    rfl
  · rw [hfin]
    simp [Peer.track,hstate,h.sendbitfield,hbit]

/-- A handshake for the same torrent is accepted: the rest is what happens at the label `out`. -/
theorem Fresh.feed_handshake_eq (h : Fresh (s.peer p)) (sha1 : Bytes → Bytes) (env : Env) {peerid : Bytes}
    (hid : peerid.length = 20) : ∃ q : Peer, q.state.handshake1 = false ∧ q.state.handshake2 = false ∧
      q.state.sendbitfield = true ∧ q.rxpending = 0 ∧
      q.track = ((s.peer p).bitfield,true,(s.peer p).state.established,(s.peer p).state.dead) ∧
      feedPeer sha1 env p s (handshakeBytes s.tp.mi.infoHash peerid) =
        ⟨[],sendBitfield env p (s.setPeer p (fun _ => q))⟩ := by
  obtain ⟨t,ht,h₁,h₂,hsb,hpend,hmsg,htrack⟩ := h.feed_handshake1 sha1 env
  generalize hrest : [0,0,0,0,0,0,0,0x04] ++ s.tp.mi.infoHash ++ peerid = rest
  have hlen : rest.length = 48 := by
    rw [← hrest]
    simp [s.tp.mi.infoHash_length,hid]
  have hhash : (rest.drop 8).take 20 = s.tp.mi.infoHash := by
    rw [← hrest,List.append_assoc]
    show (s.tp.mi.infoHash ++ peerid).take 20 = s.tp.mi.infoHash
    exact List.take_left' s.tp.mi.infoHash_length
  have harm : armRead env t = t := armRead_of_pending env (by omega)
  have hread : afterRead env t rest = { t with rxmsg := rest, totalrx := t.totalrx + 48, rxpending := 0 } := by
    simp [afterRead,harm,pushRead,hpend,hmsg,hlen,List.take_of_length_le]
  have hself : (s.setPeer p (fun _ => t)).peer p = t := Session.setPeer_self s p _
  have hfeed : feedPeer sha1 env p s (handshakeBytes s.tp.mi.infoHash peerid) =
      (finishRead sha1 env p (s.setPeer p (fun _ => afterRead env t rest))).bind (fun s =>
          ⟨[],sendBitfield env p s⟩) := by
    rw [show handshakeBytes s.tp.mi.infoHash peerid = (19 :: btProtocol) ++ rest by
        rw [← hrest]; simp [handshakeBytes],feedPeer_append,ht,Traced.pure_bind,
      feedPeer_eq_response (by rw [Quiet,hself]; exact hsb) (List.ne_nil_of_length_pos (by omega))
        (by rw [hself,harm,hpend,hlen]),peerResponse_eq,if_neg (by rw [hself,hread]; simp),Session.setPeer_setPeer]
  have hfin : finishRead sha1 env p (s.setPeer p (fun _ => afterRead env t rest)) =
      .pure (s.setPeer p (fun _ => finishHandshake2 s.tp.mi.infoHash (afterRead env t rest))) := by
    simp only [finishRead,Session.setPeer_self,hread,h₁,h₂,Bool.false_eq_true,if_false,if_true,Session.setPeer_tp,
      Session.setPeer_setPeer]
  refine ⟨_,?_,?_,?_,?_,?_,by rw [hfeed,hfin,Traced.pure_bind]⟩
  · simp [finishHandshake2,hread,hhash,h₁]
  · simp [finishHandshake2,hread,hhash]
  · simp [finishHandshake2,hread,hhash]
  · simp [finishHandshake2,hread,hhash]
  · simp only [Peer.track,Prod.mk.injEq] at htrack
    simp [finishHandshake2,hread,hhash,Peer.track,htrack]

/-- A handshake for the same torrent makes no call, and what follows it is read as messages. -/
theorem Fresh.feed_handshake (h : Fresh (s.peer p)) (sha1 : Bytes → Bytes) (env : Env) {peerid : Bytes}
    (hid : peerid.length = 20) : (feedPeer sha1 env p s (handshakeBytes s.tp.mi.infoHash peerid)).calls = [] ∧
      ∀ s', (feedPeer sha1 env p s (handshakeBytes s.tp.mi.infoHash peerid)).result = .ok s' → Waiting (s'.peer p) := by
  obtain ⟨q,h₁,h₂,-,hz,-,hfeed⟩ := h.feed_handshake_eq sha1 env hid
  rw [hfeed]
  refine ⟨rfl,?_⟩
  intro s' hs'
  obtain ⟨hstate,-,hpend⟩ := sendBitfield_peer hs'
  rw [Session.setPeer_self] at hstate hpend
  exact ⟨by rw [hstate]; exact h₁,by rw [hstate]; exact h₂,by rw [hstate],hpend.trans hz⟩

end Reading

section Streams
variable {sha1 : Bytes → Bytes} {env : Env} {p : PeerId} {s : Session}

def spoken (msgs : List WireMsg) : List WireMsg := msgs.filter (· ≠ .keepalive)

/-- The calls are made for the first of the messages, and for all of them if the process goes on. -/
structure Heard (env : Env) (said : List WireMsg) {σ : Type} (t : Traced Call Halt σ) : Prop where
  carried : ∃ heard, heard <+: said ∧ List.Forall₂ (Call.Carries env) t.calls heard
  all : ∀ s, t.result = .ok s → List.Forall₂ (Call.Carries env) t.calls said

/-- The messages of a stream, read one after the other. -/
theorem Waiting.feed_messages (h : Waiting (s.peer p)) {msgs : List WireMsg} (hfit : ∀ m ∈ msgs, m.Fits) :
    Heard env (spoken msgs) (feedPeer sha1 env p s (msgs.flatMap WireMsg.bytes)) := by
  induction msgs generalizing s with
  | nil => exact ⟨⟨[],List.prefix_refl _,.nil⟩,fun _ _ => .nil⟩
  | cons m msgs ih =>
    have hrest : ∀ m' ∈ msgs, m'.Fits := fun m' hm' => hfit m' (List.mem_cons_of_mem m hm')
    rw [List.flatMap_cons,feedPeer_append]
    cases hb : m.body with
    | none =>
      have hm : m = .keepalive := by
        cases m <;> first | rfl | cases hb
      obtain ⟨q,hq,hwait,-⟩ := h.feed_keepalive sha1 env
      rw [hm,show WireMsg.bytes .keepalive = [0,0,0,0] from rfl,hq,Traced.pure_bind]
      exact ih (by rwa [Session.setPeer_self]) hrest
    | some b =>
      obtain ⟨id,fields⟩ := b
      have hne : m ≠ .keepalive := by
        rintro rfl
        cases hb
      have hm := hfit m List.mem_cons_self
      obtain ⟨c,hid,hmsg,hcalls,hwait⟩ := h.feed_message sha1 env id (length_body_le hb hm)
      have hcarry : c.Carries env m := carries_of_body hb hm hid hmsg
      have hspoken : spoken (m :: msgs) = m :: spoken msgs := by simp [spoken,hne]
      rw [show m.bytes = message id fields by simp [WireMsg.bytes,hb],hspoken]
      cases hr : (feedPeer sha1 env p s (message id fields)).result with
      | error e =>
        simp only [Traced.bind,hr,hcalls]
        refine ⟨⟨[m],?_,.cons hcarry .nil⟩,fun r hr => by cases hr⟩
        exact List.prefix_iff_eq_append.mpr rfl
      | ok t =>
        obtain ⟨⟨heard,hpre,hcar⟩,hall⟩ := ih (hwait t hr).1 hrest
        simp only [Traced.bind,hr,hcalls,List.singleton_append]
        exact ⟨⟨m :: heard,List.cons_prefix_cons.mpr ⟨rfl,hpre⟩,.cons hcarry hcar⟩,
          fun s' hs' => .cons hcarry (hall s' hs')⟩

end Streams

/-- The functions that write to a peer, with their arguments. -/
inductive PeerWrite where
  | haves (idx : ℕ)
  | bitfield
  | piece (idx off len : ℕ)
  | interested
  | choke
  | unchoke
  | keepalive
  | haveall
  | havenone
  | requestBlock (idx off len : ℕ)
  | cancelPiece (pd : PieceDl)
  | rejectBlock (idx off len : ℕ)

namespace PeerWrite

def call (env : Env) (s : Session) (p : PeerId) : PeerWrite → Except Halt Session
  | haves idx => .ok (networkPeerWriteHave env s p idx)
  | bitfield => networkPeerWriteBitfield env s p
  | piece idx off len => networkPeerWritePiece env s p idx off len
  | interested => .ok (networkPeerWriteInterested env s p)
  | choke => .ok (networkPeerWriteChoke env s p)
  | unchoke => .ok (networkPeerWriteUnchoke env s p)
  | keepalive => .ok (networkPeerWriteKeepalive env s p)
  | haveall => .ok (networkPeerWriteHaveall env s p)
  | havenone => .ok (networkPeerWriteHavenone env s p)
  | requestBlock idx off len => .ok (networkPeerRequestBlock env s p idx off len)
  | cancelPiece pd => .ok (networkPeerCancelPiece env s p pd)
  | rejectBlock idx off len => .ok (networkPeerRejectBlock env s p idx off len)

/-- The message it is to write: the bit field and the block are those of the torrent, and a block
that cannot be read is not sent. -/
def sent (env : Env) (s : Session) : PeerWrite → List WireMsg
  | haves idx => [.haves idx]
  | bitfield => match torrentBitfieldGet s.tp with
    | .ok bits => [.bitfield bits]
    | .error _ => []
  | piece idx off len => match ensureMapped s.tp idx >>= (torrentBlockRead · idx off len) with
    | .ok (some d) => [.piece idx off (padded env.stale d.1 len)]
    | _ => []
  | interested => [.interested]
  | choke => [.choke]
  | unchoke => [.unchoke]
  | keepalive => [.keepalive]
  | haveall => [.haveall]
  | havenone => [.havenone]
  | requestBlock idx off len => [.request idx off len]
  | cancelPiece pd => [.cancel pd.idx pd.off pd.len]
  | rejectBlock idx off len => [.reject idx off len]

/-- The arguments are 32-bit words, and a block is not longer than a message may be. -/
def Fits : PeerWrite → Prop
  | haves idx => idx < 4294967296
  | piece idx off len => idx < 4294967296 ∧ off < 4294967296 ∧ len ≤ maxMessageLen - 9
  | requestBlock idx off len => idx < 4294967296 ∧ off < 4294967296 ∧ len < 4294967296
  | cancelPiece pd => pd.idx < 4294967296 ∧ pd.off < 4294967296 ∧ pd.len < 4294967296
  | rejectBlock idx off len => idx < 4294967296 ∧ off < 4294967296 ∧ len < 4294967296
  | _ => True

end PeerWrite

/-- Several writes to a peer, with the messages they are to write. -/
def peerWrites (env : Env) (p : PeerId) : Session → List PeerWrite → Except Halt (Session × List WireMsg)
  | s,[] => .ok (s,[])
  | s,w :: ws => do
    let t ← w.call env s p
    let (t',msgs) ← peerWrites env p t ws
    .ok (t',w.sent env s ++ msgs)

section Writing
variable {env : Env} {s s' : Session} {p : PeerId}

/-- What a function writes is the message it is to write. -/
theorem PeerWrite.call_out {w : PeerWrite} (h : w.call env s p = .ok s') :
    s'.out = s.out ++ (w.sent env s).map (fun m => (p,m.bytes)) ∧ s'.tp.mi = s.tp.mi := by
  cases w with
  | bitfield =>
    obtain ⟨bits,hbits,h⟩ := bind_ok.mp h
    cases h
    simp only [sent,hbits]
    exact ⟨rfl,rfl⟩
  | piece idx off len =>
    simp only [call,networkPeerWritePiece] at h
    obtain ⟨tpp,-,h⟩ := bind_ok.mp h
    obtain ⟨tp,htp,h⟩ := bind_ok.mp h
    obtain ⟨d,hd,h⟩ := bind_ok.mp h
    have hmi : tp.mi = s.tp.mi := by
      unfold ensureMapped at htp
      split at htp
      · cases htp
        rfl
      · exact torrentPieceMap_mi htp
    simp only [sent,htp,ok_bind,hd]
    cases d with
    | none =>
      cases h
      exact ⟨(List.append_nil _).symm,hmi⟩
    | some d =>
      dsimp only at h
      split at h
      · cases h
      · cases h
        exact ⟨rfl,hmi⟩
  | _ =>
    cases h
    exact ⟨rfl,rfl⟩

theorem peerWrites_out {ws : List PeerWrite} {msgs : List WireMsg} (h : peerWrites env p s ws = .ok (s',msgs)) :
    s'.out = s.out ++ msgs.map (fun m => (p,m.bytes)) := by
  induction ws generalizing s msgs with
  | nil =>
    cases h
    simp
  | cons w ws ih =>
    simp only [peerWrites] at h
    obtain ⟨t,ht,h⟩ := bind_ok.mp h
    obtain ⟨⟨t',more⟩,hmore,h⟩ := bind_ok.mp h
    cases h
    rw [ih hmore,(PeerWrite.call_out ht).1,List.map_append,List.append_assoc]

theorem length_blockReadLoop {tp : Torrent} {off : ℕ} {l : List Mmap} {cntlen cntbase tlen : ℕ} {b : Option Bytes}
    {d : Bytes} {hint : Bool} (h : blockReadLoop tp off l cntlen cntbase tlen b = .ok (some (d,hint))) :
    d.length ≤ (b.getD []).length + tlen := by
  induction l generalizing cntlen cntbase tlen b with
  | nil =>
    cases b with
    | none => cases h
    | some b =>
      cases h
      exact Nat.le_add_right _ _
  | cons m rest ih =>
    simp only [blockReadLoop] at h
    generalize wrapInt32 ((m.len : ℤ) - ((off : ℤ) - cntbase)) = ilen at h
    split_ifs at h
    · exact ih h
    · have hrest := ih h
      simp only [Option.getD_some,List.length_append,List.length_take] at hrest
      omega
    · cases b with
      | none =>
        cases h
        simp only [List.length_take]
        omega
      | some b =>
        cases h
        simp only [Option.getD_some,List.length_append,List.length_take]
        omega

theorem length_padded_le {stale : ℕ → UInt8} {bs : Bytes} {len : ℕ} (h : bs.length ≤ len) :
    (padded stale bs len).length = len := by
  simp only [padded,List.length_append,List.length_map,List.length_range]
  omega

/-- Arguments that fit make messages that fit. -/
theorem PeerWrite.fits_sent {w : PeerWrite} (hw : w.Fits)
    (hbits : w = .bitfield → bitfieldLen s.tp.numPieces + 1 ≤ maxMessageLen) : ∀ m ∈ w.sent env s, m.Fits := by
  intro m hm
  cases w with
  | bitfield =>
    simp only [sent] at hm
    split at hm
    · rename_i bits hget
      rw [List.mem_singleton.mp hm]
      show bits.length + 1 ≤ maxMessageLen
      rw [length_torrentBitfieldGet hget]
      exact hbits rfl
    · cases hm
  | piece idx off len =>
    simp only [sent] at hm
    split at hm
    · rename_i d hread
      obtain ⟨tp,-,hread⟩ := bind_ok.mp hread
      have hlen := length_blockReadLoop hread
      rw [Option.getD_none,List.length_nil,Nat.zero_add] at hlen
      rw [List.mem_singleton.mp hm]
      refine ⟨hw.1,hw.2.1,?_⟩
      have hmax := hw.2.2
      rw [length_padded_le hlen]
      unfold maxMessageLen at hmax ⊢
      omega
    · cases hm
  | haves idx => rw [List.mem_singleton.mp hm]; exact hw
  | requestBlock idx off len => rw [List.mem_singleton.mp hm]; exact hw
  | cancelPiece pd => rw [List.mem_singleton.mp hm]; exact hw
  | rejectBlock idx off len => rw [List.mem_singleton.mp hm]; exact hw
  | _ => rw [List.mem_singleton.mp hm]; trivial

theorem peerWrites_fits {ws : List PeerWrite} {msgs : List WireMsg} (h : peerWrites env p s ws = .ok (s',msgs))
    (hws : ∀ w ∈ ws, w.Fits) (hbits : PeerWrite.bitfield ∈ ws → bitfieldLen s.tp.numPieces + 1 ≤ maxMessageLen) :
    ∀ m ∈ msgs, m.Fits := by
  induction ws generalizing s msgs with
  | nil =>
    cases h
    exact nofun
  | cons w ws ih =>
    simp only [peerWrites] at h
    obtain ⟨t,ht,h⟩ := bind_ok.mp h
    obtain ⟨⟨t',more⟩,hmore,h⟩ := bind_ok.mp h
    cases h
    have hnum : t.tp.numPieces = s.tp.numPieces := by rw [Torrent.numPieces,(PeerWrite.call_out ht).2]; rfl
    intro m hm
    rcases List.mem_append.mp hm with hm | hm
    · exact PeerWrite.fits_sent (hws w List.mem_cons_self) (fun hw => hbits (hw ▸ List.mem_cons_self)) m hm
    · exact ih hmore (fun w' hw' => hws w' (List.mem_cons_of_mem w hw'))
        (fun hb => by rw [hnum]; exact hbits (List.mem_cons_of_mem w hb)) m hm

end Writing

/-- What session `a'` has written since it was `a`. -/
def written (a a' : Session) : Bytes := (a'.out.drop a.out.length).flatMap Prod.snd

theorem written_handshake {envA : Env} {a a' : Session} {pa : PeerId} {ws : List PeerWrite} {msgs : List WireMsg}
    (h : peerWrites envA pa (networkPeerHandshake envA a pa) ws = .ok (a',msgs)) :
    written a a' = handshakeBytes a.tp.mi.infoHash (a.peerid.take 20) ++ msgs.flatMap WireMsg.bytes := by
  have hout := peerWrites_out h
  rw [written,hout,show (networkPeerHandshake envA a pa).out =
    a.out ++ [(pa,handshakeBytes a.tp.mi.infoHash (a.peerid.take 20))] from rfl,List.append_assoc,List.drop_left,
    List.flatMap_append,List.flatMap_singleton,List.flatMap_map]

/-- The messages one instance writes after its handshake, delivered in any portions to a new connection
of another instance of the torrent: each call carries the next message that is not a keep-alive, up to the
call in which the receiving process ends, if it ends in one. -/
theorem responses_agree (sha1 : Bytes → Bytes) (envA envB : Env) (a a' b : Session) (pa pb : PeerId)
    (ws : List PeerWrite) (msgs : List WireMsg) (hid : a.peerid.length = 20)
    (hwrite : peerWrites envA pa (networkPeerHandshake envA a pa) ws = .ok (a',msgs)) (hfit : ∀ w ∈ ws, w.Fits)
    (hbits : PeerWrite.bitfield ∈ ws → bitfieldLen a.tp.numPieces + 1 ≤ maxMessageLen)
    (hhash : a.tp.mi.infoHash = b.tp.mi.infoHash) (hfresh : Fresh (b.peer pb)) (chunks : List Bytes)
    (hne : ∀ c ∈ chunks, c ≠ []) (hflat : chunks.flatten = written a a') :
    ∃ t, networkHandlePeerResponses sha1 envB pb b chunks = some t ∧ Heard envB (spoken msgs) t := by
  have hmsgs := peerWrites_fits hwrite hfit hbits
  have hpeerid : (a.peerid.take 20).length = 20 := by simp [hid]
  obtain ⟨hcalls,hwait⟩ := hfresh.feed_handshake sha1 envB hpeerid
  refine ⟨_,handlePeerResponses_eq hfresh.sendbitfield hne,?_⟩
  rw [hflat,written_handshake hwrite,hhash,feedPeer_append]
  cases hr : (feedPeer sha1 envB pb b (handshakeBytes b.tp.mi.infoHash (a.peerid.take 20))).result with
  | error e =>
    simp only [Traced.bind,hr,hcalls]
    exact ⟨⟨[],List.nil_prefix,.nil⟩,fun r hr => by cases hr⟩
  | ok t =>
    have hheard : Heard envB (spoken msgs) (feedPeer sha1 envB pb t _) := (hwait t hr).feed_messages hmsgs
    have hbind : (((feedPeer sha1 envB pb b (handshakeBytes b.tp.mi.infoHash (a.peerid.take 20))).bind
        (fun s => feedPeer sha1 envB pb s (msgs.flatMap WireMsg.bytes))).bind Reader.drained) =
        (feedPeer sha1 envB pb t (msgs.flatMap WireMsg.bytes)).bind Reader.drained := by
      simp only [Traced.bind,hr,hcalls,List.nil_append]
    rw [hbind]
    obtain ⟨hcarried,hall⟩ := hheard
    rw [← calls_drained] at hcarried hall
    refine ⟨hcarried,?_⟩
    intro r hres
    obtain ⟨u,hu,-⟩ := Traced.bind_result_ok.mp hres
    exact hall u hu

section Runs

/-- A client that has the one piece of the torrent. -/
def Boot.complete : Boot := { Boot.oneByte zeroByteDigest 1 with disk := fun _ => ⟨false,0,some [0],false⟩ }

/-- A client that has nothing and does not seed, when it has asked for the piece and a third peer connects. -/
def thirdPeerRun : List (Env × Event) := oneRequestRun ++ [(.plain 1001,.accept 3)]

def Boot.leech : Boot := { Boot.oneByte zeroByteDigest 1 with seed := false }

/-- What the first client writes to a peer, read by the second one as the input of its third peer. -/
def exchange (ws : List PeerWrite) : Option (Session × Session × List WireMsg × Session ×
    Traced Call Halt (Session × Bytes)) := do
  let a ← (Boot.complete.run sha1ZeroByte []).toOption
  let (a',msgs) ← (peerWrites (.plain 1001) 0 (networkPeerHandshake (.plain 1001) a 0) ws).toOption
  let b ← (Boot.leech.run sha1ZeroByte thirdPeerRun).toOption
  let t ← networkHandlePeerResponses sha1ZeroByte (.plain 1001) 2 b [written a a']
  some (a,a',msgs,b,t)

theorem exchange_some (ws : List PeerWrite) {P : Session → Session → List WireMsg → Session →
    Traced Call Halt (Session × Bytes) → Bool}
    (h : (exchange ws).map (fun x => P x.1 x.2.1 x.2.2.1 x.2.2.2.1 x.2.2.2.2) = some true) :
    ∃ a a' msgs b t, Reachable sha1ZeroByte .complete a ∧ Reachable sha1ZeroByte .leech b ∧
      peerWrites (.plain 1001) 0 (networkPeerHandshake (.plain 1001) a 0) ws = .ok (a',msgs) ∧
      networkHandlePeerResponses sha1ZeroByte (.plain 1001) 2 b [written a a'] = some t ∧ P a a' msgs b t = true := by
  simp only [exchange,Option.map_eq_some_iff,Option.bind_eq_bind,Option.bind_eq_some_iff,Option.some.injEq] at h
  obtain ⟨x,⟨a,ha,⟨a',msgs⟩,hw,b,hb,t,ht,rfl⟩,hP⟩ := h
  exact ⟨a,a',msgs,b,t,⟨[],ok_of_toOption ha⟩,⟨thirdPeerRun,ok_of_toOption hb⟩,ok_of_toOption hw,ht,hP⟩

/-- The block that completes the torrent ends the process: the message behind it makes no call. -/
theorem call_missing_after_exit : ∃ a a' msgs b t, Reachable sha1ZeroByte .complete a ∧
    Reachable sha1ZeroByte .leech b ∧
    a.peerid.length = 20 ∧ a.tp.mi.infoHash = b.tp.mi.infoHash ∧ Fresh (b.peer 2) ∧
    peerWrites (.plain 1001) 0 (networkPeerHandshake (.plain 1001) a 0) [.piece 0 0 1,.choke] = .ok (a',msgs) ∧
    spoken msgs = [.piece 0 0 [0],.choke] ∧
    networkHandlePeerResponses sha1ZeroByte (.plain 1001) 2 b [written a a'] = some t ∧
    ¬ List.Forall₂ (Call.Carries (.plain 1001)) t.calls (spoken msgs) := by
  obtain ⟨a,a',msgs,b,t,ha,hb,hw,ht,hP⟩ := exchange_some [.piece 0 0 1,.choke]
    (P := fun a _ msgs b t => decide (a.peerid.length = 20 ∧ a.tp.mi.infoHash = b.tp.mi.infoHash ∧
      (b.peer 2).state.handshake1 = true ∧ (b.peer 2).state.sendbitfield = false ∧ (b.peer 2).rxpending = 0 ∧
      spoken msgs = [.piece 0 0 [0],.choke] ∧ t.calls.length = 1)) (by decide +kernel)
  obtain ⟨hid,hhash,h₁,h₂,h₃,hspoken,hcalls⟩ := of_decide_eq_true hP
  refine ⟨a,a',msgs,b,t,ha,hb,hid,hhash,⟨h₁,h₂,h₃⟩,hw,hspoken,ht,?_⟩
  intro hall
  have hlen := hall.length_eq
  rw [hcalls,hspoken] at hlen
  simp at hlen

/-- The same two clients, with messages that leave the receiver running. -/
theorem responses_agree_exchange : ∃ a a' msgs b, Reachable sha1ZeroByte .complete a ∧ Reachable sha1ZeroByte .leech b ∧
    peerWrites (.plain 1001) 0 (networkPeerHandshake (.plain 1001) a 0) [.haveall,.keepalive,.requestBlock 0 0 1] =
      .ok (a',msgs) ∧ spoken msgs = [.haveall,.request 0 0 1] ∧
    ∃ t, networkHandlePeerResponses sha1ZeroByte (.plain 1001) 2 b [written a a'] = some t ∧
      Heard (.plain 1001) (spoken msgs) t := by
  obtain ⟨a,a',msgs,b,t,ha,hb,hw,ht,hP⟩ := exchange_some [.haveall,.keepalive,.requestBlock 0 0 1]
    (P := fun a a' msgs b _ => decide (a.peerid.length = 20 ∧ a.tp.mi.infoHash = b.tp.mi.infoHash ∧
      (b.peer 2).state.handshake1 = true ∧ (b.peer 2).state.sendbitfield = false ∧ (b.peer 2).rxpending = 0 ∧
      spoken msgs = [.haveall,.request 0 0 1] ∧ written a a' ≠ [])) (by decide +kernel)
  obtain ⟨hid,hhash,h₁,h₂,h₃,hspoken,hne⟩ := of_decide_eq_true hP
  refine ⟨a,a',msgs,b,ha,hb,hw,hspoken,responses_agree sha1ZeroByte (.plain 1001) (.plain 1001) a a'
    b 0 2 _ msgs hid hw ?_ ?_
    hhash ⟨h₁,h₂,h₃⟩ [written a a'] ?_ (by simp)⟩
  · intro w hmem
    fin_cases hmem
    · trivial
    · trivial
    · exact ⟨by decide,by decide,by decide⟩
  · intro hmem
    simp at hmem
  · intro c hc
    rw [List.mem_singleton.mp hc]
    exact hne

end Runs

end Unworkable
