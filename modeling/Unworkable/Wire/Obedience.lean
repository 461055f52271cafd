import Unworkable.Wire.Framing
import Unworkable.Wire.Steering

/-! # Which peers are obeyed

While a peer is alive its messages are processed only after both handshake stages, with the
info hash of the torrent. A kill zeroes the state bits, which is also how the reader knows a
peer whose handshake is over: what follows is framed as before, and the first complete
message in it is processed for the dead peer.
-/
namespace Unworkable
open Library

/-- Whether the bytes hold a complete message, read from a boundary: keep-alives and lengths
that are refused are passed over. -/
def hasFrame : Bytes → Bool
  | a :: b :: c :: d :: rest =>
    if readBe32 a b c d = 0 ∨ readBe32 a b c d > maxMessageLen then hasFrame rest
    else decide (readBe32 a b c d ≤ rest.length)
  | _ => false

/-- Pieces, requests, uploads and messages sent are as before. -/
structure Unaffected (s s' : Session) : Prop where
  tp : s'.tp = s.tp
  store : s'.store = s.store
  out : s'.out = s.out
  uls : ∀ q, (s'.peer q).uls = (s.peer q).uls
  queue : ∀ q, (s'.peer q).dlQueueLen = (s.peer q).dlQueueLen

theorem Unaffected.refl (s : Session) : Unaffected s s := ⟨rfl,rfl,rfl,fun _ => rfl,fun _ => rfl⟩

theorem Unaffected.trans {s₁ s₂ s₃ : Session} (h : Unaffected s₁ s₂) (h' : Unaffected s₂ s₃) : Unaffected s₁ s₃ :=
  ⟨h'.1.trans h.1,h'.2.trans h.2,h'.3.trans h.3,fun q => (h'.4 q).trans (h.4 q),fun q => (h'.5 q).trans (h.5 q)⟩

theorem Unaffected.symm {s₁ s₂ : Session} (h : Unaffected s₁ s₂) : Unaffected s₂ s₁ :=
  ⟨h.1.symm,h.2.symm,h.3.symm,fun q => (h.4 q).symm,fun q => (h.5 q).symm⟩

theorem unaffected_setPeer (s : Session) (p : PeerId) {f : Peer → Peer} (hu : (f (s.peer p)).uls = (s.peer p).uls)
    (hq : (f (s.peer p)).dlQueueLen = (s.peer p).dlQueueLen) : Unaffected s (s.setPeer p f) := by
  refine ⟨rfl,rfl,rfl,?_,?_⟩
  · intro q
    by_cases h : q = p
    · rw [h,Session.setPeer_self,hu]
    · rw [Session.setPeer_ne _ _ _ h]
  · intro q
    by_cases h : q = p
    · rw [h,Session.setPeer_self,hq]
    · rw [Session.setPeer_ne _ _ _ h]

def Validated (infoHash : Bytes) (q : Peer) : Prop :=
  q.state.handshake1 = false ∧ q.state.handshake2 = false ∧ q.infoHash = infoHash

/-- A peer that is dead, with nothing waiting to be sent to it. -/
structure DeadPeer (q : Peer) : Prop where
  dead : q.state.dead = true
  handshake1 : q.state.handshake1 = false
  handshake2 : q.state.handshake2 = false
  sendbitfield : q.state.sendbitfield = false

section Feeding
variable {sha1 : Bytes → Bytes} {env : Env} {p : PeerId} {s s' : Session}

theorem feedPeer_append (a b : Bytes) :
    feedPeer sha1 env p s (a ++ b) = (feedPeer sha1 env p s a).bind (fun s => feedPeer sha1 env p s b) :=
  Reader.feed_append _ s a b

/-- Bytes that fit what is pending are taken in one entry of the callback. -/
theorem feedPeer_eq_response (hs : Quiet p s) {bs : Bytes} (hne : bs ≠ [])
    (hle : bs.length ≤ (armRead env (s.peer p)).rxpending) :
    feedPeer sha1 env p s bs = peerResponse sha1 env p s bs := by
  have hp : (peerReader sha1 env p).pending ((peerReader sha1 env p).arm s) = (armRead env (s.peer p)).rxpending := by
    simp [peerReader]
  have h := (peerReader_lawful sha1 env p).invoke_eq_feed hs hne
  rw [hp,List.take_of_length_le hle] at h
  exact h.symm

theorem afterRead_rxpending (q : Peer) {bs : Bytes} (hle : bs.length ≤ (armRead env q).rxpending) :
    (afterRead env q bs).rxpending = (armRead env q).rxpending - bs.length := by
  simp only [afterRead,pushRead,List.take_of_length_le hle]

theorem afterRead_frame (env : Env) (q : Peer) (bs : Bytes) : (afterRead env q bs).uls = q.uls ∧
    (afterRead env q bs).dlQueueLen = q.dlQueueLen ∧ (afterRead env q bs).infoHash = q.infoHash ∧
    (afterRead env q bs).state = (armRead env q).state := by
  simp only [afterRead,pushRead,armRead]
  split_ifs <;> simp

theorem armRead_frame (env : Env) (q : Peer) : (armRead env q).state.handshake1 = q.state.handshake1 ∧
    (armRead env q).state.handshake2 = q.state.handshake2 ∧ (armRead env q).state.dead = q.state.dead ∧
    (armRead env q).state.sendbitfield = q.state.sendbitfield := by
  simp only [armRead]
  split_ifs <;> exact ⟨rfl,rfl,rfl,rfl⟩

theorem DeadPeer.quiet (h : DeadPeer (s.peer p)) : Quiet p s := h.sendbitfield

theorem DeadPeer.afterRead {q : Peer} (h : DeadPeer q) (env : Env) (bs : Bytes) : DeadPeer (afterRead env q bs) := by
  obtain ⟨-,-,-,hstate⟩ := afterRead_frame env q bs
  obtain ⟨h₁,h₂,hd,hsb⟩ := armRead_frame env q
  exact ⟨by rw [hstate,hd,h.dead],by rw [hstate,h₁,h.handshake1],by rw [hstate,h₂,h.handshake2],
    by rw [hstate,hsb,h.sendbitfield]⟩

/-- Fewer bytes than are pending are kept for later. -/
theorem feedPeer_partial (sha1 : Bytes → Bytes) (env : Env) (h : DeadPeer (s.peer p)) (bs : Bytes)
    (hlt : bs.length < (armRead env (s.peer p)).rxpending) :
    ∃ s', feedPeer sha1 env p s bs = .pure s' ∧ Unaffected s s' ∧ DeadPeer (s'.peer p) := by
  by_cases hne : bs = []
  · subst hne
    exact ⟨s,rfl,.refl s,h⟩
  · have hq : Quiet p (s.setPeer p (Unworkable.afterRead env · bs)) := by
      simpa [Quiet] using (h.afterRead env bs).sendbitfield
    refine ⟨s.setPeer p (Unworkable.afterRead env · bs),?_,?_,?_⟩
    · rw [feedPeer_eq_response h.quiet hne (by omega),peerResponse_eq,
        if_pos (by rw [afterRead_rxpending _ (by omega)]; omega),Traced.pure_bind,sendBitfield_of_quiet env p hq]
      rfl
    · obtain ⟨hu,hqueue,-,-⟩ := afterRead_frame env (s.peer p) bs
      exact unaffected_setPeer s p hu hqueue
    · rw [Session.setPeer_self]
      exact h.afterRead env bs

/-- A complete body is handed to `network_peer_process_message`. -/
theorem finishRead_message (h₁ : (s.peer p).state.handshake1 = false) (h₂ : (s.peer p).state.handshake2 = false)
    (hgot : (s.peer p).state.gotlen = true) : finishRead sha1 env p s =
      ⟨[⟨(s.peer p).rxmsg.headD 0,(s.peer p).rxmsg,s.peer p⟩],
        (networkPeerProcessMessage sha1 env s p ((s.peer p).rxmsg.headD 0) (s.peer p).rxmsg).map
          (fun s => s.setPeer p (fun q => { q with rxmsg := [] }))⟩ := by
  simp only [finishRead,h₁,h₂,hgot,Bool.false_eq_true,if_false,Bool.not_true]

theorem msgField_length (env : Env) (a b c d : UInt8) : msgField env [a,b,c,d] 0 = readBe32 a b c d := by
  simp [msgField,msgByte]

/-- A length field of a dead peer is read like any other. -/
theorem feedPeer_length (sha1 : Bytes → Bytes) (env : Env) (h : DeadPeer (s.peer p))
    (hzero : (s.peer p).rxpending = 0) (a b c d : UInt8) :
    ∃ s', feedPeer sha1 env p s [a,b,c,d] = .pure s' ∧ Unaffected s s' ∧ DeadPeer (s'.peer p) ∧
      ((readBe32 a b c d = 0 ∨ readBe32 a b c d > maxMessageLen) ∧ (s'.peer p).rxpending = 0 ∨
        ¬ (readBe32 a b c d = 0 ∨ readBe32 a b c d > maxMessageLen) ∧ (s'.peer p).rxpending = readBe32 a b c d ∧
          (s'.peer p).state.gotlen = true) := by
  have harm : armRead env (s.peer p) = { s.peer p with
      state := { (s.peer p).state with gotlen := false }, rxmsg := [], rxmsglen := 4, rxpending := 4 } := by
    simp [armRead,hzero,h.handshake1]
  have hread := h.afterRead env [a,b,c,d]
  have hmsg : (afterRead env (s.peer p) [a,b,c,d]).rxmsg = [a,b,c,d] := by simp [afterRead,pushRead,harm]
  have hpend : (afterRead env (s.peer p) [a,b,c,d]).rxpending = 0 := by simp [afterRead,pushRead,harm]
  have hgot : (afterRead env (s.peer p) [a,b,c,d]).state.gotlen = false := by simp [afterRead,pushRead,harm]
  obtain ⟨hu,hqueue,-,-⟩ := afterRead_frame env (s.peer p) [a,b,c,d]
  generalize hq : afterRead env (s.peer p) [a,b,c,d] = q at hread hmsg hpend hgot hu hqueue
  have hlen : msgField env q.rxmsg 0 = readBe32 a b c d := by rw [hmsg,msgField_length]
  -- the entry of the callback ends with the length in place
  have hdead : DeadPeer (finishLength env q) := by
    simp only [finishLength]
    split
    · exact ⟨rfl,rfl,rfl,rfl⟩
    · exact ⟨hread.dead,hread.handshake1,hread.handshake2,hread.sendbitfield⟩
  have hpeer : ((s.setPeer p (afterRead env · [a,b,c,d])).setPeer p (finishLength env)).peer p =
      finishLength env q := by
    simp [hq]
  refine ⟨(s.setPeer p (afterRead env · [a,b,c,d])).setPeer p (finishLength env),?_,?_,?_,?_⟩
  · have hquiet : Quiet p ((s.setPeer p (afterRead env · [a,b,c,d])).setPeer p (finishLength env)) := by
      rw [Quiet,hpeer]
      exact hdead.sendbitfield
    rw [feedPeer_eq_response h.quiet (by simp) (by simp [harm]),peerResponse_eq,if_neg (by rw [hq,hpend]; simp)]
    simp only [finishRead,Session.setPeer_self,hq,hread.handshake1,hread.handshake2,hgot,Bool.false_eq_true,if_false,
      Bool.not_false,if_true,Traced.pure_bind]
    rw [sendBitfield_of_quiet env p hquiet]
    rfl
  · rw [Session.setPeer_setPeer]
    refine unaffected_setPeer s p ?_ ?_
    · rw [hq]
      simp only [finishLength]
      split <;> exact hu
    · rw [hq]
      simp only [finishLength]
      split <;> exact hqueue
  · rw [hpeer]
    exact hdead
  · rw [hpeer]
    simp only [finishLength,hlen]
    generalize readBe32 a b c d = n
    by_cases hmax : n > maxMessageLen
    · rw [if_pos hmax]
      exact .inl ⟨.inr hmax,hpend⟩
    · rw [if_neg hmax]
      by_cases hn : n = 0
      · exact .inl ⟨.inl hn,hn⟩
      · exact .inr ⟨by simp [hn,hmax],rfl,rfl⟩

/-- A body of a dead peer is processed once it is complete. -/
theorem feedPeer_body (sha1 : Bytes → Bytes) (env : Env) (h : DeadPeer (s.peer p)) (bs : Bytes) {n : ℕ}
    (hpend : (s.peer p).rxpending = n) (hpos : 0 < n) (hgot : (s.peer p).state.gotlen = true) :
    (bs.length < n → ∃ s', feedPeer sha1 env p s bs = .pure s' ∧ Unaffected s s') ∧
      (n ≤ bs.length → ∃ c ∈ (feedPeer sha1 env p s bs).calls, c.peer.state.dead = true) := by
  have harm : armRead env (s.peer p) = s.peer p := armRead_of_pending env (by omega)
  constructor
  · intro hlt
    obtain ⟨s',hs',hun,-⟩ := feedPeer_partial sha1 env h bs (by rw [harm,hpend]; exact hlt)
    exact ⟨s',hs',hun⟩
  · intro hle
    have hlen : (bs.take n).length = n := List.length_take_of_le hle
    have hne : bs.take n ≠ [] := List.ne_nil_of_length_pos (by omega)
    have hread := h.afterRead env (bs.take n)
    have hzero : (afterRead env (s.peer p) (bs.take n)).rxpending = 0 := by
      rw [afterRead_rxpending _ (by rw [harm]; omega),harm,hpend,hlen,Nat.sub_self]
    obtain ⟨-,-,-,hstate⟩ := afterRead_frame env (s.peer p) (bs.take n)
    rw [harm] at hstate
    refine ⟨⟨(afterRead env (s.peer p) (bs.take n)).rxmsg.headD 0,(afterRead env (s.peer p) (bs.take n)).rxmsg,
      afterRead env (s.peer p) (bs.take n)⟩,?_,hread.dead⟩
    rw [← List.take_append_drop n bs,feedPeer_append]
    refine Traced.mem_calls_bind.mpr (.inl ?_)
    rw [List.take_append_drop,feedPeer_eq_response h.quiet hne (by rw [harm]; omega),peerResponse_eq,if_neg (by omega)]
    refine Traced.mem_calls_bind.mpr (.inl ?_)
    rw [finishRead_message (by simpa using hread.handshake1) (by simpa using hread.handshake2)
      (by rw [Session.setPeer_self,hstate,hgot])]
    simp

theorem feedPeer_field (a b c d : UInt8) (rest : Bytes) : feedPeer sha1 env p s (a :: b :: c :: d :: rest) =
    (feedPeer sha1 env p s [a,b,c,d]).bind (fun s => feedPeer sha1 env p s rest) := feedPeer_append [a,b,c,d] rest

theorem hasFrame_field (a b c d : UInt8) (rest : Bytes) : hasFrame (a :: b :: c :: d :: rest) =
    if readBe32 a b c d = 0 ∨ readBe32 a b c d > maxMessageLen then hasFrame rest
    else decide (readBe32 a b c d ≤ rest.length) := by
  rw [hasFrame]

/-- What a dead peer sends is processed as soon as it holds a complete message, and is
without effect as long as it holds none. -/
theorem feedPeer_dead (bs : Bytes) (h : DeadPeer (s.peer p)) (hzero : (s.peer p).rxpending = 0) :
    (hasFrame bs = false → ∃ s', feedPeer sha1 env p s bs = .pure s' ∧ Unaffected s s') ∧
      (hasFrame bs = true → ∃ c ∈ (feedPeer sha1 env p s bs).calls, c.peer.state.dead = true) := by
  induction bs using hasFrame.induct generalizing s with
  | case1 a b c d rest hskip ih =>
    obtain ⟨s₁,hfeed,hun,hdead,⟨-,hz⟩ | ⟨hno,-⟩⟩ := feedPeer_length sha1 env h hzero a b c d
    · obtain ⟨ih₁,ih₂⟩ := ih hdead hz
      rw [feedPeer_field,hfeed,Traced.pure_bind,hasFrame_field,if_pos hskip]
      refine ⟨?_,ih₂⟩
      intro hf
      obtain ⟨s',hs',hun'⟩ := ih₁ hf
      exact ⟨s',hs',hun.trans hun'⟩
    · exact (hno hskip).elim
  | case2 a b c d rest hskip =>
    obtain ⟨s₁,hfeed,hun,hdead,⟨hyes,-⟩ | ⟨-,hpend,hgot⟩⟩ := feedPeer_length sha1 env h hzero a b c d
    · exact (hskip hyes).elim
    · obtain ⟨hshort,hlong⟩ := feedPeer_body sha1 env hdead rest hpend
        (Nat.pos_of_ne_zero (fun h0 => hskip (.inl h0))) hgot
      rw [feedPeer_field,hfeed,Traced.pure_bind,hasFrame_field,if_neg hskip]
      refine ⟨?_,fun hf => hlong (of_decide_eq_true hf)⟩
      intro hf
      obtain ⟨s',hs',hun'⟩ := hshort (Nat.lt_of_not_le (of_decide_eq_false hf))
      exact ⟨s',hs',hun.trans hun'⟩
  | case3 bs hshort =>
    have hlt : bs.length < 4 := by
      rcases bs with _ | ⟨a,_ | ⟨b,_ | ⟨c,_ | ⟨d,rest⟩⟩⟩⟩
      · simp
      · simp
      · simp
      · simp
      · exact (hshort a b c d rest rfl).elim
    have hno : hasFrame bs = false := by
      rcases bs with _ | ⟨a,_ | ⟨b,_ | ⟨c,_ | ⟨d,rest⟩⟩⟩⟩
      · rfl
      · rfl
      · rfl
      · rfl
      · exact (hshort a b c d rest rfl).elim
    have harm : (armRead env (s.peer p)).rxpending = 4 := by simp [armRead,hzero,h.handshake1]
    obtain ⟨s',hs',hun,-⟩ := feedPeer_partial sha1 env h bs (by omega)
    exact ⟨fun _ => ⟨s',hs',hun⟩,fun hf => by simp [hno] at hf⟩

end Feeding

/-- A live peer: once its handshake is over, its info hash is the right one. -/
structure Alive (infoHash : Bytes) (q : Peer) : Prop where
  dead : q.state.dead = false
  sendbitfield : q.state.sendbitfield = false
  stage : q.state.handshake1 = false → q.state.handshake2 = false → q.infoHash = infoHash

section Living
variable {sha1 : Bytes → Bytes} {env : Env} {p : PeerId} {s s' : Session} {b : UInt8}

theorem sendBitfield_peer (h : sendBitfield env p s = .ok s') :
    (s'.peer p).state = { (s.peer p).state with sendbitfield := false } ∧
      (s'.peer p).infoHash = (s.peer p).infoHash ∧ (s'.peer p).rxpending = (s.peer p).rxpending := by
  unfold sendBitfield at h
  cases hb : (s.peer p).state.sendbitfield with
  | false =>
    simp only [hb,Bool.false_eq_true,if_false] at h
    cases h
    refine ⟨?_,rfl,rfl⟩
    rw [← hb]
  | true =>
    simp only [hb,if_true] at h
    obtain ⟨t,ht,h⟩ := bind_ok.mp h
    cases h
    have hwrite : ∀ msg, ((networkPeerWrite env s p msg).peer p).state = (s.peer p).state ∧
        ((networkPeerWrite env s p msg).peer p).infoHash = (s.peer p).infoHash ∧
        ((networkPeerWrite env s p msg).peer p).rxpending = (s.peer p).rxpending := by
      intro msg
      simp [networkPeerWrite]
    have hbitfield : ∀ u, networkPeerWriteBitfield env s p = .ok u → (u.peer p).state = (s.peer p).state ∧
        (u.peer p).infoHash = (s.peer p).infoHash ∧ (u.peer p).rxpending = (s.peer p).rxpending := by
      intro u hu
      unfold networkPeerWriteBitfield at hu
      obtain ⟨bf,-,hu⟩ := bind_ok.mp hu
      cases hu
      exact hwrite _
    have hsame : (t.peer p).state = (s.peer p).state ∧ (t.peer p).infoHash = (s.peer p).infoHash ∧
        (t.peer p).rxpending = (s.peer p).rxpending := by
      unfold writePieces at ht
      split_ifs at ht
      · cases ht; exact hwrite _
      · cases ht; exact hwrite _
      · exact hbitfield t ht
      · cases ht; exact ⟨rfl,rfl,rfl⟩
      · exact hbitfield t ht
    simpa [Session.setState,hsame.1,hsame.2.1] using hsame.2.2

/-- What a complete read of a live peer leads to, up to the label `out`. -/
theorem finishRead_alive {infoHash : Bytes} (hmi : s.tp.mi.infoHash = infoHash) (hd : (s.peer p).state.dead = false)
    (hstage : (s.peer p).state.handshake1 = false → (s.peer p).state.handshake2 = false →
      (s.peer p).infoHash = infoHash)
    (hzero : (s.peer p).rxpending = 0) :
    (∀ c ∈ (finishRead sha1 env p s).calls, Validated infoHash c.peer ∧ c.peer.state.dead = false) ∧
      ∀ t, (finishRead sha1 env p s).result = .ok t →
        (t.peer p).state.dead = false ∧ ((t.peer p).state.handshake1 = false → (t.peer p).state.handshake2 = false →
          (t.peer p).infoHash = infoHash) ∨
        DeadPeer (t.peer p) ∧ (t.peer p).rxpending = 0 := by
  unfold finishRead
  dsimp only
  cases h₁ : (s.peer p).state.handshake1 with
  | true =>
    refine ⟨by simp [Traced.pure],?_⟩
    intro t ht
    cases ht
    rw [Session.setPeer_self]
    simp only [finishHandshake1]
    split
    · refine .inl ⟨hd,?_⟩
      intro _ h₂
      cases h₂
    · exact .inr ⟨⟨rfl,rfl,rfl,rfl⟩,hzero⟩
  | false =>
  cases h₂ : (s.peer p).state.handshake2 with
  | true =>
    refine ⟨by simp [Traced.pure],?_⟩
    intro t ht
    cases ht
    rw [Session.setPeer_self]
    simp only [finishHandshake2,hmi]
    split
    · exact .inr ⟨⟨rfl,rfl,rfl,rfl⟩,hzero⟩
    · rename_i hhash
      exact .inl ⟨hd,fun _ _ => not_not.mp hhash⟩
  | false =>
  cases hg : (s.peer p).state.gotlen with
  | false =>
    refine ⟨by simp [Traced.pure],?_⟩
    intro t ht
    cases ht
    rw [Session.setPeer_self]
    simp only [finishLength]
    split
    · exact .inr ⟨⟨rfl,rfl,rfl,rfl⟩,hzero⟩
    · exact .inl ⟨hd,fun _ _ => hstage h₁ h₂⟩
  | true =>
    simp only [Bool.false_eq_true,if_false,Bool.not_true]
    refine ⟨?_,?_⟩
    · intro c hc
      rw [List.mem_singleton.mp hc]
      exact ⟨⟨h₁,h₂,hstage h₁ h₂⟩,hd⟩
    · intro t ht
      obtain ⟨u,hu,rfl⟩ := map_ok.mp ht
      rw [Session.setPeer_self]
      rcases calm_or_killed hu with hcalm | rfl
      · refine .inl ⟨hcalm.dead.trans hd,?_⟩
        intro _ _
        exact hcalm.infoHash.trans (hstage h₁ h₂)
      · rw [killPeer,Session.setState,Session.setPeer_self]
        exact .inr ⟨⟨rfl,rfl,rfl,rfl⟩,hzero⟩

/-- One byte from a live peer: any call is for a validated live peer, and afterwards the
peer is alive, or it has just been killed. -/
theorem feedPeer_alive (h : Alive s.tp.mi.infoHash (s.peer p)) :
    (∀ c ∈ (feedPeer sha1 env p s [b]).calls, Validated s.tp.mi.infoHash c.peer ∧ c.peer.state.dead = false) ∧
      ∀ t, (feedPeer sha1 env p s [b]).result = .ok t → t.tp.mi = s.tp.mi ∧
        (Alive s.tp.mi.infoHash (t.peer p) ∨ DeadPeer (t.peer p) ∧ (t.peer p).rxpending = 0) := by
  have hpos := armRead_pending env (s.peer p)
  have hfeed : feedPeer sha1 env p s [b] = peerResponse sha1 env p s [b] :=
    feedPeer_eq_response h.sendbitfield (by simp) hpos
  obtain ⟨-,-,hinfo,hstate⟩ := afterRead_frame env (s.peer p) [b]
  obtain ⟨ha₁,ha₂,had,-⟩ := armRead_frame env (s.peer p)
  have hpeer : (s.setPeer p (afterRead env · [b])).peer p = afterRead env (s.peer p) [b] := Session.setPeer_self s p _
  have hstage : (afterRead env (s.peer p) [b]).state.handshake1 = false →
      (afterRead env (s.peer p) [b]).state.handshake2 = false →
      (afterRead env (s.peer p) [b]).infoHash = s.tp.mi.infoHash := by
    intro h₁ h₂
    rw [hstate] at h₁ h₂
    rw [hinfo]
    exact h.stage (ha₁.symm.trans h₁) (ha₂.symm.trans h₂)
  have hd : (afterRead env (s.peer p) [b]).state.dead = false := by rw [hstate,had,h.dead]
  rw [hfeed]
  have hmi : ∀ t, (peerResponse sha1 env p s [b]).result = .ok t → t.tp.mi = s.tp.mi :=
    fun t ht => Core.Sound.mi (peerResponse_moves ht)
  rw [peerResponse_eq] at hmi ⊢
  by_cases hpend : 0 < (afterRead env (s.peer p) [b]).rxpending
  · rw [if_pos hpend,Traced.pure_bind] at hmi ⊢
    refine ⟨by simp,?_⟩
    intro t ht
    obtain ⟨ht₁,ht₂,-⟩ := sendBitfield_peer ht
    rw [hpeer] at ht₁ ht₂
    refine ⟨hmi t ht,.inl ⟨by rw [ht₁]; exact hd,by rw [ht₁],?_⟩⟩
    intro h₁ h₂
    rw [ht₁] at h₁ h₂
    rw [ht₂]
    exact hstage h₁ h₂
  · rw [if_neg hpend] at hmi ⊢
    obtain ⟨hcalls,hresult⟩ := @finishRead_alive sha1 env p (s.setPeer p (afterRead env · [b])) _ rfl
      (by rw [hpeer]; exact hd) (by rw [hpeer]; exact hstage) (by rw [hpeer]; omega)
    refine ⟨?_,?_⟩
    · intro c hc
      refine hcalls c ?_
      simp only [Traced.bind] at hc
      split at hc <;> simpa using hc
    · intro t ht
      obtain ⟨u,hu,hsend⟩ := Traced.bind_result_ok.mp ht
      obtain ⟨ht₁,ht₂,ht₃⟩ := sendBitfield_peer hsend
      refine ⟨hmi t ht,?_⟩
      rcases hresult u hu with ⟨hdu,hsu⟩ | ⟨hdead,hzero⟩
      · refine .inl ⟨by rw [ht₁]; exact hdu,by rw [ht₁],?_⟩
        intro h₁ h₂
        rw [ht₁] at h₁ h₂
        rw [ht₂]
        exact hsu h₁ h₂
      · refine .inr ⟨⟨?_,?_,?_,?_⟩,ht₃.trans hzero⟩
        · rw [ht₁]; exact hdead.dead
        · rw [ht₁]; exact hdead.handshake1
        · rw [ht₁]; exact hdead.handshake2
        · rw [ht₁]

/-- Nothing brings a dead peer back. -/
theorem DeadPeer.feed (h : DeadPeer (s.peer p)) {bs : Bytes} (hs' : (feedPeer sha1 env p s bs).result = .ok s') :
    DeadPeer (s'.peer p) := by
  induction bs generalizing s with
  | nil =>
    cases hs'
    exact h
  | cons b bs ih =>
    rw [show b :: bs = [b] ++ bs from rfl,feedPeer_append] at hs'
    obtain ⟨t,ht,hs'⟩ := Traced.bind_result_ok.mp hs'
    refine ih ?_ hs'
    have hfeed : feedPeer sha1 env p s [b] = peerResponse sha1 env p s [b] :=
      feedPeer_eq_response h.quiet (by simp) (armRead_pending env (s.peer p))
    rw [hfeed,peerResponse_eq] at ht
    obtain ⟨u,hu,hsend⟩ := Traced.bind_result_ok.mp ht
    have hread := h.afterRead env [b]
    have hpeer : (s.setPeer p (Unworkable.afterRead env · [b])).peer p = Unworkable.afterRead env (s.peer p) [b] :=
      Session.setPeer_self s p _
    have hdead : DeadPeer (u.peer p) := by
      split at hu
      · cases hu
        rw [hpeer]
        exact hread
      · simp only [finishRead,hpeer,hread.handshake1,hread.handshake2,Bool.false_eq_true,if_false] at hu
        split at hu
        · cases hu
          rw [Session.setPeer_self,hpeer]
          simp only [finishLength]
          split
          · exact ⟨rfl,rfl,rfl,rfl⟩
          · exact ⟨hread.dead,hread.handshake1,hread.handshake2,hread.sendbitfield⟩
        · obtain ⟨v,hv,rfl⟩ := map_ok.mp hu
          rw [Session.setPeer_self]
          rcases calm_or_killed hv with hcalm | rfl
          · rw [hpeer] at hcalm
            exact ⟨hcalm.dead.trans hread.dead,hcalm.handshake1.trans hread.handshake1,
              hcalm.handshake2.trans hread.handshake2,hcalm.sendbitfield.trans hread.sendbitfield⟩
          · rw [killPeer,Session.setState,Session.setPeer_self]
            exact ⟨rfl,rfl,rfl,rfl⟩
    obtain ⟨hstate,-,-⟩ := sendBitfield_peer hsend
    refine ⟨?_,?_,?_,?_⟩
    · rw [hstate]; exact hdead.dead
    · rw [hstate]; exact hdead.handshake1
    · rw [hstate]; exact hdead.handshake2
    · rw [hstate]

end Living

section Streams
variable (sha1 : Bytes → Bytes) (env : Env) (p : PeerId)

/-- Only a validated live peer is obeyed, however its bytes arrive: every message is
processed for such a peer, and what comes once it is dead is without effect. -/
structure OnlyLiveObeyed (s : Session) (bs : Bytes) : Prop where
  calls : ∀ chunks : List Bytes, (∀ c ∈ chunks, c ≠ []) → chunks.flatten = bs →
    ∀ t, networkHandlePeerResponses sha1 env p s chunks = some t →
    ∀ c ∈ t.calls, Validated s.tp.mi.infoHash c.peer ∧ c.peer.state.dead = false
  frozen : ∀ chunks chunks' : List Bytes, (∀ c ∈ chunks ++ chunks', c ≠ []) → (chunks ++ chunks').flatten = bs →
    ∀ t s₁ left, networkHandlePeerResponses sha1 env p s chunks = some t → t.result = .ok (s₁,left) →
    (s₁.peer p).state.dead = true → ∃ s₂, networkHandlePeerResponses sha1 env p s₁ chunks' = some (.pure (s₂,[])) ∧
      Unaffected s₁ s₂

/-- The bytes behind the one that gets the peer killed hold no complete message. -/
def QuietAfterDeath (s : Session) (bs : Bytes) : Prop :=
  ∀ pre b post s₁ s₂, bs = pre ++ b :: post → (feedPeer sha1 env p s pre).result = .ok s₁ →
    (s₁.peer p).state.dead = false → (feedPeer sha1 env p s₁ [b]).result = .ok s₂ →
    (s₂.peer p).state.dead = true → hasFrame post = false

variable {sha1 env p} {s : Session}

theorem QuietAfterDeath.tail {b : UInt8} {bs : Bytes} {s' : Session} (h : QuietAfterDeath sha1 env p s (b :: bs))
    (hb : (feedPeer sha1 env p s [b]).result = .ok s') : QuietAfterDeath sha1 env p s' bs := by
  intro pre x post s₁ s₂ hbs hpre halive hx hdead
  refine h (b :: pre) x post s₁ s₂ (by rw [hbs]; rfl) ?_ halive hx hdead
  rw [show b :: pre = [b] ++ pre from rfl,feedPeer_append]
  exact Traced.bind_result_ok.mpr ⟨s',hb,hpre⟩

/-- Behind the first kill no message is processed. -/
theorem calls_of_quietAfterDeath {bs : Bytes} (h : Alive s.tp.mi.infoHash (s.peer p))
    (hq : QuietAfterDeath sha1 env p s bs) :
    ∀ c ∈ (feedPeer sha1 env p s bs).calls, Validated s.tp.mi.infoHash c.peer ∧ c.peer.state.dead = false := by
  induction bs generalizing s with
  | nil => simp [feedPeer,Reader.feed,Traced.pure]
  | cons b bs ih =>
    obtain ⟨hcalls,hnext⟩ := @feedPeer_alive sha1 env p s b h
    rw [show b :: bs = [b] ++ bs from rfl,feedPeer_append]
    intro c hc
    rcases Traced.mem_calls_bind.mp hc with hc | ⟨s',hs',hc⟩
    · exact hcalls c hc
    · obtain ⟨hmi,halive | ⟨hdead,hzero⟩⟩ := hnext s' hs'
      · rw [← hmi] at halive ⊢
        exact ih halive (hq.tail hs') c hc
      · have hno := hq [] b bs s s' rfl rfl h.dead hs' hdead.dead
        obtain ⟨s'',hs'',-⟩ := (feedPeer_dead bs hdead hzero).1 hno
        rw [hs''] at hc
        cases hc

/-- Bytes fed to a live peer leave it alive or dead. -/
theorem alive_or_killed {bs : Bytes} {s' : Session} (h : Alive s.tp.mi.infoHash (s.peer p))
    (hs' : (feedPeer sha1 env p s bs).result = .ok s') :
    Alive s'.tp.mi.infoHash (s'.peer p) ∨ (s'.peer p).state.dead = true := by
  induction bs generalizing s with
  | nil =>
    cases hs'
    exact .inl h
  | cons b bs ih =>
    obtain ⟨-,hnext⟩ := @feedPeer_alive sha1 env p s b h
    rw [show b :: bs = [b] ++ bs from rfl,feedPeer_append] at hs'
    obtain ⟨t,ht,hs'⟩ := Traced.bind_result_ok.mp hs'
    obtain ⟨hmi,halive | ⟨hkill,-⟩⟩ := hnext t ht
    · rw [← hmi] at halive
      exact ih halive hs'
    · exact .inr (hkill.feed hs').dead

/-- A peer that is found dead was killed by some byte. -/
theorem exists_kill {bs : Bytes} {s' : Session} (h : Alive s.tp.mi.infoHash (s.peer p))
    (hs' : (feedPeer sha1 env p s bs).result = .ok s') (hdead : (s'.peer p).state.dead = true) :
    ∃ pre b post s₁ s₂, bs = pre ++ b :: post ∧ (feedPeer sha1 env p s pre).result = .ok s₁ ∧
      (s₁.peer p).state.dead = false ∧ (feedPeer sha1 env p s₁ [b]).result = .ok s₂ ∧ DeadPeer (s₂.peer p) ∧
      (s₂.peer p).rxpending = 0 ∧ (feedPeer sha1 env p s₂ post).result = .ok s' := by
  induction bs generalizing s with
  | nil =>
    cases hs'
    rw [h.dead] at hdead
    cases hdead
  | cons b bs ih =>
    obtain ⟨-,hnext⟩ := @feedPeer_alive sha1 env p s b h
    rw [show b :: bs = [b] ++ bs from rfl,feedPeer_append] at hs'
    obtain ⟨t,ht,hs'⟩ := Traced.bind_result_ok.mp hs'
    obtain ⟨hmi,halive | ⟨hkill,hzero⟩⟩ := hnext t ht
    · rw [← hmi] at halive
      obtain ⟨pre,x,post,s₁,s₂,hbs,hpre,hrest⟩ := ih halive hs'
      refine ⟨b :: pre,x,post,s₁,s₂,by rw [hbs]; rfl,?_,hrest⟩
      rw [show b :: pre = [b] ++ pre from rfl,feedPeer_append]
      exact Traced.bind_result_ok.mpr ⟨t,ht,hpre⟩
    · exact ⟨[],b,bs,s,t,rfl,rfl,h.dead,ht,hkill,hzero,hs'⟩

theorem handlePeerResponses_eq (hs : Quiet p s) {chunks : List Bytes} (hne : ∀ c ∈ chunks, c ≠ []) :
    networkHandlePeerResponses sha1 env p s chunks =
      some ((feedPeer sha1 env p s chunks.flatten).bind Reader.drained) :=
  (peerReader_lawful sha1 env p).handles_eq_feed hs hne

theorem calls_drained (t : Traced Call Halt Session) : (t.bind Reader.drained).calls = t.calls := by
  rcases t with ⟨calls,result⟩
  cases result <;> simp [Traced.bind,Reader.drained,Traced.pure]

theorem onlyLiveObeyed_of_quiet {bs : Bytes} (h : Alive s.tp.mi.infoHash (s.peer p))
    (hq : QuietAfterDeath sha1 env p s bs) : OnlyLiveObeyed sha1 env p s bs where
  calls chunks hne hflat t ht c hc := by
    rw [handlePeerResponses_eq h.sendbitfield hne,hflat] at ht
    cases ht
    rw [calls_drained] at hc
    exact calls_of_quietAfterDeath h hq c hc
  frozen chunks chunks' hne hflat t s₁ left ht hs₁ hdead := by
    rw [handlePeerResponses_eq h.sendbitfield (fun c hc => hne c (List.mem_append_left _ hc))] at ht
    cases ht
    obtain ⟨s₁',hfeed,hdrain⟩ := Traced.bind_result_ok.mp hs₁
    cases hdrain
    -- the kill lies in the first part, and the second part ends a stream without a message
    obtain ⟨pre,b,post,u,v,hpre,hu,halive,hv,hkill,hzero,hpost⟩ := exists_kill h hfeed hdead
    rw [List.flatten_append,hpre] at hflat
    have hno : hasFrame (post ++ chunks'.flatten) = false :=
      hq pre b _ u v (by rw [← hflat]; simp) hu halive hv hkill.dead
    obtain ⟨s₂,hs₂,hun₂⟩ := (feedPeer_dead (post ++ chunks'.flatten) hkill hzero).1 hno
    have hpost' : feedPeer sha1 env p v post = .pure s₁ ∧ Unaffected v s₁ := by
      cases hf : hasFrame post with
      | true =>
        obtain ⟨c,hc,-⟩ := (@feedPeer_dead sha1 env p _ post hkill hzero).2 hf
        have hmem : c ∈ (feedPeer sha1 env p v (post ++ chunks'.flatten)).calls := by
          rw [feedPeer_append]
          exact Traced.mem_calls_bind.mpr (.inl hc)
        rw [hs₂] at hmem
        cases hmem
      | false =>
        obtain ⟨w,hw,hun⟩ := (@feedPeer_dead sha1 env p _ post hkill hzero).1 hf
        rw [hw] at hpost
        cases hpost
        exact ⟨hw,hun⟩
    have hquiet : Quiet p s₁ := by
      have hresult : ((peerReader sha1 env p).feed v post).result = .ok s₁ := congrArg Traced.result hpost'.1
      exact (peerReader_lawful sha1 env p).quiet_feed hkill.quiet hresult
    refine ⟨s₂,?_,hpost'.2.symm.trans hun₂⟩
    rw [handlePeerResponses_eq hquiet (fun c hc => hne c (List.mem_append_right _ hc))]
    rw [feedPeer_append,hpost'.1,Traced.pure_bind] at hs₂
    rw [hs₂]
    rfl

/-- What a peer sends is obeyed only while it is validated and alive exactly if, once it has
been killed, it sends no complete message. -/
theorem only_live_obeyed_iff (sha1 : Bytes → Bytes) (env : Env) (p : PeerId) (s : Session) (bs : Bytes)
    (h : Alive s.tp.mi.infoHash (s.peer p)) :
    OnlyLiveObeyed sha1 env p s bs ↔ QuietAfterDeath sha1 env p s bs := by
  refine ⟨?_,onlyLiveObeyed_of_quiet h⟩
  intro hobey pre b post s₁ s₂ hbs hs₁ halive hs₂ hdead
  by_contra hf
  have hf : hasFrame post = true := by simpa using hf
  -- the killing byte leaves the reader at a boundary
  have hone : Alive s₁.tp.mi.infoHash (s₁.peer p) := by
    rcases alive_or_killed h hs₁ with hone | hkilled
    · exact hone
    · rw [hkilled] at halive
      cases halive
  obtain ⟨-,hnext⟩ := @feedPeer_alive sha1 env p s₁ b hone
  obtain ⟨-,halive' | ⟨hkill,hzero⟩⟩ := hnext s₂ hs₂
  · rw [halive'.dead] at hdead
    cases hdead
  · obtain ⟨c,hc,hcd⟩ := (@feedPeer_dead sha1 env p _ post hkill hzero).2 hf
    have hmem : c ∈ (feedPeer sha1 env p s bs).calls := by
      rw [hbs,feedPeer_append]
      refine Traced.mem_calls_bind.mpr (.inr ⟨s₁,hs₁,?_⟩)
      rw [show b :: post = [b] ++ post from rfl,feedPeer_append]
      exact Traced.mem_calls_bind.mpr (.inr ⟨s₂,hs₂,hc⟩)
    have hne : ∀ c ∈ [bs], c ≠ [] := by simp [hbs]
    have hlive := hobey.calls [bs] hne (by simp) _ (handlePeerResponses_eq h.sendbitfield hne) c (by
      rw [calls_drained]
      simpa using hmem)
    rw [hlive.2] at hcd
    cases hcd

end Streams

/-- A handshake of another protocol, and behind it the message INTERESTED. -/
def badHandshake : Bytes := List.replicate 20 0 ++ [0,0,0,1,msgInterestedId]

theorem alive_connected {infoHash : Bytes} {q : Peer} (h₁ : q.state.handshake1 = true) (hd : q.state.dead = false)
    (hs : q.state.sendbitfield = false) : Alive infoHash q := by
  refine ⟨hd,hs,?_⟩
  intro h
  rw [h₁] at h
  cases h

/-- A peer that has just connected sends it: the message is processed for the dead peer. -/
theorem dead_peer_obeyed : ∃ s, Reachable sha1ZeroByte (.oneByte (List.replicate 20 0) 1) s ∧ s.peers = [0] ∧
    Alive s.tp.mi.infoHash (s.peer 0) ∧ ¬ OnlyLiveObeyed sha1ZeroByte (.plain 1000) 0 s badHandshake := by
  have hrun : ((Boot.oneByte (List.replicate 20 0) 1).run sha1ZeroByte [(.plain 1000,.accept 1)]).toOption.map
      (fun s => decide (s.peers = [0] ∧ (s.peer 0).state.handshake1 = true ∧ (s.peer 0).state.dead = false ∧
        (s.peer 0).state.sendbitfield = false ∧
        (networkHandlePeerResponses sha1ZeroByte (.plain 1000) 0 s [badHandshake]).map
          (fun t => t.calls.any (fun c => c.peer.state.dead)) = some true)) = some true := by decide +kernel
  obtain ⟨s,hs,hP⟩ := exists_reachable hrun
  obtain ⟨hpeers,h₁,hd,hsb,hcall⟩ := of_decide_eq_true hP
  refine ⟨s,hs,hpeers,alive_connected h₁ hd hsb,?_⟩
  intro hobey
  obtain ⟨t,ht,hany⟩ := Option.map_eq_some_iff.mp hcall
  obtain ⟨c,hc,hdead⟩ := List.any_eq_true.mp hany
  have hlive := hobey.calls [badHandshake] (by decide) (by simp) t ht c hc
  rw [hlive.2] at hdead
  cases hdead

/-- Without the message behind it, that handshake kills the peer and nothing is obeyed. -/
theorem only_live_obeyed_iff_connected : ∃ s t, Reachable sha1ZeroByte (.oneByte (List.replicate 20 0) 1) s ∧
    OnlyLiveObeyed sha1ZeroByte (.plain 1000) 0 s (List.replicate 20 255) ∧
    (feedPeer sha1ZeroByte (.plain 1000) 0 s (List.replicate 20 255)).result = .ok t ∧
      (t.peer 0).state.dead = true := by
  have hrun : ((Boot.oneByte (List.replicate 20 0) 1).run sha1ZeroByte [(.plain 1000,.accept 1)]).toOption.map
      (fun s => decide ((s.peer 0).state.handshake1 = true ∧ (s.peer 0).state.dead = false ∧
        (s.peer 0).state.sendbitfield = false) &&
        ((feedPeer sha1ZeroByte (.plain 1000) 0 s (List.replicate 20 255)).result.toOption.map
          (fun t => (t.peer 0).state.dead) == some true)) = some true := by decide +kernel
  obtain ⟨s,hs,hP⟩ := exists_reachable hrun
  obtain ⟨hstate,hfed⟩ := Bool.and_eq_true_iff.mp hP
  obtain ⟨h₁,hd,hsb⟩ := of_decide_eq_true hstate
  obtain ⟨t,ht,hdead⟩ := exists_ok (eq_of_beq hfed)
  have hframe : ∀ post ∈ (List.replicate 20 (255 : UInt8)).tails, hasFrame post = false := by decide +kernel
  refine ⟨s,t,hs,(only_live_obeyed_iff sha1ZeroByte (.plain 1000) 0 s _ (alive_connected h₁ hd hsb)).mpr ?_,ht,hdead⟩
  intro pre b post s₁ s₂ hbs _ _ _ _
  exact hframe post ((List.mem_tails _ _).mpr ⟨pre ++ [b],by simp [hbs]⟩)

end Unworkable
