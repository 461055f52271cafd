import Unworkable.Session.Tally
import Unworkable.Wire.Steering

/-! # Where PIECE messages come from

Of all the writers only `network_peer_write_piece` writes PIECE messages, and only the tick of
the scheduler calls it, at most once for each live peer, for the oldest entry of its upload
queue. Entries get there by REQUEST messages and by nothing else.
-/
namespace Unworkable
open Library

/-- The fifth byte of a framed message is its id. -/
def isPieceMessage (msg : Bytes) : Bool := msg[4]? == some msgPieceId

/-- The PIECE messages written so far, each with its receiver. -/
def Session.uploads (s : Session) : List (PeerId × Bytes) := s.out.filter (fun m => isPieceMessage m.2)

theorem isPieceMessage_message (id : UInt8) (fields : Bytes) :
    isPieceMessage (message id fields) = (id == msgPieceId) := by
  simp [isPieceMessage,message,be32]

/-- No PIECE message is written and no upload is queued. -/
structure Idle (s s' : Session) : Prop where
  uploads : s'.uploads = s.uploads
  uls : ∀ q, (s'.peer q).uls ⊆ (s.peer q).uls

namespace Idle
variable {env : Env} {s s' s'' : Session} {p : PeerId} {msg : Bytes}

theorem refl (s : Session) : Idle s s := ⟨rfl,fun _ => List.Subset.refl _⟩

theorem trans (h : Idle s s') (h' : Idle s' s'') : Idle s s'' :=
  ⟨h'.uploads.trans h.uploads,fun q _ hx => h.uls q (h'.uls q hx)⟩

theorem of_eq (hout : s'.out = s.out) (hpeer : s'.peer = s.peer) : Idle s s' := by
  constructor
  · rw [Session.uploads,hout]
    rfl
  · intro q
    rw [hpeer]
    exact List.Subset.refl _

theorem setPeer (s : Session) (p : PeerId) {f : Peer → Peer}
    (hf : (f (s.peer p)).uls ⊆ (s.peer p).uls) : Idle s (s.setPeer p f) := by
  refine ⟨rfl,?_⟩
  intro q
  by_cases hq : q = p
  · rw [hq,Session.setPeer_self]
    exact hf
  · rw [Session.setPeer_ne _ _ _ hq]
    exact List.Subset.refl _

theorem of_setPeer (p : PeerId) (f : Peer → Peer) (hf : ∀ q, (f q).uls = q.uls) (hout : s'.out = s.out)
    (hpeer : s'.peer = (s.setPeer p f).peer) : Idle s s' :=
  (setPeer s p (by rw [hf]; exact List.Subset.refl _)).trans (of_eq hout hpeer)

theorem setState (s : Session) (p : PeerId) (f : PeerState → PeerState) : Idle s (s.setState p f) :=
  setPeer s p (by exact List.Subset.refl _)

theorem write (env : Env) (s : Session) (p : PeerId) (hmsg : isPieceMessage msg = false) :
    Idle s (networkPeerWrite env s p msg) := by
  have hset : Idle s (s.setPeer p (fun q => { q with lastsend := env.now })) :=
    setPeer s p (by exact List.Subset.refl _)
  refine ⟨?_,hset.uls⟩
  simp [Session.uploads,networkPeerWrite,hmsg]

theorem writeMessage (env : Env) (s : Session) (p : PeerId) {id : UInt8} (hid : id ≠ msgPieceId) (fields : Bytes) :
    Idle s (networkPeerWrite env s p (message id fields)) := by
  apply write
  rw [isPieceMessage_message]
  simpa using hid

theorem networkPeerHandshake (env : Env) (s : Session) (p : PeerId) : Idle s (networkPeerHandshake env s p) := by
  have hset : Idle s (s.setPeer p (fun q => { q with connected := env.now })) :=
    setPeer s p (by exact List.Subset.refl _)
  apply hset.trans
  apply write
  simp [isPieceMessage,handshakeBytes,btProtocol]
  decide

theorem foldl {α : Type} {f : Session → α → Session} (hf : ∀ s a, Idle s (f s a)) (l : List α) (s : Session) :
    Idle s (l.foldl f s) := foldl_rel (R := Idle) .refl .trans l (fun s a _ => hf s a) s

theorem announce (h : announce env s = .ok s') : Idle s s' := by
  unfold Unworkable.announce at h
  cases ha : env.announce <;> simp only [ha] at h <;> cases h <;> exact of_eq rfl rfl

theorem writePieces (h : writePieces env p s = .ok s') : Idle s s' := by
  have hbit : ∀ {t}, networkPeerWriteBitfield env s p = .ok t → Idle s t := by
    intro t ht
    unfold networkPeerWriteBitfield at ht
    obtain ⟨bf,-,ht⟩ := bind_ok.mp ht
    cases ht
    exact writeMessage env s p (by decide) _
  unfold Unworkable.writePieces at h
  split_ifs at h
  · cases h
    exact writeMessage env s p (by decide) _
  · cases h
    exact writeMessage env s p (by decide) _
  · exact hbit h
  · cases h
    exact .refl _
  · exact hbit h

theorem sendBitfield (h : sendBitfield env p s = .ok s') : Idle s s' := by
  unfold Unworkable.sendBitfield at h
  split at h
  · obtain ⟨t,ht,h⟩ := bind_ok.mp h
    cases h
    exact (writePieces ht).trans (setState t p _)
  · cases h
    exact .refl _

/-- The choice of a piece writes nothing. -/
theorem gimmePiece {x : Option ℕ} (h : gimmePiece env s p = .ok (s',x)) : s'.out = s.out := by
  obtain ⟨array,last,rfl⟩ := gimmePiece_frame h
  rfl

theorem schedulerPieceGimme {nocreate : Bool} {x : Option DlId × Bool}
    (h : schedulerPieceGimme env s p nocreate = .ok (s',x)) :
    s'.out = s.out ∧ s'.peer = s.peer ∧ s'.tp = s.tp := by
  obtain ⟨array,last,store,rfl⟩ := schedulerPieceGimme_frame h
  exact ⟨rfl,rfl,rfl⟩

theorem expressInterest (h : expressInterest env s p = .ok s') : Idle s s' := by
  obtain ⟨array,last,store,rfl | rfl⟩ := expressInterest_frame h
  · exact of_eq rfl rfl
  · have hset : Idle s (s.setPeer p (fun q => { q with state := { q.state with aminterested := true } })) :=
      setPeer s p (by exact List.Subset.refl _)
    have hwrite := writeMessage env (s.setPeer p (fun q => { q with state := { q.state with aminterested := true } })) p
      (show msgInterestedId ≠ msgPieceId by decide) []
    exact ⟨(hset.trans hwrite).uploads,(hset.trans hwrite).uls⟩

theorem installBitfield (s : Session) (p : PeerId) (bf : Bytes) : Idle s (installBitfield s p bf) :=
  setPeer s p (by exact List.Subset.refl _)

theorem msgHave (h : msgHave env s p msg = .ok s') : Idle s s' := by
  simp only [Unworkable.msgHave] at h
  split at h
  · cases h
    exact .refl _
  · obtain ⟨bf,-,h⟩ := bind_ok.mp h
    have hset := expressInterest h
    cases hb : (s.peer p).bitfield with
    | none =>
      simp only [hb] at hset
      exact ((installBitfield s p _).trans (setPeer _ p (by exact List.Subset.refl _))).trans hset
    | some _ =>
      simp only [hb] at hset
      exact (setPeer s p (by exact List.Subset.refl _)).trans hset

theorem msgBitfield (h : msgBitfield env s p msg = .ok s') : Idle s s' := by
  unfold Unworkable.msgBitfield at h
  split_ifs at h
  · cases h
    exact .refl _
  · cases h
    exact setState s p _
  · exact (installBitfield s p _).trans (expressInterest h)

theorem msgHaveFill {fill : UInt8} (h : msgHaveFill env s p fill = .ok s') : Idle s s' := by
  unfold Unworkable.msgHaveFill at h
  split_ifs at h
  · cases h
    exact .refl _
  · exact (installBitfield s p _).trans (expressInterest h)

theorem msgChoke (s : Session) (p : PeerId) : Idle s (msgChoke s p) := by
  have hset : Idle s (s.setState p (fun b => { b with choked := true })) := setState s p _
  unfold Unworkable.msgChoke
  dsimp only
  split
  · exact hset
  · apply hset.trans
    apply foldl
    intro t d
    exact of_setPeer p (fun q => { q with dlQueueLen := sub32 q.dlQueueLen 1 }) (fun _ => rfl) rfl rfl

theorem msgReject (s : Session) (p : PeerId) : Idle s (msgReject env s p msg) := by
  unfold Unworkable.msgReject
  cases hfast : (s.peer p).state.fast with
  | false => exact (setState s p _ : Idle s (killPeer s p))
  | true =>
    cases href : indexRefused s (msgField env msg 1) with
    | true => simpa [href] using Idle.refl s
    | false =>
      cases hd : networkPieceDlFind s.store (some p) (msgField env msg 1) (msgField env msg 5) with
      | none => simpa [href,hd] using Idle.refl s
      | some d =>
        simp only [href,hd,Bool.not_true,Bool.false_eq_true,if_false]
        exact of_setPeer p (fun q => { q with dlQueueLen := sub32 q.dlQueueLen 1 }) (fun _ => rfl) rfl rfl

theorem msgCancel (s : Session) (p : PeerId) : Idle s (msgCancel env s p msg) := by
  simp only [Unworkable.msgCancel]
  split
  · exact .refl _
  · refine setPeer s p ?_
    exact List.filter_subset_self _

theorem pieceVerified {idx : ℕ} (h : pieceVerified env s idx = .ok s') : Idle s s' := by
  unfold Unworkable.pieceVerified at h
  obtain ⟨tp,-,h⟩ := bind_ok.mp h
  obtain ⟨t,ht,h⟩ := bind_ok.mp h
  cases h
  have hann : Idle s t := by
    unfold announceCompleted at ht
    split_ifs at ht
    · have hsent := announce ht
      exact ⟨hsent.uploads,hsent.uls⟩
    · cases ht
      exact of_eq rfl rfl
    · cases ht
      exact of_eq rfl rfl
  exact hann.trans (foldl (fun t q => writeMessage env t q (by decide) _) t.peers t)

theorem networkPeerReadPiece {tp : Torrent} {idx off : ℕ} {data : Bytes}
    (h : networkPeerReadPiece { s with tp := tp } p idx off data = .ok s') : Idle s s' := by
  unfold Unworkable.networkPeerReadPiece at h
  obtain ⟨tpp,-,h⟩ := bind_ok.mp h
  split at h
  · cases h
    exact of_eq rfl rfl
  · cases h
    exact of_setPeer p (fun q => { q with totalrx := q.totalrx + data.length }) (fun _ => rfl) rfl rfl

theorem receiveBlock {sha1 : Bytes → Bytes} {idx off : ℕ} {data : Bytes}
    (h : receiveBlock sha1 env s p idx off data = .ok s') : Idle s s' := by
  simp only [Unworkable.receiveBlock] at h
  obtain ⟨tp,-,h⟩ := bind_ok.mp h
  obtain ⟨t,ht,h⟩ := bind_ok.mp h
  obtain ⟨found,-,h⟩ := bind_ok.mp h
  have hread : Idle s t := (setPeer s p (by exact List.Subset.refl _)).trans (networkPeerReadPiece ht)
  apply hread.trans
  cases found with
  | false =>
    cases h
    exact .refl _
  | true =>
    simp only [if_true,checkPiece] at h
    obtain ⟨⟨tp',good⟩,-,h⟩ := bind_ok.mp h
    obtain ⟨u,hu,h⟩ := bind_ok.mp h
    obtain ⟨st,-,h⟩ := bind_ok.mp h
    cases h
    cases good with
    | true =>
      have hver := pieceVerified hu
      exact ⟨hver.uploads,hver.uls⟩
    | false =>
      cases hu
      exact of_eq rfl rfl

theorem msgPiece {sha1 : Bytes → Bytes} (h : msgPiece sha1 env s p msg = .ok s') : Idle s s' := by
  unfold Unworkable.msgPiece at h
  generalize msgField env msg 1 = idx at h
  generalize msgField env msg 5 = off at h
  unfold pieceAt at h
  split at h
  · cases h
    exact .refl _
  · obtain ⟨tpp,-,h⟩ := bind_ok.mp h
    split at h
    · cases h
      exact .refl _
    · split at h
      · cases h
        exact setState s p _
      · unfold takeBlock at h
        split at h
        · cases h
          exact .refl _
        · obtain ⟨t,ht,h⟩ := bind_ok.mp h
          cases h
          refine Idle.trans ?_ (setPeer t p (by exact List.Subset.refl _))
          split at ht
          · cases ht
            exact .refl _
          · exact receiveBlock ht

end Idle

/-- A REQUEST message that is put in the queue: its piece is there and its offset is not behind
the piece. Nothing is asked of its length. -/
structure Queued (env : Env) (s : Session) (msg : Bytes) : Prop where
  idx_lt : msgField env msg 1 < s.tp.numPieces
  off_le : msgField env msg 5 ≤ (s.tp.piece (msgField env msg 1)).len
  verified : (s.tp.piece (msgField env msg 1)).cksumok = true

def requestedUl (env : Env) (msg : Bytes) : PieceUl := ⟨msgField env msg 1,msgField env msg 5,msgField env msg 9⟩

section Messages
variable {sha1 : Bytes → Bytes} {env : Env} {s s' : Session} {p : PeerId} {msg : Bytes}

theorem msgRequest_cases (h : msgRequest env s p msg = .ok s') : Idle s s' ∨
    Queued env s msg ∧ s' = s.setPeer p (fun q => { q with uls := q.uls ++ [requestedUl env msg] }) := by
  simp only [msgRequest] at h
  split at h
  · cases h
    exact .inl (.refl _)
  · obtain ⟨tpp,htpp,h⟩ := bind_ok.mp h
    obtain ⟨hidx,rfl⟩ := torrentPieceFind_ok.mp htpp
    split_ifs at h
    · cases h
      exact .inl (.refl _)
    · cases h
      exact .inl (.writeMessage env s p (by decide) _)
    · cases h
      exact .inl (.refl _)
    · rename_i hoff hck
      cases h
      exact .inr ⟨⟨hidx,by omega,by simpa using hck⟩,rfl⟩

/-- Only REQUEST puts something in an upload queue, and no message makes the client write a block. -/
theorem networkPeerProcessMessage_uploads {id : UInt8} (h : networkPeerProcessMessage sha1 env s p id msg = .ok s') :
    Idle s s' ∨ id = msgRequestId ∧ Queued env s msg ∧
      s' = s.setPeer p (fun q => { q with uls := q.uls ++ [requestedUl env msg] }) := by
  cases networkPeerProcessMessage_handled h with
  | choke => exact .inl (.msgChoke s p)
  | unchoke => exact .inl (.setState s p _)
  | interested => exact .inl (.setState s p _)
  | notinterested => exact .inl (.setState s p _)
  | haves h => exact .inl (.msgHave h)
  | bitfield h => exact .inl (.msgBitfield h)
  | request h =>
    rcases msgRequest_cases h with hidle | hq
    · exact .inl hidle
    · exact .inr ⟨rfl,hq⟩
  | piece h => exact .inl (.msgPiece h)
  | cancel => exact .inl (.msgCancel s p)
  | reject => exact .inl (.msgReject s p)
  | havenone h => exact .inl (.msgHaveFill h)
  | haveall h => exact .inl (.msgHaveFill h)
  | other => exact .inl (.refl _)

theorem afterRead_uls (q : Peer) (avail : Bytes) : (afterRead env q avail).uls = q.uls := by
  simp only [afterRead,pushRead,armRead]
  split_ifs <;> rfl

theorem ReadsInto.uls {infoHash : Bytes} {q q' : Peer} (h : ReadsInto env infoHash q q') : q'.uls = q.uls := by
  rcases h with rfl | rfl | rfl | rfl
  · rfl
  · simp only [finishHandshake1]
    split_ifs <;> rfl
  · simp only [finishHandshake2]
    split_ifs <;> rfl
  · simp only [finishLength]
    split_ifs <;> rfl

/-- Input from a peer leads to no upload, and to a queued one only by a REQUEST. -/
theorem peerResponse_uploads {avail : Bytes} (h : (peerResponse sha1 env p s avail).result = .ok s') :
    s'.uploads = s.uploads ∧ ∀ q, ∀ pu ∈ (s'.peer q).uls, pu ∈ (s.peer q).uls ∨ q = p ∧ ∃ msg,
      completed env (s.peer p) avail = some msg ∧ msg.headD 0 = msgRequestId ∧ Queued env s msg ∧
      pu = requestedUl env msg := by
  obtain ⟨t,hsend,ht⟩ := peerResponse_read h
  have hout := Idle.sendBitfield hsend
  rcases ht with ⟨-,q,hq,rfl⟩ | ⟨msg,u,hmsg,rfl,hu⟩
  · have hread : Idle s s' := by
      refine Idle.trans (.setPeer s p ?_) hout
      rw [hq.uls,afterRead_uls]
      exact List.Subset.refl _
    exact ⟨hread.uploads,fun q pu hpu => .inl (hread.uls q hpu)⟩
  · have hread : Idle s (s.setPeer p (afterRead env · avail)) :=
      .setPeer s p (by rw [afterRead_uls]; exact List.Subset.refl _)
    have hlast : Idle u s' := (Idle.setPeer u p (by exact List.Subset.refl _)).trans hout
    rcases networkPeerProcessMessage_uploads hu with hidle | ⟨hid,hqd,rfl⟩
    · have hall := (hread.trans hidle).trans hlast
      exact ⟨hall.uploads,fun q pu hpu => .inl (hall.uls q hpu)⟩
    · refine ⟨hlast.uploads,?_⟩
      intro q pu hpu
      have hpu := hlast.uls q hpu
      by_cases hq : q = p
      · subst hq
        rw [Session.setPeer_self] at hpu
        rcases List.mem_append.mp hpu with hpu | hpu
        · exact .inl (hread.uls q hpu)
        · exact .inr ⟨rfl,msg,hmsg,hid,⟨hqd.idx_lt,hqd.off_le,hqd.verified⟩,List.mem_singleton.mp hpu⟩
      · rw [Session.setPeer_ne _ _ _ hq] at hpu
        exact .inl (hread.uls q hpu)

end Messages

/-- Peers other than `p` are as before. -/
def Only (p : PeerId) (s s' : Session) : Prop := ∀ q, q ≠ p → s'.peer q = s.peer q

theorem Only.trans {p : PeerId} {a b c : Session} (h : Only p a b) (h' : Only p b c) : Only p a c :=
  fun q hq => (h' q hq).trans (h q hq)

theorem Only.setPeer (s : Session) (p : PeerId) (f : Peer → Peer) : Only p s (s.setPeer p f) :=
  fun _ hq => Session.setPeer_ne s p f hq

theorem Only.of_eq {p : PeerId} {s s' : Session} (h : s'.peer = s.peer) : Only p s s' := fun _ _ => by rw [h]

theorem Only.write (env : Env) (s : Session) (p : PeerId) (msg : Bytes) : Only p s (networkPeerWrite env s p msg) :=
  fun _ hq => Session.setPeer_ne s p (fun q => { q with lastsend := env.now }) hq

/-- The tick looks after `p`: it is not marked dead and not silent for too long. -/
def attended (env : Env) (s : Session) (p : PeerId) : Bool :=
  !(s.peer p).state.dead && !(schedulerThresholdKill env s p).2

/-- The message `network_peer_write_piece` writes once the read gave `d`. -/
def pieceMessage (env : Env) (pu : PieceUl) (d : Bytes) : Bytes :=
  message msgPieceId (be32 pu.idx ++ be32 pu.off ++ padded env.stale d pu.len)

/-- What is read and written for upload `pu`, starting from torrent `tp`. -/
structure Uploads (env : Env) (tp tp' : Torrent) (pu : PieceUl) (msg : Bytes) : Prop where
  mapped : ensureMapped tp pu.idx = .ok tp'
  short : 13 + pu.len < 4294967296
  read : ∃ d hint, torrentBlockRead tp' pu.idx pu.off pu.len = .ok (some (d,hint)) ∧ msg = pieceMessage env pu d

section Tick
variable {env : Env} {s s' : Session} {p : PeerId}

theorem isPieceMessage_pieceMessage (env : Env) (pu : PieceUl) (d : Bytes) :
    isPieceMessage (pieceMessage env pu d) = true := by
  rw [pieceMessage,isPieceMessage_message]
  decide

theorem uploads_write (env : Env) (s : Session) (p : PeerId) {msg : Bytes} (hmsg : isPieceMessage msg = true) :
    (networkPeerWrite env s p msg).uploads = s.uploads ++ [(p,msg)] := by
  simp [Session.uploads,networkPeerWrite,hmsg]

theorem networkPeerWritePiece_uploads {pu : PieceUl} (h : networkPeerWritePiece env s p pu.idx pu.off pu.len = .ok s') :
    Only p s s' ∧ (s'.peer p).uls = (s.peer p).uls ∧
      (s'.uploads = s.uploads ∨ ∃ msg, Uploads env s.tp s'.tp pu msg ∧ s'.uploads = s.uploads ++ [(p,msg)]) := by
  unfold networkPeerWritePiece at h
  obtain ⟨tpp,-,h⟩ := bind_ok.mp h
  obtain ⟨tp,htp,h⟩ := bind_ok.mp h
  obtain ⟨d,hd,h⟩ := bind_ok.mp h
  cases d with
  | none =>
    cases h
    exact ⟨.of_eq rfl,rfl,.inl rfl⟩
  | some d =>
    dsimp only at h
    split at h
    · cases h
    · rename_i hshort
      cases h
      refine ⟨?_,?_,.inr ⟨_,⟨htp,by omega,d.1,d.2,hd,rfl⟩,?_⟩⟩
      · have hw := Only.write env { s with tp := tp } p (pieceMessage env pu d.1)
        exact hw.trans (.setPeer _ p _)
      · simp [networkPeerWrite]
      · exact uploads_write env { s with tp := tp } p (isPieceMessage_pieceMessage env pu d.1)

theorem fillLoop_only {n : ℕ} (h : fillLoop env p n s = .ok s') : Idle s s' ∧ Only p s s' ∧ s'.tp = s.tp := by
  induction n generalizing s with
  | zero =>
    cases h
    exact ⟨.refl _,.of_eq rfl,rfl⟩
  | succ n ih =>
    simp only [fillLoop] at h
    obtain ⟨⟨t,r,hint⟩,ht,h⟩ := bind_ok.mp h
    obtain ⟨hout,hpeer,htp⟩ := Idle.schedulerPieceGimme ht
    have ht' : Idle s t ∧ Only p s t := ⟨.of_eq hout hpeer,.of_eq hpeer⟩
    cases r with
    | none =>
      obtain ⟨hidle,honly,htp'⟩ := ih h
      exact ⟨ht'.1.trans hidle,ht'.2.trans honly,htp'.trans htp⟩
    | some d =>
      obtain ⟨hidle,honly,htp'⟩ := ih h
      refine ⟨ht'.1.trans (Idle.trans ?_ hidle),ht'.2.trans (Only.trans ?_ honly),htp'.trans htp⟩
      · exact (Idle.writeMessage env t p (by decide) _).trans (.setPeer _ p (by exact List.Subset.refl _))
      · exact (Only.write env t p _).trans (.setPeer _ p _)

/-- The turn of one peer writes at most one PIECE message, to that peer, for the head of its
queue. -/
theorem schedulerPeer_uploads (h : schedulerPeer env s p = .ok s') : Only p s s' ∧
    (s'.peer p).uls ⊆ (s.peer p).uls ∧
      (s'.uploads = s.uploads ∨ attended env s p = true ∧ ∃ pu rest msg, (s.peer p).uls = pu :: rest ∧
        Uploads env s.tp s'.tp pu msg ∧ s'.uploads = s.uploads ++ [(p,msg)]) := by
  unfold schedulerPeer at h
  split at h
  · cases h
    have honly : Only p s (dropPeer s p) :=
      fun q hq => Session.setPeer_ne s p (fun q => { q with uls := [], connfd := false }) hq
    refine ⟨honly,?_,.inl rfl⟩
    have hp : ((dropPeer s p).peer p).uls = [] := by simp [dropPeer,networkPeerFree]
    rw [hp]
    exact List.nil_subset _
  · rename_i hdead
    have hcases : schedulerThresholdKill env s p = (s.setPeer p (fun q => { q with state := .deadOnly }),true) ∨
        schedulerThresholdKill env s p = (s,false) := by
      simp only [schedulerThresholdKill]
      split
      · exact .inl rfl
      · exact .inr rfl
    rcases hcases with hk | hk
    · rw [hk] at h
      cases h
      exact ⟨.setPeer s p _,by rw [Session.setPeer_self]; exact List.Subset.refl _,.inl rfl⟩
    · rw [hk] at h
      obtain ⟨t,ht,h⟩ := bind_ok.mp h
      have hatt : attended env s p = true := by simp [attended,hdead,hk]
      have hfill : Idle t s' ∧ Only p t s' ∧ s'.tp = t.tp := by
        simp only [schedulerFillRequests] at h
        split at h
        · exact fillLoop_only h
        · cases h
          exact ⟨.refl _,.of_eq rfl,rfl⟩
      simp only [schedulerDequeueUploads,networkPieceUlDequeue] at ht
      cases hu : (s.peer p).uls with
      | nil =>
        simp only [hu,List.head?_nil] at ht
        cases ht
        refine ⟨hfill.2.1,?_,.inl hfill.1.uploads⟩
        rw [← hu]
        exact hfill.1.uls p
      | cons pu rest =>
        simp only [hu,List.head?_cons] at ht
        obtain ⟨honly,huls,hup⟩ := networkPeerWritePiece_uploads ht
        refine ⟨(Only.setPeer s p _).trans (honly.trans hfill.2.1),?_,?_⟩
        · intro x hx
          have hx := hfill.1.uls p hx
          rw [huls,Session.setPeer_self,hu] at hx
          exact List.mem_cons_of_mem _ hx
        · rcases hup with hup | ⟨msg,hmsg,hup⟩
          · exact .inl (hfill.1.uploads.trans hup)
          · rw [hfill.2.2]
            exact .inr ⟨hatt,pu,rest,msg,rfl,hmsg,hfill.1.uploads.trans hup⟩

/-- An upload made in the course of a tick that takes the torrent from `tp` to `tp'`. -/
def TickUpload (env : Env) (tp tp' : Torrent) (pu : PieceUl) (msg : Bytes) : Prop :=
  ∃ u u', Remapped tp u ∧ Uploads env u u' pu msg ∧ Remapped u' tp'

theorem TickUpload.extend {env : Env} {tp tp' tp₀ tp₁ : Torrent} {pu : PieceUl} {msg : Bytes}
    (h : TickUpload env tp tp' pu msg) (h₀ : Remapped tp₀ tp) (h₁ : Remapped tp' tp₁) :
    TickUpload env tp₀ tp₁ pu msg := by
  obtain ⟨u,u',hu,hup,hu'⟩ := h
  exact ⟨u,u',h₀.trans hu,hup,hu'.trans h₁⟩

/-- The messages `served` are the uploads of one tick: at most one for each peer of the list `l`,
each for the head of the queue of a peer that is attended to. -/
structure Served (env : Env) (s : Session) (l : List PeerId) (tp tp' : Torrent) (served : List (PeerId × Bytes)) :
    Prop where
  once : (served.map Prod.fst).Sublist l
  heads : ∀ m ∈ served, attended env s m.1 = true ∧ ∃ pu rest, (s.peer m.1).uls = pu :: rest ∧
    TickUpload env tp tp' pu m.2

theorem attended_congr {t : Session} (h : t.peer p = s.peer p) : attended env t p = attended env s p := by
  have hkill : (schedulerThresholdKill env t p).2 = (schedulerThresholdKill env s p).2 := by
    simp only [schedulerThresholdKill,h]
    split <;> rfl
  simp only [attended,h,hkill]

theorem foldlM_schedulerPeer_uploads {l : List PeerId} (hl : l.Nodup) {t : Session}
    (hsame : ∀ q ∈ l, t.peer q = s.peer q) (hlt : ∀ q ∈ l, q < t.nextPeer)
    (h : l.foldlM (schedulerPeer env) t = .ok s') : (∀ q, (s'.peer q).uls ⊆ (t.peer q).uls) ∧
    Remapped t.tp s'.tp ∧ ∃ served, s'.uploads = t.uploads ++ served ∧ Served env s l t.tp s'.tp served := by
  induction l generalizing t with
  | nil =>
    cases h
    exact ⟨fun _ => List.Subset.refl _,.refl _,[],by simp,⟨List.Sublist.refl _,by simp⟩⟩
  | cons p l ih =>
    rw [List.foldlM_cons,bind_ok] at h
    obtain ⟨u,hu,h⟩ := h
    obtain ⟨hnew,hl⟩ := List.nodup_cons.mp hl
    obtain ⟨honly,huls,hup⟩ := schedulerPeer_uploads hu
    have hp : t.peer p = s.peer p := hsame p List.mem_cons_self
    have hpart := schedulerPeer_part (hlt p List.mem_cons_self) hu
    have hne : ∀ q ∈ l, q ≠ p := by
      rintro q hq rfl
      exact hnew hq
    obtain ⟨hrest,hmaps,served,hserved,honce,hheads⟩ := ih hl
      (fun q hq => (honly q (hne q hq)).trans (hsame q (List.mem_cons_of_mem p hq)))
      (fun q hq => hpart.nextPeer.symm ▸ hlt q (List.mem_cons_of_mem p hq)) h
    refine ⟨?_,hpart.torrent.trans hmaps,?_⟩
    · intro q x hx
      have hx := hrest q hx
      by_cases hq : q = p
      · rw [hq] at hx ⊢
        exact huls hx
      · rwa [honly q hq] at hx
    · have hlater : ∀ m ∈ served, attended env s m.1 = true ∧ ∃ pu rest, (s.peer m.1).uls = pu :: rest ∧
          TickUpload env t.tp s'.tp pu m.2 := by
        intro m hm
        obtain ⟨hatt,pu,rest,huls,hup⟩ := hheads m hm
        exact ⟨hatt,pu,rest,huls,hup.extend hpart.torrent (.refl _)⟩
      rcases hup with hup | ⟨hatt,pu,rest,msg,huls,hmsg,hup⟩
      · exact ⟨served,by rw [hserved,hup],honce.cons p,hlater⟩
      · refine ⟨(p,msg) :: served,by rw [hserved,hup]; simp,honce.cons_cons p,?_⟩
        intro m hm
        rcases List.mem_cons.mp hm with rfl | hm
        · exact ⟨(attended_congr hp).symm.trans hatt,pu,rest,hp ▸ huls,t.tp,u.tp,.refl _,hmsg,hmaps⟩
        · exact hlater m hm

theorem Idle.schedulerChokeAlgorithm (h : schedulerChokeAlgorithm env s = .ok s') : Idle s s' := by
  have hchoke : ∀ (t : Session) (q : PeerId), Idle t (networkPeerWriteChoke env t q) := fun t q =>
    (Idle.setPeer t q (by exact List.Subset.refl _)).trans (.writeMessage env _ q (by decide) _)
  have hunchoke : ∀ (t : Session) (q : PeerId), Idle t (networkPeerWriteUnchoke env t q) := fun t q =>
    (Idle.setPeer t q (by exact List.Subset.refl _)).trans (.writeMessage env _ q (by decide) _)
  unfold Unworkable.schedulerChokeAlgorithm at h
  split at h
  · cases h
    exact .refl _
  · obtain ⟨pc,-,h⟩ := bind_ok.mp h
    obtain ⟨p2,-,h⟩ := bind_ok.mp h
    cases h
    refine Idle.trans ?_ (.foldl ?_ _ _)
    · have htop : Idle s _ := .foldl (f := fun s p =>
          if !(s.peer p).state.amchoking then s
          else if !(s.peer p).state.interested then s
          else networkPeerWriteUnchoke env s p) ?_ ((pc.take (min 3 s.numPeers)).map PeerCounter.peer) s
      · cases p2 with
        | none => exact htop
        | some p => exact htop.trans (hunchoke _ p)
      · intro t q
        split_ifs
        · exact .refl _
        · exact .refl _
        · exact hunchoke t q
    · intro t q
      split_ifs
      · exact .refl _
      · exact hchoke t q
      · exact .refl _

theorem Idle.schedulerEndgameAlgorithm (h : schedulerEndgameAlgorithm env s = .ok s') : Idle s s' := by
  refine foldlM_rel (R := Idle) .refl .trans _ ?_ h
  intro t t' i _ ht
  unfold endgamePiece at ht
  obtain ⟨tpp,-,ht⟩ := bind_ok.mp ht
  split at ht
  · cases ht
    exact .refl _
  · refine foldlM_rel (R := Idle) .refl .trans _ ?_ ht
    intro u u' q _ hu
    unfold endgamePeer at hu
    split at hu
    · cases hu
      exact .refl _
    · obtain ⟨has,-,hu⟩ := bind_ok.mp hu
      split_ifs at hu
      · cases hu
        exact .refl _
      · cases hu
        exact .refl _
      · cases hu
        apply Idle.foldl
        intro v off
        unfold endgameBlock
        split
        · exact .refl _
        · have hw := @Idle.writeMessage env
            { v with store := (networkPieceDlCreate v.store q i off (blockLen tpp.len off)).1 } q
            msgRequestId (by decide) (be32 i ++ be32 off ++ be32 (blockLen tpp.len off))
          exact Idle.trans ⟨hw.uploads,hw.uls⟩ (.setPeer _ q (by exact List.Subset.refl _))

/-- The uploads of a tick. -/
theorem scheduler_uploads (hs : s.core.Peered) (h : scheduler env s = .ok s') :
    (∀ q, (s'.peer q).uls ⊆ (s.peer q).uls) ∧
      ∃ served, s'.uploads = s.uploads ++ served ∧ Served env s s.peers s.tp s'.tp served := by
  obtain ⟨s₁,s₂,s₃,h₁,h₂,h₃,h₄⟩ := scheduler_cases h
  obtain ⟨huls,-,served,hserved,hall⟩ := foldlM_schedulerPeer_uploads hs.nodup (fun _ _ => rfl) hs.lt h₁
  have hend : Idle s₂ s₃ := by
    rcases h₃ with rfl | h₃
    · exact .refl _
    · exact .schedulerEndgameAlgorithm h₃
  have hann : Idle s₃ s' := by
    rcases h₄ with rfl | h₄
    · exact .refl _
    · exact .announce h₄
  have hrest : Idle s₁ s' := (Idle.schedulerChokeAlgorithm h₂).trans (hend.trans hann)
  refine ⟨fun q x hx => huls q (hrest.uls q hx),served,hrest.uploads.trans hserved,?_⟩
  rw [scheduler_rest hs h₁ h₂ h₃ h₄]
  exact hall

end Tick

section Steps
variable {sha1 : Bytes → Bytes} {env : Env} {s s' : Session}

theorem Idle.join (s : Session) (q : Peer) (hq : q.uls = []) (n : ℕ) : Idle s { s with
    peers := s.peers ++ [s.nextPeer]
    peer := Function.update s.peer s.nextPeer q
    nextPeer := s.nextPeer + 1
    numPeers := n } := by
  refine ⟨rfl,?_⟩
  intro p
  by_cases hp : p = s.nextPeer
  · simp [hp,hq]
  · simp [hp]

theorem Idle.dropPeer (s : Session) (p : PeerId) : Idle s (dropPeer s p) := by
  have hset : Idle s (s.setPeer p (fun q => { q with uls := [], connfd := false })) :=
    .setPeer s p (List.nil_subset _)
  exact ⟨hset.uploads,hset.uls⟩

theorem Idle.connectNew (s : Session) (p : PeerId) : Idle s (connectNew env s p) := by
  unfold Unworkable.connectNew
  split
  · exact .refl _
  · dsimp only
    have hset : Idle s (s.setState p (fun b => { b with handshake1 := true })) := .setState s p _
    split
    · exact hset.trans (.dropPeer _ p)
    · have hconn := hset.trans (Idle.setPeer _ p (f := fun q => { q with connfd := true }) (List.Subset.refl _))
      exact hconn.trans (.networkPeerHandshake env _ p)

theorem Idle.networkPeerlistUpdate {addrs : List ℕ} (h : networkPeerlistUpdate env s addrs = .ok t) : Idle s t := by
  have hadd : Idle s (addrs.foldl networkPeerlistAddPeer s) := by
    apply Idle.foldl
    intro t addr
    unfold networkPeerlistAddPeer
    split
    · exact .refl _
    · exact .join t _ rfl _
  rw [networkPeerlistUpdate_ok h]
  exact hadd.trans (.foldl (fun t p => .connectNew t p) _ _)

/-- Events other than input from a peer and ticks lead to no upload. -/
theorem step_idle {e : Event} (he : ∀ p avail, e ≠ .response p avail) (he' : e ≠ .scheduler)
    (h : step sha1 s (env,e) = .ok s') : Idle s s' := by
  cases e with
  | response p avail => exact (he p avail rfl).elim
  | error p =>
    cases h
    split
    · exact .setState s p _
    · exact .refl _
  | keepalive p =>
    cases h
    split
    · exact .write env s p (by decide)
    · exact .refl _
  | accept addr =>
    cases h
    unfold networkHandlePeerConnect
    exact (Idle.join s _ rfl _).trans (.networkPeerHandshake env _ _)
  | tracker addrs =>
    simp only [step] at h
    obtain ⟨t,ht,h⟩ := bind_ok.mp h
    cases h
    cases addrs with
    | none =>
      cases ht
      exact .of_eq rfl rfl
    | some as =>
      have hupd : Idle s t := .networkPeerlistUpdate ht
      exact ⟨hupd.uploads,hupd.uls⟩
  | announceTimer =>
    simp only [step] at h
    split at h
    · cases h
      exact .refl _
    · exact .announce h
  | scheduler => exact (he' rfl).elim

/-- What an event uploads, and what it puts in the queues. -/
structure UploadStep (env : Env) (e : Event) (s s' : Session) : Prop where
  uploaded : ∃ served, s'.uploads = s.uploads ++ served ∧ (served ≠ [] → e = .scheduler) ∧
    Served env s s.peers s.tp s'.tp served
  queued : ∀ q, ∀ pu ∈ (s'.peer q).uls, pu ∈ (s.peer q).uls ∨ ∃ avail msg, e = .response q avail ∧ q ∈ s.peers ∧
    completed env (s.peer q) avail = some msg ∧ msg.headD 0 = msgRequestId ∧ Queued env s msg ∧
    pu = requestedUl env msg

theorem Served.nil {tp tp' : Torrent} (l : List PeerId) : Served env s l tp tp' [] := ⟨List.nil_sublist _,by simp⟩

theorem Idle.step {e : Event} (h : Idle s s') : UploadStep env e s s' where
  uploaded := ⟨[],by rw [h.uploads,List.append_nil],fun h => (h rfl).elim,.nil _⟩
  queued q _ hpu := .inl (h.uls q hpu)

theorem step_uploads (hs : s.core.Peered) {e : Event} (h : step sha1 s (env,e) = .ok s') : UploadStep env e s s' := by
  cases e with
  | response p avail =>
    simp only [step] at h
    split at h
    · rename_i hp
      obtain ⟨hup,huls⟩ := peerResponse_uploads h
      refine ⟨⟨[],by rw [hup,List.append_nil],fun h => (h rfl).elim,.nil _⟩,?_⟩
      intro q pu hpu
      rcases huls q pu hpu with hpu | ⟨rfl,msg,hmsg,hid,hq,hpu⟩
      · exact .inl hpu
      · exact .inr ⟨avail,msg,rfl,hp,hmsg,hid,hq,hpu⟩
    · cases h
      exact (Idle.refl _).step
  | scheduler =>
    obtain ⟨huls,served,hserved,hall⟩ := scheduler_uploads hs h
    exact ⟨⟨served,hserved,fun _ => rfl,hall⟩,fun q pu hpu => .inl (huls q hpu)⟩
  | _ => exact (step_idle (by simp) (by simp) h).step

end Steps

end Unworkable
