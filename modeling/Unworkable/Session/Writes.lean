import Unworkable.Session.Census
import Unworkable.Session.Choking
import Unworkable.Wire.Agreement

/-! # What is written besides announcements

HAVE, BITFIELD, HAVEALL and HAVENONE tell a peer about pieces. HAVE is written when a piece is
verified, to all peers at once, and the others at the label `out`, to the peer that has just
shaken hands. Everything else that is written to a peer says nothing about pieces.
-/
namespace Unworkable
open Library

def WireMsg.silent : WireMsg → Bool
  | haves _ => false
  | bitfield _ => false
  | haveall => false
  | havenone => false
  | _ => true

def WireMsg.Sized (m : WireMsg) : Prop := ∀ id fields, m.body = some (id,fields) → fields.length + 1 < 4294967296

theorem WireMsg.Sized.of_length {m : WireMsg} {id : UInt8} {fields : Bytes} (hb : m.body = some (id,fields))
    (h : fields.length + 1 < 4294967296) : m.Sized := by
  intro id' fields' hb'
  rw [hb] at hb'
  obtain ⟨-,rfl⟩ := Prod.mk.inj (Option.some.inj hb')
  exact h

/-- The message tells which pieces are verified: none, all, or those of the bit field. -/
inductive Describes (tp : Torrent) : WireMsg → Prop
  | havenone (hempty : torrentEmpty tp = true) : Describes tp .havenone
  | haveall (hgood : tp.goodPieces = tp.numPieces) : Describes tp .haveall
  | bitfield {bits : Bytes} (hsome : torrentEmpty tp = false) (hbits : torrentBitfieldGet tp = .ok bits) :
    Describes tp (.bitfield bits)

theorem Describes.sized {tp : Torrent} {m : WireMsg} (h : Describes tp m) : m.Sized := by
  cases h with
  | havenone _ => exact .of_length rfl (by decide)
  | haveall _ => exact .of_length rfl (by decide)
  | bitfield _ hbits =>
    have hlt := tp.numPieces_lt
    refine .of_length rfl ?_
    rw [length_torrentBitfieldGet hbits]
    unfold bitfieldLen add32 wrap32
    omega

/-- What is written at the label `out` describes the pieces; a peer without the fast extension is not told
that there are none. -/
theorem writePieces_describes {env : Env} {s s' : Session} {p : PeerId} (h : writePieces env p s = .ok s') :
    torrentEmpty s.tp = true ∧ s' = s ∨ ∃ m : WireMsg, Describes s.tp m ∧ s' = networkPeerWrite env s p m.bytes := by
  have hbit : torrentEmpty s.tp = false → networkPeerWriteBitfield env s p = .ok s' →
      ∃ m : WireMsg, Describes s.tp m ∧ s' = networkPeerWrite env s p m.bytes := by
    intro hsome hs
    obtain ⟨bits,hbits,hs⟩ := bind_ok.mp hs
    cases hs
    exact ⟨_,.bitfield hsome hbits,rfl⟩
  unfold writePieces at h
  split_ifs at h with hfast hempty hgood hempty
  · cases h
    exact .inr ⟨_,.havenone hempty,rfl⟩
  · cases h
    exact .inr ⟨_,.haveall hgood,rfl⟩
  · exact .inr (hbit (Bool.eq_false_iff.mpr hempty) h)
  · cases h
    exact .inl ⟨hempty,rfl⟩
  · exact .inr (hbit (Bool.eq_false_iff.mpr hempty) h)

/-- No piece is verified; whatever is written goes to numbered peers, and nothing in it tells `r`
about pieces. -/
structure Mute (r : PeerId) (s s' : Session) : Prop where
  mi : s'.tp.mi = s.tp.mi
  verified : s'.tp.verified = s.tp.verified
  out : ∃ more : List (PeerId × WireMsg), s'.out = s.out ++ more.map (fun m => (m.1,m.2.bytes)) ∧
    ∀ m ∈ more, (m.1 = r → m.2.silent = true) ∧ m.2.Sized ∧ m.1 < s.nextPeer
  nextPeer : s'.nextPeer = s.nextPeer
  peerid : s'.peerid = s.peerid

namespace Mute
variable {env : Env} {s s' s'' t : Session} {p r : PeerId} {msg : Bytes}

theorem of_out (hmi : s'.tp.mi = s.tp.mi) (hver : s'.tp.verified = s.tp.verified) (hout : s'.out = s.out)
    (hnext : s'.nextPeer = s.nextPeer) (hid : s'.peerid = s.peerid) : Mute r s s' :=
  ⟨hmi,hver,⟨[],by rw [hout]; simp,nofun⟩,hnext,hid⟩

theorem of_eq (htp : s'.tp = s.tp) (hout : s'.out = s.out) (hnext : s'.nextPeer = s.nextPeer)
    (hid : s'.peerid = s.peerid) : Mute r s s' := of_out (by rw [htp]) (by rw [htp]) hout hnext hid

theorem refl (r : PeerId) (s : Session) : Mute r s s := of_eq rfl rfl rfl rfl

theorem trans (h : Mute r s s') (h' : Mute r s' s'') : Mute r s s'' := by
  obtain ⟨hmi,hver,⟨more,hout,hmore⟩,hnext,hid⟩ := h
  obtain ⟨hmi',hver',⟨more',hout',hmore'⟩,hnext',hid'⟩ := h'
  refine ⟨hmi'.trans hmi,hver'.trans hver,⟨more ++ more',by rw [hout',hout,List.append_assoc,List.map_append],?_⟩,
    hnext'.trans hnext,hid'.trans hid⟩
  intro m hm
  rcases List.mem_append.mp hm with hm | hm
  · exact hmore m hm
  · rw [← hnext]
    exact hmore' m hm

theorem setPeer (s : Session) (p : PeerId) (f : Peer → Peer) : Mute r s (s.setPeer p f) := of_eq rfl rfl rfl rfl

theorem setState (s : Session) (p : PeerId) (f : PeerState → PeerState) : Mute r s (s.setState p f) := setPeer s p _

/-- A write of one message. -/
theorem write (env : Env) (hp : p < s.nextPeer) (m : WireMsg) (hm : p = r → m.silent = true) (hsized : m.Sized) :
    Mute r s (networkPeerWrite env s p m.bytes) := by
  refine ⟨rfl,rfl,⟨[(p,m)],rfl,?_⟩,rfl,rfl⟩
  intro x hx
  rw [List.mem_singleton.mp hx]
  exact ⟨hm,hsized,hp⟩

/-- The same behind an assignment to the peer. -/
theorem setWrite (env : Env) (f : Peer → Peer) (hp : p < s.nextPeer) (m : WireMsg) (hm : p = r → m.silent = true)
    (hsized : m.Sized) : Mute r s (networkPeerWrite env (s.setPeer p f) p m.bytes) := by
  have hp' : p < (s.setPeer p f).nextPeer := hp
  exact (setPeer s p f).trans (write env hp' m hm hsized)

theorem foldl {α : Type} {f : Session → α → Session} (l : List α)
    (hf : ∀ t, t.nextPeer = s.nextPeer → ∀ a ∈ l, Mute r t (f t a)) : Mute r s (l.foldl f s) := by
  refine foldl_rel (R := fun t t' : Session => t.nextPeer = s.nextPeer → Mute r t t') (fun t _ => .refl r t) ?_ l
    (fun t a ha hnext => hf t hnext a ha) s rfl
  intro a b c hab hbc ha
  exact (hab ha).trans (hbc ((hab ha).nextPeer.trans ha))

theorem foldlM {α : Type} {f : Session → α → Except Halt Session} (l : List α)
    (hf : ∀ t t', t.nextPeer = s.nextPeer → ∀ a ∈ l, f t a = .ok t' → Mute r t t') (h : l.foldlM f s = .ok s') :
    Mute r s s' := by
  refine foldlM_rel (R := fun t t' : Session => t.nextPeer = s.nextPeer → Mute r t t') (fun t _ => .refl r t) ?_ l
    (fun t t' a ha ht hnext => hf t t' hnext a ha ht) h rfl
  intro a b c hab hbc ha
  exact (hab ha).trans (hbc ((hab ha).nextPeer.trans ha))

theorem announce (h : announce env s = .ok s') : Mute r s s' := by
  unfold Unworkable.announce at h
  cases ha : env.announce <;> simp only [ha] at h <;> cases h <;> exact of_eq rfl rfl rfl rfl

theorem sized_empty {m : WireMsg} {id : UInt8} (hb : m.body = some (id,[])) : m.Sized := .of_length hb (by decide)

theorem interested (env : Env) (hp : p < s.nextPeer) : Mute r s (networkPeerWriteInterested env s p) :=
  setWrite env _ hp .interested (fun _ => rfl) (sized_empty rfl)

theorem unchoke (env : Env) (hp : p < s.nextPeer) : Mute r s (networkPeerWriteUnchoke env s p) :=
  setWrite env _ hp .unchoke (fun _ => rfl) (sized_empty rfl)

theorem choke (env : Env) (hp : p < s.nextPeer) : Mute r s (networkPeerWriteChoke env s p) :=
  setWrite env _ hp .choke (fun _ => rfl) (sized_empty rfl)

theorem keepalive (env : Env) (hp : p < s.nextPeer) : Mute r s (networkPeerWriteKeepalive env s p) :=
  write env hp .keepalive (fun _ => rfl) nofun

theorem request (env : Env) (hp : p < s.nextPeer) (idx off len : ℕ) :
    Mute r s (networkPeerRequestBlock env s p idx off len) :=
  write env hp (.request idx off len) (fun _ => rfl) (.of_length rfl (by simp [length_be32]))

theorem reject (env : Env) (hp : p < s.nextPeer) (idx off len : ℕ) :
    Mute r s (networkPeerRejectBlock env s p idx off len) :=
  write env hp (.reject idx off len) (fun _ => rfl) (.of_length rfl (by simp [length_be32]))

theorem piece {idx off len : ℕ} (hp : p < s.nextPeer) (h : networkPeerWritePiece env s p idx off len = .ok s') :
    Mute r s s' := by
  unfold networkPeerWritePiece at h
  obtain ⟨tpp,-,h⟩ := bind_ok.mp h
  obtain ⟨tp,htp,h⟩ := bind_ok.mp h
  obtain ⟨d,hd,h⟩ := bind_ok.mp h
  have hk := Kept.ensureMapped htp
  have hmap : Mute r s { s with tp := tp } := of_out hk.mi hk.verified rfl rfl rfl
  cases d with
  | none =>
    cases h
    exact hmap
  | some d =>
    dsimp only at h
    split at h
    · cases h
    · rename_i hshort
      cases h
      have hread := length_blockReadLoop hd
      rw [Option.getD_none,List.length_nil,Nat.zero_add] at hread
      have hp' : p < ({ s with tp := tp } : Session).nextPeer := hp
      refine hmap.trans ((write env hp' (.piece idx off (padded env.stale d.1 len)) (fun _ => rfl)
        (.of_length rfl ?_)).trans
        (setPeer _ p _))
      simp only [List.length_append,length_be32,length_padded_le hread]
      omega

/-- The announcement at the label `out` is for the peer it is written to. -/
theorem sendBitfield (hp : p < s.nextPeer) (hne : p ≠ r) (h : sendBitfield env p s = .ok s') : Mute r s s' := by
  unfold Unworkable.sendBitfield at h
  split at h
  · obtain ⟨t,ht,h⟩ := bind_ok.mp h
    cases h
    refine Mute.trans ?_ (setState t p _)
    rcases writePieces_describes ht with ⟨-,rfl⟩ | ⟨m,hm,rfl⟩
    · exact .refl r _
    · exact write env hp m (fun he => (hne he).elim) hm.sized
  · cases h
    exact .refl r s

theorem expressInterest (hp : p < s.nextPeer) (h : expressInterest env s p = .ok s') : Mute r s s' := by
  obtain ⟨array,last,store,rfl | rfl⟩ := expressInterest_frame h
  · exact of_eq rfl rfl rfl rfl
  · have hframe : Mute r s { s with rarityArray := array, lastRarity := last, store := store } := of_eq rfl rfl rfl rfl
    exact hframe.trans (interested env hp)

theorem msgHave (hp : p < s.nextPeer) (h : msgHave env s p msg = .ok s') : Mute r s s' := by
  simp only [Unworkable.msgHave] at h
  split at h
  · cases h
    exact .refl r s
  · obtain ⟨bf,-,h⟩ := bind_ok.mp h
    cases hb : (s.peer p).bitfield with
    | none =>
      simp only [hb] at h
      exact ((setPeer s p _).trans (setPeer _ p _)).trans (expressInterest hp h)
    | some _ =>
      simp only [hb] at h
      exact (setPeer s p _).trans (expressInterest hp h)

theorem msgBitfield (hp : p < s.nextPeer) (h : msgBitfield env s p msg = .ok s') : Mute r s s' := by
  unfold Unworkable.msgBitfield at h
  split_ifs at h
  · cases h
    exact .refl r s
  · cases h
    exact setState s p _
  · exact (setPeer s p _).trans (expressInterest hp h)

theorem msgHaveFill {fill : UInt8} (hp : p < s.nextPeer) (h : msgHaveFill env s p fill = .ok s') : Mute r s s' := by
  unfold Unworkable.msgHaveFill at h
  split_ifs at h
  · cases h
    exact .refl r s
  · exact (setPeer s p _).trans (expressInterest hp h)

theorem msgChoke (s : Session) (p : PeerId) : Mute r s (msgChoke s p) := by
  unfold Unworkable.msgChoke
  dsimp only
  split
  · exact setState s p _
  · refine (setState s p _).trans (foldl _ ?_)
    intro t _ d _
    exact of_eq rfl rfl rfl rfl

theorem msgRequest (hp : p < s.nextPeer) (h : msgRequest env s p msg = .ok s') : Mute r s s' := by
  simp only [Unworkable.msgRequest] at h
  split at h
  · cases h
    exact .refl r s
  · obtain ⟨tpp,-,h⟩ := bind_ok.mp h
    split_ifs at h
    · cases h
      exact .refl r s
    · cases h
      exact reject env hp _ _ _
    · cases h
      exact .refl r s
    · cases h
      exact setPeer s p _

theorem msgReject (env : Env) (s : Session) (p : PeerId) (msg : Bytes) : Mute r s (msgReject env s p msg) := by
  unfold Unworkable.msgReject
  cases hfast : (s.peer p).state.fast with
  | false => exact (setState s p _ : Mute r s (killPeer s p))
  | true =>
    cases href : indexRefused s (msgField env msg 1) with
    | true => simpa [href] using Mute.refl r s
    | false =>
      cases hd : networkPieceDlFind s.store (some p) (msgField env msg 1) (msgField env msg 5) with
      | none => simpa [href,hd] using Mute.refl r s
      | some d =>
        simp only [href,hd,Bool.not_true,Bool.false_eq_true,if_false]
        exact of_eq rfl rfl rfl rfl

theorem msgCancel (env : Env) (s : Session) (p : PeerId) (msg : Bytes) : Mute r s (msgCancel env s p msg) := by
  simp only [Unworkable.msgCancel]
  split
  · exact .refl r s
  · exact setPeer s p _

end Mute

/-- Piece `idx` is verified, and every peer is told so. -/
structure Tells (idx : ℕ) (s s' : Session) : Prop where
  torrent : Verifies idx s.tp s'.tp
  new : (s.tp.piece idx).cksumok = false
  out : s'.out = s.out ++ s.peers.map (fun q => (q,(WireMsg.haves idx).bytes))
  nextPeer : s'.nextPeer = s.nextPeer
  peerid : s'.peerid = s.peerid

/-- What is said to `r` about pieces: nothing, or that one more is verified. -/
inductive Says (r : PeerId) (s s' : Session) : Prop
  | nothing (h : Mute r s s')
  | piece {idx : ℕ} {t : Session} (h : Tells idx s t) (hrest : Mute r t s')

section Handlers
variable {sha1 : Bytes → Bytes} {env : Env} {s s' t : Session} {p r : PeerId} {idx off : ℕ} {msg data : Bytes}

theorem Says.of_setPeer {f : Peer → Peer} (h : Says r (s.setPeer p f) s') : Says r s s' := by
  cases h with
  | nothing h => exact .nothing ((Mute.setPeer s p f).trans h)
  | piece h hrest => exact .piece ⟨h.torrent,h.new,h.out,h.nextPeer,h.peerid⟩ hrest

theorem Says.mute (h : Says r s t) (h' : Mute r t s') : Says r s s' := by
  cases h with
  | nothing h => exact .nothing (h.trans h')
  | piece h hrest => exact .piece h (hrest.trans h')

theorem Says.nextPeer (h : Says r s s') : s'.nextPeer = s.nextPeer := by
  cases h with
  | nothing h => exact h.nextPeer
  | piece h hrest => exact hrest.nextPeer.trans h.nextPeer

theorem foldl_writeHave (env : Env) (s : Session) (idx : ℕ) (l : List PeerId) :
    let t := l.foldl (fun s q => networkPeerWriteHave env s q idx) s
    t.out = s.out ++ l.map (fun q => (q,(WireMsg.haves idx).bytes)) ∧ t.nextPeer = s.nextPeer ∧
        t.peerid = s.peerid := by
  induction l generalizing s with
  | nil => simp
  | cons q l ih =>
    obtain ⟨hout,hnext,hid⟩ := ih (networkPeerWriteHave env s q idx)
    refine ⟨?_,hnext,hid⟩
    rw [List.foldl_cons,hout,List.map_cons,← List.singleton_append,← List.append_assoc]
    rfl

/-- The HAVE broadcast is all that is written for a piece that passed its check. -/
theorem pieceVerified_out (h : pieceVerified env s idx = .ok s') :
    s'.out = s.out ++ s.peers.map (fun q => (q,(WireMsg.haves idx).bytes)) ∧ s'.nextPeer = s.nextPeer ∧
      s'.peerid = s.peerid := by
  unfold pieceVerified at h
  obtain ⟨tp,-,h⟩ := bind_ok.mp h
  obtain ⟨t,ht,h⟩ := bind_ok.mp h
  cases h
  have hann : t.out = s.out ∧ t.peers = s.peers ∧ t.nextPeer = s.nextPeer ∧ t.peerid = s.peerid := by
    unfold announceCompleted at ht
    split_ifs at ht
    · unfold announce at ht
      cases ha : env.announce <;> simp only [ha] at ht <;> cases ht <;> exact ⟨rfl,rfl,rfl,rfl⟩
    · cases ht
      exact ⟨rfl,rfl,rfl,rfl⟩
    · cases ht
      exact ⟨rfl,rfl,rfl,rfl⟩
  obtain ⟨hout,hpeers,hnext,hid⟩ := hann
  obtain ⟨hout',hnext',hid'⟩ := foldl_writeHave env t idx t.peers
  exact ⟨by rw [hout',hout,hpeers],hnext'.trans hnext,hid'.trans hid⟩

theorem checkPiece_speech (hidx : idx < s.tp.numPieces) (hnew : (s.tp.piece idx).cksumok = false)
    (h : checkPiece sha1 env s idx = .ok s') : Says r s s' := by
  obtain ⟨st,rfl | ⟨u,hu,rfl⟩⟩ := checkPiece_cases h
  · have hk := Kept.torrentPieceUnmap s.tp idx
    exact .nothing (.of_out hk.mi hk.verified rfl rfl rfl)
  · have hv := verifies_of_pieceVerified hidx hu
    obtain ⟨hout,hnext,hid⟩ := pieceVerified_out hu
    exact .piece (t := { u with store := st }) ⟨hv.1,hnew,hout,hnext,hid⟩ (.refl r _)

/-- A block that is written leaves the flags alone, and nothing is said about it. -/
theorem networkPeerReadPiece_frame (h : networkPeerReadPiece s p idx off data = .ok t) : idx < s.tp.numPieces ∧
    t.out = s.out ∧ t.peers = s.peers ∧ t.nextPeer = s.nextPeer ∧ t.peerid = s.peerid ∧
      Kept { s.tp with downloaded := t.tp.downloaded } t.tp := by
  unfold networkPeerReadPiece at h
  obtain ⟨tpp,htpp,h⟩ := bind_ok.mp h
  obtain ⟨hidx,-⟩ := torrentPieceFind_ok.mp htpp
  split at h
  · cases h
    exact ⟨hidx,rfl,rfl,rfl,rfl,.refl _⟩
  · cases h
    have hk : Kept s.tp (torrentBlockWrite s.tp idx off data.length data) := .torrentBlockWrite _ _ _ _ _
    exact ⟨hidx,rfl,rfl,rfl,rfl,⟨hk.mi,hk.flags,hk.goodPieces,hk.left,rfl,hk.uploaded⟩⟩

theorem receiveBlock_speech (hnew : (s.tp.piece idx).cksumok = false)
    (h : receiveBlock sha1 env s p idx off data = .ok s') : Says r s s' := by
  simp only [receiveBlock] at h
  obtain ⟨tp,htp,h⟩ := bind_ok.mp h
  obtain ⟨t,ht,h⟩ := bind_ok.mp h
  obtain ⟨found,-,h⟩ := bind_ok.mp h
  obtain ⟨hidx,hout,hpeers,hnext,hid,hread⟩ := networkPeerReadPiece_frame ht
  have hmap := Kept.ensureMapped htp
  have hk : Kept { s.tp with downloaded := t.tp.downloaded } t.tp :=
    by
    have hready : Kept { s.tp with downloaded := t.tp.downloaded } { tp with downloaded := t.tp.downloaded } :=
      ⟨hmap.mi,hmap.flags,hmap.goodPieces,hmap.left,rfl,hmap.uploaded⟩
    exact hready.trans hread
  cases found with
  | false =>
    cases h
    exact .nothing (.of_out hk.mi hk.verified hout hnext hid)
  | true =>
    have hnew' : (t.tp.piece idx).cksumok = false := (hk.flags idx).trans hnew
    have hidx' : idx < t.tp.numPieces := by
      rw [Torrent.numPieces,hread.mi]
      exact hidx
    cases checkPiece_speech (r := r) hidx' hnew' h with
    | nothing h => exact .nothing (.trans (.of_out hk.mi hk.verified hout hnext hid) h)
    | piece h hrest =>
      have hv := Verifies.of_kept hk h.torrent
      refine .piece ⟨⟨hv.mi,hv.idx_lt,hv.self,hv.other,hv.goodPieces⟩,(hk.flags _).symm.trans h.new,?_,
        h.nextPeer.trans hnext,h.peerid.trans hid⟩ hrest
      rw [h.out,hout,hpeers]
      rfl

theorem pieceAt_speech (h : pieceAt sha1 env s p idx off msg = .ok s') : Says r s s' := by
  rcases pieceAt_result h with ⟨-,rfl | rfl⟩ | ⟨-,-,rfl⟩ | ⟨d,t,-,hnew,-,ht,rfl⟩
  · exact .nothing (.refl r _)
  · exact .nothing (.setState s p _)
  · exact .nothing (.setPeer s p _)
  · exact (receiveBlock_speech hnew ht).mute (.setPeer t p _)

/-- A message leads to the HAVE broadcast if it completes a piece, and to nothing else about pieces. -/
theorem networkPeerProcessMessage_speech {id : UInt8} (hp : p < s.nextPeer)
    (h : networkPeerProcessMessage sha1 env s p id msg = .ok s') : Says r s s' := by
  cases networkPeerProcessMessage_handled h with
  | choke => exact .nothing (.msgChoke s p)
  | unchoke => exact .nothing (.setState s p _)
  | interested => exact .nothing (.setState s p _)
  | notinterested => exact .nothing (.setState s p _)
  | haves h => exact .nothing (.msgHave hp h)
  | bitfield h => exact .nothing (.msgBitfield hp h)
  | request h => exact .nothing (.msgRequest hp h)
  | piece h => exact pieceAt_speech h
  | cancel => exact .nothing (.msgCancel env s p msg)
  | reject => exact .nothing (.msgReject env s p msg)
  | havenone h => exact .nothing (.msgHaveFill hp h)
  | haveall h => exact .nothing (.msgHaveFill hp h)
  | other => exact .nothing (.refl r s)

/-- An entry of the read callback of another peer. -/
theorem peerResponse_speech {avail : Bytes} (hp : p < s.nextPeer) (hne : p ≠ r)
    (h : (peerResponse sha1 env p s avail).result = .ok s') : Says r s s' := by
  obtain ⟨t,hsend,ht⟩ := peerResponse_read h
  rcases ht with ⟨-,q,-,rfl⟩ | ⟨msg,u,-,rfl,hu⟩
  · exact .nothing ((Mute.setPeer s p _).trans (.sendBitfield hp hne hsend))
  · have hp' : p < (s.setPeer p (afterRead env · avail)).nextPeer := hp
    have hspeech : Says r s u := (networkPeerProcessMessage_speech hp' hu).of_setPeer
    have hlast : p < (u.setPeer p (fun q => { q with rxmsg := [] })).nextPeer := hp.trans_le hspeech.nextPeer.ge
    exact (hspeech.mute (.setPeer u p _)).mute (.sendBitfield hlast hne hsend)

end Handlers

section Tick
variable {env : Env} {s s' : Session} {p r : PeerId}

theorem Mute.fillLoop {n : ℕ} (hp : p < s.nextPeer) (h : fillLoop env p n s = .ok s') : Mute r s s' := by
  induction n generalizing s with
  | zero =>
    cases h
    exact .refl r _
  | succ n ih =>
    simp only [Unworkable.fillLoop] at h
    obtain ⟨⟨t,found,hint⟩,ht,h⟩ := bind_ok.mp h
    obtain ⟨array,last,store,rfl⟩ := schedulerPieceGimme_frame ht
    have hframe : Mute r s { s with rarityArray := array, lastRarity := last, store := store } := of_eq rfl rfl rfl rfl
    have hp' : p < ({ s with rarityArray := array, lastRarity := last, store := store } : Session).nextPeer := hp
    cases found with
    | none => exact hframe.trans (ih hp' h)
    | some d => exact (hframe.trans ((request env hp' _ _ _).trans (setPeer _ p _))).trans (ih hp h)

theorem Mute.dropPeer (s : Session) (p : PeerId) : Mute r s (dropPeer s p) := of_eq rfl rfl rfl rfl

theorem Mute.schedulerPeer (hp : p < s.nextPeer) (h : schedulerPeer env s p = .ok s') : Mute r s s' := by
  rcases schedulerPeer_turn h with ⟨-,rfl⟩ | ⟨-,-,rfl⟩ | ⟨-,-,t,ht,h⟩
  · exact dropPeer s p
  · exact setState s p _
  · have hup : Mute r s t := by
      simp only [schedulerDequeueUploads,networkPieceUlDequeue] at ht
      cases huls : (s.peer p).uls.head? with
      | none =>
        simp only [huls] at ht
        cases ht
        exact .refl r s
      | some pu =>
        have hp' : p < (s.setPeer p (fun q => { q with uls := q.uls.tail })).nextPeer := hp
        simp only [huls] at ht
        exact (setPeer s p _).trans (piece hp' ht)
    refine hup.trans ?_
    simp only [schedulerFillRequests] at h
    split at h
    · exact fillLoop (hp.trans_le hup.nextPeer.ge) h
    · cases h
      exact .refl r _

/-- Only peers are ranked. -/
theorem mem_schedulerPeerSpeedrank {pc : List PeerCounter} (h : schedulerPeerSpeedrank env s = .ok pc) :
    ∀ c ∈ pc, c.peer ∈ s.peers := by
  unfold schedulerPeerSpeedrank at h
  split at h
  · cases h
  · cases h
    intro c hc
    obtain ⟨q,hq,rfl⟩ := List.mem_map.mp ((env.qsortPeers.sorts.perm _ _).subset hc)
    exact hq

theorem mem_optimisticPick {pc : List PeerCounter} {q : PeerId} (h : optimisticPick env s pc = .ok (some q)) :
    q ∈ s.peers := by
  by_cases hnobody : s.interestedPeers = []
  · rw [optimisticPick_nobody env s pc hnobody] at h
    cases h
  · rw [optimisticPick_somebody env s pc hnobody] at h
    have hpick := Except.ok.inj h
    split at hpick
    · exact List.mem_of_head? hpick
    · exact List.mem_of_getElem? hpick

theorem Mute.schedulerChokeAlgorithm (hs : s.roster.Census) (h : schedulerChokeAlgorithm env s = .ok s') :
    Mute r s s' := by
  rw [schedulerChokeAlgorithm_ranked] at h
  split at h
  · cases h
    exact .refl r s
  · obtain ⟨pc,hpc,h⟩ := bind_ok.mp h
    obtain ⟨p2,hp2,h⟩ := bind_ok.mp h
    cases h
    have hfastest : Mute r s (unchokeFastest env s pc) := by
      refine foldl _ ?_
      intro t hnext q hq
      obtain ⟨c,hc,rfl⟩ := List.mem_map.mp hq
      have hlt : c.peer < s.nextPeer := hs.lt _ (mem_schedulerPeerSpeedrank hpc c (List.mem_of_mem_take hc))
      unfold unchokeTurn
      split_ifs
      · exact .refl r t
      · exact .refl r t
      · exact unchoke env (hlt.trans_le hnext.ge)
    have hpicked : Mute r (unchokeFastest env s pc) (unchokePicked env (unchokeFastest env s pc) p2) := by
      cases p2 with
      | none => exact .refl r _
      | some q =>
        unfold pickPeer at hp2
        split at hp2
        · have hq := mem_optimisticPick hp2
          rw [peers_unchokeFastest] at hq
          have hlt : q < s.nextPeer := hs.lt q hq
          exact unchoke env (hlt.trans_le hfastest.nextPeer.ge)
        · cases hp2
    have hfront := hfastest.trans hpicked
    refine hfront.trans (foldl _ ?_)
    intro t hnext q hq
    rw [peers_unchokePicked,peers_unchokeFastest] at hq
    have hlt : q < s.nextPeer := hs.lt q hq
    unfold chokeOtherTurn
    split_ifs
    · exact .refl r t
    · exact choke env (hlt.trans_le (hnext.trans hfront.nextPeer).ge)
    · exact .refl r t

theorem Mute.endgamePiece {i : ℕ} (hs : ∀ q ∈ s.peers, q < s.nextPeer) (h : endgamePiece env s i = .ok s') :
    Mute r s s' := by
  unfold Unworkable.endgamePiece at h
  obtain ⟨tpp,-,h⟩ := bind_ok.mp h
  split at h
  · cases h
    exact .refl r s
  · refine foldlM _ ?_ h
    intro t t' hnext q hq ht
    unfold endgamePeer at ht
    split at ht
    · cases ht
      exact .refl r t
    · obtain ⟨has,-,ht⟩ := bind_ok.mp ht
      split_ifs at ht
      · cases ht
        exact .refl r t
      · cases ht
        exact .refl r t
      · cases ht
        refine foldl _ ?_
        intro u hnext' off _
        unfold endgameBlock
        split
        · exact .refl r u
        · have hq' : q < ({ u with store := (networkPieceDlCreate u.store q i off (blockLen tpp.len off)).1
              } : Session).nextPeer :=
            (hs q hq).trans_le (hnext'.trans hnext).ge
          have hstore : Mute r u { u with store := (networkPieceDlCreate u.store q i off (blockLen tpp.len off)).1 } :=
            of_eq rfl rfl rfl rfl
          exact (hstore.trans (request env hq' _ _ _)).trans (setPeer _ q _)

theorem Mute.schedulerEndgameAlgorithm (hs : ∀ q ∈ s.peers, q < s.nextPeer)
    (h : schedulerEndgameAlgorithm env s = .ok s') : Mute r s s' := by
  have hloop := foldlM_rel (R := fun t t' : Session => t.chart = s.chart → Mute r t t' ∧ t'.chart = s.chart)
    (fun t ht => ⟨.refl r t,ht⟩)
    (fun hab hbc ha => ⟨(hab ha).1.trans (hbc (hab ha).2).1,(hbc (hab ha).2).2⟩) _
    (fun t t' i _ hstep ht => ?_) h
  · exact (hloop rfl).1
  · refine ⟨endgamePiece ?_ hstep,(chart_endgamePiece hstep).trans ht⟩
    intro q hq
    rw [show t.peers = s.peers from congrArg Roster.peers ht] at hq
    rw [show t.nextPeer = s.nextPeer from congrArg Roster.nextPeer ht]
    exact hs q hq

/-- A tick says nothing about pieces. -/
theorem Mute.scheduler (hs : s.roster.Census) (hc : s.roster.Connected) (h : scheduler env s = .ok s') :
    Mute r s s' := by
  obtain ⟨s₁,s₂,s₃,h₁,h₂,h₃,h₄⟩ := scheduler_cases h
  have hpeers : Mute r s s₁ := foldlM _ (fun t t' hnext q hq ht => schedulerPeer ((hs.lt q hq).trans_le hnext.ge) ht) h₁
  have hcensus := (attended_schedulerPeers hs hc h₁).census
  have hchoke : Mute r s₁ s₂ := schedulerChokeAlgorithm hcensus h₂
  have hchart := chart_schedulerChokeAlgorithm h₂
  have hend : Mute r s₂ s₃ := by
    rcases h₃ with rfl | h₃
    · exact .refl r _
    · refine schedulerEndgameAlgorithm ?_ h₃
      intro q hq
      rw [show s₂.peers = s₁.peers from congrArg Roster.peers hchart] at hq
      rw [show s₂.nextPeer = s₁.nextPeer from congrArg Roster.nextPeer hchart]
      exact hcensus.lt q hq
  have hann : Mute r s₃ s' := by
    rcases h₄ with rfl | h₄
    · exact .refl r _
    · exact announce h₄
  exact ((hpeers.trans hchoke).trans hend).trans hann

end Tick

/-- What has been written to `p`, one entry for each call of `network_peer_write`. -/
def Session.stream (s : Session) (p : PeerId) : List Bytes := (s.out.filter (fun m => m.1 = p)).map Prod.snd

/-- How the set of verified pieces grows while the messages `more` are written to a peer. -/
inductive Hears (n : ℕ) (V : Finset ℕ) : Finset ℕ → List WireMsg → Prop
  | nothing {more : List WireMsg} (hmore : ∀ m ∈ more, m.silent = true) : Hears n V V more
  | piece {idx : ℕ} {more : List WireMsg} (hlt : idx < n) (hnew : idx ∉ V) (hmore : ∀ m ∈ more, m.silent = true) :
    Hears n V (insert idx V) (.haves idx :: more)

section Streams
variable {s s' : Session} {p r : PeerId}

theorem Session.stream_append {more : List (PeerId × WireMsg)}
    (h : s'.out = s.out ++ more.map (fun m => (m.1,m.2.bytes))) :
    s'.stream p = s.stream p ++ ((more.filter (fun m => m.1 = p)).map Prod.snd).map WireMsg.bytes := by
  rw [stream,h,List.filter_append,List.map_append,List.filter_map,List.map_map,List.map_map]
  rfl

theorem Mute.stream (h : Mute r s s') : ∃ more : List WireMsg, s'.stream r = s.stream r ++ more.map WireMsg.bytes ∧
    ∀ m ∈ more, m.silent = true ∧ m.Sized := by
  obtain ⟨more,hout,hmore⟩ := h.out
  refine ⟨_,Session.stream_append hout,?_⟩
  intro m hm
  obtain ⟨x,hx,rfl⟩ := List.mem_map.mp hm
  obtain ⟨hx,hr⟩ := List.mem_filter.mp hx
  obtain ⟨hsilent,hsized,-⟩ := hmore x hx
  exact ⟨hsilent (of_decide_eq_true hr),hsized⟩

/-- Nothing is written to a peer that has no number yet. -/
theorem Mute.stream_unborn (h : Mute r s s') (hp : s.nextPeer ≤ p) : s'.stream p = s.stream p := by
  obtain ⟨more,hout,hmore⟩ := h.out
  have hnone : more.filter (fun m => m.1 = p) = [] := by
    refine List.filter_eq_nil_iff.mpr ?_
    intro m hm hmp
    have heq : m.1 = p := of_decide_eq_true hmp
    exact Nat.not_lt.mpr hp (heq ▸ (hmore m hm).2.2)
  rw [Session.stream_append hout,hnone]
  simp

theorem Tells.stream {idx : ℕ} (h : Tells idx s s') :
    s'.stream p = s.stream p ++ List.replicate (s.peers.count p) (WireMsg.haves idx).bytes := by
  rw [Session.stream,h.out,List.filter_append,List.map_append,List.filter_map,List.map_map]
  have hcount : s.peers.filter ((fun m : PeerId × Bytes => decide (m.1 = p)) ∘ fun q => (q,(WireMsg.haves idx).bytes)) =
      List.replicate (s.peers.count p) p := List.filter_eq p
  rw [hcount,List.map_replicate]
  rfl

theorem Says.stream_unborn (hs : s.roster.Census) (h : Says r s s') (hp : s.nextPeer ≤ p) :
    s'.stream p = s.stream p := by
  cases h with
  | nothing h => exact h.stream_unborn hp
  | piece h hrest =>
    have hnone : s.peers.count p = 0 := List.count_eq_zero.mpr (fun hmem => absurd (hs.lt p hmem) (Nat.not_lt.mpr hp))
    rw [hrest.stream_unborn (h.nextPeer.trans_le hp),h.stream,hnone]
    simp

/-- A peer on the list hears of every piece that is verified, once. -/
theorem Says.hears (hs : s.roster.Census) (hr : r ∈ s.peers) (h : Says r s s') :
    s'.tp.mi = s.tp.mi ∧ s'.peerid = s.peerid ∧ ∃ more : List WireMsg, s'.stream r =
      s.stream r ++ more.map WireMsg.bytes ∧
      (∀ m ∈ more, m.Sized) ∧ Hears s.tp.numPieces s.tp.verified s'.tp.verified more := by
  cases h with
  | nothing h =>
    obtain ⟨more,hstream,hmore⟩ := h.stream
    refine ⟨h.mi,h.peerid,more,hstream,fun m hm => (hmore m hm).2,?_⟩
    rw [h.verified]
    exact .nothing (fun m hm => (hmore m hm).1)
  | @piece idx t h hrest =>
    obtain ⟨more,hstream,hmore⟩ := hrest.stream
    have hnodup : s.peers.Nodup := hs.nodup
    refine ⟨hrest.mi.trans h.torrent.mi,hrest.peerid.trans h.peerid,.haves idx :: more,?_,?_,?_⟩
    · rw [hstream,h.stream,List.count_eq_one_of_mem hnodup hr,List.append_assoc]
      rfl
    · intro m hm
      rcases List.mem_cons.mp hm with rfl | hm
      · exact .of_length rfl (by simp [length_be32])
      · exact (hmore m hm).2
    · rw [hrest.verified,h.torrent.verified]
      refine .piece h.torrent.idx_lt ?_ (fun m hm => (hmore m hm).1)
      rw [Torrent.mem_verified,h.new]
      simp

end Streams

end Unworkable
