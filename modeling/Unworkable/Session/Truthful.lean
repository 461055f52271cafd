import Unworkable.Session.Pair
import Unworkable.Session.Receipts
import Unworkable.Session.Serving

/-! # What is written is true

A message that a step writes says what is so when the step is over: that a piece has been verified, that all pieces are
or none or those of the bit field, that a piece which is asked for or refused is not, and that one which is sent is. A
peer is asked only while it does not choke the session, and in a single-file torrent for one whole block.
-/
namespace Unworkable
open Library

/-- A message to `q` that is true of the metainfo and the id of a session, of its verified pieces `V`, those of
which in `W` are not new, and of the peers that do not choke it. -/
inductive Utterance (mi : Metainfo) (peerid : Bytes) (W V : Finset ℕ) (unchoked : PeerId → Prop) (q : PeerId) :
    Bytes → Prop
  | handshake : Utterance mi peerid W V unchoked q (handshakeBytes mi.infoHash (peerid.take 20))
  | keepalive : Utterance mi peerid W V unchoked q (WireMsg.bytes .keepalive)
  | choke : Utterance mi peerid W V unchoked q (WireMsg.bytes .choke)
  | unchoke : Utterance mi peerid W V unchoked q (WireMsg.bytes .unchoke)
  | interested : Utterance mi peerid W V unchoked q (WireMsg.bytes .interested)
  | haves {idx : ℕ} (hidx : idx ∈ V) (hnew : idx ∉ W) : Utterance mi peerid W V unchoked q (WireMsg.haves idx).bytes
  | bitfield {bits : Bytes} (hlen : bits.length = (mi.numPieces + 7) / 8)
    (hbits : ∀ i < mi.numPieces, bitAt bits i = true ↔ i ∈ V) :
      Utterance mi peerid W V unchoked q (WireMsg.bitfield bits).bytes
  | haveall (hall : ∀ i < mi.numPieces, i ∈ V) : Utterance mi peerid W V unchoked q (WireMsg.bytes .haveall)
  | havenone (hnone : V = ∅) : Utterance mi peerid W V unchoked q (WireMsg.bytes .havenone)
  | request {idx off len : ℕ} (hidx : idx < mi.numPieces) (hmissing : idx ∉ V) (hopen : unchoked q)
    (hblock : mi.type = .singlefile → blockSize ∣ off ∧ off < pieceLen mi idx ∧
      len = min blockSize (pieceLen mi idx - off)) :
    Utterance mi peerid W V unchoked q (WireMsg.request idx off len).bytes
  | reject {idx off len : ℕ} (hidx : idx < mi.numPieces) (hmissing : idx ∉ V) :
    Utterance mi peerid W V unchoked q (WireMsg.reject idx off len).bytes
  | piece {idx off : ℕ} {block : Bytes} (hidx : idx ∈ V) :
    Utterance mi peerid W V unchoked q (WireMsg.piece idx off block).bytes

/-- No piece is verified, and whatever is written is true. -/
structure Speaks (W : Finset ℕ) (unchoked : PeerId → Prop) (s s' : Session) : Prop where
  mi : s'.tp.mi = s.tp.mi
  verified : s'.tp.verified = s.tp.verified
  goodPieces : s'.tp.goodPieces = s.tp.goodPieces
  peerid : s'.peerid = s.peerid
  out : ∃ more, s'.out = s.out ++ more ∧ ∀ m ∈ more, Utterance s.tp.mi s.peerid W s.tp.verified unchoked m.1 m.2

section Tales
variable {mi : Metainfo} {peerid : Bytes} {W V : Finset ℕ} {unchoked unchoked' : PeerId →
  Prop} {q : PeerId} {msg : Bytes}

theorem Utterance.mono (h : Utterance mi peerid W V unchoked q msg) (hopen : unchoked q → unchoked' q) :
    Utterance mi peerid W V unchoked' q msg := by
  cases h with
  | handshake => exact .handshake
  | keepalive => exact .keepalive
  | choke => exact .choke
  | unchoke => exact .unchoke
  | interested => exact .interested
  | haves hidx hnew => exact .haves hidx hnew
  | bitfield hlen hbits => exact .bitfield hlen hbits
  | haveall hall => exact .haveall hall
  | havenone hnone => exact .havenone hnone
  | request hidx hmissing hq hblock => exact .request hidx hmissing (hopen hq) hblock
  | reject hidx hmissing => exact .reject hidx hmissing
  | piece hidx => exact .piece hidx

/-- A description of the pieces is true. -/
theorem Describes.utters {tp : Torrent} {m : WireMsg} (h : Describes tp m) (ht : tp.Tallied) :
    Utterance tp.mi peerid W tp.verified unchoked q m.bytes := by
  cases h with
  | havenone hempty =>
    refine .havenone (Finset.eq_empty_of_forall_notMem fun i hi => ?_)
    obtain ⟨hlt,hck⟩ := Torrent.mem_verified.mp hi
    have hnot := List.all_eq_true.mp hempty i (List.mem_range.mpr hlt)
    simp [hck] at hnot
  | haveall hgood =>
    exact .haveall fun i hi => Torrent.mem_verified.mpr ⟨hi,tp.card_verified_eq.mp (ht.symm.trans hgood) i hi⟩
  | bitfield hsome hbits =>
    have hsmall : tp.numPieces < 4294967289 := by
      by_contra hlarge
      exact torrentBitfieldGet_wraps (Nat.le_of_not_lt hlarge) hsome hbits
    obtain ⟨bits,hget,hpacked⟩ := torrentBitfieldGet_packed hsmall
    obtain rfl : bits = _ := Except.ok.inj (hget.symm.trans hbits)
    refine .bitfield hpacked.size fun i hi => ?_
    rw [hpacked.bits,Torrent.mem_verified]
    simp [Torrent.numPieces,hi]

end Tales

namespace Speaks
variable {env : Env} {s s' s'' : Session} {p : PeerId} {msg : Bytes} {W : Finset ℕ} {U U' : PeerId → Prop}

theorem of_out (hmi : s'.tp.mi = s.tp.mi) (hver : s'.tp.verified = s.tp.verified)
    (hgood : s'.tp.goodPieces = s.tp.goodPieces)
    (hid : s'.peerid = s.peerid) (hout : s'.out = s.out) : Speaks W U s s' :=
  ⟨hmi,hver,hgood,hid,[],by simp [hout],by simp⟩

theorem of_kept (hk : Kept s.tp s'.tp) (hid : s'.peerid = s.peerid) (hout : s'.out = s.out) : Speaks W U s s' :=
  of_out hk.mi hk.verified hk.goodPieces hid hout

theorem of_eq (htp : s'.tp = s.tp) (hid : s'.peerid = s.peerid) (hout : s'.out = s.out) : Speaks W U s s' :=
  of_out (by rw [htp]) (by rw [htp]) (by rw [htp]) hid hout

theorem refl (s : Session) : Speaks W U s s := of_eq rfl rfl rfl

theorem trans (h : Speaks W U s s') (h' : Speaks W U s' s'') : Speaks W U s s'' := by
  obtain ⟨more,hout,hmore⟩ := h.out
  obtain ⟨more',hout',hmore'⟩ := h'.out
  refine ⟨h'.mi.trans h.mi,h'.verified.trans h.verified,h'.goodPieces.trans h.goodPieces,h'.peerid.trans h.peerid,
    more ++ more',by rw [hout',hout,List.append_assoc],?_⟩
  intro m hm
  rcases List.mem_append.mp hm with hm | hm
  · exact hmore m hm
  · have hsaid := hmore' m hm
    rwa [h.mi,h.peerid,h.verified] at hsaid

theorem mono (h : Speaks W U s s') (hopen : ∀ q, U q → U' q) : Speaks W U' s s' := by
  obtain ⟨more,hout,hmore⟩ := h.out
  exact ⟨h.mi,h.verified,h.goodPieces,h.peerid,more,hout,fun m hm => (hmore m hm).mono (hopen m.1)⟩

theorem tallied (h : Speaks W U s s') (ht : s.tp.Tallied) : s'.tp.Tallied := by
  rw [Torrent.Tallied,h.goodPieces,h.verified]
  exact ht

theorem setPeer (s : Session) (p : PeerId) (f : Peer → Peer) : Speaks W U s (s.setPeer p f) := of_eq rfl rfl rfl

theorem setState (s : Session) (p : PeerId) (f : PeerState → PeerState) : Speaks W U s (s.setState p f) := setPeer s p _

/-- A write of one message. -/
theorem write (env : Env) (h : Utterance s.tp.mi s.peerid W s.tp.verified U p msg) :
    Speaks W U s (networkPeerWrite env s p msg) := by
  refine ⟨rfl,rfl,rfl,rfl,[(p,msg)],rfl,?_⟩
  intro m hm
  rw [List.mem_singleton.mp hm]
  exact h

/-- The same behind an assignment to the peer. -/
theorem setWrite (env : Env) (f : Peer → Peer) (h : Utterance s.tp.mi s.peerid W s.tp.verified U p msg) :
    Speaks W U s (networkPeerWrite env (s.setPeer p f) p msg) := by
  have hset : Utterance (s.setPeer p f).tp.mi (s.setPeer p f).peerid W (s.setPeer p f).tp.verified U p msg := h
  exact (setPeer s p f).trans (write env hset)

theorem foldl {α : Type} {f : Session → α → Session} (l : List α) (hf : ∀ t, ∀ a ∈ l, Speaks W U t (f t a)) :
    Speaks W U s (l.foldl f s) := foldl_rel .refl .trans l (fun t a ha => hf t a ha) s

theorem announce (h : announce env s = .ok s') : Speaks W U s s' := by
  unfold Unworkable.announce at h
  cases ha : env.announce <;> simp only [ha] at h <;> cases h <;> exact of_eq rfl rfl rfl

theorem handshake (env : Env) (s : Session) (p : PeerId) : Speaks W U s (networkPeerHandshake env s p) :=
  setWrite env _ .handshake

theorem interested (env : Env) (s : Session) (p : PeerId) : Speaks W U s (networkPeerWriteInterested env s p) :=
  setWrite env _ .interested

theorem expressInterest (h : expressInterest env s p = .ok s') : Speaks W U s s' := by
  obtain ⟨array,last,store,rfl | rfl⟩ := expressInterest_frame h
  · exact of_eq rfl rfl rfl
  · have hframe : Speaks W U s { s with rarityArray := array, lastRarity := last, store := store } := of_eq rfl rfl rfl
    exact hframe.trans (interested env _ p)

theorem msgHave (h : msgHave env s p msg = .ok s') : Speaks W U s s' := by
  simp only [Unworkable.msgHave] at h
  split at h
  · cases h
    exact .refl s
  · obtain ⟨bf,-,h⟩ := bind_ok.mp h
    cases hb : (s.peer p).bitfield with
    | none =>
      simp only [hb] at h
      exact ((setPeer s p _).trans (setPeer _ p _)).trans (expressInterest h)
    | some _ =>
      simp only [hb] at h
      exact (setPeer s p _).trans (expressInterest h)

theorem msgBitfield (h : msgBitfield env s p msg = .ok s') : Speaks W U s s' := by
  unfold Unworkable.msgBitfield at h
  split_ifs at h
  · cases h
    exact .refl s
  · cases h
    exact setState s p _
  · exact (setPeer s p _).trans (expressInterest h)

theorem msgHaveFill {fill : UInt8} (h : msgHaveFill env s p fill = .ok s') : Speaks W U s s' := by
  unfold Unworkable.msgHaveFill at h
  split_ifs at h
  · cases h
    exact .refl s
  · exact (setPeer s p _).trans (expressInterest h)

theorem msgChoke (s : Session) (p : PeerId) : Speaks W U s (msgChoke s p) := by
  unfold Unworkable.msgChoke
  dsimp only
  split
  · exact setState s p _
  · exact (setState s p _).trans (foldl _ fun t d _ => of_eq rfl rfl rfl)

/-- A piece that is refused is not verified. -/
theorem msgRequest (h : msgRequest env s p msg = .ok s') : Speaks W U s s' := by
  simp only [Unworkable.msgRequest] at h
  split at h
  · cases h
    exact .refl s
  · obtain ⟨tpp,htpp,h⟩ := bind_ok.mp h
    obtain ⟨hidx,rfl⟩ := torrentPieceFind_ok.mp htpp
    split_ifs at h with hoff hck hfast
    · cases h
      exact .refl s
    · cases h
      refine write env (.reject hidx fun hmem => ?_)
      simp [(Torrent.mem_verified.mp hmem).2] at hck
    · cases h
      exact .refl s
    · cases h
      exact setPeer s p _

theorem msgReject (env : Env) (s : Session) (p : PeerId) (msg : Bytes) : Speaks W U s (msgReject env s p msg) := by
  unfold Unworkable.msgReject
  cases hfast : (s.peer p).state.fast with
  | false => exact (setState s p _ : Speaks W U s (killPeer s p))
  | true =>
    cases href : indexRefused s (msgField env msg 1) with
    | true => simpa [href] using Speaks.refl s
    | false =>
      cases hd : networkPieceDlFind s.store (some p) (msgField env msg 1) (msgField env msg 5) with
      | none => simpa [href,hd] using Speaks.refl s
      | some d =>
        simp only [href,hd,Bool.not_true,Bool.false_eq_true,if_false]
        exact of_eq rfl rfl rfl

theorem msgCancel (env : Env) (s : Session) (p : PeerId) (msg : Bytes) : Speaks W U s (msgCancel env s p msg) := by
  simp only [Unworkable.msgCancel]
  split
  · exact .refl s
  · exact setPeer s p _

/-- The announcement at the label `out` is true. -/
theorem sendBitfield (ht : s.tp.Tallied) (h : sendBitfield env p s = .ok s') : Speaks W U s s' := by
  unfold Unworkable.sendBitfield at h
  split at h
  · obtain ⟨t,ht',h⟩ := bind_ok.mp h
    cases h
    refine Speaks.trans ?_ (setState t p _)
    rcases writePieces_describes ht' with ⟨-,rfl⟩ | ⟨m,hm,rfl⟩
    · exact .refl _
    · exact write env (hm.utters ht)
  · cases h
    exact .refl s

end Speaks

/-- Whatever is written between `s` and `s'` is true at the end, and every peer is told of a piece that is verified
meanwhile. -/
structure Spoken (unchoked : PeerId → Prop) (s s' : Session) : Prop where
  mi : s'.tp.mi = s.tp.mi
  peerid : s'.peerid = s.peerid
  tallied : s.tp.Tallied → s'.tp.Tallied
  grows : s.tp.verified ⊆ s'.tp.verified
  out : ∃ more, s'.out = s.out ++ more ∧
    (∀ m ∈ more, Utterance s'.tp.mi s'.peerid s.tp.verified s'.tp.verified unchoked m.1 m.2) ∧
    ∀ idx ∈ s'.tp.verified, idx ∉ s.tp.verified → ∀ q ∈ s.peers, (q,(WireMsg.haves idx).bytes) ∈ more

namespace Spoken
variable {sha1 : Bytes → Bytes} {env : Env} {s s' t : Session} {p : PeerId} {idx off : ℕ} {msg data : Bytes}
  {U : PeerId → Prop}

theorem plain (h : Speaks s.tp.verified U s s') : Spoken U s s' := by
  obtain ⟨more,hout,hmore⟩ := h.out
  refine ⟨h.mi,h.peerid,h.tallied,h.verified.ge,more,hout,?_,?_⟩
  · rw [h.mi,h.peerid,h.verified]
    exact hmore
  · intro idx hidx hnew
    rw [h.verified] at hidx
    exact absurd hidx hnew

/-- Nothing has been written so far. -/
theorem behind (hq : Speaks s.tp.verified U s t) (hout : t.out = s.out) (hpeers : t.peers = s.peers)
    (h : Spoken U t s') :
    Spoken U s s' := by
  refine ⟨h.mi.trans hq.mi,h.peerid.trans hq.peerid,fun ht => h.tallied (hq.tallied ht),hq.verified.ge.trans h.grows,?_⟩
  rw [← hout,← hpeers,← hq.verified]
  exact h.out

theorem before (h : Spoken U s t) (h' : Speaks s.tp.verified U t s') : Spoken U s s' := by
  obtain ⟨more,hout,hmore,htold⟩ := h.out
  obtain ⟨more',hout',hmore'⟩ := h'.out
  refine ⟨h'.mi.trans h.mi,h'.peerid.trans h.peerid,fun ht => h'.tallied (h.tallied ht),h.grows.trans h'.verified.ge,
    more ++ more',by rw [hout',hout,List.append_assoc],?_,?_⟩
  · rw [h'.mi,h'.peerid,h'.verified]
    intro m hm
    exact (List.mem_append.mp hm).elim (hmore m) (hmore' m)
  · rw [h'.verified]
    exact fun idx hidx hnew q hq => List.mem_append_left _ (htold idx hidx hnew q hq)

theorem setPeer {f : Peer → Peer} (h : Spoken U (s.setPeer p f) s') : Spoken U s s' := h.behind (.setPeer s p f) rfl rfl

/-- The broadcast for a piece that is verified. -/
theorem tells (h : Tells idx s s') : Spoken U s s' := by
  refine ⟨h.torrent.mi,h.peerid,h.torrent.tallied h.new,
    by rw [h.torrent.verified]; exact Finset.subset_insert _ _,_,h.out,?_,?_⟩
  · intro m hm
    obtain ⟨q,-,rfl⟩ := List.mem_map.mp hm
    rw [h.torrent.verified]
    refine .haves (Finset.mem_insert_self _ _) fun hold => ?_
    rw [Torrent.mem_verified,h.new] at hold
    cases hold.2
  · intro i hi hnew q hq
    rw [h.torrent.verified,Finset.mem_insert] at hi
    rw [hi.resolve_right hnew]
    exact List.mem_map_of_mem hq

theorem checkPiece (hidx : idx < s.tp.numPieces) (hnew : (s.tp.piece idx).cksumok = false)
    (h : checkPiece sha1 env s idx = .ok s') : Spoken U s s' := by
  obtain ⟨st,rfl | ⟨u,hu,rfl⟩⟩ := checkPiece_cases h
  · exact .plain (.of_kept (Kept.torrentPieceUnmap s.tp idx) rfl rfl)
  · obtain ⟨hout,hnext,hid⟩ := pieceVerified_out hu
    have htold : Tells idx s { u with store := st } := ⟨(verifies_of_pieceVerified hidx hu).1,hnew,hout,hnext,hid⟩
    exact .tells htold

theorem receiveBlock (hnew : (s.tp.piece idx).cksumok = false) (h : receiveBlock sha1 env s p idx off data = .ok s') :
    Spoken U s s' := by
  simp only [Unworkable.receiveBlock] at h
  obtain ⟨tp,htp,h⟩ := bind_ok.mp h
  obtain ⟨t,ht,h⟩ := bind_ok.mp h
  obtain ⟨found,-,h⟩ := bind_ok.mp h
  obtain ⟨hidx,hout,hpeers,-,hid,hread⟩ := networkPeerReadPiece_frame ht
  have hmap := Kept.ensureMapped htp
  have hflags : ∀ i, (t.tp.piece i).cksumok = (s.tp.piece i).cksumok := fun i => (hread.flags i).trans (hmap.flags i)
  have hmi : t.tp.mi = s.tp.mi := hread.mi.trans hmap.mi
  have hver : t.tp.verified = s.tp.verified := by
    ext i
    rw [Torrent.mem_verified,Torrent.mem_verified,Torrent.numPieces,Torrent.numPieces,hmi,hflags]
  have hquiet : Speaks s.tp.verified U s t := .of_out hmi hver (hread.goodPieces.trans hmap.goodPieces) hid hout
  cases found with
  | false =>
    cases h
    exact .plain hquiet
  | true =>
    have hidx' : idx < t.tp.numPieces := by
      rw [Torrent.numPieces,hread.mi]
      exact hidx
    exact .behind hquiet hout hpeers (.checkPiece hidx' ((hflags idx).trans hnew) h)

theorem pieceAt (h : pieceAt sha1 env s p idx off msg = .ok s') : Spoken U s s' := by
  rcases pieceAt_result h with ⟨-,rfl | rfl⟩ | ⟨-,-,rfl⟩ | ⟨d,t,-,hnew,-,ht,rfl⟩
  · exact .plain (.refl _)
  · exact .plain (.setState s p _)
  · exact .plain (.setPeer s p _)
  · exact (receiveBlock hnew ht).before (.setPeer t p _)

theorem networkPeerProcessMessage {id : UInt8} (h : networkPeerProcessMessage sha1 env s p id msg = .ok s') :
    Spoken U s s' := by
  cases networkPeerProcessMessage_handled h with
  | choke => exact .plain (.msgChoke s p)
  | unchoke => exact .plain (.setState s p _)
  | interested => exact .plain (.setState s p _)
  | notinterested => exact .plain (.setState s p _)
  | haves h => exact .plain (.msgHave h)
  | bitfield h => exact .plain (.msgBitfield h)
  | request h => exact .plain (.msgRequest h)
  | piece h => exact pieceAt h
  | cancel => exact .plain (.msgCancel env s p msg)
  | reject => exact .plain (.msgReject env s p msg)
  | havenone h => exact .plain (.msgHaveFill h)
  | haveall h => exact .plain (.msgHaveFill h)
  | other => exact .plain (.refl s)

/-- An entry of the read callback. -/
theorem peerResponse {avail : Bytes} (ht : s.tp.Tallied) (h : (peerResponse sha1 env p s avail).result = .ok s') :
    Spoken U s s' := by
  obtain ⟨t,hsend,hread⟩ := peerResponse_read h
  rcases hread with ⟨-,q,-,rfl⟩ | ⟨msg,u,-,rfl,hu⟩
  · exact .plain ((Speaks.setPeer s p _).trans (.sendBitfield ht hsend))
  · have hspoken : Spoken U s u := (networkPeerProcessMessage hu).setPeer
    exact (hspoken.before (.setPeer u p _)).before (.sendBitfield (hspoken.tallied ht) hsend)

end Spoken

/-- What a part of a tick starts from: pieces know their index, requests are for blocks, and queued uploads are of
verified pieces. -/
structure Poised (s : Session) : Prop where
  indexed : Indexed s.tp
  sound : s.core.Sound
  queued : ∀ q, ∀ pu ∈ (s.peer q).uls, pu.idx ∈ s.tp.verified

/-- A part of a tick: what it says is true, no peer begins to choke the session, and nothing is queued for upload. -/
structure Ticks (W : Finset ℕ) (s s' : Session) : Prop where
  speaks : Speaks W (fun q => (s'.peer q).state.choked = false) s s'
  unchoked : ∀ q, (s.peer q).state.choked = false → (s'.peer q).state.choked = false
  uls : ∀ q, (s'.peer q).uls ⊆ (s.peer q).uls

theorem Poised.ticks {W : Finset ℕ} {s s' : Session} (h : Poised s) (ht : Ticks W s s') (hix : Indexed s'.tp)
    (hsound : s'.core.Sound) : Poised s' := by
  refine ⟨hix,hsound,fun q pu hpu => ?_⟩
  rw [ht.speaks.verified]
  exact h.queued q pu (ht.uls q hpu)

namespace Ticks
variable {env : Env} {s s' s'' : Session} {p : PeerId} {i off : ℕ} {msg : Bytes} {W : Finset ℕ}

theorem of_eq (htp : s'.tp = s.tp) (hid : s'.peerid = s.peerid) (hout : s'.out = s.out) (hpeer : s'.peer = s.peer) :
    Ticks W s s' := ⟨.of_eq htp hid hout,fun q hq => by rwa [hpeer],fun q => by rw [hpeer]; exact List.Subset.refl _⟩

theorem refl (s : Session) : Ticks W s s := of_eq rfl rfl rfl rfl

theorem trans (h : Ticks W s s') (h' : Ticks W s' s'') : Ticks W s s'' :=
  ⟨(h.speaks.mono h'.unchoked).trans h'.speaks,fun q hq => h'.unchoked q (h.unchoked q hq),
    fun q => List.Subset.trans (h'.uls q) (h.uls q)⟩

theorem setPeer (s : Session) (p : PeerId) (f : Peer → Peer) (hchoked : ∀ q, q.state.choked = false →
    (f q).state.choked = false)
    (huls : ∀ q, (f q).uls ⊆ q.uls) : Ticks W s (s.setPeer p f) := by
  refine ⟨.setPeer s p f,fun q hq => ?_,fun q => ?_⟩
  · by_cases h : q = p
    · subst h
      rw [Session.setPeer_self]
      exact hchoked _ hq
    · rwa [Session.setPeer_ne _ _ _ h]
  · by_cases h : q = p
    · subst h
      rw [Session.setPeer_self]
      exact huls _
    · rw [Session.setPeer_ne _ _ _ h]
      exact List.Subset.refl _

/-- A write of one message. -/
theorem write (env : Env) (h : Utterance s.tp.mi s.peerid W s.tp.verified (fun q => (s.peer q).state.choked = false)
    p msg) :
    Ticks W s (networkPeerWrite env s p msg) := by
  have hset : Ticks W s (s.setPeer p (fun q => { q with lastsend := env.now })) :=
    setPeer s p _ (fun q hq => hq) (fun q => List.Subset.refl _)
  exact ⟨.write env (h.mono (hset.unchoked p)),hset.unchoked,hset.uls⟩

theorem killPeer (s : Session) (p : PeerId) : Ticks W s (killPeer s p) :=
  setPeer s p (fun q => { q with state := .deadOnly }) (fun _ _ => rfl) (fun _ => List.Subset.refl _)

theorem dropPeer (s : Session) (p : PeerId) : Ticks W s (dropPeer s p) := by
  have hset : Ticks W s (s.setPeer p (fun q => { q with uls := [], connfd := false })) :=
    setPeer s p _ (fun q hq => hq) (fun q => List.nil_subset _)
  exact hset.trans (of_eq rfl rfl rfl rfl)

theorem unchoke (env : Env) (s : Session) (p : PeerId) : Ticks W s (networkPeerWriteUnchoke env s p) :=
  (setPeer s p (fun q => { q with state := { q.state with amchoking := false } }) (fun _ hq => hq)
    (fun _ => List.Subset.refl _)).trans (write env .unchoke)

theorem choke (env : Env) (s : Session) (p : PeerId) : Ticks W s (networkPeerWriteChoke env s p) :=
  (setPeer s p (fun q => { q with state := { q.state with amchoking := true } }) (fun _ hq => hq)
    (fun _ => List.Subset.refl _)).trans (write env .choke)

theorem foldl {α : Type} {f : Session → α → Session} (l : List α) (hf : ∀ t, ∀ a ∈ l, Ticks W t (f t a)) :
    Ticks W s (l.foldl f s) := foldl_rel .refl .trans l (fun t a ha => hf t a ha) s

/-- A REQUEST that is counted. -/
theorem request (env : Env) {idx len : ℕ} (hidx : idx < s.tp.numPieces) (hck : (s.tp.piece idx).cksumok = false)
    (hopen : (s.peer p).state.choked = false) (hblock : s.tp.mi.type = .singlefile →
      blockSize ∣ off ∧ off < pieceLen s.tp.mi idx ∧ len = min blockSize (pieceLen s.tp.mi idx - off)) :
    Ticks W s ((networkPeerRequestBlock env s p idx off len).setPeer p
      (fun q => { q with dlQueueLen := add32 q.dlQueueLen 1 })) := by
  have hmissing : idx ∉ s.tp.verified := by
    intro hmem
    rw [Torrent.mem_verified,hck] at hmem
    cases hmem.2
  exact (write env (.request hidx hmissing hopen hblock)).trans
    (setPeer _ p _ (fun _ hq => hq) (fun _ => List.Subset.refl _))

/-- A PIECE message that is counted. -/
theorem piece (env : Env) {idx : ℕ} (off len : ℕ) (data : Bytes) (hidx : idx ∈ s.tp.verified) :
    Ticks W s ((networkPeerWrite env s p (message msgPieceId (be32 idx ++ be32 off ++ data))).setPeer p
      (fun q => { q with totaltx := q.totaltx + len })) :=
  (write env (.piece hidx)).trans (setPeer _ p _ (fun _ hq => hq) (fun _ => List.Subset.refl _))

/-- A request is for a block of a piece that is not verified. -/
theorem gimme {t : Session} {d : DlId} {hint : Bool} (hs : Poised s) (hp : p < s.nextPeer)
    (h : schedulerPieceGimme env s p false = .ok (t,some d,hint)) : (t.core.setQueue p (add32 · 1)).Sound ∧
      ∃ pd, t.store.dl d = some pd ∧ pd.idx < s.tp.numPieces ∧ (s.tp.piece pd.idx).cksumok = false := by
  rcases schedulerPieceGimme_cases h with ⟨hnone,-⟩ | ⟨hask,-⟩
  · cases hnone
  refine ⟨hs.sound.ask (hask hp),?_⟩
  unfold schedulerPieceGimme at h
  obtain ⟨⟨u,found⟩,hu,h⟩ := bind_ok.mp h
  have hcore := core_gimmePiece hu
  cases found with
  | none => cases h
  | some idx =>
    obtain ⟨hidx,hck,-⟩ := gimmePiece_wanted hs.indexed hu
    obtain ⟨tpp,-,h⟩ := bind_ok.mp h
    obtain ⟨⟨store,e⟩,hblock,h⟩ := bind_ok.mp h
    cases h
    have hwf : u.store.Wf := by
      rw [show u.store = s.store from congrArg Core.store hcore]
      exact hs.sound.wf
    obtain ⟨off,-,⟨-,hcreate⟩ | ⟨hfind,hpc,-,rfl⟩⟩ := gimmeBlock_cases hblock
    · cases hcreate
      exact ⟨_,(DlStore.create_dl p idx off _ _).trans (if_pos rfl),hidx,hck⟩
    · obtain ⟨pd,hpd,hkey⟩ := hwf.find_some hfind
      obtain ⟨rfl,-⟩ := Prod.mk.inj hkey
      exact ⟨{ pd with pc := some p },by rw [DlStore.recycle_dl]; simp [hpd],hidx,hck⟩

theorem fillLoop {n : ℕ} (hs : Poised s) (hp : p < s.nextPeer) (hopen : (s.peer p).state.choked = false)
    (h : fillLoop env p n s = .ok s') : Ticks W s s' := by
  induction n generalizing s with
  | zero =>
    cases h
    exact .refl _
  | succ n ih =>
    simp only [Unworkable.fillLoop] at h
    obtain ⟨⟨t,found,hint⟩,ht,h⟩ := bind_ok.mp h
    obtain ⟨array,last,store,rfl⟩ := schedulerPieceGimme_frame ht
    have hframe : Ticks W s { s with rarityArray := array, lastRarity := last, store := store } := of_eq rfl rfl rfl rfl
    have hp' : p < ({ s with rarityArray := array, lastRarity := last, store := store } : Session).nextPeer := hp
    cases found with
    | none =>
      rcases schedulerPieceGimme_cases ht with ⟨-,hcore⟩ | ⟨-,hsome⟩
      · exact hframe.trans (ih (hs.ticks hframe hs.indexed (hcore ▸ hs.sound)) hp' hopen h)
      · cases hsome
    | some d =>
      obtain ⟨hsound,pd,hpd,hidx,hck⟩ := gimme hs hp ht
      have hget : store.get d = pd := DlStore.get_of_dl hpd
      have hblock : s.tp.mi.type = .singlefile → blockSize ∣ pd.off ∧ pd.off < pieceLen s.tp.mi pd.idx ∧
          pd.len = min blockSize (pieceLen s.tp.mi pd.idx - pd.off) := by
        intro hsingle
        obtain ⟨-,hof⟩ := hsound.blocks hsingle d pd hpd
        have hlen : (s.tp.piece pd.idx).len = pieceLen s.tp.mi pd.idx := hs.sound.measured hsingle pd.idx
        rw [← hlen]
        exact hof
      dsimp only at h
      rw [hget] at h
      have hask := hframe.trans (request (W := W) (p := p) env hidx hck hopen hblock)
      refine hask.trans (ih (hs.ticks hask hs.indexed ?_) hp (hask.unchoked p hopen) h)
      rw [core_setPeer_queue (g := (add32 · 1)) _ _ rfl,networkPeerRequestBlock,core_networkPeerWrite]
      exact hsound

/-- A block of a verified piece is sent, or there is nothing to send. -/
theorem schedulerDequeueUploads (hs : Poised s) (h : schedulerDequeueUploads env s p = .ok s') :
    Ticks W s s' ∧ Poised s' := by
  have hroutines : Routines (fun bs => bs) s.core s'.core := schedulerDequeueUploads_routines h
  simp only [Unworkable.schedulerDequeueUploads,networkPieceUlDequeue] at h
  cases huls : (s.peer p).uls.head? with
  | none =>
    simp only [huls] at h
    cases h
    exact ⟨.refl _,hs⟩
  | some pu =>
    simp only [huls] at h
    have hpu : pu.idx ∈ s.tp.verified := hs.queued p pu (List.mem_of_head? huls)
    have htail : Ticks W s (s.setPeer p (fun q => { q with uls := q.uls.tail })) :=
      setPeer s p _ (fun _ hq => hq) (fun q => List.tail_subset q.uls)
    unfold networkPeerWritePiece at h
    obtain ⟨tpp,-,h⟩ := bind_ok.mp h
    obtain ⟨tp,htp,h⟩ := bind_ok.mp h
    obtain ⟨d,-,h⟩ := bind_ok.mp h
    have hk : Kept s.tp tp := Kept.ensureMapped htp
    have hix : Indexed tp := hs.indexed.ensureMapped htp
    have hmap : Ticks W s { s.setPeer p (fun q => { q with uls := q.uls.tail }) with tp := tp } :=
      htail.trans ⟨.of_kept hk rfl rfl,fun _ hq => hq,fun _ => List.Subset.refl _⟩
    cases d with
    | none =>
      cases h
      exact ⟨hmap,hs.ticks hmap hix (hs.sound.moves hroutines.moves)⟩
    | some d =>
      dsimp only at h
      split at h
      · cases h
      · cases h
        have hsent : pu.idx ∈ tp.verified := by rwa [hk.verified]
        have hall := hmap.trans (piece (W := W) (p := p) env pu.off (13 + pu.len) (padded env.stale d.1 pu.len) hsent)
        exact ⟨hall,hs.ticks hall hix (hs.sound.moves hroutines.moves)⟩

theorem schedulerPeer (hs : Poised s) (hp : p < s.nextPeer) (h : schedulerPeer env s p = .ok s') :
    Ticks W s s' ∧ Poised s' := by
  have hroutines : Routines (fun bs => bs) s.core s'.core := schedulerPeer_routines hp h
  have hix : Indexed s'.tp := hs.indexed.remapped (schedulerPeer_part hp h).torrent
  have hpart : Ticks W s s' := by
    rcases schedulerPeer_turn h with ⟨-,rfl⟩ | ⟨-,-,rfl⟩ | ⟨-,-,t,ht,h⟩
    · exact dropPeer s p
    · exact killPeer s p
    · obtain ⟨hup,hpoised⟩ := schedulerDequeueUploads (W := W) hs ht
      refine hup.trans ?_
      have hp' : p < t.nextPeer := by
        have hcore : Routines (fun bs => bs) s.core t.core := schedulerDequeueUploads_routines ht
        exact hp.trans_le hcore.nextPeer_le
      simp only [schedulerFillRequests] at h
      split at h
      · rename_i hwant
        exact fillLoop hpoised hp' (by simpa using (Bool.and_eq_true_iff.mp hwant).1) h
      · cases h
        exact .refl _
  exact ⟨hpart,hs.ticks hpart hix (hs.sound.moves hroutines.moves)⟩

theorem schedulerChokeAlgorithm (h : schedulerChokeAlgorithm env s = .ok s') : Ticks W s s' := by
  unfold Unworkable.schedulerChokeAlgorithm at h
  split at h
  · cases h
    exact .refl _
  · obtain ⟨pc,-,h⟩ := bind_ok.mp h
    obtain ⟨p2,-,h⟩ := bind_ok.mp h
    cases h
    have hfastest : Ticks W s (((pc.take (min 3 s.numPeers)).map PeerCounter.peer).foldl (fun s p =>
        if !(s.peer p).state.amchoking then s
        else if !(s.peer p).state.interested then s
        else networkPeerWriteUnchoke env s p) s) := by
      refine foldl _ fun t q _ => ?_
      split_ifs
      · exact .refl t
      · exact .refl t
      · exact unchoke env t q
    have hothers : ∀ (u : Session) (l : List PeerId) (top : List PeerId), Ticks W u (l.foldl (fun s p =>
        if p ∈ top ∨ (top ≠ [] ∧ p2 = some p) then s
        else if !(s.peer p).state.amchoking then networkPeerWriteChoke env s p
        else s) u) := by
      intro u l top
      refine foldl _ fun t q _ => ?_
      split_ifs
      · exact .refl t
      · exact choke env t q
      · exact .refl t
    cases p2 with
    | none => exact hfastest.trans (hothers _ _ _)
    | some q => exact (hfastest.trans (unchoke env _ q)).trans (hothers _ _ _)

/-- The endgame asks for blocks of pieces that are not verified. -/
theorem endgameBlock (hs : Measured s.tp) (hi : i < s.tp.numPieces) (hck : (s.tp.piece i).cksumok = false)
    (hopen : (s.peer p).state.choked = false) (hoff : off ∈ blockOffs (s.tp.piece i).len) :
    Ticks W s (endgameBlock env p i (s.tp.piece i).len s off) := by
  unfold Unworkable.endgameBlock
  split
  · exact .refl s
  · have hstore : Ticks W s { s with store :=
        (networkPieceDlCreate s.store p i off (blockLen (s.tp.piece i).len off)).1 } :=
      of_eq rfl rfl rfl rfl
    have hblock : s.tp.mi.type = .singlefile → blockSize ∣ off ∧ off < pieceLen s.tp.mi i ∧
        blockLen (s.tp.piece i).len off = min blockSize (pieceLen s.tp.mi i - off) := by
      intro hsingle
      have hlen : (s.tp.piece i).len = pieceLen s.tp.mi i := hs hsingle i
      rw [hlen] at hoff ⊢
      obtain ⟨hdvd,hlt⟩ := mem_blockOffs.mp hoff
      exact ⟨hdvd,hlt,blockLen_eq (pieceLen_lt _ _) hlt⟩
    exact hstore.trans (request (s := { s with store := _ }) env hi hck hopen hblock)

theorem endgamePiece (hs : Measured s.tp) (h : endgamePiece env s i = .ok s') : Ticks W s s' ∧ s'.tp = s.tp := by
  unfold Unworkable.endgamePiece at h
  obtain ⟨tpp,htpp,h⟩ := bind_ok.mp h
  obtain ⟨hi,rfl⟩ := torrentPieceFind_ok.mp htpp
  split at h
  · cases h
    exact ⟨.refl _,rfl⟩
  · rename_i hck
    have hck : (s.tp.piece i).cksumok = false := Bool.eq_false_iff.mpr hck
    have hloop := foldlM_rel (R := fun t t' : Session => t.tp = s.tp → Ticks W t t' ∧ t'.tp = s.tp)
      (fun t ht => ⟨.refl t,ht⟩) (fun hab hbc ha => ⟨(hab ha).1.trans (hbc (hab ha).2).1,(hbc (hab ha).2).2⟩) _
      (fun t t' q _ hstep htp => ?_) h
    · exact hloop rfl
    · unfold endgamePeer at hstep
      split at hstep
      · cases hstep
        exact ⟨.refl _,htp⟩
      · obtain ⟨has,-,hstep⟩ := bind_ok.mp hstep
        split_ifs at hstep with hhas hchoked hwraps
        · cases hstep
          exact ⟨.refl _,htp⟩
        · cases hstep
          exact ⟨.refl _,htp⟩
        · cases hstep
          have hblocks := foldl_rel (R := fun u u' : Session => u.tp = s.tp ∧ (u.peer q).state.choked = false →
            Ticks W u u' ∧ u'.tp = s.tp) (fun u hu => ⟨.refl u,hu.1⟩)
            (fun hab hbc ha => ⟨(hab ha).1.trans (hbc ⟨(hab ha).2,(hab ha).1.unchoked q ha.2⟩).1,
              (hbc ⟨(hab ha).2,(hab ha).1.unchoked q ha.2⟩).2⟩)
            (blockOffs (s.tp.piece i).len) (f := Unworkable.endgameBlock env q i (s.tp.piece i).len)
              (fun u off hoff hu => ?_) t
          · exact hblocks ⟨htp,Bool.eq_false_iff.mpr hchoked⟩
          · obtain ⟨hutp,hopen⟩ := hu
            refine ⟨?_,(endgameBlock_frame env q u i _ off).1.trans hutp⟩
            have hturn : Ticks W u (Unworkable.endgameBlock env q i (u.tp.piece i).len u off) :=
              endgameBlock (by rwa [hutp]) (by rwa [hutp]) (by rwa [hutp]) hopen (by rwa [hutp])
            rwa [hutp] at hturn

theorem schedulerEndgameAlgorithm (hs : Measured s.tp) (h : schedulerEndgameAlgorithm env s = .ok s') :
    Ticks W s s' := by
  have hloop := foldlM_rel (R := fun t t' : Session => t.tp = s.tp → Ticks W t t' ∧ t'.tp = s.tp)
    (fun t ht => ⟨.refl t,ht⟩) (fun hab hbc ha => ⟨(hab ha).1.trans (hbc (hab ha).2).1,(hbc (hab ha).2).2⟩) _
    (fun t t' i _ hstep htp => ?_) h
  · exact (hloop rfl).1
  · obtain ⟨hticks,htp'⟩ := endgamePiece (W := W) (by rwa [htp]) hstep
    exact ⟨hticks,htp'.trans htp⟩

theorem scheduler (hs : Poised s) (hpeers : ∀ p ∈ s.peers, p < s.nextPeer) (h : scheduler env s = .ok s') :
    Ticks W s s' := by
  obtain ⟨s₁,s₂,s₃,h₁,h₂,h₃,h₄⟩ := scheduler_cases h
  have hloop := foldlM_rel (R := fun t t' : Session => Poised t ∧ s.nextPeer ≤ t.nextPeer →
      Ticks W t t' ∧ Poised t' ∧ s.nextPeer ≤ t'.nextPeer) (fun t ht => ⟨.refl t,ht⟩)
    (fun hab hbc ha => ⟨(hab ha).1.trans (hbc (hab ha).2).1,(hbc (hab ha).2).2⟩) _ (fun t t' q hq hstep ht => ?_) h₁
  · obtain ⟨hpart,hpoised,-⟩ := hloop ⟨hs,le_refl _⟩
    have htp : s₂.tp = s₁.tp := congrArg Core.tp (core_schedulerChokeAlgorithm h₂)
    have hend : Ticks W s₂ s₃ := by
      rcases h₃ with rfl | h₃
      · exact .refl _
      · refine schedulerEndgameAlgorithm ?_ h₃
        rw [htp]
        exact hpoised.sound.measured
    have hann : Ticks W s₃ s' := by
      rcases h₄ with rfl | h₄
      · exact .refl _
      · unfold announce at h₄
        cases ha : env.announce <;> simp only [ha] at h₄ <;> cases h₄ <;> exact of_eq rfl rfl rfl rfl
    exact ((hpart.trans (schedulerChokeAlgorithm h₂)).trans hend).trans hann
  · obtain ⟨hpoised,hle⟩ := ht
    have hlt : q < t.nextPeer := (hpeers q hq).trans_le hle
    obtain ⟨hpart,hpoised'⟩ := schedulerPeer (W := W) hpoised hlt hstep
    have hroutines : Routines (fun bs => bs) t.core t'.core := schedulerPeer_routines hlt hstep
    exact ⟨hpart,hpoised',hle.trans hroutines.nextPeer_le⟩

end Ticks

section Steps
variable {sha1 : Bytes → Bytes} {b : Boot} {env : Env} {s s' : Session} {e : Event} {W : Finset ℕ} {U : PeerId → Prop}

theorem Speaks.connectNew (env : Env) (s : Session) (p : PeerId) : Speaks W U s (connectNew env s p) := by
  have hstate : Speaks W U s (s.setState p (fun b => { b with handshake1 := true })) := .setState s p _
  have hdrop (u : Session) : Speaks W U u (dropPeer u p) := .of_eq rfl rfl rfl
  unfold Unworkable.connectNew
  split_ifs
  · exact .refl s
  · exact hstate.trans (hdrop _)
  · exact hstate.trans ((Speaks.setPeer _ p _).trans (.handshake env _ p))

theorem Speaks.networkPeerlistUpdate {addrs : List ℕ} (h : networkPeerlistUpdate env s addrs = .ok s') :
    Speaks W U s s' := by
  have hadd : Speaks W U s (addrs.foldl networkPeerlistAddPeer s) := by
    refine .foldl _ fun t addr _ => ?_
    unfold networkPeerlistAddPeer
    split_ifs
    · exact .refl t
    · exact .of_eq rfl rfl rfl
  rw [networkPeerlistUpdate_ok h]
  exact hadd.trans (.foldl _ fun t p _ => .connectNew env t p)

theorem Reachable.poised (h : Reachable sha1 b s) : Poised s := by
  obtain ⟨es,hes⟩ := id h
  obtain ⟨s₀,hs₀,hrun⟩ := bind_ok.mp hes
  have hserving : Serving s := foldlM_rel (R := fun t t' : Session => Serving t → Serving t') (fun _ ht => ht)
    (fun hab hbc ha => hbc (hab ha)) es (fun t t' e _ hstep ht => ht.step hstep) hrun (Boot.session_serving hs₀)
  exact ⟨h.indexed,h.sound.1,fun q pu hpu => Torrent.mem_verified.mpr (hserving.queued q pu hpu)⟩

/-- Whatever the event, what is written is true when it is over. -/
theorem step_spoken (h : Reachable sha1 b s) (hs : step sha1 s (env,e) = .ok s') :
    Spoken (fun q => (s'.peer q).state.choked = false) s s' := by
  cases e with
  | response p avail =>
    simp only [step] at hs
    split at hs
    · exact .peerResponse h.tallied hs
    · cases hs
      exact .plain (.refl _)
  | error p =>
    cases hs
    split
    · exact .plain (.setState s p _)
    · exact .plain (.refl _)
  | keepalive p =>
    cases hs
    split
    · exact .plain (.write env .keepalive)
    · exact .plain (.refl _)
  | accept addr =>
    cases hs
    have hjoin : ∀ q, Speaks s.tp.verified (fun q => ((networkHandlePeerConnect env s addr).peer q).state.choked =
      false)
        s (s.join q) := fun q => .of_eq rfl rfl rfl
    exact .plain ((hjoin _).trans (.handshake env _ _))
  | tracker addrs =>
    simp only [step] at hs
    obtain ⟨t,ht,hs⟩ := bind_ok.mp hs
    cases hs
    cases addrs with
    | none =>
      cases ht
      exact .plain (.of_eq rfl rfl rfl)
    | some addrs => exact .plain ((Speaks.networkPeerlistUpdate ht).trans (.of_eq rfl rfl rfl))
  | announceTimer =>
    simp only [step] at hs
    split at hs
    · cases hs
      exact .plain (.refl _)
    · exact .plain (.announce hs)
  | scheduler => exact .plain (Ticks.scheduler h.poised h.census.1.lt hs).speaks

/-- What is written between `s` and `s'` is true of the pieces verified at the end and of the peers that do not choke
the session then, and every peer is told of a piece that is verified meanwhile. -/
def Truthful (s s' : Session) : Prop := ∃ more, s'.out = s.out ++ more ∧
  (∀ m ∈ more, Utterance s'.tp.mi s'.peerid s.tp.verified s'.tp.verified (fun q => (s'.peer q).state.choked = false)
    m.1 m.2) ∧
  ∀ idx ∈ s'.tp.verified, idx ∉ s.tp.verified → ∀ q ∈ s.peers, (q,(WireMsg.haves idx).bytes) ∈ more

/-- Every message of every run is true when it is written: whatever is announced is verified and whatever is verified is
announced, pieces that are asked for or refused are not verified, and those of which blocks are sent are. -/
theorem writes_truthful (sha1 : Bytes → Bytes) (b : Boot) (s₀ : Session) (es : List (Env × Event))
    (h : b.session sha1 = .ok s₀) : RunShows sha1 (fun s _ s' => Truthful s s') s₀ es := by
  have hruns : ∀ {s : Session}, Reachable sha1 b s → RunShows sha1 (fun s _ s' => Truthful s s') s es := by
    induction es with
    | nil => exact fun _ => trivial
    | cons e es ih => exact fun hs s' hstep => ⟨(step_spoken hs hstep).out,ih (hs.step hstep)⟩
  exact hruns ⟨[],bind_ok.mpr ⟨s₀,h,rfl⟩⟩

/-- A peer is asked for the only piece and delivers it. -/
theorem writes_truthful_one : ∃ s₀ s, (Boot.oneByte zeroByteDigest 1).session sha1ZeroByte = .ok s₀ ∧
    run sha1ZeroByte s₀ oneBlockRun = .ok s ∧ (0,(WireMsg.request 0 0 1).bytes) ∈ s.out ∧
      (1,(WireMsg.haves 0).bytes) ∈ s.out ∧
    RunShows sha1ZeroByte (fun s _ s' => Truthful s s') s₀ oneBlockRun := by
  have hrun : ((Boot.oneByte zeroByteDigest 1).run sha1ZeroByte oneBlockRun).toOption.map (fun s =>
      decide ((0,(WireMsg.request 0 0 1).bytes) ∈ s.out ∧ (1,(WireMsg.haves 0).bytes) ∈ s.out)) = some true :=
        by decide +kernel
  obtain ⟨s,hs,hP⟩ := exists_ok hrun
  obtain ⟨s₀,hs₀,hs⟩ := bind_ok.mp hs
  obtain ⟨hrequest,hhave⟩ := of_decide_eq_true hP
  exact ⟨s₀,s,hs₀,hs,hrequest,hhave,writes_truthful sha1ZeroByte _ s₀ oneBlockRun hs₀⟩

end Steps

end Unworkable
