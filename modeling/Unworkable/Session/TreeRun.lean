import Unworkable.Session.Completion
import Unworkable.Session.Near

/-! # Runs on the tree

A process whose requests are indexed by the tree of the source goes through the states of the process on the finite map,
in step with it, as long as the blocks of its torrent have keys that are near each other. Whatever holds of the runs on
the finite map then holds of the runs on the tree.
-/
namespace Unworkable
open Library

theorem msgByte_lt (env : Env) (msg : Bytes) (i : ℕ) : (msgByte env msg i).toNat < 256 := (msgByte env msg i).toNat_lt

/-- A field of a message is a word. -/
theorem msgField_lt (env : Env) (msg : Bytes) (i : ℕ) : msgField env msg i < 4294967296 := by
  have h₀ := msgByte_lt env msg i
  have h₁ := msgByte_lt env msg (i + 1)
  have h₂ := msgByte_lt env msg (i + 2)
  have h₃ := msgByte_lt env msg (i + 3)
  unfold msgField readBe32
  omega

section Store
variable {st : DlStore NodeTree} {idx : ℕ}

theorem DlStore.Good.everyBlock (h : st.Good nearKeys) (p : PeerId) (hidx : idx < 4294967296) {plen : ℕ}
    (hlen : plen ≤ 2147483648) :
    Unworkable.everyBlock st p idx plen = Unworkable.everyBlock st.flat p idx plen := by
  unfold Unworkable.everyBlock
  rw [all_congr_mem]
  intro off hoff
  have hlt := (mem_blockOffs.mp hoff).2
  rw [h.find (some p) hidx (by omega)]
  rfl

theorem DlStore.Good.cleanupTurn (h : st.Good nearKeys) (hidx : idx < 4294967296) {off : ℕ} (hoff : off < 4294967296) :
    (Unworkable.cleanupTurn idx st off).flat = Unworkable.cleanupTurn idx st.flat off ∧
      (Unworkable.cleanupTurn idx st off).Good nearKeys := by
  unfold Unworkable.cleanupTurn
  rw [h.find none hidx hoff]
  cases networkPieceDlFind st.flat none idx off with
  | none => exact ⟨rfl,h⟩
  | some d => exact h.free orders_near d

theorem DlStore.Good.cleanupDls (h : st.Good nearKeys) (hidx : idx < 4294967296) {plen : ℕ} (hlen : plen ≤ 2147483648) :
    Lockstep (fun x y => x.flat = y ∧ x.Good nearKeys) (Unworkable.cleanupDls st idx plen)
    (Unworkable.cleanupDls st.flat idx plen) := by
  unfold Unworkable.cleanupDls
  refine Lockstep.ite (.error _) (.ok ?_)
  refine List.foldl_rel (r := fun (a : DlStore NodeTree) b => a.flat = b ∧ a.Good nearKeys) ⟨rfl,h⟩ ?_
  rintro off hoff a b ⟨rfl,ha⟩
  have hlt := (mem_blockOffs.mp hoff).2
  exact ha.cleanupTurn hidx (by omega)

end Store

section Messages
variable {sha1 : Bytes → Bytes} {env : Env} {t : Session NodeTree} {s : Session} {p : PeerId}
  {msg : Bytes} {idx off : ℕ}

namespace Agree

theorem setState (h : Agree t s) (f : PeerState → PeerState) : Agree (t.setState p f) (s.setState p f) := h.setPeer _

theorem msgChoke (h : Agree t s) : Agree (Unworkable.msgChoke t p) (Unworkable.msgChoke s p) := by
  have hset := h.setState (p := p) fun b => { b with choked := true }
  unfold Unworkable.msgChoke
  dsimp only
  rw [hset.peer,hset.lists]
  split_ifs
  · exact hset
  · refine List.foldl_rel hset ?_
    rintro d - a b ⟨rfl,hgood,hnear⟩
    exact ⟨rfl,hgood.orphan p d,hnear⟩

theorem expressInterest (h : Agree t s) :
    Lockstep Agree (Unworkable.expressInterest env t p) (Unworkable.expressInterest env s p) := by
  unfold Unworkable.expressInterest
  refine (h.schedulerPieceGimme true).bind ?_
  rintro ⟨u,found,hint⟩ ⟨v,_⟩ ⟨huv,rfl⟩
  dsimp only at huv ⊢
  rw [huv.peer]
  exact Lockstep.ite (.ok ((huv.setPeer _).networkPeerWrite _)) (.ok huv)

theorem msgHave (h : Agree t s) : Lockstep Agree (Unworkable.msgHave env t p msg) (Unworkable.msgHave env s p msg) := by
  have hset {u : Session NodeTree} {v : Session} (huv : Agree u v) (idx : ℕ) : Lockstep Agree (do
      let bf ← utilSetbit ((u.peer p).bitfield.getD []) idx
      Unworkable.expressInterest env (u.setPeer p (fun q => { q with bitfield := some bf })) p) (do
      let bf ← utilSetbit ((v.peer p).bitfield.getD []) idx
      Unworkable.expressInterest env (v.setPeer p (fun q => { q with bitfield := some bf })) p) := by
    rw [huv.peer]
    refine (Lockstep.same _).bind ?_
    rintro bf _ rfl
    exact (huv.setPeer _).expressInterest
  unfold Unworkable.msgHave indexRefused
  rw [h.tp,h.peer]
  refine Lockstep.ite (.ok h) ?_
  cases (s.peer p).bitfield with
  | none => exact hset (h.setPeer _) _
  | some bf => exact hset h _

theorem msgBitfield (h : Agree t s) : Lockstep Agree (Unworkable.msgBitfield env t p msg)
    (Unworkable.msgBitfield env s p msg) := by
  unfold Unworkable.msgBitfield
  rw [h.peer,h.tp]
  exact Lockstep.ite (.ok h) (Lockstep.ite (.ok (h.setState _)) (h.setPeer _).expressInterest)

theorem msgHaveFill (h : Agree t s) (fill : UInt8) :
    Lockstep Agree (Unworkable.msgHaveFill env t p fill) (Unworkable.msgHaveFill env s p fill) := by
  unfold Unworkable.msgHaveFill
  rw [h.peer,h.tp]
  exact Lockstep.ite (.ok h) (h.setPeer _).expressInterest

theorem msgRequest (h : Agree t s) : Lockstep Agree (Unworkable.msgRequest env t p msg)
    (Unworkable.msgRequest env s p msg) := by
  unfold Unworkable.msgRequest indexRefused
  rw [h.tp,h.peer]
  refine Lockstep.ite (.ok h) ?_
  refine (Lockstep.same _).bind ?_
  rintro tpp _ rfl
  refine Lockstep.ite (.ok h) ?_
  exact Lockstep.ite (Lockstep.ite (.ok (h.networkPeerWrite _)) (.ok h)) (.ok (h.setPeer _))

theorem msgCancel (h : Agree t s) : Agree (Unworkable.msgCancel env t p msg) (Unworkable.msgCancel env s p msg) := by
  unfold Unworkable.msgCancel indexRefused
  rw [h.tp]
  dsimp only
  split_ifs
  · exact h
  · exact h.setPeer _

theorem msgReject (h : Agree t s) : Agree (Unworkable.msgReject env t p msg) (Unworkable.msgReject env s p msg) := by
  have hfind : networkPieceDlFind t.store (some p) (msgField env msg 1) (msgField env msg 5) =
      networkPieceDlFind s.store (some p) (msgField env msg 1) (msgField env msg 5) := by
    rw [← h.flat]
    exact h.good.find (some p) (msgField_lt env msg 1) (msgField_lt env msg 5)
  unfold Unworkable.msgReject indexRefused
  rw [h.peer,h.tp]
  dsimp only
  rw [hfind]
  split_ifs
  · exact h.setState _
  · exact h
  · cases networkPieceDlFind s.store (some p) (msgField env msg 1) (msgField env msg 5) with
    | none => exact h
    | some d =>
      obtain ⟨hflat,hgood⟩ := h.good.free orders_near d
      have hfreed := (h.setPeer (p := p) fun q => { q with dlQueueLen := sub32 q.dlQueueLen 1 }).withStore hgood
      rw [hflat,h.store] at hfreed
      exact hfreed

theorem find (h : Agree t s) (p : Option PeerId) (hidx : idx < 4294967296) (hoff : off < 4294967296) :
    networkPieceDlFind t.store p idx off = networkPieceDlFind s.store p idx off := by
  rw [← h.flat]
  exact h.good.find p hidx hoff

theorem networkPeerReadPiece (h : Agree t s) (hidx : idx < 4294967296) (hoff : off < 4294967296) (data : Bytes) :
    Lockstep (fun a b => Agree a b ∧ idx < b.tp.numPieces) (Unworkable.networkPeerReadPiece t p idx off data)
      (Unworkable.networkPeerReadPiece s p idx off data) := by
  unfold Unworkable.networkPeerReadPiece
  rw [h.find_piece,h.find (some p) hidx hoff]
  cases hfind : torrentPieceFind s.tp idx with
  | error e => exact .error e
  | ok tpp =>
    obtain ⟨hlt,-⟩ := torrentPieceFind_ok.mp hfind
    cases networkPieceDlFind s.store (some p) idx off with
    | none => exact .ok ⟨h,hlt⟩
    | some d =>
      have hset : (t.store.set d fun pd => { pd with bytes := add32 pd.bytes data.length }).Good nearKeys :=
        ⟨h.good.sorted,h.good.keyed.set fun pd hpd => h.good.keyed d pd hpd⟩
      have hwritten := (near_steady fun _ => []).write idx off data.length data h.near
      obtain ⟨rfl,-,-⟩ := h
      refine .ok ⟨(Agree.mk rfl hset (hwritten.counters rfl rfl)).setPeer _,?_⟩
      exact hlt.trans_eq (congrArg Metainfo.numPieces (torrentBlockWrite_mi t.tp idx off data.length data)).symm

theorem announceCompleted (h : Agree t s) :
    Lockstep Agree (Unworkable.announceCompleted env t) (Unworkable.announceCompleted env s) := by
  have hfields : t.seed = s.seed ∧ t.announceUnderway = s.announceUnderway := by
    rw [← h.flat]
    exact ⟨rfl,rfl⟩
  unfold Unworkable.announceCompleted
  rw [h.tp,hfields.1,hfields.2]
  exact Lockstep.ite (Lockstep.ite (.error _) (h.announce.ite (.ok h))) (.ok h)

theorem pieceVerified (h : Agree t s) (idx : ℕ) :
    Lockstep Agree (Unworkable.pieceVerified env t idx) (Unworkable.pieceVerified env s idx) := by
  unfold Unworkable.pieceVerified
  rw [h.tp]
  cases hdump : torrentFastresumeDump s.tp with
  | error e => exact .error e
  | ok tp =>
    obtain ⟨bitfield,-,hdump⟩ := bind_ok.mp hdump
    have hnear : tp.Near := by
      cases hdump
      exact (h.tp ▸ h.near).counters rfl rfl
    have hcounted : { tp with goodPieces := add32 tp.goodPieces 1, left := tp.left - (tp.piece idx).len }.Near :=
      hnear.counters rfl rfl
    rw [ok_bind,ok_bind]
    refine (h.withTorrent hcounted).announceCompleted.bind fun a b hab => ?_
    rw [hab.peers]
    refine .ok (hab.foldl ?_ _)
    intro u v q huv
    exact huv.networkPeerWrite _

theorem checkPiece (h : Agree t s) (hidx : idx < s.tp.numPieces) :
    Lockstep Agree (Unworkable.checkPiece sha1 env t idx) (Unworkable.checkPiece sha1 env s idx) := by
  have hshort := h.near.short idx (h.tp ▸ hidx)
  have hword : idx < 4294967296 := hidx.trans s.tp.numPieces_lt
  unfold Unworkable.checkPiece
  rw [h.tp] at hshort ⊢
  cases hcheck : torrentPieceCheckhash sha1 env.stale s.tp idx with
  | error e => exact .error e
  | ok r =>
    obtain ⟨tp,good⟩ := r
    have hchecked : tp.Near := (near_steady sha1).move (h.tp ▸ h.near) (.verify hidx hcheck)
    have hunmapped := h.withTorrent ((near_steady sha1).move hchecked (.unmap idx))
    refine Lockstep.bind (R := Agree) ((hunmapped.pieceVerified idx).ite (.ok hunmapped)) fun a b hab => ?_
    rw [← hab.store]
    refine (hab.good.cleanupDls hword hshort).bind ?_
    rintro st _ ⟨rfl,hgood⟩
    exact .ok (hab.withStore hgood)

theorem recordBlock (h : Agree t s) (hidx : idx < 4294967296) (hoff : off < 4294967296) (data : Bytes) :
    Lockstep (fun a b => Agree a b ∧ idx < b.tp.numPieces) (Unworkable.recordBlock t p idx off data)
      (Unworkable.recordBlock s p idx off data) := by
  have hqueue := h.setPeer (p := p) fun q => { q with dlQueueLen := sub32 q.dlQueueLen 1 }
  unfold Unworkable.recordBlock
  refine (hqueue.ensureMapped idx).bind ?_
  rintro tp _ ⟨rfl,hnear⟩
  exact (hqueue.withTorrent hnear).networkPeerReadPiece hidx hoff data

theorem everyBlock (h : Agree t s) (hidx : idx < s.tp.numPieces) :
    Unworkable.everyBlock t.store p idx (t.tp.piece idx).len = Unworkable.everyBlock s.store p idx
    (s.tp.piece idx).len := by
  have hword := s.tp.numPieces_lt
  rw [← h.store,h.good.everyBlock p (hidx.trans hword) (h.near.short idx (h.tp ▸ hidx)),h.tp]

theorem receiveBlock (h : Agree t s) (hidx : idx < 4294967296) (hoff : off < 4294967296) (data : Bytes) :
    Lockstep Agree (Unworkable.receiveBlock sha1 env t p idx off data)
    (Unworkable.receiveBlock sha1 env s p idx off data) := by
  rw [receiveBlock_eq,receiveBlock_eq]
  refine (h.recordBlock hidx hoff data).bind ?_
  rintro a b ⟨hab,hlt⟩
  rw [hab.everyBlock hlt]
  refine (Lockstep.same _).bind ?_
  rintro found _ rfl
  exact (hab.checkPiece hlt).ite (.ok hab)

theorem takeBlock (h : Agree t s) (hidx : idx < 4294967296) (hoff : off < 4294967296) (msg : Bytes) (d : DlId) :
    Lockstep Agree (Unworkable.takeBlock sha1 env t p idx off msg d)
    (Unworkable.takeBlock sha1 env s p idx off msg d) := by
  unfold Unworkable.takeBlock
  rw [h.get,h.tp]
  refine Lockstep.ite (.ok h) ?_
  refine Lockstep.bind (R := Agree) (Lockstep.ite (.ok h) (h.receiveBlock hidx hoff _)) fun a b hab => ?_
  exact .ok (hab.setPeer _)

theorem msgPiece (h : Agree t s) : Lockstep Agree (Unworkable.msgPiece sha1 env t p msg)
    (Unworkable.msgPiece sha1 env s p msg) := by
  have hidx := msgField_lt env msg 1
  have hoff := msgField_lt env msg 5
  unfold Unworkable.msgPiece pieceAt indexRefused
  rw [h.tp,h.find (some p) hidx hoff]
  refine Lockstep.ite (.ok h) ?_
  refine (Lockstep.same _).bind ?_
  rintro tpp _ rfl
  refine Lockstep.ite (.ok h) ?_
  cases networkPieceDlFind s.store (some p) (msgField env msg 1) (msgField env msg 5) with
  | none => exact .ok (h.setState _)
  | some d => exact h.takeBlock hidx hoff msg d

/-- A message, of whatever kind. -/
theorem networkPeerProcessMessage (h : Agree t s) (id : UInt8) :
    Lockstep Agree (Unworkable.networkPeerProcessMessage sha1 env t p id msg)
    (Unworkable.networkPeerProcessMessage sha1 env s p id msg) := by
  unfold Unworkable.networkPeerProcessMessage
  refine Lockstep.ite (.ok h.msgChoke) ?_
  refine Lockstep.ite (.ok (h.setState _)) ?_
  refine Lockstep.ite (.ok (h.setState _)) ?_
  refine Lockstep.ite (.ok (h.setState _)) ?_
  refine Lockstep.ite h.msgHave ?_
  refine Lockstep.ite h.msgBitfield ?_
  refine Lockstep.ite h.msgRequest ?_
  refine Lockstep.ite h.msgPiece ?_
  refine Lockstep.ite (.ok h.msgCancel) ?_
  refine Lockstep.ite (.ok h.msgReject) ?_
  refine Lockstep.ite (h.msgHaveFill 0) ?_
  exact Lockstep.ite (h.msgHaveFill 0xFF) (.ok h)

end Agree

end Messages

section Steps
variable {sha1 : Bytes → Bytes} {env : Env} {t : Session NodeTree} {s : Session} {p : PeerId}

namespace Agree

theorem writePieces (h : Agree t s) : Lockstep Agree (Unworkable.writePieces env p t)
    (Unworkable.writePieces env p s) := by
  have hbitfield : Lockstep Agree (networkPeerWriteBitfield env t p) (networkPeerWriteBitfield env s p) := by
    unfold networkPeerWriteBitfield
    rw [h.tp]
    refine (Lockstep.same _).bind ?_
    rintro bits _ rfl
    exact .ok (h.networkPeerWrite _)
  unfold Unworkable.writePieces
  rw [h.peer,h.tp]
  refine Lockstep.ite ?_ (Lockstep.ite (.ok h) hbitfield)
  exact Lockstep.ite (.ok (h.networkPeerWrite _)) (Lockstep.ite (.ok (h.networkPeerWrite _)) hbitfield)

theorem finishRead (h : Agree t s) :
    Lockstep Agree (Unworkable.finishRead sha1 env p t).result (Unworkable.finishRead sha1 env p s).result := by
  unfold Unworkable.finishRead
  rw [h.peer,h.tp]
  dsimp only
  split_ifs
  · exact .ok (h.setPeer _)
  · exact .ok (h.setPeer _)
  · exact .ok (h.setPeer _)
  · exact (h.networkPeerProcessMessage _).map fun a b hab => hab.setPeer _

/-- The readers of a peer on both sides. -/
theorem follows : (peerReader sha1 env p).Follows (peerReader sha1 env p) Agree where
  arm t s h := h.setPeer _
  pending t s h := congrArg (fun f => (f p).rxpending) h.peer
  push t s bs h := h.setPeer _
  finish t s h := h.finishRead
  settle t s h := by
    unfold peerReader sendBitfield
    dsimp only
    rw [h.peer]
    refine Lockstep.ite ?_ (.ok h)
    exact h.writePieces.bind fun a b hab => .ok (hab.setState _)

theorem networkPeerlistAddPeer (h : Agree t s) (addr : ℕ) :
    Agree (Unworkable.networkPeerlistAddPeer t addr) (Unworkable.networkPeerlistAddPeer s addr) := by
  unfold Unworkable.networkPeerlistAddPeer
  rw [h.peers,h.peer]
  split
  · exact h
  · obtain ⟨rfl,hgood,hnear⟩ := h
    exact ⟨rfl,hgood,hnear⟩

theorem networkPeerHandshake (h : Agree t s) : Agree (Unworkable.networkPeerHandshake env t p)
    (Unworkable.networkPeerHandshake env s p) := by
  obtain ⟨rfl,hgood,hnear⟩ := h
  exact ⟨rfl,hgood,hnear⟩

theorem connectNew (h : Agree t s) : Agree (Unworkable.connectNew env t p) (Unworkable.connectNew env s p) := by
  have hset := h.setState (p := p) fun b => { b with handshake1 := true }
  unfold Unworkable.connectNew
  rw [h.peer]
  dsimp only
  split_ifs
  · exact h
  · exact hset.dropPeer p
  · exact (hset.setPeer _).networkPeerHandshake

theorem connectPeer (h : Agree t s) : Lockstep Agree (Unworkable.connectPeer env t p)
    (Unworkable.connectPeer env s p) := by
  have hlimit : AtLimit t ↔ AtLimit s := by
    rw [← h.flat]
    rfl
  unfold Unworkable.connectPeer
  by_cases hs : AtLimit s
  · rw [if_pos hs,if_pos (hlimit.mpr hs)]
    exact .error _
  · rw [if_neg hs,if_neg (mt hlimit.mp hs)]
    exact .ok h.connectNew

theorem networkPeerlistUpdate (h : Agree t s) (addrs : List ℕ) :
    Lockstep Agree (Unworkable.networkPeerlistUpdate env t addrs) (Unworkable.networkPeerlistUpdate env s addrs) := by
  have hadded : Agree (addrs.foldl Unworkable.networkPeerlistAddPeer t)
      (addrs.foldl Unworkable.networkPeerlistAddPeer s) :=
    List.foldl_rel h fun addr _ a b hab => hab.networkPeerlistAddPeer addr
  unfold Unworkable.networkPeerlistUpdate
  dsimp only
  rw [hadded.peers]
  exact Lockstep.foldlM (fun a b q hab => hab.connectPeer) _ hadded

/-- Every callback of the event loop. -/
theorem step (h : Agree t s) (e : Env × Event) : Lockstep Agree (Unworkable.step sha1 t e)
    (Unworkable.step sha1 s e) := by
  obtain ⟨env,e⟩ := e
  cases e with
  | response p avail =>
    unfold Unworkable.step
    dsimp only
    rw [h.peers]
    exact Lockstep.ite (follows.invoke h avail) (.ok h)
  | error p =>
    unfold Unworkable.step
    dsimp only
    rw [h.peers]
    split
    · exact .ok (h.setState _)
    · exact .ok h
  | keepalive p =>
    unfold Unworkable.step
    dsimp only
    rw [h.peers,h.peer]
    split
    · exact .ok (h.networkPeerWrite _)
    · exact .ok h
  | accept addr =>
    obtain ⟨rfl,hgood,hnear⟩ := h
    exact .ok ⟨rfl,hgood,hnear⟩
  | tracker addrs =>
    have hdone {a : Session NodeTree} {b : Session} (hab : Agree a b) :
        Agree { a with announceUnderway := false } { b with announceUnderway := false } := by
      obtain ⟨rfl,hgood,hnear⟩ := hab
      exact ⟨rfl,hgood,hnear⟩
    cases addrs with
    | none => exact .ok (hdone h)
    | some addrs => exact (h.networkPeerlistUpdate addrs).bind fun a b hab => .ok (hdone hab)
  | announceTimer =>
    unfold Unworkable.step
    dsimp only
    rw [show t.announceUnderway = s.announceUnderway by rw [← h.flat]; rfl]
    exact Lockstep.ite (.ok h) h.announce
  | scheduler => exact h.scheduler

/-- Whole runs. -/
theorem run (h : Agree t s) (es : List (Env × Event)) : Lockstep Agree (Unworkable.run sha1 t es)
    (Unworkable.run sha1 s es) :=
  Lockstep.foldlM (fun _ _ e hab => hab.step e) es h

/-- A condition that holds on the finite map where it holds on the tree goes with the run. -/
theorem runMeets {C : Session NodeTree → Env × Event → Prop} {D : Session → Env × Event → Prop}
    (hCD : ∀ t s e, Agree t s → C t e → D s e) {es : List (Env × Event)} (h : Agree t s)
    (hmeets : RunMeets sha1 C t es) :
    RunMeets sha1 D s es := by
  induction es generalizing t s with
  | nil => trivial
  | cons e es ih =>
    refine ⟨hCD t s e h hmeets.1,?_⟩
    intro v hv
    obtain ⟨u,hu,huv⟩ := (h.step e).right hv
    exact ih huv (hmeets.2 u hu)

end Agree

end Steps

section Boot
variable {sha1 : Bytes → Bytes} {b : Boot}

theorem Boot.torrent_near {tp : Torrent} (hnear : b.mi.Near) (h : b.torrent sha1 = .ok tp) : tp.Near :=
  (near_steady sha1).boot (.create hnear b.pagesize b.disk) h

theorem Boot.start_agrees (hnear : b.mi.Near) : Lockstep Agree (b.start sha1 NodeTree) (b.session sha1) := by
  unfold Boot.session Boot.start
  cases htp : b.torrent sha1 with
  | error e => exact .error e
  | ok tp =>
    refine Lockstep.ite (.error _) (.ok ⟨rfl,DlStore.good_empty,?_⟩)
    exact (b.torrent_near hnear htp).counters rfl rfl

/-- Processes start alike, and go on alike. -/
theorem Boot.treeRun_agrees (hnear : b.mi.Near) (es : List (Env × Event)) : Lockstep Agree
    (b.treeRun sha1 es) (b.run sha1 es) :=
  (Boot.start_agrees hnear).bind fun _ _ h => h.run es

theorem TreeReachable.agrees {t : Session NodeTree} (hnear : b.mi.Near) (h : TreeReachable sha1 b t) :
    ∃ s, Reachable sha1 b s ∧ Agree t s := by
  obtain ⟨es,hes⟩ := h
  obtain ⟨s,hs,hts⟩ := (Boot.treeRun_agrees hnear es).left hes
  exact ⟨s,⟨es,hs⟩,hts⟩

theorem exists_treeReachable {es : List (Env × Event)} {P : Session NodeTree → Bool}
    (h : (b.treeRun sha1 es).toOption.map P = some true) : ∃ t, TreeReachable sha1 b t ∧ P t = true := by
  obtain ⟨t,ht,hP⟩ := exists_ok h
  exact ⟨t,⟨es,ht⟩,hP⟩

end Boot

/-- As long as the blocks of the torrent have keys that are near each other, every run on the tree of the
source goes as the run on the finite map goes, to the same state or the same error, and its tree is balanced,
finds what the map finds, and is looped over in order. -/
theorem index_is_tree (sha1 : Bytes → Bytes) (b : Boot) (hnear : b.mi.Near) (es : List (Env × Event)) :
    (b.treeRun sha1 es).map Session.flat = b.run sha1 es ∧ ∀ t, b.treeRun sha1 es = .ok t →
      t.store.index.tree.depth ≤ 2 * Nat.log 2 (t.flat.store.index.length + 1) ∧
      (∀ idx < 4294967296, ∀ off < 4294967296, t.store.rbFind idx off = t.flat.store.rbFind idx off) ∧
      ∀ k, t.flat.store.index.length ≤ k → foreach k t.store.index.tree.min = t.flat.store.index := by
  have hrun : Lockstep Agree (b.treeRun sha1 es) (b.run sha1 es) := b.treeRun_agrees hnear es
  refine ⟨hrun.map_eq fun _ _ h => h.flat,?_⟩
  intro t ht
  obtain ⟨s,-,hts⟩ := hrun.left ht
  obtain ⟨m,hm⟩ := t.store.index.balanced
  refine ⟨hm.depth_le_log,?_,fun k hk => foreach_min hk⟩
  exact fun idx hidx off hoff => hts.good.rbFind wordKeys_near orders_near hidx hoff

theorem Boot.near_oneByte {pieces : Bytes} (h : (Metainfo.oneByte pieces 1).numPieces = 1) :
    (Boot.oneByte pieces 1).mi.Near where
  few := h.trans_le (by decide)
  short i hi := by
    rw [show (Boot.oneByte pieces 1).mi = Metainfo.oneByte pieces 1 from rfl,h,Nat.lt_one_iff] at hi
    subst hi
    unfold pieceLen
    rw [show (Boot.oneByte pieces 1).mi = Metainfo.oneByte pieces 1 from rfl,h]
    show (if 0 = sub32 1 1 then wrapInt32 (1 - ((1 : ℕ) : ℤ) * ((0 : ℕ) : ℤ)) else 1) ≤ 2147483648
    decide
  sized htype := by cases htype

/-- A run on the tree that asks a peer for the only block there is. -/
theorem index_is_tree_oneRequest : ∃ t, (Boot.oneByte (List.replicate 20 0) 1).treeRun sha1ZeroByte oneRequestRun =
    .ok t ∧
    t.flat.store.lists 0 = [0] ∧ t.store.rbFind 0 0 = some ⟨0,0,[0]⟩ := by
  have hrun : ((Boot.oneByte (List.replicate 20 0) 1).run sha1ZeroByte oneRequestRun).toOption.map
      (fun s => decide (s.store.lists 0 = [0] ∧ s.store.rbFind 0 0 = some ⟨0,0,[0]⟩)) = some true := by decide +kernel
  obtain ⟨s,hs,hP⟩ := exists_ok hrun
  obtain ⟨hlist,hfind⟩ := of_decide_eq_true hP
  obtain ⟨hmap,hall⟩ := index_is_tree sha1ZeroByte _ (@Boot.near_oneByte (List.replicate 20 0) (by decide))
    oneRequestRun
  rw [hs] at hmap
  obtain ⟨t,ht,rfl⟩ := map_ok.mp hmap
  exact ⟨t,ht,hlist,((hall t ht).2.1 0 (by decide) 0 (by decide)).trans hfind⟩

end Unworkable
