import Unworkable.Session.Verified
import Unworkable.Session.TreeRun
import Unworkable.Torrent.Resume

/-! # A client with one peer

A torrent of many one-byte pieces is started without a file, and one peer connects, shakes hands, has all pieces and
unchokes. What the client then does is computed for any number of pieces, on either kind of index: the requests it makes
in a tick are those that the draws, or the pieces begun, point to.
-/
namespace Unworkable
open Library

/-- A first start of a torrent of `n` pieces of one byte each. -/
def Boot.many (n : ℕ) : Boot := .oneByte (List.replicate (20 * n) 0) n

/-- A torrent of `n` pieces of one byte each, none of them verified. -/
structure Torrent.Blank (n : ℕ) (tp : Torrent) : Prop where
  numPieces : tp.numPieces = n
  goodPieces : tp.goodPieces = 0
  index : ∀ i < n, (tp.piece i).index = i
  len : ∀ i < n, (tp.piece i).len = 1
  unverified : ∀ i < n, (tp.piece i).cksumok = false
  infoHash : tp.mi.infoHash = List.replicate 20 0

section Start
variable {sha1 : Bytes → Bytes} {n : ℕ}

theorem many_numPieces (hn : n < 4294967296) : (Boot.many n).mi.numPieces = n :=
  numPieces_oneByte List.length_replicate hn

theorem many_pieceLen (hn : n < 4294967296) {i : ℕ} (hi : i < n) : pieceLen (Boot.many n).mi i = 1 :=
  pieceLen_oneByte List.length_replicate hn hi

/-- Nothing is on disk, so that the start-up check recognises nothing. -/
theorem many_startup (sha1 : Bytes → Bytes) (hn : n < 4294967296) :
    ∃ tp, (Boot.many n).torrent sha1 = .ok tp ∧ (networkStartTorrent tp).Blank n := by
  have hnum := many_numPieces hn
  have hmap : ∀ i < (Boot.many n).mi.numPieces, (Boot.many n).mi.Mappable (Boot.many n).pagesize i := by
    intro i hi _
    rw [many_pieceLen hn (hi.trans_eq hnum)]
    exact fun hzero => absurd hzero.1 Nat.one_ne_zero
  obtain ⟨tp,htp,hck⟩ := startup_recognised sha1 (Boot.many n).pagesize (Boot.many n).mi (Boot.many n).disk
    (Boot.many n).stale hmap nofun
  have hboot : (Boot.many n).torrent sha1 = .ok tp := htp
  obtain ⟨hmi,hlen⟩ := Boot.torrent_frame hboot
  have hindexed : Indexed tp := (indexed_steady sha1).boot (indexed_create _ _) hboot
  have hunverified : ∀ i < n, (tp.piece i).cksumok = false := by
    intro i hi
    rw [Bool.eq_false_iff,ne_eq,hck i (hi.trans_eq hnum.symm)]
    rintro ⟨hpresent,-,-⟩
    -- the first byte of the piece would have to be in the file
    have hplace : (Boot.many n).mi.locate ((Boot.many n).mi.pieceLength * i + 0) ∈ (Boot.many n).mi.places i := by
      refine List.mem_map_of_mem (List.mem_range.mpr ?_)
      rw [many_pieceLen hn hi]
      exact Nat.one_pos
    exact absurd (hpresent i le_rfl _ hplace) (Nat.not_lt_zero _)
  have hgood : tp.goodPieces = 0 := by
    rw [(startup_tallied htp).tallied,Finset.card_eq_zero]
    refine Finset.filter_false_of_mem fun i hi hc => ?_
    rw [hunverified i] at hc
    · cases hc
    · rw [← hnum,← hmi]
      exact Finset.mem_range.mp hi
  refine ⟨tp,hboot,?_,hgood,fun i _ => hindexed i,?_,hunverified,congrArg Metainfo.infoHash hmi⟩
  · exact (congrArg Metainfo.numPieces hmi).trans hnum
  · intro i hi
    refine (hlen (congrArg Metainfo.type hmi) i).trans ?_
    rw [hmi]
    exact many_pieceLen hn hi

end Start

section Lone
variable {ι : Type}

def Session.lone (s : Session ι) (st : DlStore ι) (q : Peer) (out : List (PeerId × Bytes)) : Session ι :=
  { s with store := st, peers := [0], peer := Function.update s.peer 0 q, nextPeer := 1, numPeers := 1, out := out }

def Peer.accepted (now : ℕ) : Peer :=
  { networkPeerCreate 1 with
    connfd := true, connected := now, lastsend := now
    state := { choked := true, amchoking := true, handshake1 := true } }

def Peer.greeted (now : ℕ) : Peer :=
  { Peer.accepted now with
    state := { choked := true, amchoking := true, handshake2 := true }
    lastrecv := now, pstrlen := 19, rxmsglen := 48, rxpending := 48, totalrx := 20 }

def Peer.shaken (now : ℕ) : Peer :=
  { Peer.accepted now with
    state := { choked := true, amchoking := true, bitfield := true }
    lastrecv := now, pstrlen := 19, rxmsglen := 48, totalrx := 68 }

def Peer.awaiting (q : Peer) (n : ℕ) : Peer :=
  { q with
    state := { q.state with gotlen := true }
    rxmsg := [], rxmsglen := n, rxpending := n, totalrx := q.totalrx + 4 }

def Peer.received (q : Peer) (body : Bytes) : Peer :=
  { q with
    state := { q.state with gotlen := true }
    rxmsg := body, rxmsglen := body.length, rxpending := 0, totalrx := q.totalrx + 4 + body.length }

structure Peer.Resting (q : Peer) : Prop where
  rxpending : q.rxpending = 0
  handshake1 : q.state.handshake1 = false
  handshake2 : q.state.handshake2 = false
  sendbitfield : q.state.sendbitfield = false

section Simp
variable (s : Session ι) (st : DlStore ι) (q : Peer) (out : List (PeerId × Bytes))

@[simp] theorem lone_peer : (s.lone st q out).peer 0 = q := by simp [Session.lone]
@[simp] theorem lone_tp : (s.lone st q out).tp = s.tp := rfl
@[simp] theorem lone_store : (s.lone st q out).store = st := rfl
@[simp] theorem lone_peers : (s.lone st q out).peers = [0] := rfl
@[simp] theorem lone_out : (s.lone st q out).out = out := rfl
@[simp] theorem lone_withStore (st' : DlStore ι) : { s.lone st q out with store := st' } = s.lone st' q out := rfl
@[simp] theorem lone_setPeer (f : Peer → Peer) : (s.lone st q out).setPeer 0 f = s.lone st (f q) out := by
  simp [Session.lone,Session.setPeer]
@[simp] theorem lone_setState (f : PeerState → PeerState) :
    (s.lone st q out).setState 0 f = s.lone st { q with state := f q.state } out := lone_setPeer ..
@[simp] theorem lone_write (env : Env) (msg : Bytes) :
    networkPeerWrite env (s.lone st q out) 0 msg = s.lone st { q with lastsend := env.now } (out ++ [(0,msg)]) := by
  rw [networkPeerWrite,lone_setPeer]
  rfl

end Simp

variable [RbIndex ι] {sha1 : Bytes → Bytes} {env : Env} {s : Session ι} {st st' : DlStore ι} {q q' : Peer}
  {out out' : List (PeerId × Bytes)}

theorem accept_initial (env : Env) (tp : Torrent) (maxfds : ℕ) (peerid : Bytes) (seed : Bool) (now : ℕ) :
    networkHandlePeerConnect env (.initial tp maxfds peerid seed now : Session ι) 1 =
      (Session.initial tp maxfds peerid seed now).lone .empty (.accepted env.now)
        [(0,handshakeBytes tp.mi.infoHash (peerid.take 20))] := by
  simp [networkHandlePeerConnect,networkPeerHandshake,networkPeerWrite,Session.lone,Session.setPeer,Session.initial,
    Peer.accepted,networkPeerCreate,networkStartTorrent]
  rfl

/-- An entry of the read callback that gets all it waits for. -/
theorem response_lone {avail : Bytes} (hpending : (armRead env q).rxpending = avail.length) :
    step sha1 (s.lone st q out) (env,.response 0 avail) =
      (finishRead sha1 env 0 (s.lone st (pushRead avail (armRead env q)) out)).result >>= sendBitfield env 0 := by
  have hdone : ¬ 0 < (pushRead avail (armRead env q)).rxpending := by simp [pushRead,hpending]
  simp only [step,lone_peers,List.mem_singleton,if_true,peerResponse,Reader.invoke,peerReader,
    lone_setPeer,lone_peer,hpending,
    List.take_length,hdone,if_false,Traced.bind]
  cases (finishRead sha1 env 0 (s.lone st (pushRead avail (armRead env q)) out)).result <;> rfl

omit [RbIndex ι] in
theorem sendBitfield_lone (h : q.state.sendbitfield = false) : sendBitfield env 0 (s.lone st q out) =
    .ok (s.lone st q out) := by
  simp [sendBitfield,h]

/-- An entry of the read callback that finishes a part of the input and calls nothing. -/
theorem response_pure {avail : Bytes} (hpending : (armRead env q).rxpending = avail.length)
    (hfinish : finishRead sha1 env 0 (s.lone st (pushRead avail (armRead env q)) out) = .pure (s.lone st q' out))
    (hsend : q'.state.sendbitfield = false) : step sha1 (s.lone st q out) (env,.response 0 avail) =
    .ok (s.lone st q' out) := by
  rw [response_lone hpending,hfinish]
  exact sendBitfield_lone hsend

/-- The handshake of a peer without the fast extension. -/
theorem run_handshake {now : ℕ} (hhash : s.tp.mi.infoHash = List.replicate 20 0) (hempty : torrentEmpty s.tp = true) :
    run sha1 (s.lone st (.accepted now) out) (inputs now 0 handshakePortions) = .ok (s.lone st (.shaken now) out) := by
  have hfirst : finishHandshake1 (pushRead (19 :: btProtocol) (armRead (.plain now) (.accepted now))) =
    .greeted now := by rfl
  have hsecond : finishHandshake2 (List.replicate 20 0) (pushRead (List.replicate 48 0) (.greeted now)) =
      { Peer.shaken now with
        state := { choked := true, amchoking := true, bitfield := true, sendbitfield := true } } := by
    simp [finishHandshake2,pushRead,Peer.greeted,Peer.shaken,Peer.accepted,networkPeerCreate]
  have hstart : step sha1 (s.lone st (.accepted now) out) (.plain now,.response 0 (19 :: btProtocol)) =
      .ok (s.lone st (.greeted now) out) := by
    refine response_pure rfl ?_ rfl
    have hstate : (pushRead (19 :: btProtocol) (armRead (.plain now) (.accepted now))).state.handshake1 = true := rfl
    simp only [finishRead,lone_peer,hstate,if_true,lone_setPeer,hfirst]
  have harm : armRead (.plain now) (.greeted now) = .greeted now := rfl
  have hend : step sha1 (s.lone st (.greeted now) out) (.plain now,.response 0 (List.replicate 48 0)) =
      .ok (s.lone st (.shaken now) out) := by
    have hstate : (pushRead (List.replicate 48 0) (.greeted now)).state.handshake1 = false ∧
        (pushRead (List.replicate 48 0) (.greeted now)).state.handshake2 = true := ⟨rfl,rfl⟩
    rw [response_lone (by rfl),harm]
    simp only [finishRead,lone_peer,hstate,Bool.false_eq_true,if_false,if_true,lone_setPeer,lone_tp,hhash,hsecond]
    simp [Traced.pure,sendBitfield,writePieces,hempty,ok_bind,Peer.shaken]
  simp only [inputs,handshakePortions,List.map_cons,List.map_nil,run,List.foldlM_cons,List.foldlM_nil,
    hstart,hend,ok_bind]
  rfl

omit [RbIndex ι] in
theorem Peer.Resting.arm {now : ℕ} (h : q.Resting) :
    armRead (.plain now) q =
      { q with state := { q.state with gotlen := false }, rxmsg := [], rxmsglen := 4, rxpending := 4 } := by
  simp [armRead,h.rxpending,h.handshake1]

/-- A message of a peer that waits for one. -/
theorem run_message {now : ℕ} {body : Bytes} (hq : q.Resting) (hbody : 0 < body.length)
    (hlen : body.length ≤ maxMessageLen)
    (hmsg : networkPeerProcessMessage sha1 (.plain now) (s.lone st (q.received body) out) 0 (body.headD 0) body =
      .ok (s.lone st' q' out')) (hsend : q'.state.sendbitfield = false) :
    run sha1 (s.lone st q out) (inputs now 0 (messagePortions body)) =
      .ok (s.lone st' { q' with rxmsg := [] } out') := by
  have hfield : msgField (.plain now) (be32 body.length) 0 = body.length := by
    unfold msgField be32
    exact readBe32_be32 (hlen.trans_lt (by decide))
  have hlength : finishLength (.plain now) (pushRead (be32 body.length) (armRead (.plain now) q)) =
      q.awaiting body.length := by
    simp only [hq.arm,finishLength,pushRead,List.nil_append,hfield,Nat.not_lt.mpr hlen,if_false]
    rfl
  have hfirst : step sha1 (s.lone st q out) (.plain now,.response 0 (be32 body.length)) =
      .ok (s.lone st (q.awaiting body.length) out) := by
    have hstate : (pushRead (be32 body.length) (armRead (.plain now) q)).state.handshake1 = false ∧
        (pushRead (be32 body.length) (armRead (.plain now) q)).state.handshake2 = false ∧
        (pushRead (be32 body.length) (armRead (.plain now) q)).state.gotlen = false := by
      rw [hq.arm]
      exact ⟨hq.handshake1,hq.handshake2,rfl⟩
    refine response_pure (by rw [hq.arm]; rfl) ?_ hq.sendbitfield
    simp only [finishRead,lone_peer,hstate,Bool.false_eq_true,Bool.not_false,if_false,if_true,lone_setPeer,hlength]
  have harm : armRead (.plain now) (q.awaiting body.length) = q.awaiting body.length := if_neg hbody.ne'
  have hbuffer : pushRead body (q.awaiting body.length) = q.received body := by
    simp [pushRead,Peer.awaiting,Peer.received]
  have hsecond : step sha1 (s.lone st (q.awaiting body.length) out) (.plain now,.response 0 body) =
      .ok (s.lone st' { q' with rxmsg := [] } out') := by
    have hstate : (q.received body).state.handshake1 = false ∧ (q.received body).state.handshake2 = false ∧
        (q.received body).state.gotlen = true ∧ (q.received body).rxmsg = body := ⟨hq.handshake1,hq.handshake2,rfl,rfl⟩
    rw [response_lone (by rw [harm]; rfl),harm,hbuffer]
    simp only [finishRead,lone_peer,hstate,Bool.false_eq_true,Bool.not_true,if_false,hmsg,Except.map,lone_setPeer]
    exact sendBitfield_lone hsend
  simp only [inputs,messagePortions,List.map_cons,List.map_nil,run,List.foldlM_cons,List.foldlM_nil,
    hfirst,hsecond,ok_bind]
  rfl

end Lone

section Choice
variable {ι : Type} [RbIndex ι]

def taken (st : DlStore ι) (i : ℕ) : Bool :=
  match networkPieceDlFind st none i 0 with
  | none => false
  | some d => !((st.get d).outstanding && (st.get d).pc.isNone)

def freePieces (st : DlStore ι) (n : ℕ) : List ℕ := (List.range n).filter (fun i => !taken st i)

/-- The piece that is chosen of those a peer with all pieces has: one already begun, else what the draw gives. -/
def nextPiece (env : Env) (st : DlStore ι) (n l : ℕ) : Option ℕ :=
  match (RbIndex.nodes st.index).find? fun m => !taken st m.idx with
  | some m => some m.idx
  | none => (freePieces st n)[env.rand l % (freePieces st n).length]?

def ones (n : ℕ) : Bytes := List.replicate (bitfieldLen n) 0xFF

variable {n : ℕ}

theorem getbit_ones (hn : n < 4294967289) {i : ℕ} (hi : i < n) : utilGetbit (ones n) i = .ok true := by
  have hlen := (bitfieldLen_eq_iff (hn.trans (by decide))).mpr hn
  have hbyte : i / 8 < bitfieldLen n := by omega
  rw [ones,utilGetbit_eq (by rwa [List.length_replicate]),bitAt_ones hbyte]

variable {env : Env} {s : Session ι} {p : PeerId}

theorem Torrent.Blank.find {tp : Torrent} (h : tp.Blank n) {i : ℕ} (hi : i < n) :
    torrentPieceFind tp i = .ok (tp.piece i) :=
  torrentPieceFind_ok.mpr ⟨h.numPieces ▸ hi,rfl⟩

theorem Torrent.Blank.assigned {tp : Torrent} (h : tp.Blank n) (st : DlStore ι) {i : ℕ} (hi : i < n) :
    schedulerPieceAssigned st (tp.piece i) = .ok (taken st i) := by
  have hoffs : blockOffs 1 = [0] := by decide
  have hwraps : blockLoopWraps 1 = false := by decide
  simp only [schedulerPieceAssigned,h.index i hi,h.len i hi,hoffs,hwraps,List.all_cons,List.all_nil,Bool.and_true]
  change (if taken st i = true then _ else _) = _
  cases taken st i <;> rfl

theorem gimmeScan_ones (h : s.tp.Blank n) (hn : n < 4294967289) {ms : List PieceDlIdxnode} (hms : ∀ m ∈ ms, m.idx < n) :
    gimmeScan s (some (ones n)) ms = .ok ((ms.find? fun m => !taken s.store m.idx).map PieceDlIdxnode.idx) := by
  induction ms with
  | nil => rfl
  | cons m ms ih =>
    obtain ⟨hm,hms⟩ := List.forall_mem_cons.mp hms
    simp only [gimmeScan,h.find hm,h.unverified _ hm,h.assigned s.store hm,getbit_ones hn hm,ok_bind,
      ih hms,Bool.false_eq_true,
      if_false,if_true]
    cases htaken : taken s.store m.idx <;> simp [htaken]

theorem usefulPieces_ones (h : s.tp.Blank n) (hn : n < 4294967289) {is : List ℕ} (his : ∀ i ∈ is, i < n) :
    usefulPieces s (some (ones n)) is = .ok (is.filter fun i => !taken s.store i) := by
  induction is with
  | nil => rfl
  | cons i is ih =>
    obtain ⟨hi,his⟩ := List.forall_mem_cons.mp his
    simp only [usefulPieces,h.find hi,h.unverified _ hi,h.assigned s.store hi,getbit_ones hn hi,
      ok_bind,ih his,Bool.not_true,
      Bool.false_eq_true,if_false]
    cases htaken : taken s.store i with
    | true => simp [htaken]
    | false =>
      simp [htaken]
      rfl

theorem gimmePiece_ones (h : s.tp.Blank n) (hn : n < 4294967289) (hmany : 4 < n)
    (hbit : (s.peer p).bitfield = some (ones n))
    (hnodes : ∀ m ∈ RbIndex.nodes s.store.index, m.idx < n) :
    gimmePiece env s p = .ok (s,nextPiece env s.store n s.out.length) := by
  unfold gimmePiece nextPiece
  rw [hbit,gimmeScan_ones h hn hnodes,ok_bind]
  cases (RbIndex.nodes s.store.index).find? fun m => !taken s.store m.idx with
  | some m => rfl
  | none =>
    rw [Option.map_none]
    dsimp only
    rw [h.goodPieces,h.numPieces,if_pos ⟨by decide,hmany⟩,usefulPieces_ones h hn fun i hi => List.mem_range.mp hi]
    rfl

theorem endgameFrom_ones (h : s.tp.Blank n) {is : List ℕ} (his : ∀ i ∈ is, i < n) :
    endgameFrom s is = .ok (is.all (taken s.store)) := by
  induction is with
  | nil => rfl
  | cons i is ih =>
    obtain ⟨hi,his⟩ := List.forall_mem_cons.mp his
    simp only [endgameFrom,h.find hi,h.unverified _ hi,h.assigned s.store hi,ok_bind,ih his,Bool.false_eq_true,if_false,
      List.all_cons]
    cases taken s.store i <;> rfl

end Choice

section Requests
variable {ι : Type} [RbIndex ι] {sha1 : Bytes → Bytes} {env : Env} {s : Session ι} {st : DlStore ι} {q : Peer}
  {out : List (PeerId × Bytes)} {n : ℕ}

/-- The store once peer 0 is asked for the pieces, one after the other. -/
def askAll (st : DlStore ι) (ks : List ℕ) : DlStore ι := ks.foldl (fun st k => (networkPieceDlCreate st 0 k 0 1).1) st

/-- The choices that make the request loop ask for the pieces, one after the other. -/
def Asks (env : Env) (n : ℕ) : DlStore ι → ℕ → List ℕ → Prop
  | _,_,[] => True
  | st,l,k :: ks => (nextPiece env st n l = some k ∧ k < n ∧ networkPieceDlFind st none k 0 = none ∧
      ∀ m ∈ RbIndex.nodes st.index, m.idx < n) ∧ Asks env n (networkPieceDlCreate st 0 k 0 1).1 (l + 1) ks

/-- The request loop makes the requests that the choices point to. -/
theorem fillLoop_asks (h : s.tp.Blank n) (hn : n < 4294967289) (hmany : 4 < n) {ks : List ℕ}
    (hbit : q.bitfield = some (ones n))
    (hasks : Asks env n st out.length ks) :
    ∃ q' out', fillLoop env 0 ks.length (s.lone st q out) = .ok (s.lone (askAll st ks) q' out') := by
  induction ks generalizing st q out with
  | nil => exact ⟨q,out,rfl⟩
  | cons k ks ih =>
    obtain ⟨⟨hnext,hk,hnone,hnodes⟩,hasks⟩ := hasks
    have hones : gimmePiece env (s.lone st q out) 0 = .ok (s.lone st q out,nextPiece env st n out.length) :=
      gimmePiece_ones (s := s.lone st q out) h hn hmany ((congrArg Peer.bitfield (lone_peer s st q out)).trans hbit)
        hnodes
    rw [hnext] at hones
    have hlen : (s.tp.piece k).len = 1 := h.len k hk
    have hoffs : blockOffs (s.tp.piece k).len = [] ++ 0 :: [] := by
      rw [hlen]
      decide
    have hblock : blockLen (s.tp.piece k).len 0 = 1 := by
      rw [hlen]
      decide
    have hgimme := schedulerPieceGimme_of_none hones (h.find hk) hoffs (List.forall_mem_nil _) hnone
    rw [hblock,lone_store,lone_withStore] at hgimme
    rw [List.length_cons,fillLoop,hgimme,ok_bind]
    simp only [networkPeerRequestBlock,lone_write,lone_setPeer]
    generalize message msgRequestId _ = msg
    have hrest : Asks env n (networkPieceDlCreate st 0 k 0 1).1 (out ++ [(0,msg)]).length ks := by
      rw [List.length_append]
      exact hasks
    exact ih hbit hrest

/-- The peer that has all of `n` pieces and unchokes, and has sent a message of `m` bytes after that. -/
def Peer.ready (n m now : ℕ) : Peer :=
  { Peer.shaken now with
    state := { amchoking := true, established := true, aminterested := true, gotlen := true }
    bitfield := some (ones n), rxmsglen := m, totalrx := 82 + m }

/-- HAVEALL, UNCHOKE, and a message of an unknown kind. -/
def readyInputs (m now : ℕ) : List (Env × Event) :=
  inputs now 0 (messagePortions [msgHaveallId]) ++ (inputs now 0 (messagePortions [msgUnchokeId]) ++
    inputs now 0 (messagePortions (List.replicate m 0x20)))

theorem run_append {t : Session ι} {es es' : List (Env × Event)} (h : run sha1 s es = .ok t) :
    run sha1 s (es ++ es') = run sha1 t es' := by
  rw [run,List.foldlM_append,show es.foldlM (step sha1) s = .ok t from h]
  rfl

/-- A peer with all pieces that has been told of the interest in them. -/
def Peer.courted (n now : ℕ) (q : Peer) : Peer :=
  { q with
    state := { q.state with bitfield := false, established := true, aminterested := true }
    bitfield := some (ones n), lastsend := now }

/-- HAVEALL fills the bit field and arouses interest. -/
theorem haveall_lone {now : ℕ} (h : s.tp.Blank n) (hn : n < 4294967289) (hmany : 4 < n)
    (hnodes : ∀ m ∈ RbIndex.nodes st.index, m.idx < n) {k : ℕ} (hnext : nextPiece (.plain now) st n out.length = some k)
    (hk : k < n) (hfirst : q.state.bitfield = true) (hcold : q.state.aminterested = false) (msg : Bytes) :
    networkPeerProcessMessage sha1 (.plain now) (s.lone st q out) 0 msgHaveallId msg =
      .ok (s.lone st (q.courted n now) (out ++ [(0,message msgInterestedId [])])) := by
  have hpiece (u : Peer) (hu : u.bitfield = some (ones n)) : gimmePiece (.plain now) (s.lone st u out) 0 =
      .ok (s.lone st u out,some k) := by
    rw [gimmePiece_ones (s := s.lone st u out) h hn hmany ((congrArg Peer.bitfield (lone_peer s st u out)).trans hu)
      hnodes,
      lone_store,lone_out,hnext]
  rw [networkPeerProcessMessage_haveall]
  simp only [msgHaveFill,lone_peer,hfirst,Bool.not_true,Bool.false_eq_true,if_false,installBitfield,
    lone_setPeer,lone_tp,
    h.numPieces,expressInterest,schedulerPieceGimme]
  rw [hpiece _ rfl,ok_bind]
  simp only [lone_tp,h.find hk,ok_bind,if_true,lone_peer,hcold,Bool.not_false,Bool.and_true,networkPeerWriteInterested,
    lone_setPeer,lone_write]
  rfl

theorem unchoke_lone (msg : Bytes) : networkPeerProcessMessage sha1 env (s.lone st q out) 0 msgUnchokeId msg =
    .ok (s.lone st { q with state := { q.state with choked := false } } out) := by
  have hid : msgUnchokeId ≠ msgChokeId := by decide
  rw [networkPeerProcessMessage,if_neg hid,if_pos rfl,msgUnchoke,lone_setState]

theorem run_ready {m now : ℕ} (h : s.tp.Blank n) (hn : n < 4294967289) (hmany : 4 < n)
    (hnodes : ∀ m ∈ RbIndex.nodes st.index, m.idx < n) {k : ℕ} (hnext : nextPiece (.plain now) st n out.length = some k)
    (hk : k < n) (hpos : 0 < m) (hlong : m ≤ maxMessageLen) : run sha1 (s.lone st (.shaken now) out)
    (readyInputs m now) =
      .ok (s.lone st (.ready n m now) (out ++ [(0,message msgInterestedId [])])) := by
  have hlen : (List.replicate m (0x20 : UInt8)).length = m := List.length_replicate
  have hhead : (List.replicate m (0x20 : UInt8)).headD 0 = 0x20 := by
    obtain ⟨l,rfl⟩ := Nat.exists_eq_add_of_lt hpos
    rfl
  have hother (u : Peer) (hu : u.Resting) (out : List (PeerId × Bytes)) :
      run sha1 (s.lone st u out) (inputs now 0 (messagePortions (List.replicate m 0x20))) =
        .ok (s.lone st { u.received (List.replicate m 0x20) with rxmsg := [] } out) := by
    refine run_message hu (hlen.symm ▸ hpos) (hlen.symm ▸ hlong) ?_ hu.sendbitfield
    rw [hhead]
    exact networkPeerProcessMessage_other (by decide)
  rw [readyInputs]
  rw [run_append (run_message ⟨rfl,rfl,rfl,rfl⟩ (by decide) (by decide)
    (haveall_lone h hn hmany hnodes hnext hk rfl rfl _) rfl)]
  rw [run_append (run_message ⟨rfl,rfl,rfl,rfl⟩ (by decide) (by decide) (unchoke_lone _) rfl)]
  rw [hother _ ⟨rfl,rfl,rfl,rfl⟩,Peer.received,hlen]
  rfl

/-- A tick one second later gets as far as the requests. -/
theorem schedulerPeer_ready {m : ℕ} (h : s.tp.Blank n) (hn : n < 4294967289) (hmany : 4 < n) (henv : env.now = 1001)
    {ks : List ℕ} (hwant : (82 + m) / 8192 = ks.length) (hlong : m ≤ 800000) (htwo : 2 ≤ ks.length)
    (hasks : Asks env n st out.length ks) :
    ∃ q' out', schedulerPeer env (s.lone st (.ready n m 1000) out) 0 = .ok (s.lone (askAll st ks) q' out') := by
  have hrate : networkPeerRxrate env (.ready n m 1000) = 82 + m := by
    have hsecond : (1001 + (18446744073709551616 - (Peer.ready n m 1000).connected)) % 18446744073709551616 = 1 := by
      rw [show (Peer.ready n m 1000).connected = 1000 from rfl]
    rw [networkPeerRxrate,henv,hsecond]
    exact Nat.div_one (82 + m)
  have hkill : schedulerThresholdKill env (s.lone st (.ready n m 1000) out) 0 =
      (s.lone st (.ready n m 1000) out,false) := by
    rw [schedulerThresholdKill,henv]
    simp [Peer.ready,Peer.shaken,peerCommsThreshold]
  have hdequeue : schedulerDequeueUploads env (s.lone st (.ready n m 1000) out) 0 =
      .ok (s.lone st (.ready n m 1000) out) := by
    simp [schedulerDequeueUploads,networkPieceUlDequeue,Peer.ready,Peer.shaken,Peer.accepted,networkPeerCreate]
  have hleft : sub32 n 0 > 0 := by
    unfold sub32 wrap32
    omega
  have hqueue : (if wrap32 (82 + m) / 8192 < 2 then 2 else if wrap32 (82 + m) / 8192 > maxRequests then maxRequests
      else wrap32 (82 + m) / 8192) = ks.length := by
    have hword : wrap32 (82 + m) = 82 + m := wrap32_of_lt (by omega)
    have hmost : ¬ ks.length > maxRequests := by
      unfold maxRequests
      omega
    rw [hword,hwant,if_neg (by omega),if_neg hmost]
  obtain ⟨q',out',hloop⟩ := fillLoop_asks (q := .ready n m 1000) h hn hmany rfl hasks
  refine ⟨q',out',?_⟩
  have hlive : ¬ (Peer.ready n m 1000).state.dead = true := Bool.false_ne_true
  rw [schedulerPeer,lone_peer,if_neg hlive,hkill]
  dsimp only
  rw [hdequeue,ok_bind,schedulerFillRequests,lone_peer,lone_tp,h.numPieces,h.goodPieces,hrate]
  dsimp only
  have hqueue' : (Peer.ready n m 1000).dlQueueLen = 0 := rfl
  rw [hqueue,hqueue',if_pos (by simp [Peer.ready,hleft]),if_neg (Nat.not_lt_zero _),Nat.sub_zero]
  exact hloop

theorem schedulerIsEndgame_lone (h : s.tp.Blank n) {i : ℕ} (hi : i < n) (hfree : taken st i = false) :
    schedulerIsEndgame (s.lone st q out) = .ok false := by
  unfold schedulerIsEndgame
  rw [lone_tp,h.numPieces,endgameFrom_ones (s := s.lone st q out) h fun i hi => List.mem_range.mp hi,lone_store]
  refine congrArg Except.ok (List.all_eq_false.mpr ⟨i,List.mem_range.mpr hi,?_⟩)
  rw [hfree]
  exact Bool.false_ne_true

/-- The tick ends with its requests, while a piece is not assigned and the tracker is being asked. -/
theorem step_ready {m : ℕ} (h : s.tp.Blank n) (hn : n < 4294967289) (hmany : 4 < n) (henv : env.now = 1001)
    (hunderway : s.announceUnderway = true) {ks : List ℕ} (hwant : (82 + m) / 8192 = ks.length) (hlong : m ≤ 800000)
    (htwo : 2 ≤ ks.length) (hasks : Asks env n st out.length ks) {i : ℕ} (hi : i < n)
    (hfree : taken (askAll st ks) i = false) :
    ∃ q' out', (s.lone st (.ready n m 1000) out).peers.foldlM (schedulerPeer env) (s.lone st (.ready n m 1000) out) =
        .ok (s.lone (askAll st ks) q' out') ∧ schedulerIsEndgame (s.lone (askAll st ks) q' out') = .ok false ∧
      step sha1 (s.lone st (.ready n m 1000) out) (env,.scheduler) = .ok (s.lone (askAll st ks) q' out') := by
  obtain ⟨q',out',hpeer⟩ := schedulerPeer_ready h hn hmany henv hwant hlong htwo hasks
  have hpeers : (s.lone st (.ready n m 1000) out).peers.foldlM (schedulerPeer env) (s.lone st (.ready n m 1000) out) =
      .ok (s.lone (askAll st ks) q' out') := by
    rw [lone_peers,List.foldlM_cons,hpeer]
    rfl
  have hendgame : schedulerIsEndgame (s.lone (askAll st ks) q' out') = .ok false := schedulerIsEndgame_lone h hi hfree
  refine ⟨q',out',hpeers,hendgame,?_⟩
  have hchoke : schedulerChokeAlgorithm env (s.lone (askAll st ks) q' out') = .ok (s.lone (askAll st ks) q' out') := by
    rw [schedulerChokeAlgorithm,henv,if_pos (by decide)]
  have hasked : (s.lone (askAll st ks) q' out').announceUnderway = true := hunderway
  rw [step,scheduler]
  rw [hpeers,ok_bind,hchoke,ok_bind,hendgame,ok_bind]
  simp [hasked,ok_bind]

/-- The requests are made if every choice in turn points to the next piece. -/
theorem asks_of {ks : List ℕ} {l : ℕ} (h : ∀ j (hj : j < ks.length),
    nextPiece env (askAll st (ks.take j)) n (l + j) = some ks[j] ∧
    ks[j] < n ∧ networkPieceDlFind (askAll st (ks.take j)) none ks[j] 0 = none ∧
    ∀ m ∈ RbIndex.nodes (askAll st (ks.take j)).index, m.idx < n) : Asks env n st l ks := by
  induction ks generalizing st l with
  | nil => trivial
  | cons k ks ih =>
    refine ⟨h 0 (Nat.succ_pos _),ih fun j hj => ?_⟩
    have hnext := h (j + 1) (Nat.succ_lt_succ hj)
    rw [show l + (j + 1) = l + 1 + j by omega] at hnext
    exact hnext

/-- A draw that points to a piece gets it, when no piece is begun that is not assigned. -/
theorem nextPiece_drawn {l k : ℕ} (hbegun : ((RbIndex.nodes st.index).find? fun m => !taken st m.idx) = none)
    (hk : k < n)
    (hfree : taken st k = false) (hdraw : env.rand l = (freePieces st n).idxOf k) : nextPiece env st n l = some k := by
  have hmem : k ∈ freePieces st n := List.mem_filter.mpr ⟨List.mem_range.mpr hk,by rw [hfree]; rfl⟩
  unfold nextPiece
  rw [hbegun]
  dsimp only
  rw [hdraw,Nat.mod_eq_of_lt (List.idxOf_lt_length_of_mem hmem)]
  exact List.getElem?_idxOf hmem

/-- Before any request there is always a piece to draw. -/
theorem nextPiece_first {l : ℕ} (hnodes : RbIndex.nodes st.index = []) {i : ℕ} (hi : i < n)
    (hfree : taken st i = false) :
    ∃ k < n, nextPiece env st n l = some k := by
  have hmem : i ∈ freePieces st n := List.mem_filter.mpr ⟨List.mem_range.mpr hi,by rw [hfree]; rfl⟩
  have hlt : env.rand l % (freePieces st n).length < (freePieces st n).length :=
    Nat.mod_lt _ (List.length_pos_of_mem hmem)
  refine ⟨(freePieces st n)[env.rand l % (freePieces st n).length],?_,?_⟩
  · exact List.mem_range.mp (List.mem_of_mem_filter (List.getElem_mem hlt))
  · unfold nextPiece
    rw [hnodes]
    exact List.getElem?_eq_getElem hlt

theorem Torrent.Blank.empty {tp : Torrent} (h : tp.Blank n) : torrentEmpty tp = true := by
  unfold torrentEmpty
  rw [h.numPieces,List.all_eq_true]
  intro i hi
  rw [h.unverified i (List.mem_range.mp hi)]
  rfl

def shakeRun : List (Env × Event) := (.plain 1000,.accept 1) :: inputs 1000 0 handshakePortions

theorem many_shaken (sha1 : Bytes → Bytes) (hn : n < 4294967296) : ∃ (s : Session ι) (msg : Bytes),
    (Boot.many n).start sha1 ι = .ok s ∧ s.tp.Blank n ∧ s.announceUnderway = true ∧
      run sha1 s shakeRun = .ok (s.lone .empty (.shaken 1000) [(0,msg)]) := by
  obtain ⟨tp,htp,hblank⟩ := many_startup sha1 hn
  refine ⟨.initial tp 128 (List.replicate 20 1) true 1000,handshakeBytes tp.mi.infoHash ((List.replicate 20 1).take 20),
    ?_,hblank,rfl,?_⟩
  · have hseed : (!(Boot.many n).seed) = false := rfl
    simp only [Boot.start,htp,ok_bind,hseed,Bool.false_eq_true,false_and,if_false]
    rfl
  · rw [shakeRun,run,List.foldlM_cons,step,accept_initial,ok_bind]
    exact run_handshake hblank.infoHash hblank.empty

end Requests

section Far

/-- Pieces so far apart that the comparison of their keys goes wrong: once the eighth is asked for, the first
is not found any more, and is asked for again. -/
def farPieces : List ℕ :=
  [0,1610612736,1879048192,2281701376,2415919104,2550136832,2684354560,2818572288,0]

def farCount : ℕ := 2818572289

def farStore (j : ℕ) : DlStore NodeTree := askAll .empty (farPieces.take j)

/-- The draws of a tick before which two messages have been written. -/
def Env.far : Env :=
  { Env.plain 1001 with rand := fun l => (freePieces (farStore (l - 2)) farCount).idxOf (farPieces.getD (l - 2) 0) }

theorem far_rand (l : ℕ) : Env.far.rand l = (freePieces (farStore (l - 2)) farCount).idxOf
    (farPieces.getD (l - 2) 0) := by
  rw [Env.far]

theorem far_asks : Asks Env.far farCount (DlStore.empty : DlStore NodeTree) 2 farPieces := by
  have hstore : ∀ j < 9, farPieces.getD j 0 < farCount ∧
    networkPieceDlFind (farStore j) none (farPieces.getD j 0) 0 = none ∧
      ((RbIndex.nodes (farStore j).index).all fun m => decide (m.idx < farCount)) = true ∧
      ((RbIndex.nodes (farStore j).index).find? fun m => !taken (farStore j) m.idx).map PieceDlIdxnode.idx =
        if j = 8 then some 0 else none := by decide +kernel
  refine asks_of fun j hj => ?_
  obtain ⟨hlt,hnone,hnodes,hbegun⟩ := hstore j hj
  have hpiece : farPieces.getD j 0 = farPieces[j] := by
    rw [List.getD_eq_getElem?_getD,List.getElem?_eq_getElem hj]
    rfl
  rw [hpiece] at hlt hnone
  refine ⟨?_,hlt,hnone,fun m hm => of_decide_eq_true (List.all_eq_true.mp hnodes m hm)⟩
  change nextPiece Env.far (farStore j) farCount (2 + j) = some farPieces[j]
  by_cases hlast : j = 8
  · -- the first piece looks as if it were not assigned
    subst hlast
    rw [if_pos rfl] at hbegun
    obtain ⟨m,hm,hidx⟩ := Option.map_eq_some_iff.mp hbegun
    unfold nextPiece
    rw [hm]
    exact congrArg some hidx
  · rw [if_neg hlast,Option.map_eq_none_iff] at hbegun
    refine nextPiece_drawn hbegun hlt ?_ ?_
    · rw [taken,hnone]
    · rw [far_rand,Nat.add_sub_cancel_left,hpiece]

def farPrelude : List (Env × Event) := shakeRun ++ readyInputs 73728 1000

/-- The session then. The peer has been sent the handshake and INTERESTED. -/
def farSession (s : Session NodeTree) (msg : Bytes) : Session NodeTree :=
  s.lone .empty (.ready farCount 73728 1000) [(0,msg),(0,message msgInterestedId [])]

theorem far_prelude (sha1 : Bytes → Bytes) : ∃ (s : Session NodeTree) (msg : Bytes),
    (Boot.many farCount).start sha1 NodeTree = .ok s ∧ s.tp.Blank farCount ∧ s.announceUnderway = true ∧
    run sha1 s farPrelude = .ok (farSession s msg) := by
  obtain ⟨s,msg,hs,hblank,hunderway,hshaken⟩ := @many_shaken NodeTree _ farCount sha1 (by decide)
  have hfirst : ∃ k < farCount, nextPiece (.plain 1000) (DlStore.empty : DlStore NodeTree) farCount 1 = some k :=
    nextPiece_first (by decide) (i := 0) (by decide) (by decide)
  obtain ⟨k,hk,hnext⟩ := hfirst
  have hready : run sha1 (s.lone .empty (.shaken 1000) [(0,msg)]) (readyInputs 73728 1000) = .ok (farSession s msg) :=
    run_ready hblank (by decide) (by decide) (by decide) hnext hk (by decide) (by decide)
  exact ⟨s,msg,hs,hblank,hunderway,(run_append hshaken).trans hready⟩

/-- The tick makes the nine requests, and it is not the endgame. -/
theorem far_tick (sha1 : Bytes → Bytes) {s : Session NodeTree} (h : s.tp.Blank farCount)
    (hunderway : s.announceUnderway = true)
    (msg : Bytes) : ∃ t, t.store = askAll .empty farPieces ∧
      (farSession s msg).peers.foldlM (schedulerPeer .far) (farSession s msg) = .ok t ∧
        schedulerIsEndgame t = .ok false ∧
      step sha1 (farSession s msg) (.far,.scheduler) = .ok t := by
  have htick : ∃ q out, (farSession s msg).peers.foldlM (schedulerPeer .far) (farSession s msg) =
        .ok (s.lone (askAll .empty farPieces) q out) ∧ schedulerIsEndgame (s.lone (askAll .empty farPieces) q out) =
          .ok false ∧
      step sha1 (farSession s msg) (.far,.scheduler) = .ok (s.lone (askAll .empty farPieces) q out) :=
    step_ready h (by decide) (by decide) rfl hunderway (by decide) (by decide) (by decide) far_asks (i := 1) (by decide)
      (by decide)
  obtain ⟨q,out,hrest⟩ := htick
  exact ⟨_,rfl,hrest⟩

end Far

end Unworkable
