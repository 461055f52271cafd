import Unworkable.Session.Scheduler

/-! # Processing of one complete message

`network_peer_process_message`, one definition for each message kind. No kind checks the
length of its body first: a field that lies behind the received bytes is read from
whatever memory follows them, which the environment supplies.
-/
namespace Unworkable
open Library

section Handlers
variable {ι : Type} (env : Env) (s : Session ι) (p : PeerId) (msg : Bytes)

/-- Byte `i` of the receive buffer, or what lies behind it. -/
def msgByte (i : ℕ) : UInt8 := (msg[i]?).getD (env.stale i)

/-- The 32-bit field at offset `i` of the receive buffer. -/
def msgField (i : ℕ) : ℕ :=
  readBe32 (msgByte env msg i) (msgByte env msg (i + 1)) (msgByte env msg (i + 2)) (msgByte env msg (i + 3))

def Session.setState (f : PeerState → PeerState) : Session ι :=
  s.setPeer p (fun q => { q with state := f q.state })

/-- `p->state = 0; p->state |= PEER_STATE_DEAD`. -/
def killPeer : Session ι := s.setState p (fun _ => .deadOnly)

/-- The guard `idx > p->sc->tp->num_pieces - 1`. -/
def indexRefused (idx : ℕ) : Bool := decide (idx > sub32 s.tp.numPieces 1)

/-- One turn of the CHOKE loop: the request is orphaned and the queue length drops by one. -/
def chokeTurn (s : Session ι) (d : DlId) : Session ι :=
  { s.setPeer p (fun q => { q with dlQueueLen := sub32 q.dlQueueLen 1 }) with store := orphan p s.store d }

/-- CHOKE. Without the fast extension every request on the list is given up. -/
def msgChoke : Session ι :=
  let s := s.setState p (fun b => { b with choked := true })
  if (s.peer p).state.fast then s else (s.store.lists p).foldl (chokeTurn p) s

def msgUnchoke : Session ι := s.setState p (fun b => { b with choked := false })

def msgInterested (on : Bool) : Session ι := s.setState p (fun b => { b with interested := on })

def installBitfield (bf : Bytes) : Session ι :=
  s.setPeer p (fun q => { q with
    bitfield := some bf, state := { q.state with bitfield := false, established := true } })

section Interest
variable [RbIndex ι]

/-- "does this peer have anything we want?" -/
def expressInterest : Except Halt (Session ι) := do
  let (s,_,res) ← schedulerPieceGimme env s p true
  if res && !(s.peer p).state.aminterested then .ok (networkPeerWriteInterested env s p) else .ok s

def msgHave : Except Halt (Session ι) := do
  let idx := msgField env msg 1
  if indexRefused s idx then .ok s
  else
    let s := match (s.peer p).bitfield with
      | none => installBitfield s p (List.replicate (bitfieldLen s.tp.numPieces) 0)
      | some _ => s
    let bf ← utilSetbit ((s.peer p).bitfield.getD []) idx
    expressInterest env (s.setPeer p (fun q => { q with bitfield := some bf })) p

/-- BITFIELD: accepted once, and only in the right size. -/
def msgBitfield : Except Halt (Session ι) :=
  if !(s.peer p).state.bitfield then .ok s
  else if msg.length - 1 ≠ bitfieldLen s.tp.numPieces then .ok (killPeer s p)
  else expressInterest env (installBitfield s p (msg.drop 1)) p

def msgHaveFill (fill : UInt8) : Except Halt (Session ι) :=
  if !(s.peer p).state.bitfield then .ok s
  else expressInterest env (installBitfield s p (List.replicate (bitfieldLen s.tp.numPieces) fill)) p

end Interest

def msgRequest : Except Halt (Session ι) := do
  let idx := msgField env msg 1
  if indexRefused s idx then .ok s
  else
    let off := msgField env msg 5
    let tpp ← torrentPieceFind s.tp idx
    if off > tpp.len then .ok s
    else
      let blocklen := msgField env msg 9
      if !tpp.cksumok then
        if (s.peer p).state.fast then .ok (networkPeerRejectBlock env s p idx off blocklen) else .ok s
      else .ok (networkPieceUlEnqueue s p idx off blocklen)

def msgCancel : Session ι :=
  let idx := msgField env msg 1
  if indexRefused s idx then s
  else
    let pu : PieceUl := ⟨idx,msgField env msg 5,msgField env msg 9⟩
    s.setPeer p (fun q => { q with uls := q.uls.filter (· ≠ pu) })

def msgReject [RbIndex ι] : Session ι :=
  if !(s.peer p).state.fast then killPeer s p
  else
    let idx := msgField env msg 1
    if indexRefused s idx then s
    else match networkPieceDlFind s.store (some p) idx (msgField env msg 5) with
      | none => s
      | some d =>
        { s.setPeer p (fun q => { q with dlQueueLen := sub32 q.dlQueueLen 1 }) with
          store := networkPieceDlFree s.store d }

end Handlers

section Completed
variable {ι : Type} (env : Env)

/-- With the last piece verified the client stops, or tells the tracker if it seeds. -/
def announceCompleted (s : Session ι) : Except Halt (Session ι) :=
  if s.tp.goodPieces = s.tp.numPieces then
    if !s.seed then .error .exit
    else if !s.announceUnderway then announce env s else .ok s
  else .ok s

/-- Bookkeeping for a piece that passed its hash check, up to the HAVE broadcast. -/
def pieceVerified (s : Session ι) (idx : ℕ) : Except Halt (Session ι) := do
  let tp ← torrentFastresumeDump s.tp
  let tp := { tp with goodPieces := add32 tp.goodPieces 1, left := tp.left - (tp.piece idx).len }
  let s ← announceCompleted env { s with tp := tp }
  .ok (s.peers.foldl (fun s q => networkPeerWriteHave env s q idx) s)

end Completed

section Piece
variable {ι : Type} [RbIndex ι] (sha1 : Bytes → Bytes) (env : Env)

/-- `network_peer_read_piece`: write the block through the mapping and count its bytes on
the request that the lookup gives. -/
def networkPeerReadPiece (s : Session ι) (p : PeerId) (idx off : ℕ) (data : Bytes) : Except Halt (Session ι) := do
  let _ ← torrentPieceFind s.tp idx
  match networkPieceDlFind s.store (some p) idx off with
  | none => .ok s
  | some d =>
    let tp := torrentBlockWrite s.tp idx off data.length data
    let s := { s with
      tp := { tp with downloaded := tp.downloaded + data.length }
      store := s.store.set d (fun pd => { pd with bytes := add32 pd.bytes data.length }) }
    .ok (s.setPeer p (fun q => { q with totalrx := q.totalrx + data.length }))

/-- "only checksum if we think we have every block of this piece": each block as the
delivering peer's lookup sees it. -/
def everyBlock (st : DlStore ι) (p : PeerId) (idx plen : ℕ) : Except Halt Bool :=
  if (blockOffs plen).all (fun off => match networkPieceDlFind st (some p) idx off with
      | none => false
      | some d => !(st.get d).outstanding) then
    if blockLoopWraps plen then .error .hang else .ok true
  else .ok false

/-- One turn of the cleanup loop: the first request of the block, if there is one, is freed. -/
def cleanupTurn (idx : ℕ) (st : DlStore ι) (off : ℕ) : DlStore ι :=
  match networkPieceDlFind st none idx off with
  | none => st
  | some d => networkPieceDlFree st d

def cleanupDls (st : DlStore ι) (idx plen : ℕ) : Except Halt (DlStore ι) :=
  if blockLoopWraps plen then .error .hang else .ok ((blockOffs plen).foldl (cleanupTurn idx) st)

/-- The hash check of a piece all of whose blocks are there. -/
def checkPiece (s : Session ι) (idx : ℕ) : Except Halt (Session ι) := do
  let plen := (s.tp.piece idx).len
  let (tp,good) ← torrentPieceCheckhash sha1 env.stale s.tp idx
  let s := { s with tp := torrentPieceUnmap tp idx }
  let s ← (if good then pieceVerified env s idx else .ok s)
  let store ← cleanupDls s.store idx plen
  .ok { s with store := store }

/-- What PIECE does with a block that is on request and not verified yet. -/
def receiveBlock (s : Session ι) (p : PeerId) (idx off : ℕ) (data : Bytes) : Except Halt (Session ι) := do
  let s := s.setPeer p (fun q => { q with dlQueueLen := sub32 q.dlQueueLen 1 })
  let tp ← ensureMapped s.tp idx
  let s ← networkPeerReadPiece { s with tp := tp } p idx off data
  let found ← everyBlock s.store p idx (s.tp.piece idx).len
  if found then checkPiece sha1 env s idx else .ok s

/-- PIECE for a block that the lookup gives request `d` for. The payload length is a 64-bit
difference, so a body of fewer than nine bytes has a length no request asked for. "Only read
if we don't already have it". -/
def takeBlock (s : Session ι) (p : PeerId) (idx off : ℕ) (msg : Bytes) (d : DlId) : Except Halt (Session ι) :=
  if msg.length < 9 ∨ msg.length - 9 ≠ (s.store.get d).len then .ok s
  else do
    let s ← (if (s.tp.piece idx).cksumok then .ok s else receiveBlock sha1 env s p idx off (msg.drop 9))
    .ok (s.setPeer p (fun q => { q with lastrecv := env.now }))

def pieceAt (s : Session ι) (p : PeerId) (idx off : ℕ) (msg : Bytes) : Except Halt (Session ι) := do
  if indexRefused s idx then .ok s
  else
    let tpp ← torrentPieceFind s.tp idx
    if off > tpp.len then .ok s
    else match networkPieceDlFind s.store (some p) idx off with
      | none => .ok (killPeer s p)
      | some d => takeBlock sha1 env s p idx off msg d

def msgPiece (s : Session ι) (p : PeerId) (msg : Bytes) : Except Halt (Session ι) :=
  pieceAt sha1 env s p (msgField env msg 1) (msgField env msg 5) msg

/-- `network_peer_process_message`. ALLOWEDFAST, SUGGEST and unknown ids only trace. -/
def networkPeerProcessMessage (s : Session ι) (p : PeerId) (id : UInt8) (msg : Bytes) : Except Halt (Session ι) :=
  if id = msgChokeId then .ok (msgChoke s p)
  else if id = msgUnchokeId then .ok (msgUnchoke s p)
  else if id = msgInterestedId then .ok (msgInterested s p true)
  else if id = msgNotinterestedId then .ok (msgInterested s p false)
  else if id = msgHaveId then msgHave env s p msg
  else if id = msgBitfieldId then msgBitfield env s p msg
  else if id = msgRequestId then msgRequest env s p msg
  else if id = msgPieceId then msgPiece sha1 env s p msg
  else if id = msgCancelId then .ok (msgCancel env s p msg)
  else if id = msgRejectId then .ok (msgReject env s p msg)
  else if id = msgHavenoneId then msgHaveFill env s p 0
  else if id = msgHaveallId then msgHaveFill env s p 0xFF
  else .ok s

end Piece

section Dispatch
variable {ι : Type} [RbIndex ι] (sha1 : Bytes → Bytes) (env : Env) (s : Session ι) (p : PeerId) (msg : Bytes)

theorem networkPeerProcessMessage_have :
    networkPeerProcessMessage sha1 env s p msgHaveId msg = msgHave env s p msg := by
  unfold networkPeerProcessMessage
  rw [if_neg (by decide),if_neg (by decide),if_neg (by decide),if_neg (by decide),if_pos rfl]

theorem networkPeerProcessMessage_bitfield :
    networkPeerProcessMessage sha1 env s p msgBitfieldId msg = msgBitfield env s p msg := by
  unfold networkPeerProcessMessage
  rw [if_neg (by decide),if_neg (by decide),if_neg (by decide),if_neg (by decide),if_neg (by decide),if_pos rfl]

theorem networkPeerProcessMessage_piece :
    networkPeerProcessMessage sha1 env s p msgPieceId msg = msgPiece sha1 env s p msg := by
  unfold networkPeerProcessMessage
  rw [if_neg (by decide),if_neg (by decide),if_neg (by decide),if_neg (by decide),if_neg (by decide),
    if_neg (by decide),if_neg (by decide),if_pos rfl]

theorem networkPeerProcessMessage_request :
    networkPeerProcessMessage sha1 env s p msgRequestId msg = msgRequest env s p msg := by
  unfold networkPeerProcessMessage
  rw [if_neg (by decide),if_neg (by decide),if_neg (by decide),if_neg (by decide),if_neg (by decide),
    if_neg (by decide),if_pos rfl]

theorem networkPeerProcessMessage_cancel :
    networkPeerProcessMessage sha1 env s p msgCancelId msg = .ok (msgCancel env s p msg) := by
  unfold networkPeerProcessMessage
  rw [if_neg (by decide),if_neg (by decide),if_neg (by decide),if_neg (by decide),if_neg (by decide),if_neg (by decide),
    if_neg (by decide),if_neg (by decide),if_pos rfl]

theorem networkPeerProcessMessage_reject :
    networkPeerProcessMessage sha1 env s p msgRejectId msg = .ok (msgReject env s p msg) := by
  unfold networkPeerProcessMessage
  rw [if_neg (by decide),if_neg (by decide),if_neg (by decide),if_neg (by decide),if_neg (by decide),if_neg (by decide),
    if_neg (by decide),if_neg (by decide),if_neg (by decide),if_pos rfl]

theorem networkPeerProcessMessage_havenone :
    networkPeerProcessMessage sha1 env s p msgHavenoneId msg = msgHaveFill env s p 0 := by
  unfold networkPeerProcessMessage
  rw [if_neg (by decide),if_neg (by decide),if_neg (by decide),if_neg (by decide),if_neg (by decide),if_neg (by decide),
    if_neg (by decide),if_neg (by decide),if_neg (by decide),if_neg (by decide),if_pos rfl]

theorem networkPeerProcessMessage_haveall :
    networkPeerProcessMessage sha1 env s p msgHaveallId msg = msgHaveFill env s p 0xFF := by
  unfold networkPeerProcessMessage
  rw [if_neg (by decide),if_neg (by decide),if_neg (by decide),if_neg (by decide),if_neg (by decide),if_neg (by decide),
    if_neg (by decide),if_neg (by decide),if_neg (by decide),if_neg (by decide),if_neg (by decide),if_pos rfl]

variable {sha1 env s p msg} in
/-- Ids that have no case of their own, or one that only traces. -/
theorem networkPeerProcessMessage_other {id : UInt8} (h : id ∉ [msgChokeId,msgUnchokeId,msgInterestedId,
    msgNotinterestedId,msgHaveId,msgBitfieldId,msgRequestId,msgPieceId,msgCancelId,msgRejectId,msgHavenoneId,
    msgHaveallId]) : networkPeerProcessMessage sha1 env s p id msg = .ok s := by
  simp only [List.mem_cons,List.not_mem_nil,or_false,not_or] at h
  simp only [networkPeerProcessMessage,h,if_false]

end Dispatch

end Unworkable
