import Unworkable.Library.ChunkedReader
import Unworkable.Session.Message

/-! # Input from a peer

`network_handle_peer_response`: the two handshake stages, the length field and the body
of each message. The four pieces below are the set-up of a read, the read itself, what
follows a complete read, and the code at the label `out`; the resumable reader of the
library puts them together as the callback does, entering itself again while the input
buffer holds data.
-/
namespace Unworkable
open Library

/-- A call of `network_peer_process_message`, with the peer as it is then. -/
structure Call where
  id : UInt8
  msg : Bytes
  peer : Peer
  deriving DecidableEq, Repr

/-- Set-up of the next read when nothing is pending: the handshake prefix, or a length field. -/
def armRead (env : Env) (q : Peer) : Peer :=
  if q.rxpending = 0 then
    if q.state.handshake1 then
      { q with lastrecv := env.now, rxmsg := [], rxmsglen := 20, rxpending := 20 }
    else { q with state := { q.state with gotlen := false }, rxmsg := [], rxmsglen := 4, rxpending := 4 }
  else q

/-- `bufferevent_read` behind what is already in the receive buffer. -/
def pushRead (bs : Bytes) (q : Peer) : Peer :=
  { q with rxmsg := q.rxmsg ++ bs, totalrx := q.totalrx + bs.length, rxpending := q.rxpending - bs.length }

/-- The handshake prefix is complete: only the plain protocol string is taken. -/
def finishHandshake1 (q : Peer) : Peer :=
  let q := { q with pstrlen := (q.rxmsg.headD 0).toNat }
  if q.pstrlen = 19 ∧ (q.rxmsg.drop 1).take 19 = btProtocol then
    { q with
      rxmsg := [], rxpending := 48, rxmsglen := 48
      state := { q.state with handshake1 := false, handshake2 := true } }
  else { q with state := .deadOnly }

/-- The rest of the handshake is complete. Byte 27 counts from the reserved bytes here. -/
def finishHandshake2 (infoHash : Bytes) (q : Peer) : Peer :=
  let q := { q with
    infoHash := (q.rxmsg.drop 8).take 20, id := (q.rxmsg.drop 28).take 20
    state := { q.state with fast := q.state.fast || (q.rxmsg.getD 27 0).toNat.testBit 2 } }
  if q.infoHash ≠ infoHash then { q with state := .deadOnly }
  else { q with
    rxmsg := [], rxpending := 0
    state := { q.state with bitfield := true, sendbitfield := true, handshake2 := false } }

/-- The length field is complete. A peer killed in the middle of a body comes here with
that body, which may be shorter than the field. -/
def finishLength (env : Env) (q : Peer) : Peer :=
  let len := msgField env q.rxmsg 0
  if len > maxMessageLen then { q with rxmsglen := len, state := .deadOnly }
  else
    -- a keep-alive leaves nothing pending, so that the next read is a length field again
    { q with rxmsg := [], rxmsglen := len, rxpending := len, state := { q.state with gotlen := true } }

section Pieces
variable {ι : Type} (env : Env) (p : PeerId)

/-- The message that tells a peer which pieces are there, "fast extension gives us a
couple more options". -/
def writePieces (s : Session ι) : Except Halt (Session ι) :=
  if (s.peer p).state.fast then
    if torrentEmpty s.tp then .ok (networkPeerWriteHavenone env s p)
    else if s.tp.goodPieces = s.tp.numPieces then .ok (networkPeerWriteHaveall env s p)
    else networkPeerWriteBitfield env s p
  else if torrentEmpty s.tp then .ok s
  else networkPeerWriteBitfield env s p

/-- The label `out`: "if its time to send the bitfield, and we actually have some pieces". -/
def sendBitfield (s : Session ι) : Except Halt (Session ι) :=
  if (s.peer p).state.sendbitfield then do
    let s ← writePieces env p s
    .ok (s.setState p (fun b => { b with sendbitfield := false }))
  else .ok s

end Pieces

section Callback
variable {ι : Type} [RbIndex ι] (sha1 : Bytes → Bytes) (env : Env) (p : PeerId)

def finishRead (s : Session ι) : Traced Call Halt (Session ι) :=
  let q := s.peer p
  if q.state.handshake1 then .pure (s.setPeer p finishHandshake1)
  else if q.state.handshake2 then .pure (s.setPeer p (finishHandshake2 s.tp.mi.infoHash))
  else if !q.state.gotlen then .pure (s.setPeer p (finishLength env))
  else
    let id := q.rxmsg.headD 0
    ⟨[⟨id,q.rxmsg,q⟩],(networkPeerProcessMessage sha1 env s p id q.rxmsg).map
      (fun s => s.setPeer p (fun q => { q with rxmsg := [] }))⟩

/-- `network_handle_peer_response` as a resumable reader over the session. -/
def peerReader : Reader Call Halt (Session ι) where
  arm s := s.setPeer p (armRead env)
  pending s := (s.peer p).rxpending
  push s bs := s.setPeer p (pushRead bs)
  finish := finishRead sha1 env p
  settle := sendBitfield env p

/-- One entry of `network_handle_peer_response`, up to its call of itself. -/
def peerResponse (s : Session ι) (avail : Bytes) : Traced Call Halt (Session ι) :=
  (peerReader sha1 env p).invoke s avail

/-- `network_handle_peer_response` on an input buffer, allowed one entry for each byte; it
returns the session and what is left in the buffer. -/
def networkHandlePeerResponse (s : Session ι) (avail : Bytes) : Option (Traced Call Halt (Session ι × Bytes)) :=
  (peerReader sha1 env p).handle avail.length s avail

/-- The read events of a peer whose data arrives in the given portions. -/
def networkHandlePeerResponses (s : Session ι) (chunks : List Bytes) :
    Option (Traced Call Halt (Session ι × Bytes)) := (peerReader sha1 env p).handles s [] chunks

end Callback

end Unworkable
