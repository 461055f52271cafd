import Unworkable.Session.Requests

/-! # Messages to peers

Every writer of the source lays out a four-byte big-endian length, the message id and
its fields, and hands the bytes to `network_peer_write`, which appends them to the
record of what was sent.
-/
namespace Unworkable
open Library

/-- `htonl` and `memcpy` of a 32-bit word. -/
def be32 (n : ℕ) : Bytes :=
  [UInt8.ofNat (n / 16777216),UInt8.ofNat (n / 65536),UInt8.ofNat (n / 256),UInt8.ofNat n]

/-- `memcpy` and `ntohl` of a 32-bit word. -/
@[irreducible] def readBe32 (a b c d : UInt8) : ℕ := a.toNat * 16777216 + b.toNat * 65536 + c.toNat * 256 + d.toNat

theorem readBe32_be32 {n : ℕ} (h : n < 4294967296) :
    readBe32 (UInt8.ofNat (n / 16777216)) (UInt8.ofNat (n / 65536)) (UInt8.ofNat (n / 256))
      (UInt8.ofNat n) = n := by
  simp only [readBe32,UInt8.toNat_ofNat']
  omega

def msgChokeId : UInt8 := 0x00
def msgUnchokeId : UInt8 := 0x01
def msgInterestedId : UInt8 := 0x02
def msgNotinterestedId : UInt8 := 0x03
def msgHaveId : UInt8 := 0x04
def msgBitfieldId : UInt8 := 0x05
def msgRequestId : UInt8 := 0x06
def msgPieceId : UInt8 := 0x07
def msgCancelId : UInt8 := 0x08
def msgSuggestId : UInt8 := 0x0D
def msgHaveallId : UInt8 := 0x0E
def msgHavenoneId : UInt8 := 0x0F
def msgRejectId : UInt8 := 0x10
def msgAllowedfastId : UInt8 := 0x11

/-- The common layout: length of what follows, id, fields. -/
def message (id : UInt8) (fields : Bytes) : Bytes := be32 (fields.length + 1) ++ id :: fields

variable {ι : Type}

def networkPeerWrite (env : Env) (s : Session ι) (p : PeerId) (msg : Bytes) : Session ι :=
  { s.setPeer p (fun q => { q with lastsend := env.now }) with out := s.out ++ [(p,msg)] }

/-- "BitTorrent protocol". -/
def btProtocol : Bytes :=
  [0x42,0x69,0x74,0x54,0x6f,0x72,0x72,0x65,0x6e,0x74,0x20,0x70,0x72,0x6f,0x74,0x6f,0x63,0x6f,0x6c]

/-- The bytes of `network_peer_handshake`: the reserved bytes announce the fast extension. -/
def handshakeBytes (infoHash peerid : Bytes) : Bytes :=
  19 :: btProtocol ++ [0,0,0,0,0,0,0,0x04] ++ infoHash ++ peerid

section Writers
variable (env : Env) (s : Session ι) (p : PeerId)

def networkPeerHandshake : Session ι :=
  let s := s.setPeer p (fun q => { q with connected := env.now })
  networkPeerWrite env s p (handshakeBytes s.tp.mi.infoHash (s.peerid.take 20))

def networkPeerWriteHave (idx : ℕ) : Session ι := networkPeerWrite env s p (message msgHaveId (be32 idx))

def networkPeerRequestBlock (idx off len : ℕ) : Session ι :=
  networkPeerWrite env s p (message msgRequestId (be32 idx ++ be32 off ++ be32 len))

/-- `network_peer_cancel_piece`, to the peer of the request. -/
def networkPeerCancelPiece (pd : PieceDl) : Session ι :=
  networkPeerWrite env s p (message msgCancelId (be32 pd.idx ++ be32 pd.off ++ be32 pd.len))

def networkPeerRejectBlock (idx off len : ℕ) : Session ι :=
  networkPeerWrite env s p (message msgRejectId (be32 idx ++ be32 off ++ be32 len))

def networkPeerWriteInterested : Session ι :=
  let s := s.setPeer p (fun q => { q with state := { q.state with aminterested := true } })
  networkPeerWrite env s p (message msgInterestedId [])

def networkPeerWriteBitfield : Except Halt (Session ι) := do
  let bitfield ← torrentBitfieldGet s.tp
  .ok (networkPeerWrite env s p (message msgBitfieldId bitfield))

def networkPeerWriteUnchoke : Session ι :=
  let s := s.setPeer p (fun q => { q with state := { q.state with amchoking := false } })
  networkPeerWrite env s p (message msgUnchokeId [])

def networkPeerWriteChoke : Session ι :=
  let s := s.setPeer p (fun q => { q with state := { q.state with amchoking := true } })
  networkPeerWrite env s p (message msgChokeId [])

def networkPeerWriteKeepalive : Session ι := networkPeerWrite env s p [0,0,0,0]

def networkPeerWriteHaveall : Session ι := networkPeerWrite env s p (message msgHaveallId [])

def networkPeerWriteHavenone : Session ι := networkPeerWrite env s p (message msgHavenoneId [])

/-- `network_peer_write_piece`: map the piece if need be, read the block and send it. The
message length is a 32-bit sum; where it wraps the copy runs past the allocated message. -/
def networkPeerWritePiece (idx off len : ℕ) : Except Halt (Session ι) := do
  let _ ← torrentPieceFind s.tp idx
  let tp ← ensureMapped s.tp idx
  let s := { s with tp := tp }
  match ← torrentBlockRead tp idx off len with
  | none => .ok s
  | some d =>
    if 4294967296 ≤ 13 + len then .error .wild
    else
      let data := padded env.stale d.1 len
      let s := networkPeerWrite env s p (message msgPieceId (be32 idx ++ be32 off ++ data))
      .ok (s.setPeer p (fun q => { q with totaltx := q.totaltx + (13 + len) }))

end Writers

def networkPieceUlEnqueue (s : Session ι) (p : PeerId) (idx off len : ℕ) : Session ι :=
  s.setPeer p (fun q => { q with uls := q.uls ++ [⟨idx,off,len⟩] })

def networkPieceUlDequeue (s : Session ι) (p : PeerId) : Session ι × Option PieceUl :=
  (s.setPeer p (fun q => { q with uls := q.uls.tail }),(s.peer p).uls.head?)

end Unworkable
