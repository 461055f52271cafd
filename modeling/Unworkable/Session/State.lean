import Unworkable.Library.Comparator
import Unworkable.Torrent.Bitfield

/-! # Peers, requests and the session

Peers and block requests are heap objects of the source; here they are numbers with a
record behind each. A request is linked from two intrusive lists, the one of its peer
and the one of its index node; both kinds of list head live in `DlStore`, so that an
operation on requests is a function of the store alone.
-/
namespace Unworkable
open Library

abbrev PeerId := ℕ
abbrev DlId := ℕ

def maxMessageLen : ℕ := 16777215
def maxRequests : ℕ := 100
def peerCommsThreshold : ℕ := 300
def peersWanted : ℕ := 10
def minAnnounceInterval : ℕ := 60
def rarityAge : ℕ := 5

/-- The bits of `p->state`. -/
structure PeerState where
  handshake1 : Bool := false
  bitfield : Bool := false
  established : Bool := false
  amchoking : Bool := false
  choked : Bool := false
  aminterested : Bool := false
  interested : Bool := false
  dead : Bool := false
  gotlen : Bool := false
  crypted : Bool := false
  handshake2 : Bool := false
  sendbitfield : Bool := false
  fast : Bool := false
  deriving DecidableEq, Repr

/-- `p->state = 0; p->state |= PEER_STATE_DEAD`. -/
def PeerState.deadOnly : PeerState := { dead := true }

structure PieceUl where
  idx : ℕ
  off : ℕ
  len : ℕ
  deriving DecidableEq, Repr

/-- `struct peer`, less its request list. `rxmsg` holds the part of the receive buffer that has been
filled. `totalrx` and `totaltx` have 64 bits in the source, and do not wrap here. -/
structure Peer where
  addr : ℕ
  connfd : Bool
  state : PeerState
  rxpending : ℕ
  rxmsglen : ℕ
  rxmsg : Bytes
  bitfield : Option Bytes
  pstrlen : ℕ
  id : Bytes
  infoHash : Bytes
  uls : List PieceUl
  lastrecv : ℕ
  connected : ℕ
  lastsend : ℕ
  totalrx : ℕ
  totaltx : ℕ
  dlQueueLen : ℕ
  deriving DecidableEq, Repr

structure PieceDl where
  pc : Option PeerId
  idx : ℕ
  off : ℕ
  len : ℕ
  bytes : ℕ
  deriving DecidableEq, Repr

/-- Still outstanding: the bytes read so far are not the bytes asked for. -/
def PieceDl.outstanding (pd : PieceDl) : Bool := decide (pd.bytes ≠ pd.len)

/-- `struct piece_dl_idxnode`: the requests for one block. -/
structure PieceDlIdxnode where
  idx : ℕ
  off : ℕ
  dls : List DlId
  deriving DecidableEq, Repr

/-- What the source does with its index of requests: `RB_FIND`, `RB_INSERT`, a change of the list of a
node that is found, `RB_REMOVE` and `RB_FOREACH`. -/
class RbIndex (ι : Type) where
  empty : ι
  find : ℕ → ℕ → ι → Option PieceDlIdxnode
  insert : PieceDlIdxnode → ι → ι
  modify : ℕ → ℕ → (List DlId → List DlId) → ι → ι
  remove : ℕ → ℕ → ι → ι
  nodes : ι → List PieceDlIdxnode

/-- All live requests, with their index and the request list of each peer. The index is the list of the
nodes unless another one is named. -/
structure DlStore (ι : Type := List PieceDlIdxnode) where
  dl : DlId → Option PieceDl
  next : DlId
  index : ι
  lists : PeerId → List DlId

def DlStore.empty {ι : Type} [RbIndex ι] : DlStore ι := ⟨fun _ => none,0,RbIndex.empty,fun _ => []⟩

structure PieceCounter where
  count : ℕ
  idx : ℕ
  deriving DecidableEq, Repr

structure PeerCounter where
  rate : ℕ
  peer : PeerId
  deriving DecidableEq, Repr

/-- `struct session`. `out` records every message written, with its receiver. -/
structure Session (ι : Type := List PieceDlIdxnode) where
  tp : Torrent
  store : DlStore ι
  peers : List PeerId
  peer : PeerId → Peer
  nextPeer : PeerId
  numPeers : ℕ
  maxfds : ℕ
  peerid : Bytes
  rarityArray : List PieceCounter
  lastRarity : ℕ
  announceUnderway : Bool
  lastAnnounce : ℕ
  seed : Bool
  out : List (PeerId × Bytes)

/-- How `announce` ends: the request is on its way, it did not fit its buffer, or the
tracker could not be reached. -/
inductive AnnounceResult where
  | sent
  | truncated
  | failed
  deriving DecidableEq, Repr

/-- What a handler takes from outside: the clock, the random source, the outcome of an
announce, the peer connections that fail, the bytes that happen to lie behind a
receive buffer, and `qsort`, for arrays of either kind. A draw is numbered by the messages
written before it: between two draws that choose anything a message is written. -/
structure Env where
  now : ℕ
  rand : ℕ → ℕ
  announce : AnnounceResult
  connectFails : PeerId → Bool
  stale : ℕ → UInt8
  qsortPieces : Sorter PieceCounter
  qsortPeers : Sorter PeerCounter

/-- Assignments through `p`. -/
def Session.setPeer {ι : Type} (s : Session ι) (p : PeerId) (f : Peer → Peer) : Session ι :=
  { s with peer := Function.update s.peer p (f (s.peer p)) }

/-- `network_peer_create`, for a peer with the given address. -/
def networkPeerCreate (addr : ℕ) : Peer where
  addr := addr
  connfd := false
  state := { choked := true, amchoking := true }
  rxpending := 0
  rxmsglen := 0
  rxmsg := []
  bitfield := none
  pstrlen := 0
  id := List.replicate 20 0
  infoHash := List.replicate 20 0
  uls := []
  lastrecv := 0
  connected := 0
  lastsend := 0
  totalrx := 0
  totaltx := 0
  dlQueueLen := 0

/-- The session `network_start_torrent` sets up, before the first tracker answer. -/
def Session.initial {ι : Type} [RbIndex ι] (tp : Torrent) (maxfds : ℕ) (peerid : Bytes) (seed : Bool) (now : ℕ) :
    Session ι where
  tp := networkStartTorrent tp
  store := .empty
  peers := []
  peer _ := networkPeerCreate 0
  nextPeer := 0
  numPeers := 0
  maxfds := maxfds
  peerid := peerid
  rarityArray := []
  lastRarity := 0
  announceUnderway := true
  lastAnnounce := now
  seed := seed
  out := []

section Simp
variable {ι : Type} (s : Session ι) (p : PeerId) (f : Peer → Peer)

@[simp] theorem Session.setPeer_tp : (s.setPeer p f).tp = s.tp := rfl
@[simp] theorem Session.setPeer_store : (s.setPeer p f).store = s.store := rfl
@[simp] theorem Session.setPeer_peers : (s.setPeer p f).peers = s.peers := rfl
@[simp] theorem Session.setPeer_nextPeer : (s.setPeer p f).nextPeer = s.nextPeer := rfl
@[simp] theorem Session.setPeer_out : (s.setPeer p f).out = s.out := rfl
@[simp] theorem Session.setPeer_self : (s.setPeer p f).peer p = f (s.peer p) := by simp [setPeer]
theorem Session.setPeer_ne {q : PeerId} (h : q ≠ p) : (s.setPeer p f).peer q = s.peer q := by
  simp [setPeer,Function.update_of_ne h]

@[simp] theorem Session.setPeer_setPeer (g : Peer → Peer) :
    (s.setPeer p f).setPeer p g = s.setPeer p (fun q => g (f q)) := by
  simp [setPeer]

theorem Session.setPeer_const : s.setPeer p f = s.setPeer p (fun _ => f (s.peer p)) := rfl

theorem Session.setPeer_eq_self (h : f (s.peer p) = s.peer p) : s.setPeer p f = s := by
  simp only [setPeer,h,Function.update_eq_self]

end Simp

end Unworkable
