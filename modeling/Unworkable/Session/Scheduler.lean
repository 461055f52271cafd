import Unworkable.Wire.Encode

/-! # The scheduler

Selection of pieces and blocks, the request queue of a peer, choking, endgame, and the
tick that runs them all. Searches that end in one of the loops over blocks can hang when
the piece is so long that the 32-bit offset wraps.
-/
namespace Unworkable
open Library

variable {ι : Type}

/-- `announce`, as far as the session sees it. -/
def announce (env : Env) (s : Session ι) : Except Halt (Session ι) :=
  let s := { s with lastAnnounce := env.now }
  match env.announce with
  | .sent => .ok { s with announceUnderway := true }
  | .truncated => .ok s
  | .failed => .error (.errx "tracker announce")

section Assigned
variable [RbIndex ι]

def schedulerPieceAssigned (st : DlStore ι) (tpp : TorrentPiece) : Except Halt Bool :=
  let taken := fun off => match networkPieceDlFind st none tpp.index off with
    | none => false
    | some d => !((st.get d).outstanding && (st.get d).pc.isNone)
  if (blockOffs tpp.len).all taken then
    if blockLoopWraps tpp.len then .error .hang else .ok true
  else .ok false

/-- The loop of `scheduler_is_endgame`. -/
def endgameFrom (s : Session ι) : List ℕ → Except Halt Bool
  | [] => .ok true
  | i :: rest => do
    let tpp ← torrentPieceFind s.tp i
    if tpp.cksumok then endgameFrom s rest
    else if ← schedulerPieceAssigned s.store tpp then endgameFrom s rest
    else .ok false

def schedulerIsEndgame (s : Session ι) : Except Halt Bool := endgameFrom s (List.range s.tp.numPieces)

end Assigned

section Rarity

def schedulerPieceCmp (x y : PieceCounter) : ℤ := toInt32 (sub32 x.count y.count)

/-- How many established peers have announced piece `i`. -/
def rarityCount (s : Session ι) (i : ℕ) : List PeerId → ℕ → Except Halt ℕ
  | [], count => .ok count
  | p :: rest, count =>
    if !(s.peer p).state.established then rarityCount s i rest count
    else match (s.peer p).bitfield with
      | none => rarityCount s i rest count
      | some bf => do
        if ← utilGetbit bf i then rarityCount s i rest (count + 1) else rarityCount s i rest count

def schedulerPieceRarityarray (env : Env) (s : Session ι) : Except Halt (Session ι) := do
  let pieces ← (List.range s.tp.numPieces).mapM (fun i => do
    let count ← rarityCount s i s.peers 0
    pure (⟨count,i⟩ : PieceCounter))
  .ok { s with
    lastRarity := env.now
    rarityArray := env.qsortPieces.sort schedulerPieceCmp pieces }

variable [RbIndex ι]

/-- The loop of `scheduler_piece_find_rarest`, skipping pieces that are fully assigned.
The bit tested is the one at the rank, not at the piece. -/
def rarestFrom (s : Session ι) (bitfield : Option Bytes) : List (ℕ × PieceCounter) → Except Halt (Option ℕ)
  | [] => .ok none
  | (i,c) :: rest => do
    let has ← match bitfield with
      | none => .ok true
      | some bf => utilGetbit bf i
    if !has then rarestFrom s bitfield rest
    else
      let tpp ← torrentPieceFind s.tp c.idx
      if tpp.cksumok then rarestFrom s bitfield rest
      else if ← schedulerPieceAssigned s.store tpp then rarestFrom s bitfield rest
      else .ok (some tpp.index)

/-- `scheduler_piece_find_rarest` with `FIND_RAREST_IGNORE_ASSIGNED`. -/
def schedulerPieceFindRarest (env : Env) (s : Session ι) (p : PeerId) : Except Halt (Session ι × Option ℕ) := do
  let s ← (if (env.now : ℤ) - s.lastRarity > rarityAge then schedulerPieceRarityarray env s else .ok s)
  if s.rarityArray.length < s.tp.numPieces then .error .wild
  else
    let found ← rarestFrom s (s.peer p).bitfield ((List.range s.tp.numPieces).zip s.rarityArray)
    .ok (s,found)

end Rarity

section Gimme
variable [RbIndex ι]

/-- The search of `scheduler_piece_gimme` through the index for a piece already begun. -/
def gimmeScan (s : Session ι) (bitfield : Option Bytes) : List PieceDlIdxnode → Except Halt (Option ℕ)
  | [] => .ok none
  | n :: rest => do
    let tpp ← torrentPieceFind s.tp n.idx
    if tpp.cksumok then gimmeScan s bitfield rest
    else if ← schedulerPieceAssigned s.store tpp then gimmeScan s bitfield rest
    else match bitfield with
      | none => gimmeScan s bitfield rest
      | some bf => do
        if ← utilGetbit bf n.idx then .ok (some n.idx) else gimmeScan s bitfield rest

def usefulPieces (s : Session ι) (bitfield : Option Bytes) : List ℕ → Except Halt (List ℕ)
  | [] => .ok []
  | i :: rest => match bitfield with
    | none => usefulPieces s bitfield rest
    | some bf => do
      if !(← utilGetbit bf i) then usefulPieces s bitfield rest
      else
        let tpp ← torrentPieceFind s.tp i
        if tpp.cksumok then usefulPieces s bitfield rest
        else if ← schedulerPieceAssigned s.store tpp then usefulPieces s bitfield rest
        else do
          let more ← usefulPieces s bitfield rest
          pure (i :: more)

/-- Choice of a piece in `scheduler_piece_gimme`: one already begun, else a random one
while fewer than four are verified, else the rarest. -/
def gimmePiece (env : Env) (s : Session ι) (p : PeerId) : Except Halt (Session ι × Option ℕ) := do
  match ← gimmeScan s (s.peer p).bitfield (RbIndex.nodes s.store.index) with
  | some idx => .ok (s,some idx)
  | none =>
    if s.tp.goodPieces < 4 ∧ s.tp.numPieces > 4 then
      let pieces ← usefulPieces s (s.peer p).bitfield (List.range s.tp.numPieces)
      .ok (s,pieces[env.rand s.out.length % pieces.length]?)
    else schedulerPieceFindRarest env s p

/-- Length of the request for the block at `off` of a piece. -/
def blockLen (plen off : ℕ) : ℕ := if blockSize > sub32 plen off then sub32 plen off else blockSize

/-- The block search of `scheduler_piece_gimme`: the first block nobody has asked for, or
whose request was orphaned before it completed. -/
def gimmeBlock (st : DlStore ι) (p : PeerId) (idx plen : ℕ) : List ℕ → Except Halt (DlStore ι × DlId)
  | [] => if blockLoopWraps plen then .error .hang
    else .error (.errx "gone to a bad offset %u in idx %u, len %u")
  | off :: rest => match networkPieceDlFind st none idx off with
    | none => .ok (networkPieceDlCreate st p idx off (blockLen plen off))
    | some d =>
      if (st.get d).pc.isNone ∧ (st.get d).outstanding then
        .ok (recycle p st d,d)
      else gimmeBlock st p idx plen rest

/-- `scheduler_piece_gimme`; the flag is `*hint`. -/
def schedulerPieceGimme (env : Env) (s : Session ι) (p : PeerId) (nocreate : Bool) :
    Except Halt (Session ι × Option DlId × Bool) := do
  match ← gimmePiece env s p with
  | (s,none) => .ok (s,none,false)
  | (s,some idx) =>
    let tpp ← torrentPieceFind s.tp idx
    if nocreate then .ok (s,none,true)
    else
      let (store,d) ← gimmeBlock s.store p idx tpp.len (blockOffs tpp.len)
      .ok ({ s with store := store },some d,false)

end Gimme

/-- `network_peer_rxrate`, in 64 bits. -/
def networkPeerRxrate (env : Env) (q : Peer) : ℕ :=
  let rate := (env.now + (18446744073709551616 - q.connected)) % 18446744073709551616
  if rate = 0 then 0 else q.totalrx / rate

/-- `scheduler_threshold_kill`; the flag says that the peer was killed. -/
def schedulerThresholdKill (env : Env) (s : Session ι) (p : PeerId) : Session ι × Bool :=
  let q := s.peer p
  if (q.state.bitfield || q.state.established) && decide ((env.now : ℤ) - q.lastrecv ≥ peerCommsThreshold) then
    (s.setPeer p (fun q => { q with state := .deadOnly }),true)
  else (s,false)

def schedulerDequeueUploads (env : Env) (s : Session ι) (p : PeerId) : Except Halt (Session ι) :=
  match networkPieceUlDequeue s p with
  | (_,none) => .ok s
  | (s,some pu) => networkPeerWritePiece env s p pu.idx pu.off pu.len

section Peer
variable [RbIndex ι]

/-- The request loop of `scheduler_fill_requests`. -/
def fillLoop (env : Env) (p : PeerId) : ℕ → Session ι → Except Halt (Session ι)
  | 0, s => .ok s
  | n + 1, s => do
    match ← schedulerPieceGimme env s p false with
    | (s,none,_) => fillLoop env p n s
    | (s,some d,_) =>
      let pd := s.store.get d
      let s := networkPeerRequestBlock env s p pd.idx pd.off pd.len
      fillLoop env p n (s.setPeer p (fun q => { q with dlQueueLen := add32 q.dlQueueLen 1 }))

def schedulerFillRequests (env : Env) (s : Session ι) (p : PeerId) : Except Halt (Session ι) :=
  let q := s.peer p
  if !q.state.choked && decide (sub32 s.tp.numPieces s.tp.goodPieces > 0) then
    let want := wrap32 (networkPeerRxrate env q) / 8192
    let want := if want < 2 then 2 else if want > maxRequests then maxRequests else want
    let queueLen := if want < q.dlQueueLen then 0 else want - q.dlQueueLen
    fillLoop env p queueLen s
  else .ok s

def networkPeerFree (s : Session ι) (p : PeerId) : Session ι :=
  { s.setPeer p (fun q => { q with uls := [], connfd := false }) with store := peerFreeDls s.store p }

/-- `TAILQ_REMOVE(&sc->peers, p, ..)`, `network_peer_free` and `sc->num_peers--`. -/
def dropPeer (s : Session ι) (p : PeerId) : Session ι :=
  let s := networkPeerFree s p
  { s with peers := s.peers.erase p, numPeers := sub32 s.numPeers 1 }

/-- The part of the tick that looks after one peer. -/
def schedulerPeer (env : Env) (s : Session ι) (p : PeerId) : Except Halt (Session ι) :=
  if (s.peer p).state.dead then .ok (dropPeer s p)
  else match schedulerThresholdKill env s p with
    | (s,true) => .ok s
    | (s,false) => do
      let s ← schedulerDequeueUploads env s p
      schedulerFillRequests env s p

end Peer

section Choke

def schedulerPeerCmp (x y : PeerCounter) : ℤ :=
  toInt32 (wrap32 ((y.rate + (18446744073709551616 - x.rate)) % 18446744073709551616))

def schedulerPeerSpeedrank (env : Env) (s : Session ι) : Except Halt (List PeerCounter) :=
  if s.peers.length ≠ s.numPeers then
    .error (.errx "scheduler_peer_speedrank: peer number mismatch (i: %u num_peers: %u)")
  else
    let rank := s.peers.map (fun p =>
      let q := s.peer p
      let rate := networkPeerRxrate env q
      (⟨if q.state.interested then (if rate = 0 then 1 else rate) else 0,p⟩ : PeerCounter))
    .ok (env.qsortPeers.sort schedulerPeerCmp rank)

/-- The optimistic pick: `j` turns over the peer list, each testing the head of the
ranking instead of the peer it stands at. -/
def optimisticPick (env : Env) (s : Session ι) (pc : List PeerCounter) : Except Halt (Option PeerId) :=
  let interested := (s.peers.filter (fun p => (s.peer p).state.interested)).length
  if interested = 0 then .ok none
  else
    let j := env.rand s.out.length % interested
    let stay := match pc.head? with
      | some c => (s.peer c.peer).state.interested
      | none => false
    if stay then .ok s.peers.head?
    else if s.peers.length < j then .error (.errx "NULL peer")
    else match s.peers[j]? with
      | some p => .ok (some p)
      | none => .error .wild

def schedulerChokeAlgorithm (env : Env) (s : Session ι) : Except Halt (Session ι) :=
  if env.now % 10 ≠ 0 then .ok s
  else do
    let pc ← schedulerPeerSpeedrank env s
    let top := (pc.take (min 3 s.numPeers)).map PeerCounter.peer
    let s := top.foldl (fun s p =>
      if !(s.peer p).state.amchoking then s
      else if !(s.peer p).state.interested then s
      else networkPeerWriteUnchoke env s p) s
    let p2 ← (if env.now % 30 = 0 then optimisticPick env s pc else .ok none)
    let s := match p2 with
      | some p => networkPeerWriteUnchoke env s p
      | none => s
    .ok (s.peers.foldl (fun s p =>
      if p ∈ top ∨ (top ≠ [] ∧ p2 = some p) then s
      else if !(s.peer p).state.amchoking then networkPeerWriteChoke env s p
      else s) s)

end Choke

section Endgame
variable [RbIndex ι]

/-- One block of the endgame loop: ask the peer for it unless it is already queued there. -/
def endgameBlock (env : Env) (p : PeerId) (i plen : ℕ) (s : Session ι) (off : ℕ) : Session ι :=
  if (s.store.lists p).any (fun d => (s.store.get d).idx = i ∧ (s.store.get d).off = off) then s
  else
    let r := networkPieceDlCreate s.store p i off (blockLen plen off)
    let s := networkPeerRequestBlock env { s with store := r.1 } p i off (blockLen plen off)
    s.setPeer p (fun q => { q with dlQueueLen := add32 q.dlQueueLen 1 })

/-- The endgame loop over the peers, for piece `i`. A peer whose bit is set is skipped. -/
def endgamePeer (env : Env) (i plen : ℕ) (s : Session ι) (p : PeerId) : Except Halt (Session ι) :=
  match (s.peer p).bitfield with
  | none => .ok s
  | some bf => do
    if ← utilGetbit bf i then .ok s
    else if (s.peer p).state.choked then .ok s
    else if blockLoopWraps plen then .error .hang
    else .ok ((blockOffs plen).foldl (endgameBlock env p i plen) s)

def endgamePiece (env : Env) (s : Session ι) (i : ℕ) : Except Halt (Session ι) := do
  let tpp ← torrentPieceFind s.tp i
  if tpp.cksumok then .ok s else s.peers.foldlM (endgamePeer env i tpp.len) s

def schedulerEndgameAlgorithm (env : Env) (s : Session ι) : Except Halt (Session ι) :=
  (List.range s.tp.numPieces).foldlM (endgamePiece env) s

end Endgame

def scheduler [RbIndex ι] (env : Env) (s : Session ι) : Except Halt (Session ι) := do
  let piecesLeft := sub32 s.tp.numPieces s.tp.goodPieces
  let s ← s.peers.foldlM (schedulerPeer env) s
  let s ← schedulerChokeAlgorithm env s
  let endgame ← schedulerIsEndgame s
  let s ← (if endgame then schedulerEndgameAlgorithm env s else .ok s)
  if s.numPeers < peersWanted ∧ piecesLeft > 0 ∧ !s.announceUnderway ∧
      (env.now : ℤ) - s.lastAnnounce > minAnnounceInterval then announce env s
  else .ok s

end Unworkable
