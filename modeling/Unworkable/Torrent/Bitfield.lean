import Unworkable.Torrent.Storage

/-! # Bit fields of pieces

Most-significant-bit-first packing, the bit field of verified pieces, and the resume
file that stores it. A bit outside the allocated bytes is a wild access.
-/
namespace Unworkable
open Library

/-- Size in bytes of a bit field for `n` pieces, computed in 32 bits. -/
def bitfieldLen (n : ℕ) : ℕ := add32 n 7 / 8

def utilSetbit (bitfield : Bytes) (bit : ℕ) : Except Halt Bytes :=
  match bitfield[bit / 8]? with
  | none => .error .wild
  | some b => .ok (bitfield.set (bit / 8) (UInt8.ofNat (b.toNat ||| 2 ^ (7 - bit % 8))))

def utilGetbit (bitfield : Bytes) (bit : ℕ) : Except Halt Bool :=
  match bitfield[bit / 8]? with
  | none => .error .wild
  | some b => .ok (b.toNat.testBit (7 - bit % 8))

def torrentBitfieldGet (tp : Torrent) : Except Halt Bytes :=
  (List.range tp.numPieces).foldlM (fun bf i => do
    let tpp ← torrentPieceFind tp i
    if tpp.cksumok then utilSetbit bf i else .ok bf) (List.replicate (bitfieldLen tp.numPieces) 0)

/-- `torrent_empty`: no piece is verified. -/
def torrentEmpty (tp : Torrent) : Bool := (List.range tp.numPieces).all (fun i => !(tp.piece i).cksumok)

/-- `torrent_fastresume_dump`, in one step. The source opens the file with `"w"`, which empties it, and then
writes and closes it; a name that is too long and a failing `fopen` end the program. A file that is empty or
cut off, and these errors, are left out here. -/
def torrentFastresumeDump (tp : Torrent) : Except Halt Torrent := do
  let bitfield ← torrentBitfieldGet tp
  .ok { tp with funresume := some bitfield }

/-- One turn of the loop of `torrent_fastresume_load`. -/
def fastresumeTurn (bitfield : Bytes) (tp : Torrent) (i : ℕ) : Except Halt Torrent := do
  let tpp ← torrentPieceFind tp i
  let bit ← utilGetbit bitfield i
  .ok (if bit then
    { tp.setPiece i (fun t => { t with cksumok := true }) with
      goodPieces := add32 tp.goodPieces 1, downloaded := tp.downloaded + tpp.len }
    else tp)

/-- `torrent_fastresume_load` on the contents of the resume file; a short file leaves the
rest of the zeroed bit field as it is. -/
def torrentFastresumeLoad (tp : Torrent) (contents : Bytes) : Except Halt Torrent :=
  let len := bitfieldLen tp.numPieces
  let bitfield := contents.take len ++ List.replicate (len - contents.length) 0
  (List.range tp.numPieces).foldlM (fastresumeTurn bitfield) tp

section Startup
variable (sha1 : Bytes → Bytes) (stale : ℕ → UInt8)

/-- One turn of the start-up loop in `main`, run when there is no resume file. -/
def startupPiece (tp : Torrent) (i : ℕ) : Except Halt Torrent := do
  let _ ← torrentPieceFind tp i
  let tp ← torrentPieceMap tp i
  if tp.isnew then .ok (torrentPieceUnmap tp i)
  else do
    let (tp,good) ← torrentPieceCheckhash sha1 stale tp i
    let tp := if good then
      { tp with goodPieces := add32 tp.goodPieces 1, downloaded := tp.downloaded + (tp.piece i).len }
      else tp
    .ok (torrentPieceUnmap tp i)

/-- The start-up hash check of `main` over all pieces. -/
def startup (tp : Torrent) : Except Halt Torrent := (List.range tp.numPieces).foldlM (startupPiece sha1 stale) tp

end Startup

/-- What `network_start_torrent` does to the counters of the torrent. -/
def networkStartTorrent (tp : Torrent) : Torrent :=
  { tp with left := if tp.goodPieces = tp.numPieces then 0 else tp.left, downloaded := 0 }

end Unworkable
