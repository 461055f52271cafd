import Unworkable.Library.Region

/-! # The torrent record and its piece array

The metainfo part of `struct torrent` never changes after `torrent_parse_file`; it
carries the bounds its C types give. Piece descriptors, files, counters and the
resume file are the mutable part. A mapped range is a view of a file: reading and
writing through it reads and writes the file's bytes. Each entry of the file list is a
file of its own, also where two of them have the same path.
-/
namespace Unworkable
open Library

/-- Ways in which the process stops inside a handler. -/
inductive Halt where
  /-- `exit(0)` when the last piece is verified and the client does not seed. -/
  | exit
  /-- `errx(1, ..)`, with the format text of the message. -/
  | errx (msg : String)
  /-- A loop whose 32-bit counter wraps before it reaches its bound. -/
  | hang
  /-- An access outside the object it is made through. -/
  | wild
  deriving DecidableEq, Repr

def blockSize : ℕ := 16384
def digestLength : ℕ := 20

inductive TorrentType where
  | multifile
  | singlefile
  deriving DecidableEq, Repr

/-- The fields of `struct torrent_file` read from the metainfo. -/
structure FileInfo where
  fileLength : ℤ
  path : Bytes
  deriving DecidableEq, Repr

/-- What `torrent_parse_file` leaves behind for good. A single-file torrent has the
one file of `body.singlefile.tfp`. -/
structure Metainfo where
  type : TorrentType
  name : Bytes
  files : List FileInfo
  pieces : Bytes
  pieceLength : ℕ
  infoHash : Bytes
  pieceLength_lt : pieceLength < 4294967296
  infoHash_length : infoHash.length = 20
  single_file : type = .singlefile → files.length = 1

theorem length_zeroHash : (List.replicate 20 (0 : UInt8)).length = 20 := List.length_replicate

theorem one_lt_word : 1 < 4294967296 := by decide
theorem two_lt_word : 2 < 4294967296 := by decide

/-- `num_pieces`, a `size_t` quotient stored in 32 bits. -/
def Metainfo.numPieces (mi : Metainfo) : ℕ := wrap32 (mi.pieces.length / digestLength)

theorem Metainfo.numPieces_lt (mi : Metainfo) : mi.numPieces < 4294967296 := wrap32_lt _

def Metainfo.fileLength (mi : Metainfo) : ℤ := (mi.files.map FileInfo.fileLength).headD 0
def Metainfo.totalLength (mi : Metainfo) : ℤ := (mi.files.map FileInfo.fileLength).sum

/-- The size of a torrent, from the field its type has for it. -/
def Metainfo.len (mi : Metainfo) : ℤ :=
  match mi.type with
  | .singlefile => mi.fileLength
  | .multifile => mi.totalLength

/-- The digest the metainfo gives for piece `i`. -/
def Metainfo.digest (mi : Metainfo) (i : ℕ) : Bytes := window mi.pieces (digestLength * i) digestLength

/-- One `struct torrent_mmap`: the range `[off, off + len)` of a file. -/
structure Mmap where
  file : ℕ
  off : ℕ
  len : ℕ
  deriving DecidableEq, Repr

structure TorrentPiece where
  cksumok : Bool
  mapped : Bool
  len : ℕ
  index : ℕ
  mmaps : List Mmap
  deriving DecidableEq, Repr

/-- The run-time part of `struct torrent_file`; `none` is a file that is not there.
`rdonly` says how the descriptor was opened. -/
structure FileState where
  fd : Bool
  refs : ℕ
  data : Option Bytes
  rdonly : Bool
  deriving DecidableEq, Repr

/-- The three counters have 64 bits in the source, and do not wrap here. -/
structure Torrent where
  mi : Metainfo
  piece : ℕ → TorrentPiece
  disk : ℕ → FileState
  goodPieces : ℕ
  uploaded : ℤ
  downloaded : ℤ
  left : ℤ
  isnew : Bool
  /-- Contents of `<torrent_file>.funresume`, once written. -/
  funresume : Option Bytes
  /-- `sysconf(_SC_PAGESIZE)`. -/
  pagesize : ℕ

def Torrent.numPieces (tp : Torrent) : ℕ := tp.mi.numPieces

theorem Torrent.numPieces_lt (tp : Torrent) : tp.numPieces < 4294967296 := wrap32_lt _

def Torrent.setPiece (tp : Torrent) (i : ℕ) (f : TorrentPiece → TorrentPiece) : Torrent :=
  { tp with piece := Function.update tp.piece i (f (tp.piece i)) }

def Torrent.setFile (tp : Torrent) (i : ℕ) (f : FileState → FileState) : Torrent :=
  { tp with disk := Function.update tp.disk i (f (tp.disk i)) }

/-- The bytes of a file, none if it is not there. -/
def Torrent.fileData (tp : Torrent) (i : ℕ) : Bytes := (tp.disk i).data.getD []

@[simp] theorem Torrent.setPiece_mi (tp : Torrent) (i : ℕ) (f : TorrentPiece → TorrentPiece) :
    (tp.setPiece i f).mi = tp.mi := rfl
@[simp] theorem Torrent.setPiece_disk (tp : Torrent) (i : ℕ) (f : TorrentPiece → TorrentPiece) :
    (tp.setPiece i f).disk = tp.disk := rfl
@[simp] theorem Torrent.setPiece_self (tp : Torrent) (i : ℕ) (f : TorrentPiece → TorrentPiece) :
    (tp.setPiece i f).piece i = f (tp.piece i) := by simp [setPiece]
theorem Torrent.setPiece_ne (tp : Torrent) {i j : ℕ} (f : TorrentPiece → TorrentPiece) (h : j ≠ i) :
    (tp.setPiece i f).piece j = tp.piece j := by simp [setPiece,Function.update_of_ne h]
@[simp] theorem Torrent.setFile_mi (tp : Torrent) (i : ℕ) (f : FileState → FileState) :
    (tp.setFile i f).mi = tp.mi := rfl
@[simp] theorem Torrent.setFile_piece (tp : Torrent) (i : ℕ) (f : FileState → FileState) :
    (tp.setFile i f).piece = tp.piece := rfl

@[simp] theorem Torrent.setPiece_fileData (tp : Torrent) (i j : ℕ) (f : TorrentPiece → TorrentPiece) :
    (tp.setPiece i f).fileData j = tp.fileData j := rfl
theorem Torrent.setFile_fileData (tp : Torrent) (i j : ℕ) (f : FileState → FileState) :
    (tp.setFile i f).fileData j = if j = i then (f (tp.disk i)).data.getD [] else tp.fileData j := by
  simp only [fileData,setFile,Function.update_apply]
  split <;> rfl

/-- `torrent_piece_find`. With no pieces at all the unsigned bound is the largest
word, and the address computed lies outside the array. -/
def torrentPieceFind (tp : Torrent) (idx : ℕ) : Except Halt TorrentPiece :=
  if idx > sub32 tp.numPieces 1 then .error (.errx "torrent_piece_find: index %u out of bounds")
  else if idx < tp.numPieces then .ok (tp.piece idx)
  else .error .wild

theorem torrentPieceFind_ok {tp : Torrent} {idx : ℕ} {tpp : TorrentPiece} :
    torrentPieceFind tp idx = .ok tpp ↔ idx < tp.numPieces ∧ tp.piece idx = tpp := by
  unfold torrentPieceFind
  by_cases hlt : idx < tp.numPieces
  · have hg : ¬ idx > sub32 tp.numPieces 1 := by
      rw [gt_sub32_one tp.numPieces_lt (by omega)]
      omega
    simp [hg,hlt]
  · simp only [hlt,if_false,false_and,iff_false]
    split <;> simp

/-- Length `torrent_pieces_create` gives to piece `i`. The two branches compute the
irregular last length differently. -/
def pieceLen (mi : Metainfo) (i : ℕ) : ℕ :=
  match mi.type with
  | .singlefile =>
    if i = sub32 mi.numPieces 1 then wrapInt32 (mi.fileLength - mi.pieceLength * i) else mi.pieceLength
  | .multifile =>
    if i = sub32 mi.numPieces 1 then
      wrapInt32 (mi.totalLength - mul32 (sub32 mi.numPieces 1) mi.pieceLength)
    else mi.pieceLength

theorem pieceLen_lt (mi : Metainfo) (i : ℕ) : pieceLen mi i < 4294967296 := by
  unfold pieceLen
  cases mi.type <;> dsimp only <;> split
  any_goals exact wrapInt32_lt _
  all_goals exact mi.pieceLength_lt

/-- `torrent_pieces_create` on a freshly parsed torrent, which has no file open. -/
def torrentPiecesCreate (pagesize : ℕ) (mi : Metainfo) (disk : ℕ → FileState) : Torrent where
  mi := mi
  piece i := { cksumok := false, mapped := false, len := pieceLen mi i, index := i, mmaps := [] }
  disk k := { fd := false, refs := 0, data := (disk k).data, rdonly := false }
  goodPieces := 0
  uploaded := 0
  downloaded := 0
  left := if mi.type = .singlefile then mi.fileLength else mi.totalLength
  isnew := false
  funresume := none
  pagesize := pagesize

end Unworkable
