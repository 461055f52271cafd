import Unworkable.Bencode.Parser
import Unworkable.Torrent.Strstr

/-! # Reading a metainfo file

`torrent_parse_file` in a process whose parses have all succeeded. Every field is the first
one of its name in the tree, wherever it stands. A string is the buffer it was lexed into.
-/
namespace Unworkable
open Library

/-- `node->end`, which is zero in all but dictionaries. -/
def Node.stop : Node → ℕ
  | .dict _ stop => stop
  | _ => 0

/-- `struct torrent_file`. The path of a file among several is in a buffer of its own. -/
structure ParsedFile where
  fileLength : ℤ
  md5sum : Option CharBuf
  path : CharBuf
  deriving DecidableEq, Repr

/-- The fields of `struct torrent` that `torrent_parse_file` sets. Only several files have a name of
their own, and a single file is the one of `body.singlefile.tfp`. -/
structure ParsedTorrent where
  type : TorrentType
  announce : CharBuf
  comment : Option CharBuf
  name : Option CharBuf
  files : List ParsedFile
  pieceLength : ℕ
  pieces : CharBuf
  numPieces : ℕ
  left : ℤ
  createdBy : Option CharBuf
  creationDate : ℤ
  infoHash : Bytes
  deriving DecidableEq, Repr

def metainfoTree (file : Bytes) : Except Halt Node :=
  match bencParseBuf {} [] file with
  | some (.accept root _ _) => .ok root
  | some (.halt h) => .error h
  | _ => .error (.errx "torrent_parse_file: yyparse of %s")

def infoNode (troot : Node) : Except Halt Node :=
  match bencNodeFind (ascii "info") troot with
  | none => .error (.errx "no info data found in torrent")
  | some node => .ok node

/-- The range of the file that `torrent_parse_infohash` hands to `SHA1Update`. The length is a `size_t`
difference; if it wraps, the range leaves the buffer. -/
def infoRange (file : Bytes) (infoend : ℕ) : Except Halt (ℕ × ℕ) :=
  if infoend = 0 then .error (.errx "torrent_parse_infohash: infoend is zero - error parsing torrent file")
  else do
    match ← strstr (ascii "4:info") file with
    | none => .error (.errx "torrent_parse_infohash: no info key found")
    | some p =>
      let off := file.length - p.length + 6
      if infoend < off then .error .wild else .ok (off,infoend - off)

def torrentParseInfohash (sha1 : Bytes → Bytes) (file : Bytes) (infoend : ℕ) : Except Halt Bytes :=
  (infoRange file infoend).map fun r => sha1 (window file r.1 r.2)

/-- `benc_node_find`, where there has to be a string. -/
def stringField (node : Node) (key missing wrong : String) : Except Halt (ℕ × CharBuf) :=
  match bencNodeFind (ascii key) node with
  | none => .error (.errx missing)
  | some (.string len value) => .ok (len,value)
  | some _ => .error (.errx wrong)

/-- `benc_node_find`, where there has to be a number. -/
def intField (node : Node) (key missing wrong : String) : Except Halt ℤ :=
  match bencNodeFind (ascii key) node with
  | none => .error (.errx missing)
  | some (.int n) => .ok n
  | some _ => .error (.errx wrong)

/-- `benc_node_find`, where anything but a string is passed over. -/
def optString (node : Node) (key : String) : Option CharBuf :=
  match bencNodeFind (ascii key) node with
  | some (.string _ value) => some value
  | _ => none

/-- `benc_node_find`, where anything but a number is passed over. -/
def optInt (node : Node) (key : String) : ℤ :=
  match bencNodeFind (ascii key) node with
  | some (.int n) => n
  | _ => 0

/-- The `md5sum` of a single file. -/
def md5sumField (node : Node) : Except Halt (Option CharBuf) :=
  match bencNodeFind (ascii "md5sum") node with
  | none => .ok none
  | some (.string _ value) => .ok (some value)
  | some _ => .error (.errx "md5sum is not a string")

/-- `snprintf(path, n, "%s/%s", path, s)` reads the path it writes over, and C leaves open what comes out:
OpenBSD puts the second string behind the first and a slash, while glibc begins with an empty buffer and loses
the first. It is a string in any case. -/
structure SelfJoin where
  text : Bytes → Bytes → Bytes
  no_nul : ∀ path s, 0 ∉ path → 0 ∉ s → 0 ∉ text path s

def SelfJoin.openbsd : SelfJoin := ⟨fun path s => path ++ 47 :: s,fun _ _ hp hs => by simp [hp,hs]⟩

def SelfJoin.glibc : SelfJoin := ⟨fun _ s => 47 :: s,fun _ _ _ hs => by simp [hs]⟩

section File
variable (sha1 : Bytes → Bytes) (snprintf : SelfJoin) (maxPathLen : ℕ)

/-- One element of a path, copied by `strlcpy` into an empty buffer and by `snprintf` behind a slash otherwise. -/
def addPathElement (path : Bytes) : Node → Except Halt Bytes
  | .string _ value => do
    let s ← value.cString
    let joined := if path = [] then s else snprintf.text path s
    if maxPathLen ≤ joined.length then .error (.errx "path too large") else .ok joined
  | _ => .error (.errx "path element is not a string")

def pathField (node : Node) : Except Halt Bytes :=
  match bencNodeFind (ascii "path") node with
  | none => .error (.errx "no path field")
  | some (.list elements) => elements.foldlM (addPathElement snprintf maxPathLen) []
  | some _ => .error (.errx "path is not a list")

/-- One turn of the loop over the sub-dictionaries of `files`. -/
def multiFile (childnode : Node) : Except Halt ParsedFile := do
  let fileLength ← intField childnode "length" "no length field" "length is not a number"
  let path ← pathField snprintf maxPathLen childnode
  .ok ⟨fileLength,optString childnode "md5sum",⟨path,maxPathLen⟩⟩

def singleBody (troot : Node) (announce : CharBuf) (infoHash : Bytes) : Except Halt ParsedTorrent := do
  let fileLength ← intField troot "length" "no length field" "length is not a number"
  let name ← stringField troot "name" "no name field" "name is not a string"
  let pieceLength ← intField troot "piece length" "no piece length field" "piece length is not a number"
  let pieces ← stringField troot "pieces" "no pieces field" "pieces is not a string"
  let md5sum ← md5sumField troot
  .ok {
    type := .singlefile
    announce := announce
    comment := optString troot "comment"
    name := none
    files := [⟨fileLength,md5sum,name.2⟩]
    pieceLength := wrapInt32 pieceLength
    pieces := pieces.2
    numPieces := wrap32 (pieces.1 / digestLength)
    left := fileLength
    createdBy := optString troot "created by"
    creationDate := optInt troot "creation date"
    infoHash := infoHash }

def multiBody (troot filenode : Node) (announce : CharBuf) (infoHash : Bytes) : Except Halt ParsedTorrent := do
  let name ← stringField troot "name" "no name field" "name is not a string"
  let pieceLength ← intField troot "piece length" "no piece length field" "piece length is not a number"
  let pieces ← stringField troot "pieces" "no pieces field" "pieces is not a string"
  let files ← filenode.children.mapM (multiFile snprintf maxPathLen)
  .ok {
    type := .multifile
    announce := announce
    comment := optString troot "comment"
    name := some name.2
    files := files
    pieceLength := wrapInt32 pieceLength
    pieces := pieces.2
    numPieces := wrap32 (pieces.1 / digestLength)
    left := (files.map ParsedFile.fileLength).sum
    createdBy := optString troot "created by"
    creationDate := optInt troot "creation date"
    infoHash := infoHash }

/-- `torrent_parse_file` behind the info hash. -/
def parseFields (troot : Node) (infoHash : Bytes) : Except Halt ParsedTorrent := do
  let announce ← stringField troot "announce" "no announce data found in torrent" "announce value is not a string"
  match bencNodeFind (ascii "files") troot with
  | none => singleBody troot announce.2 infoHash
  | some filenode => multiBody snprintf maxPathLen troot filenode announce.2 infoHash

def torrentParseFile (file : Bytes) : Except Halt ParsedTorrent := do
  let troot ← metainfoTree file
  let info ← infoNode troot
  let infoHash ← torrentParseInfohash sha1 file info.stop
  parseFields snprintf maxPathLen troot infoHash

end File

/-- The bytes that go into the info hash of a file, by their offset and number. -/
def infoDigested (file : Bytes) : Except Halt (ℕ × ℕ) := do
  let troot ← metainfoTree file
  let info ← infoNode troot
  infoRange file info.stop

end Unworkable
