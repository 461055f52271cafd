import Unworkable.Torrent.State

/-! # Mapping, reading, writing and checking pieces

`torrent_mmap_create`, `torrent_piece_map`, `torrent_block_write`,
`torrent_block_read`, `torrent_piece_checkhash` and `torrent_piece_unmap`. The loops
over files and mappings keep the counters of the source. SHA-1 is a parameter.
-/
namespace Unworkable
open Library

/-- The bytes `[off, off + len)` of a file, as a mapping shows them. -/
def Torrent.mmapBytes (tp : Torrent) (m : Mmap) : Bytes := window (tp.fileData m.file) m.off m.len

/-- `memcpy` into the mapping `m`, `rel` bytes after its start. -/
def Torrent.mmapWrite (tp : Torrent) (m : Mmap) (rel : ℕ) (bs : Bytes) : Torrent :=
  tp.setFile m.file (fun f => { f with data := some (splice (f.data.getD []) (m.off + rel) bs) })

/-- `lseek` to the last byte of the wanted size and `write` of one zero byte. -/
def extendTo (data : Bytes) (size : ℕ) : Bytes :=
  if data.length < size then data ++ List.replicate (size - data.length) 0 else data

section Map
variable (tp : Torrent) (file off len : ℕ)

/-- With every piece there a file is opened with `O_RDONLY`, else with `O_RDWR|O_CREAT`. -/
def Torrent.opensRdonly : Bool := decide (tp.goodPieces = tp.numPieces)

/-- The descriptor of a file, the one that is open or else the one `open` gives, only reads. -/
def Torrent.readsOnly : Bool := if (tp.disk file).fd then (tp.disk file).rdonly else tp.opensRdonly

def Torrent.tooShort : Bool := decide ((tp.fileData file).length < len + off)

/-- The call of `torrent_mmap_create` that fails, if one does. `O_RDONLY` does not create a missing file, nothing is
written or mapped for writing through such a descriptor, and a range without bytes is not mapped; from the page boundary
on it has some unless the offset is that boundary. (The 32-bit sum of length and distance is looked at with the
pages.) -/
def mmapError : Option String :=
  if tp.readsOnly file && !(tp.disk file).fd && (tp.disk file).data.isNone then some "torrent_mmap_create: open `%s'"
  else if tp.readsOnly file && tp.tooShort file off len then some "torrent_mmap_create: write() failure"
  else if tp.readsOnly file && !tp.opensRdonly || decide (len = 0 ∧ off % tp.pagesize = 0) then
    some "torrent_mmap_create: mmap"
  else none

/-- `torrent_mmap_create` where no call fails: the file is open, created and extended where it was too short, and the
new mapping is counted. A file that was extended has been closed and opened again. -/
def mmapCreated : Torrent × Mmap :=
  let tp' := tp.setFile file (fun f =>
    { fd := true, refs := f.refs + 1, data := some (extendTo (f.data.getD []) (len + off))
      rdonly := if f.fd && !tp.tooShort file off len then f.rdonly else tp.opensRdonly })
  ({ tp' with isnew := tp.isnew || tp.tooShort file off len }, ⟨file,off,len⟩)

def torrentMmapCreate : Except Halt (Torrent × Mmap) :=
  match mmapError tp file off len with
  | some msg => .error (.errx msg)
  | none => .ok (mmapCreated tp file off len)

end Map

/-- What the walk over the files of a multi-file torrent carries along. `skip` is set
when the body has already advanced the loop variable to the next file. -/
structure MapWalk where
  tp : Torrent
  off : ℤ
  len : ℕ
  plen : ℕ
  mmaps : List Mmap
  skip : Bool

def MapWalk.link (w : MapWalk) (r : Torrent × Mmap) : MapWalk :=
  { w with tp := r.1, mmaps := w.mmaps ++ [r.2], plen := add32 w.plen r.2.len }

/-- `torrent_mmap_create` for the range `[off, off + n)` of a file. -/
def MapWalk.create (w : MapWalk) (file : ℕ) (off n : ℤ) : Except Halt MapWalk := do
  let r ← torrentMmapCreate w.tp file off.toNat (wrapInt32 n)
  .ok (w.link r)

/-- The loop of `torrent_piece_map` over `multifile.files`, each file with its number.
A file after the last one is dereferenced through a null pointer. -/
def mapFiles : List (ℕ × FileInfo) → MapWalk → Except Halt MapWalk
  | [], w => .ok w
  | (i,f) :: rest, w =>
    if w.skip then mapFiles rest { w with skip := false }
    else if w.off > f.fileLength then
      mapFiles rest { w with off := w.off - f.fileLength }
    else if f.fileLength < w.len ∧ w.plen < w.len then
      if f.fileLength - w.off = 0 then mapFiles rest w
      else do
        let w' ← w.create i w.off (f.fileLength - w.off)
        mapFiles rest { w' with len := sub32 w.len (wrapInt32 (f.fileLength - w.off)), off := 0 }
    else if w.off + w.len > f.fileLength then
      if f.fileLength = w.off then mapFiles rest { w with off := 0 }
      else do
        let n := wrapInt32 (f.fileLength - w.off)
        let w' ← w.create i w.off (f.fileLength - w.off)
        let w' := { w' with len := sub32 w.len n, off := w.off + 1 }
        match rest.head? with
        | none => .error .wild
        | some (j,g) =>
          if g.fileLength < w'.len then
            if g.fileLength = 0 then mapFiles rest w'
            else do
              let w'' ← w'.create j 0 g.fileLength
              mapFiles rest { w'' with
                len := sub32 w'.len (wrapInt32 g.fileLength), off := 0, skip := true }
          else if w'.len = 0 then mapFiles rest w'
          else w'.create j 0 w'.len
    else if w.off < f.fileLength then
      if w.len = 0 then mapFiles rest w else w.create i w.off w.len
    else mapFiles rest w

def torrentPieceMap (tp : Torrent) (idx : ℕ) : Except Halt Torrent :=
  let tpp := tp.piece idx
  let off := tp.mi.pieceLength * tpp.index
  match tp.mi.type with
  | .singlefile => do
    let r ← torrentMmapCreate tp 0 off tpp.len
    .ok (r.1.setPiece idx (fun t => { t with mmaps := t.mmaps ++ [r.2], mapped := true }))
  | .multifile => do
    let w ← mapFiles ((List.range tp.mi.files.length).zip tp.mi.files) ⟨tp,off,tpp.len,0,tpp.mmaps,false⟩
    .ok (w.tp.setPiece idx (fun t => { t with len := w.plen, mmaps := w.mmaps, mapped := true }))

/-- `torrent_piece_map` unless `TORRENT_PIECE_MAPPED` is set. -/
def ensureMapped (tp : Torrent) (idx : ℕ) : Except Halt Torrent :=
  if (tp.piece idx).mapped then .ok tp else torrentPieceMap tp idx

/-- One turn of the loop of `torrent_piece_unmap`: a file nothing maps any more is closed. -/
def unmapTurn (tp : Torrent) (m : Mmap) : Torrent :=
  tp.setFile m.file (fun f =>
    let refs := if f.refs = 0 then 18446744073709551615 else f.refs - 1
    { f with refs := refs, fd := f.fd && decide (refs ≠ 0) })

def torrentPieceUnmap (tp : Torrent) (idx : ℕ) : Torrent :=
  ((tp.piece idx).mmaps.foldl unmapTurn tp).setPiece idx (fun t => { t with mmaps := [], mapped := false })

/-- The loop of `torrent_block_write` over the mappings. While nothing is written
`bytesleft` is the whole length; afterwards each mapping takes what is left from its start. -/
def blockWriteLoop (off len : ℕ) (d : Bytes) :
    List Mmap → (cntlen cntbase bytesleft : ℕ) → Torrent → Torrent
  | [], _, _, _, tp => tp
  | m :: rest, cntlen, cntbase, bytesleft, tp =>
    if bytesleft < len then
      let diff := len - bytesleft
      if bytesleft > m.len then
        blockWriteLoop off len d rest cntlen cntbase (bytesleft - m.len)
          (tp.mmapWrite m 0 ((d.drop diff).take m.len))
      else tp.mmapWrite m 0 ((d.drop diff).take bytesleft)
    else if cntlen + m.len < off then
      blockWriteLoop off len d rest (cntlen + m.len) (cntbase + m.len) bytesleft tp
    else
      let rel := off - cntbase
      let tlen := sub32 m.len rel
      if len > tlen then
        blockWriteLoop off len d rest (cntlen + m.len) (max cntbase off) (bytesleft - tlen)
          (tp.mmapWrite m rel (d.take tlen))
      else tp.mmapWrite m rel (d.take len)

def torrentBlockWrite (tp : Torrent) (idx off len : ℕ) (d : Bytes) : Torrent :=
  blockWriteLoop off len d (tp.piece idx).mmaps 0 0 len tp

/-- The loop of `torrent_block_read`; `block` is the copy once one was needed. -/
def blockReadLoop (tp : Torrent) (off : ℕ) :
    List Mmap → (cntlen cntbase tlen : ℕ) → Option Bytes → Except Halt (Option (Bytes × Bool))
  | [], _, _, _, block => .ok (block.map (·,true))
  | m :: rest, cntlen, cntbase, tlen, block =>
    if cntlen + m.len < off then
      blockReadLoop tp off rest (cntlen + m.len) (cntbase + m.len) tlen block
    else
      let ilen := wrapInt32 (m.len - ((off : ℤ) - cntbase))
      if ilen > m.len then .error (.errx "overflow: ilen > tmmp->len")
      else
        let view := (tp.mmapBytes m).drop (off - cntbase)
        if ilen < tlen then
          blockReadLoop tp off rest (cntlen + m.len) (max cntbase off) (tlen - ilen)
            (some (block.getD [] ++ view.take ilen))
        else match block with
          | none => .ok (some (view.take tlen,false))
          | some b => .ok (some (b ++ view.take tlen,true))

/-- `torrent_block_read`: the bytes found, possibly fewer than asked for, and the hint. -/
def torrentBlockRead (tp : Torrent) (idx off len : ℕ) : Except Halt (Option (Bytes × Bool)) :=
  blockReadLoop tp off (tp.piece idx).mmaps 0 0 len none

/-- What a buffer of `len` bytes holds when only the front of it was filled. -/
def padded (stale : ℕ → UInt8) (bs : Bytes) (len : ℕ) : Bytes :=
  bs ++ (List.range (len - bs.length)).map (fun i => stale (bs.length + i))

section Hash
variable (sha1 : Bytes → Bytes)

/-- `torrent_piece_checkhash`; the result says whether the digest matched. The digest's
place in the `pieces` string is a 32-bit product. -/
def torrentPieceCheckhash (stale : ℕ → UInt8) (tp : Torrent) (idx : ℕ) : Except Halt (Torrent × Bool) :=
  let tpp := tp.piece idx
  if !tpp.mapped then .error (.errx "torrent_piece_checkhash: unmapped piece: %u")
  else do
    match ← torrentBlockRead tp idx 0 tpp.len with
    | none => .ok (tp,false)
    | some d =>
      let results := sha1 (padded stale d.1 tpp.len)
      let s := window tp.mi.pieces (mul32 digestLength tpp.index) digestLength
      if results = s then .ok (tp.setPiece idx (fun t => { t with cksumok := true }),true)
      else .ok (tp,false)

end Hash

def zeroByteDigest : Bytes :=
  [0x5b,0xa9,0x3c,0x9d,0xb0,0xcf,0xf9,0x3f,0x52,0xb5,0x21,0xd7,0x42,0x0e,0x43,0xf6,0xed,0xa2,0x78,0x4f]

/-- A stand-in for SHA-1 in runs that hash nothing but the byte zero. -/
def sha1ZeroByte : Bytes → Bytes := fun _ => zeroByteDigest

end Unworkable
