import Unworkable.Torrent.Contents
import Unworkable.Torrent.Counters
import Unworkable.Torrent.Walks

/-! # What the start-up check recognises

Without a resume file `main` maps, checks and unmaps every piece in turn. A mapping that
reaches past the end of a file makes the file longer and sets `isnew` for the torrent as a
whole, after which no piece is checked any more: a piece is recognised only if every piece up
to it was there in full.
-/
namespace Unworkable
open Library

/-- The file, counted from `k`, and the offset in it of byte `a` of files of the given lengths laid
end to end. -/
def locateIn : List ℕ → (k a : ℕ) → ℕ × ℕ
  | [],k,a => (k,a)
  | n :: rest,k,a => if a < n then (k,a) else locateIn rest (k + 1) (a - n)

/-- "Consider the file data as one long continuous stream": where byte `a` of it lies. -/
def Metainfo.locate (mi : Metainfo) (a : ℕ) : ℕ × ℕ :=
  match mi.type with
  | .singlefile => (0,a)
  | .multifile => locateIn (mi.files.map (fun f => f.fileLength.toNat)) 0 a

/-- The places of the bytes of piece `i`. -/
def Metainfo.places (mi : Metainfo) (i : ℕ) : List (ℕ × ℕ) :=
  (List.range (pieceLen mi i)).map (fun x => mi.locate (mi.pieceLength * i + x))

def Mmap.places (m : Mmap) : List (ℕ × ℕ) := (List.range m.len).map (fun x => (m.file,m.off + x))

/-- The bytes of file `k` of a disk. -/
def diskData (disk : ℕ → FileState) (k : ℕ) : Bytes := (disk k).data.getD []

/-- Every byte of piece `i` is there. -/
def Metainfo.Present (mi : Metainfo) (disk : ℕ → FileState) (i : ℕ) : Prop :=
  ∀ q ∈ mi.places i, q.2 < (diskData disk q.1).length

/-- The bytes of piece `i`, where they are there. -/
def Metainfo.bytesOn (mi : Metainfo) (disk : ℕ → FileState) (i : ℕ) : Bytes :=
  (mi.places i).map (fun q => (diskData disk q.1).getD q.2 0)

/-- `torrent_piece_map` maps piece `i` to non-empty parts of files that are, in order, the bytes of
the piece. -/
def Metainfo.Covered (mi : Metainfo) (pagesize : ℕ) (disk : ℕ → FileState) (i : ℕ) : Prop :=
  ∃ tp, torrentPieceMap (torrentPiecesCreate pagesize mi disk) i = .ok tp ∧
    (tp.piece i).mmaps.flatMap Mmap.places = mi.places i ∧ ∀ m ∈ (tp.piece i).mmaps, 0 < m.len

/-- The digest the check compares with, at a 32-bit position in `pieces`. -/
def Metainfo.digestAt (mi : Metainfo) (i : ℕ) : Bytes := window mi.pieces (mul32 digestLength i) digestLength

/-- A piece of a single-file torrent can be mapped: it has bytes, or its part of the first page has. -/
def Metainfo.Mappable (mi : Metainfo) (pagesize i : ℕ) : Prop :=
  mi.type = .singlefile → ¬ (pieceLen mi i = 0 ∧ mi.pieceLength * i % pagesize = 0)

/-- A piece without bytes has no mappings in a multi-file torrent, and a piece without mappings
is not checked. -/
def Metainfo.Unmapped (mi : Metainfo) (i : ℕ) : Prop := mi.type = .multifile ∧ pieceLen mi i = 0

section Places
variable {disk : ℕ → FileState}

theorem mem_places_mmap {m : Mmap} {q : ℕ × ℕ} : q ∈ m.places ↔ ∃ x < m.len, q = (m.file,m.off + x) := by
  simp only [Mmap.places,List.mem_map,List.mem_range]
  constructor
  · rintro ⟨x,hx,rfl⟩
    exact ⟨x,hx,rfl⟩
  · rintro ⟨x,hx,rfl⟩
    exact ⟨x,hx,rfl⟩

/-- A mapping that lies inside its file shows the bytes at its places. -/
theorem window_places {m : Mmap} (h : m.off + m.len ≤ (diskData disk m.file).length) :
    window (diskData disk m.file) m.off m.len = m.places.map (fun q => (diskData disk q.1).getD q.2 0) := by
  apply List.ext_getElem
  · rw [length_window h]
    simp [Mmap.places]
  · intro x hx hx'
    have hxlen : x < m.len := by rwa [length_window h] at hx
    have hfile : m.off + x < (diskData disk m.file).length := by omega
    simp [window,Mmap.places,List.getElem?_eq_getElem hfile]

theorem flatMap_places {ms : List Mmap} (h : ∀ m ∈ ms, m.off + m.len ≤ (diskData disk m.file).length) :
    ms.flatMap (fun m => window (diskData disk m.file) m.off m.len) =
      (ms.flatMap Mmap.places).map (fun q => (diskData disk q.1).getD q.2 0) := by
  induction ms with
  | nil => rfl
  | cons m ms ih =>
    rw [List.flatMap_cons,List.flatMap_cons,List.map_append,window_places (h m List.mem_cons_self),
      ih (fun m' hm' => h m' (List.mem_cons_of_mem m hm'))]

/-- Non-empty mappings all of whose places are there lie inside their files. -/
theorem fits_of_present {ms : List Mmap} (hpos : ∀ m ∈ ms, 0 < m.len)
    (h : ∀ q ∈ ms.flatMap Mmap.places, q.2 < (diskData disk q.1).length) :
    ∀ m ∈ ms, m.off + m.len ≤ (diskData disk m.file).length := by
  intro m hm
  have hlast := h (m.file,m.off + (m.len - 1)) (List.mem_flatMap.mpr ⟨m,hm,mem_places_mmap.mpr
    ⟨m.len - 1,Nat.sub_lt (hpos m hm) Nat.zero_lt_one,rfl⟩⟩)
  have := hpos m hm
  simp only at hlast
  omega

theorem present_of_fits {ms : List Mmap} (h : ∀ m ∈ ms, m.off + m.len ≤ (diskData disk m.file).length) :
    ∀ q ∈ ms.flatMap Mmap.places, q.2 < (diskData disk q.1).length := by
  intro q hq
  obtain ⟨m,hm,hq⟩ := List.mem_flatMap.mp hq
  obtain ⟨x,hx,rfl⟩ := mem_places_mmap.mp hq
  have := h m hm
  simp only
  omega

theorem Metainfo.places_singlefile {mi : Metainfo} (hs : mi.type = .singlefile) (i : ℕ) :
    mi.places i = (mi.view i).places := by
  simp [places,locate,hs,Mmap.places,view]

/-- A piece of a single-file torrent that the file reaches to the end of. -/
theorem Metainfo.present_singlefile {mi : Metainfo} {i : ℕ} (hs : mi.type = .singlefile)
    (hend : mi.pieceLength * i + pieceLen mi i ≤ (diskData disk 0).length) : mi.Present disk i ∧
      mi.bytesOn disk i = window (diskData disk 0) (mi.pieceLength * i) (pieceLen mi i) := by
  have hview : (mi.view i).off + (mi.view i).len ≤ (diskData disk (mi.view i).file).length := hend
  rw [Present,bytesOn,places_singlefile hs]
  refine ⟨?_,(window_places hview).symm⟩
  intro q hq
  obtain ⟨x,hx,rfl⟩ := mem_places_mmap.mp hq
  simp only
  omega

theorem length_flatMap_places (ms : List Mmap) : (ms.flatMap Mmap.places).length = mmapsLen ms := by
  induction ms with
  | nil => rfl
  | cons m ms ih =>
    rw [List.flatMap_cons,List.length_append,mmapsLen_cons,ih]
    simp [Mmap.places]

end Places

section Walk
variable {tp tp' : Torrent} {i : ℕ}

/-- A piece is mapped alike whatever is on the disk and whatever happened to the other pieces. -/
theorem torrentPieceMap_congr (hmi : tp'.mi = tp.mi) (hpiece : tp'.piece i = tp.piece i)
    (hpage : tp'.pagesize = tp.pagesize)
    (hw : tp'.Writable) {t : Torrent} (h : torrentPieceMap tp i = .ok t) :
    ∃ t', torrentPieceMap tp' i = .ok t' ∧ t'.piece i = t.piece i := by
  cases htype : tp.mi.type with
  | singlefile =>
    obtain ⟨hnone,rfl⟩ := (torrentPieceMap_singlefile htype).mp h
    have hpos := mmapError_nonempty hnone
    rw [← hpage] at hpos
    refine ⟨_,(torrentPieceMap_singlefile (hmi ▸ htype)).mpr ⟨hw.mmapError (by rwa [hmi,hpiece]),rfl⟩,?_⟩
    rw [Torrent.setPiece_self,Torrent.setPiece_self,mmapCreated_piece,mmapCreated_piece,hmi,hpiece]
  | multifile =>
    simp only [torrentPieceMap,htype,zip_range_zero] at h
    obtain ⟨w,hwalk,h⟩ := bind_ok.mp h
    cases h
    obtain ⟨u,hu⟩ := mapFiles_writable hw (Dvd.intro 1 (by rw [hpage,Nat.mul_one])) hwalk
    have hmap : torrentPieceMap tp' i =
        .ok (u.setPiece i (fun t => { t with len := w.plen, mmaps := w.mmaps, mapped := true })) := by
      simp only [torrentPieceMap,hmi,htype,hpiece,zip_range_zero,hu]
      rfl
    refine ⟨_,hmap,?_⟩
    rw [Torrent.setPiece_self,Torrent.setPiece_self,(mapFiles_frame hwalk).2,(mapFiles_frame hu).2]
    exact congrArg (fun t : TorrentPiece => { t with len := w.plen, mmaps := w.mmaps, mapped := true }) hpiece

theorem torrentPieceMap_pagesize (h : torrentPieceMap tp i = .ok tp') : tp'.pagesize = tp.pagesize :=
  torrentPieceMap_keeps (P := fun u => u.pagesize = tp.pagesize) (fun _ _ _ _ hu => hu) (fun _ _ _ hu => hu) rfl h

theorem Torrent.Writable.torrentPieceMap (hw : tp.Writable) (h : torrentPieceMap tp i = .ok tp') : tp'.Writable :=
  torrentPieceMap_keeps (P := Torrent.Writable) (fun _ _ _ _ hu => hu.created) (fun _ _ _ hu =>
    ⟨hu.opens,hu.handles⟩) hw h

/-- Mappings inside their files change nothing, and any other sets `isnew`. -/
structure Grown (tp : Torrent) (ms : List Mmap) (tp' : Torrent) : Prop where
  same : (∀ m ∈ ms, m.off + m.len ≤ (tp.fileData m.file).length) →
    tp'.isnew = tp.isnew ∧ ∀ k, tp'.fileData k = tp.fileData k
  grown : ¬ (∀ m ∈ ms, m.off + m.len ≤ (tp.fileData m.file).length) → tp'.isnew = true

theorem Grown.refl (tp : Torrent) : Grown tp [] tp := ⟨fun _ => ⟨rfl,fun _ => rfl⟩,fun h => (h nofun).elim⟩

theorem Grown.created {ms : List Mmap} (h : Grown tp ms tp') (file off len : ℕ) :
    Grown tp (ms ++ [⟨file,off,len⟩]) (mmapCreated tp' file off len).1 := by
  have hnew : (mmapCreated tp' file off len).1.isnew = (tp'.isnew || decide ((tp'.fileData file).length < len + off)) :=
    rfl
  constructor
  · intro hall
    obtain ⟨hsame,hdata⟩ := h.same (fun m hm => hall m (List.mem_append_left _ hm))
    have hfit := hall ⟨file,off,len⟩ (List.mem_append_right _ (List.mem_singleton_self _))
    simp only at hfit
    refine ⟨?_,?_⟩
    · rw [hnew,hsame,hdata,decide_eq_false (by omega),Bool.or_false]
    · intro k
      rw [mmapCreated_fileData]
      split
      · rename_i hk
        rw [hk,hdata,extendTo_of_le (by omega)]
      · exact hdata k
  · intro hnot
    rw [hnew]
    by_cases hold : ∀ m ∈ ms, m.off + m.len ≤ (tp.fileData m.file).length
    · obtain ⟨-,hdata⟩ := h.same hold
      rw [hdata,Bool.or_eq_true,decide_eq_true_eq]
      right
      by_contra hle
      apply hnot
      intro m hm
      rcases List.mem_append.mp hm with hm | hm
      · exact hold m hm
      · rw [List.mem_singleton.mp hm]
        simp only
        omega
    · rw [h.grown hold,Bool.true_or]

theorem torrentPieceMap_grown (hempty : (tp.piece i).mmaps = []) (h : torrentPieceMap tp i = .ok tp') :
    Grown tp (tp'.piece i).mmaps tp' := by
  cases htype : tp.mi.type with
  | singlefile =>
    obtain ⟨-,rfl⟩ := (torrentPieceMap_singlefile htype).mp h
    rw [Torrent.setPiece_self,mmapCreated_piece,hempty]
    have hg := (Grown.refl tp).created 0 (tp.mi.pieceLength * (tp.piece i).index) (tp.piece i).len
    exact ⟨hg.same,hg.grown⟩
  | multifile =>
    simp only [torrentPieceMap,htype,hempty] at h
    obtain ⟨w,hw,h⟩ := bind_ok.mp h
    cases h
    have hg : Grown tp w.mmaps w.tp := mapFiles_keeps (P := fun v => Grown tp v.mmaps v.tp)
      (fun v file off n hv => hv.created file off.toNat (wrapInt32 n)) (fun _ _ _ _ hv => hv) (Grown.refl tp) hw
    rw [Torrent.setPiece_self]
    exact ⟨hg.same,hg.grown⟩

end Walk

/-- The walk over the files adds up the mappings it makes. -/
theorem mapFiles_plen_eq {l : List (ℕ × FileInfo)} {w w' : MapWalk} (hw : w.plen = wrap32 (mmapsLen w.mmaps))
    (h : mapFiles l w = .ok w') : w'.plen = wrap32 (mmapsLen w'.mmaps) := by
  refine mapFiles_keeps (P := fun v => v.plen = wrap32 (mmapsLen v.mmaps)) ?_ (fun _ _ _ _ hv => hv) hw h
  intro v file off n hv
  rw [show (v.created file off n).plen = wrap32 (v.plen + wrapInt32 n) from rfl,hv,
    show mmapsLen (v.created file off n).mmaps = mmapsLen v.mmaps + wrapInt32 n by
      simp [MapWalk.created,MapWalk.link,mmapsLen,mmapCreated]]
  unfold wrap32
  omega

/-- What the mappings `ms` of piece `i` have to do with its places. -/
structure MapsTo (mi : Metainfo) (pagesize : ℕ) (disk : ℕ → FileState) (i : ℕ) (ms : List Mmap) : Prop where
  map : ∃ tp, torrentPieceMap (torrentPiecesCreate pagesize mi disk) i = .ok tp ∧ tp.piece i =
    ⟨false,true,pieceLen mi i,i,ms⟩
  covers : ms.flatMap Mmap.places = mi.places i
  fits : (∀ j ≤ i, mi.Present disk j) → ∀ m ∈ ms, m.off + m.len ≤ (diskData disk m.file).length
  empty : ms = [] ↔ mi.Unmapped i

section MapsTo
variable {mi : Metainfo} {pagesize : ℕ} {disk : ℕ → FileState} {i : ℕ}

theorem MapsTo.size {ms : List Mmap} (h : MapsTo mi pagesize disk i ms) : mmapsLen ms = pieceLen mi i := by
  rw [← length_flatMap_places,h.covers]
  simp [Metainfo.places]

theorem writable_create (hn : 0 < mi.numPieces) : (torrentPiecesCreate pagesize mi disk).Writable :=
  ⟨decide_eq_false (Nat.ne_of_lt hn),fun _ _ => rfl⟩

/-- A piece of a single-file torrent. If it has no bytes its mapping still has to start inside the
file, which it does when the pieces before it are there. -/
theorem mapsTo_singlefile (hs : mi.type = .singlefile) (hi : i < mi.numPieces) (hmaps : mi.Mappable pagesize i) :
    MapsTo mi pagesize disk i [mi.view i] := by
  constructor
  · refine ⟨_,(torrentPieceMap_singlefile hs).mpr ⟨(writable_create (Nat.zero_lt_of_lt hi)).mmapError (hmaps hs),
      rfl⟩,?_⟩
    rw [Torrent.setPiece_self]
    rfl
  · rw [Metainfo.places_singlefile hs,List.flatMap_singleton]
  · intro hall m hm
    rw [List.mem_singleton.mp hm]
    have hat : ∀ j ≤ i, ∀ x < pieceLen mi j, mi.pieceLength * j + x < (diskData disk 0).length := by
      intro j hj x hx
      have hmem : (0,mi.pieceLength * j + x) ∈ mi.places j := by
        rw [Metainfo.places_singlefile hs]
        exact mem_places_mmap.mpr ⟨x,hx,rfl⟩
      exact hall j hj _ hmem
    show mi.pieceLength * i + pieceLen mi i ≤ (diskData disk 0).length
    by_cases hlen : 0 < pieceLen mi i
    · have hlast := hat i (le_refl i) (pieceLen mi i - 1) (by omega)
      omega
    · -- the piece before this one is a full one
      cases i with
      | zero => omega
      | succ j =>
        have hnum := mi.numPieces_lt
        have hfull : pieceLen mi j = mi.pieceLength := by
          unfold pieceLen
          rw [hs]
          dsimp only
          rw [if_neg]
          rw [sub32_of_le hnum (by omega)]
          omega
        have hsucc : mi.pieceLength * (j + 1) = mi.pieceLength * j + mi.pieceLength := Nat.mul_succ _ _
        by_cases hzero : mi.pieceLength = 0
        · rw [hzero]
          omega
        · have hlast := hat j (Nat.le_succ j) (mi.pieceLength - 1) (by omega)
          omega
  · simp [Metainfo.Unmapped,hs]

theorem mapsTo_multifile (hm : mi.type = .multifile) (h : mi.Covered pagesize disk i) :
    ∃ ms, MapsTo mi pagesize disk i ms := by
  obtain ⟨tp,hmap,hcovers,hpos⟩ := h
  refine ⟨(tp.piece i).mmaps,⟨tp,hmap,?_⟩,hcovers,?_,?_⟩
  · have hsize : mmapsLen (tp.piece i).mmaps = pieceLen mi i := by
      rw [← length_flatMap_places,hcovers]
      simp [Metainfo.places]
    have hlt := pieceLen_lt mi i
    unfold torrentPieceMap at hmap
    simp only [torrentPiecesCreate,hm] at hmap
    obtain ⟨w,hw,hmap⟩ := bind_ok.mp hmap
    have hplen : w.plen = wrap32 (mmapsLen w.mmaps) := mapFiles_plen_eq rfl hw
    have hpiece := (mapFiles_frame hw).2
    cases hmap
    rw [Torrent.setPiece_self,hpiece] at hsize ⊢
    simp only at hsize ⊢
    rw [hplen,hsize,wrap32_of_lt hlt]
  · intro hall
    refine fits_of_present hpos ?_
    rw [hcovers]
    exact hall i (le_refl i)
  · constructor
    · intro hnil
      refine ⟨hm,?_⟩
      rw [hnil] at hcovers
      have hlen := congrArg List.length hcovers
      simpa [Metainfo.places] using hlen.symm
    · rintro ⟨-,hzero⟩
      cases hms : (tp.piece i).mmaps with
      | nil => rfl
      | cons m rest =>
        have hlen := congrArg List.length hcovers
        have hpos' := hpos m (by rw [hms]; exact List.mem_cons_self)
        rw [length_flatMap_places,hms,mmapsLen_cons] at hlen
        simp [Metainfo.places,hzero] at hlen
        omega

end MapsTo

section Check
variable {sha1 : Bytes → Bytes} {stale : ℕ → UInt8} {tp : Torrent} {l : List Mmap}

/-- Reading a piece from its start gives the front of its mappings, if it has any. -/
theorem blockReadLoop_start (hl : ∀ m ∈ l, Backs tp m) (hne : l ≠ []) {tlen : ℕ} (htlen : tlen ≤ mmapsLen l) :
    ∃ hint, blockReadLoop tp 0 l 0 0 tlen none = .ok (some ((l.flatMap tp.mmapBytes).take tlen,hint)) := by
  cases l with
  | nil => exact (hne rfl).elim
  | cons m rest =>
    have hm := hl m List.mem_cons_self
    have hlen := hm.length
    have hilen : wrapInt32 ((m.len : ℤ) - ((0 : ℕ) - (0 : ℕ))) = m.len := by
      have := hm.short
      unfold wrapInt32
      omega
    rw [mmapsLen_cons] at htlen
    simp only [blockReadLoop,hilen,Nat.sub_self,List.drop_zero,lt_irrefl,if_false,Nat.max_self,Nat.not_lt_zero,
      List.flatMap_cons]
    split
    · rename_i hlt
      refine ⟨true,?_⟩
      rw [blockReadLoop_copy (fun m' hm' => hl m' (List.mem_cons_of_mem m hm')) (Nat.zero_le _) (by omega),
        Option.getD_none,List.nil_append,List.take_of_length_le hlen.le,List.take_append,
        List.take_of_length_le (by omega : (tp.mmapBytes m).length ≤ tlen),hlen]
    · refine ⟨false,?_⟩
      rw [List.take_append_of_le_length (by omega)]

/-- The check of a piece that is mapped in full. -/
theorem torrentPieceCheckhash_full {i n : ℕ} {c : Bool} (hb : Backed tp) (hpiece : tp.piece i = ⟨c,true,n,i,l⟩)
    (hne : l ≠ []) (hsize : mmapsLen l = n) : torrentPieceCheckhash sha1 stale tp i =
      if sha1 (l.flatMap tp.mmapBytes) = tp.mi.digestAt i then
        .ok (tp.setPiece i (fun t => { t with cksumok := true }),true)
      else .ok (tp,false) := by
  have hviews := hb.views i
  rw [hpiece] at hviews
  obtain ⟨hint,hread⟩ := blockReadLoop_start hviews hne hsize.ge
  have hlen := length_flatMap_mmapBytes hviews
  simp only at hlen
  have hpad : padded stale ((l.flatMap tp.mmapBytes).take n) n = l.flatMap tp.mmapBytes := by
    rw [List.take_of_length_le (by omega)]
    simp [padded,hlen,hsize]
  simp only [torrentPieceCheckhash,torrentBlockRead,hpiece,hread,ok_bind,Bool.not_true,Bool.false_eq_true,if_false,hpad]
  rfl

/-- A piece without mappings is left as it is. -/
theorem torrentPieceCheckhash_empty {i n : ℕ} {c : Bool} (hpiece : tp.piece i = ⟨c,true,n,i,[]⟩) :
    torrentPieceCheckhash sha1 stale tp i = .ok (tp,false) := by
  simp [torrentPieceCheckhash,torrentBlockRead,hpiece,blockReadLoop]

theorem foldl_unmapTurn_isnew (l : List Mmap) (tp : Torrent) : (l.foldl unmapTurn tp).isnew = tp.isnew := by
  induction l generalizing tp with
  | nil => rfl
  | cons m l ih => exact ih (unmapTurn tp m)

theorem torrentPieceUnmap_mi (tp : Torrent) (i : ℕ) : (torrentPieceUnmap tp i).mi = tp.mi :=
  (Intact.foldl_unmapTurn _ tp).1

theorem foldl_unmapTurn_disk (l : List Mmap) (tp : Torrent) (f : ℕ) :
    (((l.foldl unmapTurn tp).disk f).fd = true → (tp.disk f).fd = true) ∧
      ((l.foldl unmapTurn tp).disk f).rdonly = (tp.disk f).rdonly ∧ (l.foldl unmapTurn tp).pagesize = tp.pagesize := by
  induction l generalizing tp with
  | nil => exact ⟨fun h => h,rfl,rfl⟩
  | cons m l ih =>
    obtain ⟨hfd,hrd,hpage⟩ := ih (unmapTurn tp m)
    have hturn : (((unmapTurn tp m).disk f).fd = true → (tp.disk f).fd = true) ∧
        ((unmapTurn tp m).disk f).rdonly = (tp.disk f).rdonly := by
      by_cases hf : f = m.file
      · subst hf
        simp only [unmapTurn,Torrent.setFile,Function.update_self,and_true]
        intro h
        exact (Bool.and_eq_true_iff.mp h).1
      · simp only [unmapTurn,Torrent.setFile,Function.update_of_ne hf,and_true]
        exact fun h => h
    exact ⟨fun h => hturn.1 (hfd h),hrd.trans hturn.2,hpage⟩

theorem torrentPieceUnmap_handles {i f : ℕ} (h : (tp.disk f).fd = true → (tp.disk f).rdonly = false)
    (hf : ((torrentPieceUnmap tp i).disk f).fd = true) : ((torrentPieceUnmap tp i).disk f).rdonly = false := by
  obtain ⟨hfd,hrd,-⟩ := foldl_unmapTurn_disk (tp.piece i).mmaps tp f
  rw [show ((torrentPieceUnmap tp i).disk f).rdonly = _ from hrd]
  exact h (hfd hf)

theorem torrentPieceUnmap_pagesize (tp : Torrent) (i : ℕ) : (torrentPieceUnmap tp i).pagesize = tp.pagesize :=
  (foldl_unmapTurn_disk (tp.piece i).mmaps tp 0).2.2

theorem torrentPieceUnmap_isnew (tp : Torrent) (i : ℕ) : (torrentPieceUnmap tp i).isnew = tp.isnew :=
  foldl_unmapTurn_isnew _ tp

theorem torrentPieceUnmap_other (tp : Torrent) {i j : ℕ} (h : j ≠ i) : (torrentPieceUnmap tp i).piece j =
    tp.piece j := by
  rw [torrentPieceUnmap,Torrent.setPiece_ne _ _ h,(Intact.foldl_unmapTurn _ tp).2.1]

theorem torrentPieceUnmap_fileData (tp : Torrent) (i k : ℕ) : (torrentPieceUnmap tp i).fileData k = tp.fileData k := by
  rw [torrentPieceUnmap,Torrent.setPiece_fileData,(Intact.foldl_unmapTurn _ tp).2.2]

end Check

section Loop
variable (sha1 : Bytes → Bytes) (pagesize : ℕ) (mi : Metainfo) (disk : ℕ → FileState)

/-- What it takes for piece `i` to pass the start-up check. -/
def Metainfo.Recognised (i : ℕ) : Prop :=
  (∀ j ≤ i, mi.Present disk j) ∧ ¬ mi.Unmapped i ∧ sha1 (mi.bytesOn disk i) = mi.digestAt i

/-- The torrent when the start-up loop has done `k` pieces. -/
structure Checked (k : ℕ) (tp : Torrent) : Prop where
  same : tp.mi = mi
  page : tp.pagesize = pagesize
  handles : ∀ f, (tp.disk f).fd = true → (tp.disk f).rdonly = false
  few : tp.goodPieces ≤ k
  todo : ∀ j, k ≤ j → tp.piece j = (torrentPiecesCreate pagesize mi disk).piece j
  backed : Backed tp
  whole : (∀ j < k, mi.Present disk j) → tp.isnew = false ∧ ∀ f, tp.fileData f = diskData disk f
  grown : ¬ (∀ j < k, mi.Present disk j) → tp.isnew = true
  flags : ∀ j < k, (tp.piece j).cksumok = true ↔ mi.Recognised sha1 disk j

namespace Checked
variable {sha1 pagesize mi disk} {stale : ℕ → UInt8} {k : ℕ} {tp t t' : Torrent} {ms : List Mmap}

theorem create : Checked sha1 pagesize mi disk 0 (torrentPiecesCreate pagesize mi disk) where
  same := rfl
  page := rfl
  handles _ _ := rfl
  few := le_refl 0
  todo _ _ := rfl
  backed := .create pagesize mi disk
  whole _ := ⟨rfl,fun _ => rfl⟩
  grown h := (h nofun).elim
  flags _ hj := (Nat.not_lt_zero _ hj).elim

theorem writable (h : Checked sha1 pagesize mi disk k tp) (hk : k < mi.numPieces) : tp.Writable := by
  refine ⟨decide_eq_false ?_,h.handles⟩
  have := h.few
  rw [Torrent.numPieces,h.same]
  omega

/-- The piece to do next is mapped as on the disk before the loop. -/
theorem map (h : Checked sha1 pagesize mi disk k tp) (hk : k < mi.numPieces) (hms : MapsTo mi pagesize disk k ms) :
    ∃ t, torrentPieceMap tp k = .ok t ∧ t.piece k = ⟨false,true,pieceLen mi k,k,ms⟩ ∧ Grown tp ms t := by
  obtain ⟨u,hu,hpiece⟩ := hms.map
  obtain ⟨t,ht,heq⟩ := torrentPieceMap_congr h.same (h.todo k (le_refl k)) h.page (h.writable hk) hu
  have hempty : (tp.piece k).mmaps = [] := by
    rw [h.todo k (le_refl k)]
    rfl
  have hgrown := torrentPieceMap_grown hempty ht
  rw [heq,hpiece] at hgrown
  exact ⟨t,ht,heq.trans hpiece,hgrown⟩

/-- While every piece is there the files stay as they were. -/
theorem map_whole (h : Checked sha1 pagesize mi disk k tp) (hms : MapsTo mi pagesize disk k ms) (hgrown : Grown tp ms t)
    (hall : ∀ j ≤ k, mi.Present disk j) : t.isnew = false ∧ ∀ f, t.fileData f = diskData disk f := by
  obtain ⟨hnew,hdata⟩ := h.whole (fun j hj => hall j hj.le)
  obtain ⟨hnew',hdata'⟩ := hgrown.same (fun m hm => by rw [hdata]; exact hms.fits hall m hm)
  exact ⟨hnew'.trans hnew,fun f => (hdata' f).trans (hdata f)⟩

/-- The first piece that is not there, and every one after it, finds `isnew` set. -/
theorem map_grown (h : Checked sha1 pagesize mi disk k tp) (hms : MapsTo mi pagesize disk k ms) (hgrown : Grown tp ms t)
    (hnot : ¬ ∀ j ≤ k, mi.Present disk j) : t.isnew = true := by
  by_cases hfits : ∀ m ∈ ms, m.off + m.len ≤ (tp.fileData m.file).length
  · by_cases hbefore : ∀ j < k, mi.Present disk j
    · obtain ⟨-,hdata⟩ := h.whole hbefore
      refine (hnot ?_).elim
      intro j hj
      rcases Nat.lt_or_eq_of_le hj with hj | rfl
      · exact hbefore j hj
      · have hpresent := present_of_fits (fun m hm => by rw [← hdata]; exact hfits m hm)
        rwa [hms.covers] at hpresent
    · rw [(hgrown.same hfits).1]
      exact h.grown hbefore
  · exact hgrown.grown hfits

/-- The end of a turn: piece `k` gets the flag it should have and is unmapped. -/
theorem finish (h : Checked sha1 pagesize mi disk k tp) (hk : k < mi.numPieces)
    (hmap : torrentPieceMap tp k = .ok t) {c : Bool}
    (hmi : t'.mi = t.mi) (hpage : t'.pagesize = t.pagesize) (hfew : t'.goodPieces ≤ t.goodPieces + 1)
    (hpiece : t'.piece = Function.update t.piece k { t.piece k with cksumok := c }) (hdisk : t'.disk = t.disk)
    (hisnew : t'.isnew = t.isnew)
    (hwhole : (∀ j ≤ k, mi.Present disk j) → t.isnew = false ∧ ∀ f, t.fileData f = diskData disk f)
    (hgrown : ¬ (∀ j ≤ k, mi.Present disk j) → t.isnew = true) (hflag : c = true ↔ mi.Recognised sha1 disk k) :
    Checked sha1 pagesize mi disk (k + 1) (torrentPieceUnmap t' k) := by
  have hback := (h.backed.torrentPieceMap hmap).1
  have hdata : ∀ f, t'.fileData f = t.fileData f := fun f => by rw [Torrent.fileData,Torrent.fileData,hdisk]
  have hother : ∀ j, j ≠ k → (torrentPieceUnmap t' k).piece j = tp.piece j := by
    intro j hj
    rw [torrentPieceUnmap_other _ hj,hpiece,Function.update_of_ne hj,torrentPieceMap_other hmap hj]
  simp only [← Nat.lt_succ_iff] at hwhole hgrown
  constructor
  · rw [torrentPieceUnmap_mi,hmi,torrentPieceMap_mi hmap,h.same]
  · rw [torrentPieceUnmap_pagesize,hpage,torrentPieceMap_pagesize hmap,h.page]
  · intro f hf
    have hw := ((h.writable hk).torrentPieceMap hmap).handles f
    rw [← hdisk] at hw
    exact torrentPieceUnmap_handles hw hf
  · rw [(Kept.torrentPieceUnmap t' k).goodPieces]
    have := (Kept.torrentPieceMap hmap).goodPieces
    have := h.few
    omega
  · intro j hj
    rw [hother j (by omega),h.todo j (by omega)]
  · refine Backed.unmap (hback.update k _ hpiece ?_ (hback.short k) ?_ (hback.sized k)) k
    · intro f
      rw [hdata]
    · intro m hm
      exact (hback.views k m hm).grow (fun f => by rw [hdata])
  · intro hall
    rw [torrentPieceUnmap_isnew,hisnew]
    exact ⟨(hwhole hall).1,fun f => by rw [torrentPieceUnmap_fileData,hdata,(hwhole hall).2]⟩
  · intro hnot
    rw [torrentPieceUnmap_isnew,hisnew,hgrown hnot]
  · intro j hj
    by_cases hjk : j = k
    · rw [hjk,torrentPieceUnmap_cksumok,hpiece,Function.update_self]
      exact hflag
    · rw [hother j hjk]
      exact h.flags j (by omega)

/-- One turn of the start-up loop. -/
theorem step (h : Checked sha1 pagesize mi disk k tp) (hk : k < mi.numPieces) (hms : MapsTo mi pagesize disk k ms) :
    ∃ tp', startupPiece sha1 stale tp k = .ok tp' ∧ Checked sha1 pagesize mi disk (k + 1) tp' := by
  have hfind : torrentPieceFind tp k = .ok (tp.piece k) := by
    rw [torrentPieceFind_ok,Torrent.numPieces,h.same]
    exact ⟨hk,rfl⟩
  obtain ⟨t,hmap,hpiece,hg⟩ := h.map hk hms
  have hback := (h.backed.torrentPieceMap hmap).1
  have hwhole := h.map_whole hms hg
  have hnew := h.map_grown hms hg
  -- a turn that leaves the flag as it is
  have hleave : ¬ mi.Recognised sha1 disk k → Checked sha1 pagesize mi disk (k + 1) (torrentPieceUnmap t k) := by
    intro hnot
    have hsame : t.piece = Function.update t.piece k { t.piece k with cksumok := false } := by
      rw [hpiece]
      exact (Function.update_eq_self_iff.mpr hpiece.symm).symm
    exact h.finish hk hmap rfl rfl (Nat.le_succ _) hsame rfl rfl hwhole hnew (by simp [hnot])
  simp only [startupPiece,hfind,hmap,ok_bind]
  by_cases hall : ∀ j ≤ k, mi.Present disk j
  · obtain ⟨hold,hdata⟩ := hwhole hall
    rw [hold]
    simp only [Bool.false_eq_true,if_false]
    by_cases hempty : ms = []
    · rw [hempty] at hpiece
      rw [torrentPieceCheckhash_empty hpiece]
      exact ⟨_,rfl,hleave (fun hr => hr.2.1 (hms.empty.mp hempty))⟩
    · have hbytes : ms.flatMap t.mmapBytes = mi.bytesOn disk k := by
        rw [Metainfo.bytesOn,← hms.covers,← flatMap_places (hms.fits hall)]
        refine congrArg (List.flatMap · ms) (funext fun m => ?_)
        rw [Torrent.mmapBytes,hdata]
      have hmi : t.mi = mi := (torrentPieceMap_mi hmap).trans h.same
      rw [torrentPieceCheckhash_full hback hpiece hempty hms.size,hbytes,hmi]
      split_ifs with hhash
      · have hrec : mi.Recognised sha1 disk k := ⟨hall,fun hu => hempty (hms.empty.mpr hu),hhash⟩
        simp only [ok_bind,if_true]
        exact ⟨_,rfl,h.finish hk hmap rfl rfl (Nat.mod_le _ _) rfl rfl rfl hwhole hnew (by simp [hrec])⟩
      · exact ⟨_,rfl,hleave (fun hr => hhash hr.2.2)⟩
  · rw [hnew hall]
    exact ⟨_,rfl,hleave (fun hr => hall hr.1)⟩

end Checked

variable (stale : ℕ → UInt8)

/-- Where the start-up check recognises the pieces it should: every piece can be mapped, the pieces before a good
piece are there too, a good piece is not an empty one, and 32 bits hold the position of its digest. -/
def Metainfo.StartupExact : Prop :=
  (∀ i < mi.numPieces, mi.Mappable pagesize i) ∧
  (∀ i < mi.numPieces, mi.Present disk i → sha1 (mi.bytesOn disk i) = mi.digest i →
    (∀ j < i, mi.Present disk j) ∧ ¬ mi.Unmapped i ∧ mi.digestAt i = mi.digest i) ∧
  ∀ i < mi.numPieces, (∀ j ≤ i, mi.Present disk j) → ¬ mi.Unmapped i → sha1 (mi.bytesOn disk i) = mi.digestAt i →
    mi.digestAt i = mi.digest i

/-- After the start-up loop the flags are those of the recognised pieces. -/
theorem startup_recognised (hmap : ∀ i < mi.numPieces, mi.Mappable pagesize i)
    (hcover : mi.type = .multifile → ∀ i < mi.numPieces, mi.Covered pagesize disk i) :
    ∃ tp, startup sha1 stale (torrentPiecesCreate pagesize mi disk) = .ok tp ∧
      ∀ i < mi.numPieces, (tp.piece i).cksumok = true ↔ mi.Recognised sha1 disk i := by
  have hms : ∀ i < mi.numPieces, ∃ ms, MapsTo mi pagesize disk i ms := by
    intro i hi
    cases htype : mi.type with
    | singlefile => exact ⟨_,mapsTo_singlefile htype hi (hmap i hi)⟩
    | multifile => exact mapsTo_multifile htype (hcover htype i hi)
  obtain ⟨tp,htp,hdone⟩ := foldlM_range_ok (P := Checked sha1 pagesize mi disk) (f :=
    startupPiece sha1 stale) (n := mi.numPieces)
    (fun i hi tp h => by
      obtain ⟨ms,hms⟩ := hms i hi
      exact h.step hi hms) Checked.create
  exact ⟨tp,htp,hdone.flags⟩

/-- A turn of the start-up loop maps its piece and leaves the other ones alone. -/
theorem startupPiece_frame {tp tp' : Torrent} {k : ℕ} (h : startupPiece sha1 stale tp k = .ok tp') :
    (∃ t, torrentPieceMap tp k = .ok t) ∧ tp'.mi = tp.mi ∧ tp'.pagesize = tp.pagesize ∧ ∀ j, j ≠ k →
      tp'.piece j = tp.piece j := by
  have hmi : tp'.mi = tp.mi := (startupPiece_verifies h).elim (fun hk => hk.mi) (fun hv => hv.mi)
  unfold startupPiece at h
  obtain ⟨tpp,-,h⟩ := bind_ok.mp h
  obtain ⟨t,hmap,h⟩ := bind_ok.mp h
  refine ⟨⟨t,hmap⟩,hmi,?_⟩
  rw [← torrentPieceMap_pagesize hmap]
  have hother : ∀ j, j ≠ k → t.piece j = tp.piece j := fun j hj => torrentPieceMap_other hmap hj
  split at h
  · cases h
    exact ⟨torrentPieceUnmap_pagesize t k,fun j hj => (torrentPieceUnmap_other t hj).trans (hother j hj)⟩
  · obtain ⟨⟨u,good⟩,hcheck,h⟩ := bind_ok.mp h
    cases h
    rw [torrentPieceUnmap_pagesize]
    rcases torrentPieceCheckhash_cases hcheck with ⟨rfl,rfl⟩ | ⟨rfl,rfl⟩
    · refine ⟨rfl,?_⟩
      intro j hj
      rw [torrentPieceUnmap_other _ hj,← hother j hj]
      exact t.setPiece_ne (fun p => { p with cksumok := true }) hj
    · exact ⟨rfl,fun j hj => (torrentPieceUnmap_other _ hj).trans (hother j hj)⟩

/-- The start-up loop ends only if every piece can be mapped. -/
theorem startup_mappable {tp : Torrent} (h : startup sha1 stale (torrentPiecesCreate pagesize mi disk) = .ok tp) :
    ∀ i < mi.numPieces, mi.Mappable pagesize i := by
  have hloop := foldlM_range (P := fun k t => t.mi = mi ∧ t.pagesize = pagesize ∧
      (∀ j, k ≤ j → t.piece j = (torrentPiecesCreate pagesize mi disk).piece j) ∧ ∀ j < k, mi.Mappable pagesize j) ?_
    ⟨rfl,rfl,fun _ _ => rfl,fun j hj => absurd hj (Nat.not_lt_zero j)⟩ h
  · exact hloop.2.2.2
  · rintro k - t t' ⟨hmi,hpage,htodo,hall⟩ hturn
    obtain ⟨⟨u,hmap⟩,hmi',hpage',hother⟩ := startupPiece_frame sha1 stale hturn
    have hk : mi.Mappable pagesize k := by
      intro hs
      have hnone := ((torrentPieceMap_singlefile (by rwa [hmi])).mp hmap).1
      have hpos := mmapError_nonempty hnone
      rwa [htodo k (le_refl k),hmi,hpage] at hpos
    refine ⟨hmi'.trans hmi,hpage'.trans hpage,?_,?_⟩
    · intro j hj
      rw [hother j (by omega),htodo j (by omega)]
    · intro j hj
      rcases Nat.lt_succ_iff_lt_or_eq.mp hj with hj | rfl
      · exact hall j hj
      · exact hk

variable {sha1 pagesize mi disk}

theorem Metainfo.startupExact_iff : mi.StartupExact sha1 pagesize disk ↔ (∀ i < mi.numPieces, mi.Mappable pagesize i) ∧
    ∀ i < mi.numPieces, (mi.Recognised sha1 disk i ↔ mi.Present disk i ∧ sha1 (mi.bytesOn disk i) = mi.digest i) := by
  refine and_congr_right fun _ => ?_
  constructor
  · rintro ⟨hgood,hrec⟩ i hi
    constructor
    · rintro ⟨hall,hmapped,hhash⟩
      exact ⟨hall i (le_refl i),hhash.trans (hrec i hi hall hmapped hhash)⟩
    · rintro ⟨hpresent,hhash⟩
      obtain ⟨hbefore,hmapped,hdigest⟩ := hgood i hi hpresent hhash
      refine ⟨?_,hmapped,hhash.trans hdigest.symm⟩
      intro j hj
      rcases Nat.lt_or_eq_of_le hj with hj | rfl
      · exact hbefore j hj
      · exact hpresent
  · intro h
    constructor
    · intro i hi hpresent hhash
      obtain ⟨hall,hmapped,hat⟩ := (h i hi).mpr ⟨hpresent,hhash⟩
      exact ⟨fun j hj => hall j hj.le,hmapped,hat.symm.trans hhash⟩
    · intro i hi hall hmapped hat
      exact hat.symm.trans ((h i hi).mp ⟨hall,hmapped,hat⟩).2

end Loop

section Files

instance (mi : Metainfo) (disk : ℕ → FileState) (i : ℕ) : Decidable (mi.Present disk i) :=
  inferInstanceAs (Decidable (∀ q ∈ mi.places i, q.2 < (diskData disk q.1).length))

instance (mi : Metainfo) (i : ℕ) : Decidable (mi.Unmapped i) :=
  inferInstanceAs (Decidable (mi.type = .multifile ∧ pieceLen mi i = 0))

instance (mi : Metainfo) (pagesize i : ℕ) : Decidable (mi.Mappable pagesize i) :=
  inferInstanceAs (Decidable (mi.type = .singlefile → ¬ (pieceLen mi i = 0 ∧ mi.pieceLength * i % pagesize = 0)))

instance (sha1 : Bytes → Bytes) (pagesize : ℕ) (mi : Metainfo) (disk : ℕ → FileState) :
    Decidable (mi.StartupExact sha1 pagesize disk) :=
  @instDecidableAnd _ _ inferInstance (@instDecidableAnd _ _ inferInstance inferInstance)

instance (mi : Metainfo) (pagesize : ℕ) (disk : ℕ → FileState) (i : ℕ) : Decidable (mi.Covered pagesize disk i) :=
  match h : torrentPieceMap (torrentPiecesCreate pagesize mi disk) i with
  | .ok tp => decidable_of_iff
      ((tp.piece i).mmaps.flatMap Mmap.places = mi.places i ∧ ∀ m ∈ (tp.piece i).mmaps, 0 < m.len)
        (by simp [Metainfo.Covered,h])
  | .error _ => isFalse (by simp [Metainfo.Covered,h])

/-- Two files of one byte each, both zero, in pieces of one byte. -/
def Metainfo.twoFiles : Metainfo where
  type := .multifile
  name := []
  files := [⟨1,[97]⟩,⟨1,[98]⟩]
  pieces := zeroByteDigest ++ zeroByteDigest
  pieceLength := 1
  infoHash := List.replicate 20 0
  pieceLength_lt := one_lt_word
  infoHash_length := length_zeroHash
  single_file := nofun

/-- Files of one zero byte where `present` says so; the others are missing. -/
def zeroFiles (present : ℕ → Bool) (k : ℕ) : FileState := ⟨false,0,if present k then some [0] else none,false⟩

end Files

end Unworkable
