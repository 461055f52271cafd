import Unworkable.Torrent.Integrity
import Mathlib.Algebra.BigOperators.Group.Finset.Basic

/-! # References to files

A file is open while something maps it. `torrent_mmap_create` counts a mapping on its file,
`torrent_piece_unmap` takes it off again and closes the file with the last one; in between the
first of them may close the file to make it longer and open it again.
-/
namespace Unworkable
open Library

/-- The part of `torrent_mmap_create` behind the label `open`: open the file if it is closed, and
if it is too short write its last byte, close it and go back. The flag is what `isnew` is set to. -/
def openLoop (rdonly : Bool) (off len : ℕ) : ℕ → FileState → Option (Except String (FileState × Bool))
  | 0,_ => none
  | n + 1,f =>
    if !f.fd && rdonly && f.data.isNone then some (.error "torrent_mmap_create: open `%s'")
    else
      let f := if f.fd then f else { f with fd := true, data := some (f.data.getD []), rdonly := rdonly }
      let data := f.data.getD []
      if data.length < len + off then
        if f.rdonly then some (.error "torrent_mmap_create: write() failure")
        else (openLoop rdonly off len n { f with fd := false, data := some (extendTo data (len + off)) }).map
          (Except.map (fun r => (r.1,true)))
      else some (.ok (f,false))

/-- The mappings of file `k` in a list. -/
def mapsOf (k : ℕ) (ms : List Mmap) : ℕ := ms.countP (fun m => m.file = k)

/-- The live mappings of file `k` over all pieces. -/
def Torrent.liveMaps (tp : Torrent) (k : ℕ) : ℕ := ∑ i ∈ Finset.range tp.numPieces, mapsOf k (tp.piece i).mmaps

/-- The descriptor of a file is open exactly while the file is referred to, and the file is there. -/
structure FileState.Open (f : FileState) : Prop where
  fd : f.fd = true ↔ 0 < f.refs
  there : f.fd = true → f.data.isSome = true

/-- The count of every file is that of its live mappings. -/
structure Torrent.RefsCounted (tp : Torrent) : Prop where
  refs : ∀ k, (tp.disk k).refs = tp.liveMaps k
  opened : ∀ k, (tp.disk k).Open

/-- The calls that map and unmap pieces; a piece is mapped only while its flag is clear. -/
inductive PieceCall : Torrent → Torrent → Prop
  | map {tp tp' : Torrent} {idx : ℕ} (hidx : idx < tp.numPieces) (hclear : (tp.piece idx).mapped = false)
      (h : torrentPieceMap tp idx = .ok tp') : PieceCall tp tp'
  | unmap {tp : Torrent} {idx : ℕ} (hidx : idx < tp.numPieces) : PieceCall tp (torrentPieceUnmap tp idx)

def PieceCalls : Torrent → Torrent → Prop := Relation.ReflTransGen PieceCall

section Create
variable {tp : Torrent} {off len : ℕ}

/-- The loop goes back at most once. -/
theorem openLoop_eq {f : FileState} (hf : f.Open) (ro : Bool) (n : ℕ) : openLoop ro off len (n + 2) f = some (
    if !f.fd && ro && f.data.isNone then .error "torrent_mmap_create: open `%s'"
    else if (if f.fd then f.rdonly else ro) && decide ((f.data.getD []).length < len + off) then
      .error "torrent_mmap_create: write() failure"
    else .ok ({ f with fd := true, data := some (extendTo (f.data.getD []) (len + off))
                       rdonly := if f.fd && !decide ((f.data.getD []).length < len + off) then f.rdonly else ro },
      decide ((f.data.getD []).length < len + off))) := by
  obtain ⟨fd,refs,data,rd⟩ := f
  have hsame : ∀ {bs : Bytes}, ¬ bs.length < len + off → extendTo bs (len + off) = bs := fun h => if_neg h
  have hback : ∀ bs : Bytes, ¬ (extendTo bs (len + off)).length < len + off := fun bs =>
    Nat.not_lt.mpr (length_extendTo _ _)
  cases data with
  | none =>
    have hfd : fd = false := by
      cases fd with
      | true => cases hf.there rfl
      | false => rfl
    subst hfd
    by_cases hshort : ([] : Bytes).length < len + off
    · cases ro <;> simp [openLoop,show 0 < len + off from hshort,hback,Except.map]
    · cases ro <;> simp [openLoop,show ¬ 0 < len + off from hshort,hsame hshort]
  | some bs =>
    by_cases hshort : bs.length < len + off
    · cases fd <;> cases rd <;> cases ro <;> simp [openLoop,hshort,hback,Except.map]
    · cases fd <;> cases rd <;> cases ro <;> simp [openLoop,hshort,hsame hshort]

/-- Behind the loop the file is mapped and the mapping counted. -/
theorem torrentMmapCreate_openLoop {file : ℕ} (hf : (tp.disk file).Open) (n : ℕ) :
    ∃ r, openLoop tp.opensRdonly off len (n + 2) (tp.disk file) = some r ∧ torrentMmapCreate tp file off len =
      match r with
      | .error msg => .error (.errx msg)
      | .ok (f,new) =>
        if f.rdonly && !tp.opensRdonly || decide (len = 0 ∧ off % tp.pagesize = 0) then
          .error (.errx "torrent_mmap_create: mmap")
        else .ok ({ tp.setFile file (fun _ => { f with refs := f.refs + 1 }) with isnew := tp.isnew || new },
          ⟨file,off,len⟩) := by
  refine ⟨_,openLoop_eq hf tp.opensRdonly n,?_⟩
  unfold torrentMmapCreate mmapError mmapCreated Torrent.readsOnly Torrent.tooShort Torrent.fileData Torrent.setFile
  generalize tp.opensRdonly = ro
  generalize tp.disk file = f at hf ⊢
  generalize decide (len = 0 ∧ off % tp.pagesize = 0) = z
  obtain ⟨fd,refs,data,rd⟩ := f
  generalize decide ((data.getD []).length < len + off) = short
  cases fd <;> cases ro <;> cases short <;> cases z <;> cases hn : data.isNone <;> cases rd <;> rfl

theorem mmapCreated_disk (tp : Torrent) (file off len k : ℕ) : ((mmapCreated tp file off len).1.disk k).refs =
    (tp.disk k).refs + mapsOf k [(mmapCreated tp file off len).2] ∧
      ((tp.disk k).Open → ((mmapCreated tp file off len).1.disk k).Open) := by
  by_cases hk : k = file
  · subst hk
    simp only [mmapCreated,Torrent.setFile,Function.update_self,mapsOf,List.countP_singleton]
    refine ⟨by simp,fun _ => ⟨by simp,fun _ => rfl⟩⟩
  · simp only [mmapCreated,Torrent.setFile,Function.update_of_ne hk,mapsOf,List.countP_singleton]
    refine ⟨by simp [Ne.symm hk],fun h => h⟩

end Create

section Calls
variable {tp tp' : Torrent} {idx k : ℕ}

theorem mapsOf_append (k : ℕ) (ms ms' : List Mmap) : mapsOf k (ms ++ ms') = mapsOf k ms + mapsOf k ms' :=
  List.countP_append

/-- A change of one piece changes the live mappings by those of that piece. -/
theorem liveMaps_setPiece (hidx : idx < tp.numPieces) (f : TorrentPiece → TorrentPiece) (k : ℕ) :
    (tp.setPiece idx f).liveMaps k + mapsOf k (tp.piece idx).mmaps =
      tp.liveMaps k + mapsOf k (f (tp.piece idx)).mmaps := by
  have hmem : idx ∈ Finset.range tp.numPieces := Finset.mem_range.mpr hidx
  have hrest : ∑ i ∈ (Finset.range tp.numPieces).erase idx, mapsOf k ((tp.setPiece idx f).piece i).mmaps =
      ∑ i ∈ (Finset.range tp.numPieces).erase idx, mapsOf k (tp.piece i).mmaps := by
    refine Finset.sum_congr rfl ?_
    intro i hi
    rw [tp.setPiece_ne f (Finset.ne_of_mem_erase hi)]
  have hnew : mapsOf k ((tp.setPiece idx f).piece idx).mmaps + ∑ i ∈ (Finset.range tp.numPieces).erase idx,
      mapsOf k ((tp.setPiece idx f).piece i).mmaps = (tp.setPiece idx f).liveMaps k :=
    Finset.add_sum_erase _ (fun i => mapsOf k ((tp.setPiece idx f).piece i).mmaps) hmem
  have hold : mapsOf k (tp.piece idx).mmaps + ∑ i ∈ (Finset.range tp.numPieces).erase idx,
      mapsOf k (tp.piece i).mmaps = tp.liveMaps k := Finset.add_sum_erase _ (fun i => mapsOf k (tp.piece i).mmaps) hmem
  rw [hrest,Torrent.setPiece_self] at hnew
  omega

theorem liveMaps_congr (hmi : tp'.mi = tp.mi) (hpiece : tp'.piece = tp.piece) (k : ℕ) :
    tp'.liveMaps k = tp.liveMaps k := by
  simp only [Torrent.liveMaps,Torrent.numPieces,hmi,hpiece]

/-- The mappings `ms` made so far on the way from `tp` to `tp'` are counted, beyond the first `n`. -/
structure CountsMaps (tp : Torrent) (ms₀ ms : List Mmap) (tp' : Torrent) : Prop where
  refs : ∀ k, (tp'.disk k).refs + mapsOf k ms₀ = (tp.disk k).refs + mapsOf k ms
  opened : ∀ k, (tp'.disk k).Open

theorem CountsMaps.created {ms₀ ms : List Mmap} (h : CountsMaps tp ms₀ ms tp') (file off len : ℕ) :
    CountsMaps tp ms₀ (ms ++ [(mmapCreated tp' file off len).2]) (mmapCreated tp' file off len).1 := by
  constructor
  · intro k
    rw [(mmapCreated_disk tp' file off len k).1,mapsOf_append]
    have := h.refs k
    omega
  · exact fun k => (mmapCreated_disk tp' file off len k).2 (h.opened k)

/-- Mapping a piece counts each mapping it makes, whatever the layout of the files. -/
theorem torrentPieceMap_counts (hopen : ∀ k, (tp.disk k).Open) (h : torrentPieceMap tp idx = .ok tp') :
    CountsMaps tp (tp.piece idx).mmaps (tp'.piece idx).mmaps tp' := by
  have hstart : CountsMaps tp (tp.piece idx).mmaps (tp.piece idx).mmaps tp := ⟨fun _ => rfl,hopen⟩
  cases htype : tp.mi.type with
  | singlefile =>
    obtain ⟨-,rfl⟩ := (torrentPieceMap_singlefile htype).mp h
    rw [Torrent.setPiece_self]
    have hc := hstart.created 0 (tp.mi.pieceLength * (tp.piece idx).index) (tp.piece idx).len
    exact ⟨hc.refs,hc.opened⟩
  | multifile =>
    simp only [torrentPieceMap,htype] at h
    obtain ⟨w,hw,h⟩ := bind_ok.mp h
    cases h
    have hc : CountsMaps tp (tp.piece idx).mmaps w.mmaps w.tp :=
      mapFiles_keeps (P := fun v => CountsMaps tp (tp.piece idx).mmaps v.mmaps v.tp)
        (fun v file off n hv => hv.created file off.toNat (wrapInt32 n)) (fun _ _ _ _ hv => hv) hstart hw
    rw [Torrent.setPiece_self]
    exact ⟨hc.refs,hc.opened⟩

/-- Only the mapped piece changes. -/
theorem torrentPieceMap_piece (h : torrentPieceMap tp idx = .ok tp') :
    ∃ f, tp'.mi = tp.mi ∧ tp'.piece = (tp.setPiece idx f).piece := by
  cases htype : tp.mi.type with
  | singlefile =>
    obtain ⟨-,rfl⟩ := (torrentPieceMap_singlefile htype).mp h
    exact ⟨fun t =>
      { t with mmaps := t.mmaps ++ [⟨0,tp.mi.pieceLength * (tp.piece idx).index,(tp.piece idx).len⟩], mapped := true },
      rfl,rfl⟩
  | multifile =>
    simp only [torrentPieceMap,htype] at h
    obtain ⟨w,hw,h⟩ := bind_ok.mp h
    cases h
    obtain ⟨hmi,hpiece⟩ := mapFiles_frame hw
    refine ⟨fun t => { t with len := w.plen, mmaps := w.mmaps, mapped := true },hmi,?_⟩
    simp only [Torrent.setPiece,hpiece]

theorem Torrent.RefsCounted.map (hs : tp.RefsCounted) (hidx : idx < tp.numPieces)
    (h : torrentPieceMap tp idx = .ok tp') :
    tp'.RefsCounted := by
  have hc := torrentPieceMap_counts hs.opened h
  obtain ⟨f,hmi,hpiece⟩ := torrentPieceMap_piece h
  refine ⟨?_,hc.opened⟩
  intro k
  have hlive := liveMaps_setPiece hidx f k
  have hrefs := hc.refs k
  have hmaps : (tp'.piece idx).mmaps = (f (tp.piece idx)).mmaps := by rw [hpiece,Torrent.setPiece_self]
  rw [hmaps,hs.refs k] at hrefs
  have hmi' : tp'.mi = (tp.setPiece idx f).mi := hmi
  rw [liveMaps_congr hmi' hpiece k]
  omega

/-- Taking mappings off that are counted. -/
theorem foldl_unmapTurn_counts (ms : List Mmap) (hopen : ∀ k, (tp.disk k).Open)
    (hle : ∀ k, mapsOf k ms ≤ (tp.disk k).refs) :
    ∀ k, ((ms.foldl unmapTurn tp).disk k).refs + mapsOf k ms = (tp.disk k).refs ∧
      ((ms.foldl unmapTurn tp).disk k).Open := by
  induction ms generalizing tp with
  | nil => exact fun k => ⟨rfl,hopen k⟩
  | cons m ms ih =>
    have hcount : ∀ k, mapsOf k (m :: ms) = mapsOf k ms + if m.file = k then 1 else 0 := by
      intro k
      simp only [mapsOf,List.countP_cons,decide_eq_true_eq]
    have hpos : 0 < (tp.disk m.file).refs := by
      have := hle m.file
      rw [hcount,if_pos rfl] at this
      omega
    have hturn : ∀ k, ((unmapTurn tp m).disk k).refs + (if m.file = k then 1 else 0) = (tp.disk k).refs ∧
        ((unmapTurn tp m).disk k).Open := by
      intro k
      by_cases hk : k = m.file
      · subst hk
        have hfd := (hopen m.file).fd.mpr hpos
        simp only [unmapTurn,Torrent.setFile,Function.update_self,if_neg (Nat.pos_iff_ne_zero.mp hpos),if_true]
        refine ⟨by omega,⟨?_,fun _ => (hopen m.file).there hfd⟩⟩
        simp only [hfd,Bool.true_and,decide_eq_true_eq,Nat.pos_iff_ne_zero]
      · simp only [unmapTurn,Torrent.setFile,Function.update_of_ne hk,if_neg (Ne.symm hk)]
        exact ⟨rfl,hopen k⟩
    intro k
    rw [List.foldl_cons]
    have hrest := ih (fun k => (hturn k).2) (fun k => by
      have h₁ := hle k
      have h₂ := (hturn k).1
      rw [hcount] at h₁
      omega) k
    refine ⟨?_,hrest.2⟩
    have h₁ := hrest.1
    have h₂ := (hturn k).1
    rw [hcount]
    omega

theorem Torrent.RefsCounted.unmap (hs : tp.RefsCounted) (hidx : idx < tp.numPieces) :
    (torrentPieceUnmap tp idx).RefsCounted := by
  have hle : ∀ k, mapsOf k (tp.piece idx).mmaps ≤ (tp.disk k).refs := by
    intro k
    rw [hs.refs k]
    exact Finset.single_le_sum (f := fun i => mapsOf k (tp.piece i).mmaps) (fun _ _ => Nat.zero_le _)
      (Finset.mem_range.mpr hidx)
  have hfold := foldl_unmapTurn_counts (tp.piece idx).mmaps hs.opened hle
  obtain ⟨hmi,hpiece,-⟩ := Intact.foldl_unmapTurn (tp.piece idx).mmaps tp
  refine ⟨?_,fun k => (hfold k).2⟩
  intro k
  have hlive := liveMaps_setPiece hidx (fun t => { t with mmaps := [], mapped := false }) k
  have hpiece' : (torrentPieceUnmap tp idx).piece =
      (tp.setPiece idx (fun t => { t with mmaps := [], mapped := false })).piece := by
    simp only [torrentPieceUnmap,Torrent.setPiece,hpiece]
  have hmi' : (torrentPieceUnmap tp idx).mi =
    (tp.setPiece idx (fun t => { t with mmaps := [], mapped := false })).mi := hmi
  have hsame : (torrentPieceUnmap tp idx).liveMaps k =
      (tp.setPiece idx (fun t => { t with mmaps := [], mapped := false })).liveMaps k := liveMaps_congr hmi' hpiece' k
  have hnone : mapsOf k [] = 0 := rfl
  have hrefs := (hfold k).1
  rw [hs.refs k] at hrefs
  have hdisk : ((torrentPieceUnmap tp idx).disk k).refs = (((tp.piece idx).mmaps.foldl unmapTurn tp).disk k).refs := rfl
  rw [hsame,hdisk]
  simp only [hnone] at hlive
  omega

theorem Torrent.RefsCounted.call (hs : tp.RefsCounted) (h : PieceCall tp tp') : tp'.RefsCounted := by
  cases h with
  | map hidx _ h => exact hs.map hidx h
  | unmap hidx => exact hs.unmap hidx

/-- A parsed torrent has no file open and nothing mapped. -/
theorem refsCounted_create (pagesize : ℕ) (mi : Metainfo) (disk : ℕ → FileState) :
    (torrentPiecesCreate pagesize mi disk).RefsCounted := by
  constructor
  · intro k
    rw [show ((torrentPiecesCreate pagesize mi disk).disk k).refs = 0 from rfl]
    exact (Finset.sum_eq_zero fun i _ => rfl).symm
  · intro k
    exact ⟨by simp [torrentPiecesCreate],by simp [torrentPiecesCreate]⟩

/-- After any sequence of calls that map and unmap pieces, the count of every file is the number of
live mappings of it over all pieces, and it is open if and only if that is not zero. -/
theorem file_refs_counted (pagesize : ℕ) (mi : Metainfo) (disk : ℕ → FileState) (tp : Torrent)
    (h : PieceCalls (torrentPiecesCreate pagesize mi disk) tp) (k : ℕ) :
    (tp.disk k).refs = tp.liveMaps k ∧ ((tp.disk k).fd = true ↔ 0 < (tp.disk k).refs) := by
  have hs : tp.RefsCounted := by
    induction h with
    | refl => exact refsCounted_create pagesize mi disk
    | tail _ hcall ih => exact ih.call hcall
  exact ⟨hs.refs k,(hs.opened k).fd⟩

/-- Two files of one and three bytes in pieces of two bytes: the second file is in both pieces. -/
def Metainfo.sharedFile : Metainfo where
  type := .multifile
  name := []
  files := [⟨1,[97]⟩,⟨3,[98]⟩]
  pieces := List.replicate 40 0
  pieceLength := 2
  infoHash := List.replicate 20 0
  pieceLength_lt := two_lt_word
  infoHash_length := length_zeroHash
  single_file := nofun

/-- Both pieces are mapped and the first is unmapped again, on an empty disk. -/
theorem file_refs_counted_shared : ∃ tp, PieceCalls
    (torrentPiecesCreate 4096 .sharedFile (fun _ => ⟨false,0,none,false⟩)) tp ∧
    (tp.disk 1).fd = true ∧ (tp.disk 1).refs = tp.liveMaps 1 ∧ ((tp.disk 1).fd = true ↔ 0 < (tp.disk 1).refs) := by
  have hrun : (torrentPieceMap (torrentPiecesCreate 4096 .sharedFile (fun _ => ⟨false,0,none,false⟩))
      0).toOption.map (fun tp =>
      !(tp.piece 1).mapped && ((torrentPieceMap tp 1).toOption.map (fun tp => ((torrentPieceUnmap tp 0).disk 1).fd) ==
        some true)) = some true := by decide +kernel
  obtain ⟨tp₁,h₁,hP⟩ := exists_ok hrun
  obtain ⟨hclear,hP⟩ := Bool.and_eq_true_iff.mp hP
  obtain ⟨tp₂,h₂,hfd⟩ := exists_ok (eq_of_beq hP)
  have hn₁ : 1 < tp₁.numPieces := by
    obtain ⟨f,hmi,-⟩ := torrentPieceMap_piece h₁
    rw [Torrent.numPieces,hmi]
    decide
  have hn₂ : 0 < tp₂.numPieces := by
    obtain ⟨f,hmi,-⟩ := torrentPieceMap_piece h₂
    rw [Torrent.numPieces,hmi]
    exact Nat.zero_lt_of_lt hn₁
  have hcalls : PieceCalls (torrentPiecesCreate 4096 .sharedFile (fun _ => ⟨false,0,none,false⟩))
      (torrentPieceUnmap tp₂ 0) := by
    refine .tail (.tail (.single (.map (by decide) rfl h₁)) (.map hn₁ ?_ h₂)) (.unmap hn₂)
    simpa using hclear
  exact ⟨_,hcalls,hfd,file_refs_counted _ _ _ _ hcalls 1⟩

end Calls

end Unworkable
