import Unworkable.Torrent.Bitfield
import Mathlib.Logic.Relation

/-! # Verified pieces keep their bytes

Everything but a block write that happens to a torrent is one of four moves: counters
change, a piece is mapped, unmapped, or checked against its digest. In a single-file torrent
each mapping of a piece shows the range of the file that belongs to the piece; the ranges of
different pieces are disjoint, so a write to a piece that is not verified leaves the
verified ones as they were checked.
-/
namespace Unworkable
open Library

theorem length_extendTo (data : Bytes) (size : ℕ) : size ≤ (extendTo data size).length := by
  unfold extendTo
  split
  · simp only [List.length_append,List.length_replicate]
    omega
  · omega

theorem exists_extendTo (data : Bytes) (size : ℕ) : ∃ more, extendTo data size = data ++ more := by
  unfold extendTo
  split
  · exact ⟨_,rfl⟩
  · exact ⟨[],by simp⟩

theorem extendTo_of_le {data : Bytes} {size : ℕ} (h : size ≤ data.length) : extendTo data size = data := by
  simp [extendTo,Nat.not_lt.mpr h]

section Frames

@[simp] theorem mmapCreated_mi (tp : Torrent) (file off len : ℕ) : (mmapCreated tp file off len).1.mi = tp.mi := rfl
@[simp] theorem mmapCreated_piece (tp : Torrent) (file off len : ℕ) : (mmapCreated tp file off len).1.piece =
    tp.piece := rfl

theorem torrentMmapCreate_ok {tp : Torrent} {file off len : ℕ} {r : Torrent × Mmap} :
    torrentMmapCreate tp file off len = .ok r ↔ mmapError tp file off len = none ∧ mmapCreated tp file off len = r := by
  unfold torrentMmapCreate
  cases mmapError tp file off len with
  | some msg => simp
  | none => simp

def MapWalk.created (w : MapWalk) (file : ℕ) (off n : ℤ) : MapWalk :=
  w.link (mmapCreated w.tp file off.toNat (wrapInt32 n))

theorem MapWalk.create_ok {w w' : MapWalk} {file : ℕ} {off n : ℤ} :
    w.create file off n = .ok w' ↔ mmapError w.tp file off.toNat (wrapInt32 n) = none ∧ w.created file off n = w' := by
  unfold create created
  rw [bind_ok]
  constructor
  · rintro ⟨r,hr,h⟩
    obtain ⟨hnone,rfl⟩ := torrentMmapCreate_ok.mp hr
    exact ⟨hnone,Except.ok.inj h⟩
  · rintro ⟨hnone,rfl⟩
    exact ⟨_,torrentMmapCreate_ok.mpr ⟨hnone,rfl⟩,rfl⟩

/-- What is left of a piece behind the end of a file, in the files that follow. -/
def mapNext (rest : List (ℕ × FileInfo)) (w : MapWalk) : Except Halt MapWalk :=
  match rest.head? with
  | none => .error .wild
  | some (j,g) =>
    if g.fileLength < w.len then
      if g.fileLength = 0 then mapFiles rest w
      else do
        let w' ← w.create j 0 g.fileLength
        mapFiles rest { w' with len := sub32 w.len (wrapInt32 g.fileLength), off := 0, skip := true }
    else if w.len = 0 then mapFiles rest w
    else w.create j 0 w.len

theorem mapFiles_cons (i : ℕ) (f : FileInfo) (rest : List (ℕ × FileInfo)) (w : MapWalk) : mapFiles ((i,f) :: rest) w =
    if w.skip then mapFiles rest { w with skip := false }
    else if w.off > f.fileLength then mapFiles rest { w with off := w.off - f.fileLength }
    else if f.fileLength < w.len ∧ w.plen < w.len then
      if f.fileLength - w.off = 0 then mapFiles rest w
      else do
        let w' ← w.create i w.off (f.fileLength - w.off)
        mapFiles rest { w' with len := sub32 w.len (wrapInt32 (f.fileLength - w.off)), off := 0 }
    else if w.off + w.len > f.fileLength then
      if f.fileLength = w.off then mapFiles rest { w with off := 0 }
      else do
        let w' ← w.create i w.off (f.fileLength - w.off)
        mapNext rest { w' with len := sub32 w.len (wrapInt32 (f.fileLength - w.off)), off := w.off + 1 }
    else if w.off < f.fileLength then
      if w.len = 0 then mapFiles rest w else w.create i w.off w.len
    else mapFiles rest w := rfl

/-- The walk over the files keeps whatever every mapping of a file on the list keeps and the
counters do not touch. -/
theorem mapFiles_keeps_of {P : MapWalk → Prop} {l : List (ℕ × FileInfo)}
    (hcreate : ∀ w, ∀ x ∈ l, ∀ off n, P w → P (w.created x.1 off n))
    (hcounters : ∀ w off len skip, P w → P { w with off := off, len := len, skip := skip })
    {w w' : MapWalk} (hw : P w) (h : mapFiles l w = .ok w') : P w' := by
  induction l generalizing w with
  | nil =>
    cases h
    exact hw
  | cons f rest ih =>
    obtain ⟨i,f⟩ := f
    have hhere : ∀ {w' : MapWalk} off n, w.create i off n = .ok w' → P w' := by
      intro w' off n hcr
      obtain ⟨-,rfl⟩ := MapWalk.create_ok.mp hcr
      exact hcreate w (i,f) List.mem_cons_self off n hw
    have hrest := fun {w : MapWalk} => ih (w := w) (fun w x hx => hcreate w x (List.mem_cons_of_mem _ hx))
    have hnext : ∀ {g : ℕ × FileInfo}, rest.head? = some g → ∀ {v v' : MapWalk} off n, P v →
        v.create g.1 off n = .ok v' → P v' := by
      intro g hg v v' off n hv hcr
      obtain ⟨-,rfl⟩ := MapWalk.create_ok.mp hcr
      exact hcreate v _ (List.mem_cons_of_mem _ (List.mem_of_mem_head? hg)) off n hv
    rw [mapFiles_cons] at h
    -- every branch makes at most two mappings and goes on with the rest, stops, or leaves the list
    split_ifs at h
    · exact hrest (hcounters w _ _ _ hw) h
    · exact hrest (hcounters w _ _ _ hw) h
    · exact hrest hw h
    · obtain ⟨v,hv,h⟩ := bind_ok.mp h
      exact hrest (hcounters v _ _ _ (hhere _ _ hv)) h
    · exact hrest (hcounters w _ _ _ hw) h
    · obtain ⟨v,hv,h⟩ := bind_ok.mp h
      have hfirst := fun off len skip => hcounters v off len skip (hhere _ _ hv)
      unfold mapNext at h
      split at h
      · cases h
      · rename_i hg
        split_ifs at h
        · exact hrest (hfirst _ _ _) h
        · obtain ⟨u,hu,h⟩ := bind_ok.mp h
          exact hrest (hcounters u _ _ _ (hnext hg _ _ (hfirst _ _ _) hu)) h
        · exact hrest (hfirst _ _ _) h
        · exact hnext hg _ _ (hfirst _ _ _) h
    · exact hrest hw h
    · exact hhere _ _ h
    · exact hrest hw h

/-- The same for what every mapping keeps. -/
theorem mapFiles_keeps {P : MapWalk → Prop} (hcreate : ∀ w file off n, P w → P (w.created file off n))
    (hcounters : ∀ w off len skip, P w → P { w with off := off, len := len, skip := skip })
    {l : List (ℕ × FileInfo)} {w w' : MapWalk} (hw : P w) (h : mapFiles l w = .ok w') : P w' :=
  mapFiles_keeps_of (fun w x _ => hcreate w x.1) hcounters hw h

/-- The walk over the files leaves the metainfo and the piece array alone. -/
theorem mapFiles_frame {l : List (ℕ × FileInfo)} {w w' : MapWalk} (h : mapFiles l w = .ok w') :
    w'.tp.mi = w.tp.mi ∧ w'.tp.piece = w.tp.piece :=
  mapFiles_keeps (P := fun v => v.tp.mi = w.tp.mi ∧ v.tp.piece = w.tp.piece) (fun _ _ _ _ hv => hv)
    (fun _ _ _ _ hv => hv) ⟨rfl,rfl⟩ h

/-- The one mapping of a piece of a single-file torrent. -/
theorem torrentPieceMap_singlefile {tp tp' : Torrent} {idx : ℕ} (hs : tp.mi.type = .singlefile)  :
    torrentPieceMap tp idx = .ok tp' ↔
      mmapError tp 0 (tp.mi.pieceLength * (tp.piece idx).index) (tp.piece idx).len = none ∧
        (mmapCreated tp 0 (tp.mi.pieceLength * (tp.piece idx).index) (tp.piece idx).len).1.setPiece idx
        (fun t => { t with
          mmaps := t.mmaps ++ [⟨0,tp.mi.pieceLength * (tp.piece idx).index,(tp.piece idx).len⟩], mapped := true }) =
            tp' := by
  simp only [torrentPieceMap,hs,bind_ok]
  constructor
  · rintro ⟨r,hr,h⟩
    obtain ⟨hnone,rfl⟩ := torrentMmapCreate_ok.mp hr
    exact ⟨hnone,Except.ok.inj h⟩
  · rintro ⟨hnone,rfl⟩
    exact ⟨_,torrentMmapCreate_ok.mpr ⟨hnone,rfl⟩,rfl⟩

/-- Mapping a piece keeps whatever every mapping keeps and the descriptor of the piece does not matter to. -/
theorem torrentPieceMap_keeps {P : Torrent → Prop} {tp tp' : Torrent} {idx : ℕ}
    (hcreate : ∀ u file off len, P u → P (mmapCreated u file off len).1)
    (hpiece : ∀ u f, (∀ t : TorrentPiece, (f t).cksumok = t.cksumok ∧ (f t).index = t.index) → P u →
      P (u.setPiece idx f))
    (htp : P tp) (h : torrentPieceMap tp idx = .ok tp') : P tp' := by
  cases htype : tp.mi.type with
  | singlefile =>
    obtain ⟨-,rfl⟩ := (torrentPieceMap_singlefile htype).mp h
    exact hpiece _ _ (fun _ => ⟨rfl,rfl⟩) (hcreate _ _ _ _ htp)
  | multifile =>
    simp only [torrentPieceMap,htype] at h
    obtain ⟨w,hw,h⟩ := bind_ok.mp h
    cases h
    exact hpiece _ _ (fun _ => ⟨rfl,rfl⟩)
      (mapFiles_keeps (P := fun v => P v.tp) (fun v file _ _ hv => hcreate v.tp file _ _ hv)
        (fun _ _ _ _ hv => hv) htp hw)

theorem torrentPieceMap_frame {tp tp' : Torrent} {idx : ℕ} (h : torrentPieceMap tp idx = .ok tp') :
    tp'.mi = tp.mi ∧ (∀ i, (tp'.piece i).cksumok = (tp.piece i).cksumok) ∧ (tp'.piece idx).mapped = true := by
  cases htype : tp.mi.type with
  | singlefile =>
    obtain ⟨-,rfl⟩ := (torrentPieceMap_singlefile htype).mp h
    refine ⟨rfl,?_,by simp⟩
    intro i
    by_cases hi : i = idx
    · simp [hi]
    · simp [Torrent.setPiece_ne _ _ hi]
  | multifile =>
    simp only [torrentPieceMap,htype] at h
    obtain ⟨w,hw,h⟩ := bind_ok.mp h
    cases h
    obtain ⟨hmi,hpiece⟩ := mapFiles_frame hw
    refine ⟨hmi,?_,by simp⟩
    intro i
    by_cases hi : i = idx
    · simp [hi,hpiece]
    · simp [Torrent.setPiece_ne _ _ hi,hpiece]

theorem torrentPieceMap_other {tp tp' : Torrent} {i idx : ℕ} (h : torrentPieceMap tp i = .ok tp') (hi : idx ≠ i) :
    tp'.piece idx = tp.piece idx := by
  cases htype : tp.mi.type with
  | singlefile =>
    obtain ⟨-,rfl⟩ := (torrentPieceMap_singlefile htype).mp h
    rw [Torrent.setPiece_ne _ _ hi]
    rfl
  | multifile =>
    simp only [torrentPieceMap,htype] at h
    obtain ⟨w,hw,h⟩ := bind_ok.mp h
    cases h
    rw [Torrent.setPiece_ne _ _ hi,(mapFiles_frame hw).2]

theorem torrentPieceMap_mi {tp tp' : Torrent} {idx : ℕ} (h : torrentPieceMap tp idx = .ok tp') :
    tp'.mi = tp.mi := (torrentPieceMap_frame h).1

end Frames

section Moves
variable (sha1 : Bytes → Bytes)

/-- What happens to a torrent apart from block writes. -/
inductive TorrentMove : Torrent → Torrent → Prop
  /-- Counters, the resume file and the flag of new files change. -/
  | counters {tp tp' : Torrent} (hmi : tp'.mi = tp.mi) (hpiece : tp'.piece = tp.piece)
      (hdisk : tp'.disk = tp.disk) : TorrentMove tp tp'
  | map {tp tp' : Torrent} {idx : ℕ} (h : torrentPieceMap tp idx = .ok tp') : TorrentMove tp tp'
  | unmap {tp : Torrent} (idx : ℕ) : TorrentMove tp (torrentPieceUnmap tp idx)
  | verify {tp tp' : Torrent} {idx : ℕ} {stale : ℕ → UInt8} {good : Bool} (hidx : idx < tp.numPieces)
      (h : torrentPieceCheckhash sha1 stale tp idx = .ok (tp',good)) : TorrentMove tp tp'

def TorrentMoves : Torrent → Torrent → Prop := Relation.ReflTransGen (TorrentMove sha1)

variable {sha1}

theorem TorrentMove.moves {tp tp' : Torrent} (h : TorrentMove sha1 tp tp') : TorrentMoves sha1 tp tp' :=
  .single h

theorem TorrentMoves.trans {tp₁ tp₂ tp₃ : Torrent} (h : TorrentMoves sha1 tp₁ tp₂)
    (h' : TorrentMoves sha1 tp₂ tp₃) : TorrentMoves sha1 tp₁ tp₃ := Relation.ReflTransGen.trans h h'

/-- The start-up check is made of moves. -/
theorem startupPiece_moves {stale : ℕ → UInt8} {tp tp' : Torrent} {i : ℕ}
    (h : startupPiece sha1 stale tp i = .ok tp') : TorrentMoves sha1 tp tp' := by
  unfold startupPiece at h
  obtain ⟨tpp,hfind,h⟩ := bind_ok.mp h
  obtain ⟨tp₁,hmap,h⟩ := bind_ok.mp h
  have hmap' : TorrentMoves sha1 tp tp₁ := (TorrentMove.map hmap).moves
  split at h
  · cases h
    exact hmap'.trans (TorrentMove.unmap i).moves
  · obtain ⟨⟨tp₂,good⟩,hcheck,h⟩ := bind_ok.mp h
    have hidx : i < tp₁.numPieces := by
      rw [Torrent.numPieces,torrentPieceMap_mi hmap]
      exact (torrentPieceFind_ok.mp hfind).1
    have hcheck' : TorrentMoves sha1 tp₁ tp₂ := (TorrentMove.verify hidx hcheck).moves
    cases h
    refine (hmap'.trans hcheck').trans (TorrentMoves.trans ?_ (TorrentMove.unmap i).moves)
    split
    · exact TorrentMove.moves (.counters rfl rfl rfl)
    · exact .refl

theorem startup_moves {stale : ℕ → UInt8} {tp tp' : Torrent} (h : startup sha1 stale tp = .ok tp') :
    TorrentMoves sha1 tp tp' :=
  foldlM_rel (R := TorrentMoves sha1) (fun _ => .refl) TorrentMoves.trans _ (fun _ _ _ _ h => startupPiece_moves h) h

end Moves

section Disjoint

/-- Pieces of a single-file torrent lie one after the other. -/
theorem pieceRange_le {mi : Metainfo} (hs : mi.type = .singlefile) {i j : ℕ} (hij : i < j) (hj : j < mi.numPieces) :
    mi.pieceLength * i + pieceLen mi i ≤ mi.pieceLength * j := by
  have hlast : i ≠ sub32 mi.numPieces 1 := by
    rw [sub32_of_le mi.numPieces_lt (by omega)]
    omega
  have hlen : pieceLen mi i = mi.pieceLength := by simp [pieceLen,hs,hlast]
  rw [hlen]
  calc mi.pieceLength * i + mi.pieceLength = mi.pieceLength * (i + 1) := by ring
    _ ≤ mi.pieceLength * j := Nat.mul_le_mul_left _ hij

theorem pieceRange_disjoint {mi : Metainfo} (hs : mi.type = .singlefile) {i j : ℕ} (hi : i < mi.numPieces)
    (hj : j < mi.numPieces) (hij : i ≠ j) :
    mi.pieceLength * i + pieceLen mi i ≤ mi.pieceLength * j ∨
      mi.pieceLength * j + pieceLen mi j ≤ mi.pieceLength * i := by
  rcases Nat.lt_or_gt_of_ne hij with h | h
  · exact .inl (pieceRange_le hs h hj)
  · exact .inr (pieceRange_le hs h hi)

end Disjoint

/-- The bytes of piece `i` in the file of a single-file torrent. -/
def Torrent.pieceBytes (tp : Torrent) (i : ℕ) : Bytes :=
  window (tp.fileData 0) (tp.mi.pieceLength * i) (pieceLen tp.mi i)

def Metainfo.view (mi : Metainfo) (i : ℕ) : Mmap := ⟨0,mi.pieceLength * i,pieceLen mi i⟩

/-- The invariant behind verified pieces. The digest a piece was checked against is the one
at the 32-bit product. -/
structure Intact (sha1 : Bytes → Bytes) (tp : Torrent) : Prop where
  single : tp.mi.type = .singlefile
  shape : ∀ i, (tp.piece i).len = pieceLen tp.mi i ∧ (tp.piece i).index = i
  views : ∀ i, ∀ m ∈ (tp.piece i).mmaps, m = tp.mi.view i
  mapped : ∀ i, (tp.piece i).mapped = true → (tp.piece i).mmaps ≠ []
  backed : ∀ i, (tp.piece i).mmaps ≠ [] ∨ (tp.piece i).cksumok = true →
    tp.mi.pieceLength * i + pieceLen tp.mi i ≤ (tp.fileData 0).length
  checked : ∀ i < tp.numPieces, (tp.piece i).cksumok = true →
    sha1 (tp.pieceBytes i) = window tp.mi.pieces (mul32 digestLength i) digestLength

namespace Intact
variable {sha1 : Bytes → Bytes} {tp tp' : Torrent}

theorem create (pagesize : ℕ) (mi : Metainfo) (hs : mi.type = .singlefile) (disk : ℕ → FileState) :
    Intact sha1 (torrentPiecesCreate pagesize mi disk) where
  single := hs
  shape i := ⟨rfl,rfl⟩
  views i m hm := by cases hm
  mapped i h := by cases h
  backed i h := by simp [torrentPiecesCreate] at h
  checked i hi h := by cases h

theorem counters (h : Intact sha1 tp) (hmi : tp'.mi = tp.mi) (hpiece : tp'.piece = tp.piece)
    (hdisk : tp'.disk = tp.disk) : Intact sha1 tp' := by
  have hdata : ∀ i, tp'.fileData i = tp.fileData i := fun i => by simp [Torrent.fileData,hdisk]
  constructor
  · simpa [hmi] using h.single
  · simpa [hmi,hpiece] using h.shape
  · simpa [hmi,hpiece] using h.views
  · simpa [hpiece] using h.mapped
  · simpa [hmi,hpiece,hdata] using h.backed
  · simpa [hmi,hpiece,hdata,Torrent.pieceBytes,Torrent.numPieces] using h.checked

/-- The first mapping of a mapped piece shows the piece. -/
theorem mmaps_cons (h : Intact sha1 tp) {idx : ℕ} (hm : (tp.piece idx).mmaps ≠ []) :
    ∃ rest, (tp.piece idx).mmaps = tp.mi.view idx :: rest := by
  cases hl : (tp.piece idx).mmaps with
  | nil => exact (hm hl).elim
  | cons m rest => exact ⟨rest,by rw [h.views idx m (by simp [hl])]⟩

theorem pieceBytes_append (h : Intact sha1 tp) {more : Bytes} (hmi : tp'.mi = tp.mi)
    (hdata : tp'.fileData 0 = tp.fileData 0 ++ more) {i : ℕ} (hi : (tp.piece i).cksumok = true) :
    tp'.pieceBytes i = tp.pieceBytes i := by
  simp only [Torrent.pieceBytes,hmi,hdata]
  exact window_append more (h.backed i (.inr hi))

/-- A change of one piece descriptor, with the file extended at most behind its end. -/
theorem update (h : Intact sha1 tp) (idx : ℕ) (t : TorrentPiece) (more : Bytes) (hmi : tp'.mi = tp.mi)
    (hpiece : tp'.piece = Function.update tp.piece idx t) (hdata : tp'.fileData 0 = tp.fileData 0 ++ more)
    (hlen : t.len = (tp.piece idx).len) (hindex : t.index = (tp.piece idx).index)
    (hviews : ∀ m ∈ t.mmaps, m = tp.mi.view idx) (hmapped : t.mapped = true → t.mmaps ≠ [])
    (hbacked : t.mmaps ≠ [] ∨ t.cksumok = true →
      tp.mi.pieceLength * idx + pieceLen tp.mi idx ≤ (tp.fileData 0 ++ more).length)
    (hchecked : t.cksumok = true → (tp.piece idx).cksumok = true ∨
      sha1 (tp'.pieceBytes idx) = window tp.mi.pieces (mul32 digestLength idx) digestLength) :
    Intact sha1 tp' := by
  have hother : ∀ i, i ≠ idx → tp'.piece i = tp.piece i := fun i hi => by rw [hpiece,Function.update_of_ne hi]
  have hself : tp'.piece idx = t := by rw [hpiece,Function.update_self]
  constructor
  · rw [hmi]
    exact h.single
  · intro i
    by_cases hi : i = idx
    · subst hi
      rw [hself,hlen,hindex,hmi]
      exact h.shape i
    · rw [hother i hi,hmi]
      exact h.shape i
  · intro i m hm
    by_cases hi : i = idx
    · subst hi
      rw [hself] at hm
      rw [hmi]
      exact hviews m hm
    · rw [hother i hi] at hm
      rw [hmi]
      exact h.views i m hm
  · intro i
    by_cases hi : i = idx
    · subst hi
      rw [hself]
      exact hmapped
    · rw [hother i hi]
      exact h.mapped i
  · intro i hc
    rw [hmi,hdata]
    by_cases hi : i = idx
    · subst hi
      rw [hself] at hc
      exact hbacked hc
    · rw [hother i hi] at hc
      have hb := h.backed i hc
      rw [List.length_append]
      omega
  · intro i hin hc
    rw [Torrent.numPieces,hmi] at hin
    have hkeep : (tp.piece i).cksumok = true →
        sha1 (tp'.pieceBytes i) = window tp'.mi.pieces (mul32 digestLength i) digestLength := by
      intro hck
      rw [h.pieceBytes_append hmi hdata hck,hmi]
      exact h.checked i hin hck
    by_cases hi : i = idx
    · subst hi
      rw [hself] at hc
      rcases hchecked hc with hck | hnew
      · exact hkeep hck
      · rwa [hmi]
    · rw [hother i hi] at hc
      exact hkeep hc

/-- Mapping a piece extends the file at most behind its end. -/
theorem map (h : Intact sha1 tp) {idx : ℕ} (hmap : torrentPieceMap tp idx = .ok tp') : Intact sha1 tp' := by
  obtain ⟨hlen,hindex⟩ := h.shape idx
  obtain ⟨more,hmore⟩ := exists_extendTo (tp.fileData 0) (pieceLen tp.mi idx + tp.mi.pieceLength * idx)
  have hsize := length_extendTo (tp.fileData 0) (pieceLen tp.mi idx + tp.mi.pieceLength * idx)
  rw [hmore] at hsize
  obtain ⟨-,rfl⟩ := (torrentPieceMap_singlefile h.single).mp hmap
  rw [hlen,hindex]
  refine h.update idx { tp.piece idx with mmaps := (tp.piece idx).mmaps ++ [tp.mi.view idx], mapped := true } more
    rfl rfl ?_ rfl rfl ?_ ?_ ?_ ?_
  · rw [← hmore]
    simp [mmapCreated,Torrent.fileData,Torrent.setFile,Torrent.setPiece]
  · intro m hm
    rcases List.mem_append.mp hm with hm | hm
    · exact h.views idx m hm
    · exact List.mem_singleton.mp hm
  · simp
  · intro _
    omega
  · exact .inl

theorem foldl_unmapTurn (l : List Mmap) (tp : Torrent) : (l.foldl unmapTurn tp).mi = tp.mi ∧
    (l.foldl unmapTurn tp).piece = tp.piece ∧ ∀ i, (l.foldl unmapTurn tp).fileData i = tp.fileData i := by
  induction l generalizing tp with
  | nil => exact ⟨rfl,rfl,fun _ => rfl⟩
  | cons m l ih =>
    obtain ⟨hmi,hpiece,hdata⟩ := ih (unmapTurn tp m)
    refine ⟨hmi,hpiece,?_⟩
    intro i
    rw [List.foldl_cons,hdata i,unmapTurn,Torrent.setFile_fileData]
    split
    · rename_i hi
      rw [hi]
      rfl
    · rfl

theorem unmap (h : Intact sha1 tp) (idx : ℕ) : Intact sha1 (torrentPieceUnmap tp idx) := by
  obtain ⟨hmi,hpiece,hdata⟩ := foldl_unmapTurn (tp.piece idx).mmaps tp
  refine h.update idx { tp.piece idx with mmaps := [], mapped := false } [] hmi ?_ ?_ rfl rfl ?_ ?_ ?_ ?_
  · simp only [torrentPieceUnmap,Torrent.setPiece,hpiece]
  · rw [torrentPieceUnmap,Torrent.setPiece_fileData,hdata,List.append_nil]
  · simp
  · simp
  · intro hc
    rw [List.append_nil]
    exact h.backed idx (.inr (by simpa using hc))
  · exact .inl

/-- Reading a whole mapped piece reads its bytes. -/
theorem blockRead (h : Intact sha1 tp) {idx : ℕ} (hm : (tp.piece idx).mmaps ≠ []) :
    torrentBlockRead tp idx 0 (pieceLen tp.mi idx) = .ok (some (tp.pieceBytes idx,false)) := by
  obtain ⟨rest,hl⟩ := h.mmaps_cons hm
  have hlt := pieceLen_lt tp.mi idx
  have hlen : (pieceLen tp.mi idx : ℤ) % 4294967296 = pieceLen tp.mi idx := by omega
  have hwin := length_window (h.backed idx (.inl hm))
  simp [torrentBlockRead,hl,blockReadLoop,Metainfo.view,wrapInt32,hlen,Torrent.mmapBytes,Torrent.pieceBytes,hwin]

/-- A piece that passes its check holds bytes with the digest it was compared to. -/
theorem verify (h : Intact sha1 tp) {idx : ℕ} {stale : ℕ → UInt8} {good : Bool}
    (hcheck : torrentPieceCheckhash sha1 stale tp idx = .ok (tp',good)) : Intact sha1 tp' := by
  obtain ⟨hlen,hindex⟩ := h.shape idx
  unfold torrentPieceCheckhash at hcheck
  cases hmapped : (tp.piece idx).mapped with
  | false => simp [hmapped] at hcheck
  | true =>
    have hm := h.mapped idx hmapped
    have hwin : (tp.pieceBytes idx).length = pieceLen tp.mi idx := length_window (h.backed idx (.inl hm))
    have hpad : padded stale (tp.pieceBytes idx) (pieceLen tp.mi idx) = tp.pieceBytes idx := by
      simp [padded,hwin]
    simp only [hmapped,hlen,hindex,h.blockRead hm,Bool.not_true,Bool.false_eq_true,if_false,ok_bind,hpad] at hcheck
    split at hcheck
    · rename_i heq
      cases hcheck
      refine h.update idx { tp.piece idx with cksumok := true } [] rfl rfl (by simp) rfl rfl (h.views idx)
        (h.mapped idx) ?_ ?_
      · intro _
        simpa using h.backed idx (.inl hm)
      · exact fun _ => .inr heq
    · cases hcheck
      exact h

/-- A block that fits its piece is written at its offset inside the range of the piece. -/
theorem blockWrite_eq (h : Intact sha1 tp) {idx off : ℕ} {data : Bytes} (hm : (tp.piece idx).mmaps ≠ [])
    (hfit : off + data.length ≤ pieceLen tp.mi idx) :
    torrentBlockWrite tp idx off data.length data = tp.mmapWrite (tp.mi.view idx) off data := by
  obtain ⟨rest,hl⟩ := h.mmaps_cons hm
  have hsub : sub32 (pieceLen tp.mi idx) off = pieceLen tp.mi idx - off :=
    sub32_of_le (pieceLen_lt tp.mi idx) (by omega)
  have hfar : ¬ pieceLen tp.mi idx < off := by omega
  have hlong : ¬ pieceLen tp.mi idx - off < data.length := by omega
  simp [torrentBlockWrite,hl,blockWriteLoop,Metainfo.view,hsub,hfar,hlong]

/-- A write inside a piece that is not verified. -/
theorem write (h : Intact sha1 tp) {idx off : ℕ} {data : Bytes} (hidx : idx < tp.numPieces)
    (hck : (tp.piece idx).cksumok = false) (hm : (tp.piece idx).mmaps ≠ [])
    (hfit : off + data.length ≤ pieceLen tp.mi idx) :
    Intact sha1 (torrentBlockWrite tp idx off data.length data) := by
  rw [h.blockWrite_eq hm hfit]
  have hb := h.backed idx (.inl hm)
  have hdata : (tp.mmapWrite (tp.mi.view idx) off data).fileData 0 =
      splice (tp.fileData 0) (tp.mi.pieceLength * idx + off) data := by
    simp [Torrent.mmapWrite,Metainfo.view,Torrent.setFile,Torrent.fileData]
  have hlen : (splice (tp.fileData 0) (tp.mi.pieceLength * idx + off) data).length = (tp.fileData 0).length :=
    length_splice (by omega)
  refine ⟨h.single,h.shape,h.views,h.mapped,?_,?_⟩
  · intro i hc
    rw [hdata,hlen]
    exact h.backed i hc
  · intro i hi hc
    have hne : i ≠ idx := by
      rintro rfl
      simp only [Torrent.mmapWrite,Torrent.setFile_piece,hck] at hc
      cases hc
    have hsame : (tp.mmapWrite (tp.mi.view idx) off data).pieceBytes i = tp.pieceBytes i := by
      simp only [Torrent.pieceBytes,hdata]
      refine window_splice_disjoint (by omega) ?_
      have hdis := pieceRange_disjoint h.single hi hidx hne
      simp only [Torrent.mmapWrite,Torrent.setFile_mi] at hdis ⊢
      omega
    rw [hsame]
    exact h.checked i hi hc

/-- Every move keeps the invariant. -/
theorem move (h : Intact sha1 tp) (hmove : TorrentMove sha1 tp tp') : Intact sha1 tp' := by
  cases hmove with
  | counters hmi hpiece hdisk => exact h.counters hmi hpiece hdisk
  | map hmap => exact h.map hmap
  | unmap idx => exact h.unmap idx
  | verify hidx hcheck => exact h.verify hcheck

theorem moves (h : Intact sha1 tp) (hmoves : TorrentMoves sha1 tp tp') : Intact sha1 tp' := by
  induction hmoves with
  | refl => exact h
  | tail _ hmove ih => exact ih.move hmove

end Intact

section Flag
variable {sha1 : Bytes → Bytes} {tp tp' : Torrent}

theorem torrentPieceUnmap_cksumok (tp : Torrent) (idx i : ℕ) :
    ((torrentPieceUnmap tp idx).piece i).cksumok = (tp.piece i).cksumok := by
  obtain ⟨-,hpiece,-⟩ := Intact.foldl_unmapTurn (tp.piece idx).mmaps tp
  unfold torrentPieceUnmap
  by_cases hi : i = idx
  · subst hi
    rw [Torrent.setPiece_self,hpiece]
  · rw [Torrent.setPiece_ne _ _ hi,hpiece]

/-- A check sets the flag of its piece or nothing. -/
theorem torrentPieceCheckhash_cases {stale : ℕ → UInt8} {idx : ℕ} {good : Bool}
    (h : torrentPieceCheckhash sha1 stale tp idx = .ok (tp',good)) :
    good = true ∧ tp' = tp.setPiece idx (fun t => { t with cksumok := true }) ∨ good = false ∧ tp' = tp := by
  simp only [torrentPieceCheckhash] at h
  split at h
  · cases h
  · obtain ⟨d,-,h⟩ := bind_ok.mp h
    cases d with
    | none =>
      cases h
      exact .inr ⟨rfl,rfl⟩
    | some d =>
      dsimp only at h
      split at h
      · cases h
        exact .inl ⟨rfl,rfl⟩
      · cases h
        exact .inr ⟨rfl,rfl⟩

/-- No move clears the flag of a verified piece. -/
theorem TorrentMove.cksumok (h : TorrentMove sha1 tp tp') {i : ℕ} (hi : (tp.piece i).cksumok = true) :
    (tp'.piece i).cksumok = true := by
  cases h with
  | counters _ hpiece _ => rwa [hpiece]
  | map hmap => rwa [(torrentPieceMap_frame hmap).2.1]
  | unmap idx => rwa [torrentPieceUnmap_cksumok]
  | @verify _ idx stale good _ hcheck =>
    rcases torrentPieceCheckhash_cases hcheck with ⟨-,rfl⟩ | ⟨-,rfl⟩
    · by_cases hidx : i = idx
      · simp [hidx]
      · rwa [Torrent.setPiece_ne _ _ hidx]
    · exact hi

theorem TorrentMove.mi (h : TorrentMove sha1 tp tp') : tp'.mi = tp.mi := by
  cases h with
  | counters hmi _ _ => exact hmi
  | map hmap => exact torrentPieceMap_mi hmap
  | unmap idx => exact (Intact.foldl_unmapTurn (tp.piece idx).mmaps tp).1
  | verify _ hcheck =>
    rcases torrentPieceCheckhash_cases hcheck with ⟨-,rfl⟩ | ⟨-,rfl⟩ <;> rfl

theorem blockWriteLoop_frame (off len : ℕ) (d : Bytes) (l : List Mmap) (cntlen cntbase bytesleft : ℕ) (tp : Torrent) :
    (blockWriteLoop off len d l cntlen cntbase bytesleft tp).mi = tp.mi ∧
      (blockWriteLoop off len d l cntlen cntbase bytesleft tp).piece = tp.piece := by
  induction l generalizing cntlen cntbase bytesleft tp with
  | nil => exact ⟨rfl,rfl⟩
  | cons m rest ih =>
    simp only [blockWriteLoop]
    split
    · split
      · exact ih _ _ _ _
      · exact ⟨rfl,rfl⟩
    · split
      · exact ih _ _ _ _
      · split
        · exact ih _ _ _ _
        · exact ⟨rfl,rfl⟩

@[simp] theorem torrentBlockWrite_mi (tp : Torrent) (idx off len : ℕ) (d : Bytes) :
    (torrentBlockWrite tp idx off len d).mi = tp.mi := (blockWriteLoop_frame off len d _ 0 0 len tp).1
@[simp] theorem torrentBlockWrite_piece (tp : Torrent) (idx off len : ℕ) (d : Bytes) :
    (torrentBlockWrite tp idx off len d).piece = tp.piece := (blockWriteLoop_frame off len d _ 0 0 len tp).2

end Flag

end Unworkable
