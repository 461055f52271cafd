import Unworkable.Torrent.Integrity

/-! # The counter of verified pieces

`good_pieces` is counted beside the flags it counts: the start-up check and the resume
loader set a flag and add one. Mapping, unmapping and block writes change neither.
-/
namespace Unworkable
open Library

/-- The pieces whose `TORRENT_PIECE_CKSUMOK` is set. -/
def Torrent.verified (tp : Torrent) : Finset ℕ := (Finset.range tp.numPieces).filter
    (fun i => (tp.piece i).cksumok = true)

theorem Torrent.mem_verified {tp : Torrent} {i : ℕ} :
    i ∈ tp.verified ↔ i < tp.numPieces ∧ (tp.piece i).cksumok = true := by
  simp [verified]

theorem Torrent.verified_subset (tp : Torrent) : tp.verified ⊆ Finset.range tp.numPieces := Finset.filter_subset _ _

theorem Torrent.card_verified_le (tp : Torrent) : tp.verified.card ≤ tp.numPieces := by
  have h := Finset.card_le_card tp.verified_subset
  rwa [Finset.card_range] at h

theorem Torrent.card_verified_eq (tp : Torrent) :
    tp.verified.card = tp.numPieces ↔ ∀ i < tp.numPieces, (tp.piece i).cksumok = true := by
  constructor
  · intro h i hi
    have heq : tp.verified = Finset.range tp.numPieces :=
      Finset.eq_of_subset_of_card_le tp.verified_subset (by rw [Finset.card_range,h])
    have hmem : i ∈ tp.verified := by rwa [heq,Finset.mem_range]
    exact (Torrent.mem_verified.mp hmem).2
  · intro h
    have heq : tp.verified = Finset.range tp.numPieces :=
      Finset.filter_true_of_mem (fun i hi => h i (Finset.mem_range.mp hi))
    rw [heq,Finset.card_range]

/-- One more piece is verified. -/
theorem Torrent.verified_insert {tp tp' : Torrent} {idx : ℕ} (hmi : tp'.mi = tp.mi) (hidx : idx < tp.numPieces)
    (hself : (tp'.piece idx).cksumok = true)
    (hother : ∀ i, i ≠ idx → (tp'.piece i).cksumok = (tp.piece i).cksumok) :
    tp'.verified = insert idx tp.verified := by
  have hnum : tp'.numPieces = tp.numPieces := congrArg Metainfo.numPieces hmi
  ext i
  rw [Finset.mem_insert,Torrent.mem_verified,Torrent.mem_verified,hnum]
  by_cases hi : i = idx
  · subst hi
    simp [hidx,hself]
  · simp [hi,hother i hi]

structure Kept (tp tp' : Torrent) : Prop where
  mi : tp'.mi = tp.mi
  flags : ∀ i, (tp'.piece i).cksumok = (tp.piece i).cksumok
  goodPieces : tp'.goodPieces = tp.goodPieces
  left : tp'.left = tp.left
  downloaded : tp'.downloaded = tp.downloaded
  uploaded : tp'.uploaded = tp.uploaded

namespace Kept
variable {tp tp' tp'' : Torrent}

theorem refl (tp : Torrent) : Kept tp tp := ⟨rfl,fun _ => rfl,rfl,rfl,rfl,rfl⟩

theorem trans (h : Kept tp tp') (h' : Kept tp' tp'') : Kept tp tp'' := by
  constructor
  · exact h'.mi.trans h.mi
  · intro i
    exact (h'.flags i).trans (h.flags i)
  · exact h'.goodPieces.trans h.goodPieces
  · exact h'.left.trans h.left
  · exact h'.downloaded.trans h.downloaded
  · exact h'.uploaded.trans h.uploaded

theorem verified (h : Kept tp tp') : tp'.verified = tp.verified := by
  ext i
  rw [Torrent.mem_verified,Torrent.mem_verified,h.flags i,Torrent.numPieces,Torrent.numPieces,h.mi]

theorem setPiece (tp : Torrent) (i : ℕ) {f : TorrentPiece → TorrentPiece}
    (hf : (f (tp.piece i)).cksumok = (tp.piece i).cksumok) : Kept tp (tp.setPiece i f) := by
  refine ⟨rfl,?_,rfl,rfl,rfl,rfl⟩
  intro j
  by_cases hj : j = i
  · rw [hj,Torrent.setPiece_self,hf]
  · rw [Torrent.setPiece_ne _ _ hj]

theorem setFile (tp : Torrent) (i : ℕ) (f : FileState → FileState) : Kept tp (tp.setFile i f) :=
  ⟨rfl,fun _ => rfl,rfl,rfl,rfl,rfl⟩

theorem mmapCreated (tp : Torrent) (file off len : ℕ) : Kept tp (mmapCreated tp file off len).1 :=
  ⟨rfl,fun _ => rfl,rfl,rfl,rfl,rfl⟩

theorem torrentPieceMap {idx : ℕ} (h : torrentPieceMap tp idx = .ok tp') : Kept tp tp' := by
  refine torrentPieceMap_keeps (P := Kept tp) (fun u file off len hu => hu.trans (mmapCreated u file off len))
    ?_ (.refl tp) h
  intro u f hf hu
  exact hu.trans (setPiece u idx (hf (u.piece idx)).1)

theorem ensureMapped {idx : ℕ} (h : ensureMapped tp idx = .ok tp') : Kept tp tp' := by
  unfold Unworkable.ensureMapped at h
  split at h
  · cases h
    exact .refl tp
  · exact torrentPieceMap h

theorem torrentPieceUnmap (tp : Torrent) (idx : ℕ) : Kept tp (torrentPieceUnmap tp idx) := by
  have hfold : Kept tp ((tp.piece idx).mmaps.foldl unmapTurn tp) :=
    foldl_rel (R := Kept) .refl .trans _ (fun tp m _ => setFile tp m.file _) tp
  apply hfold.trans
  apply setPiece
  rfl

theorem blockWriteLoop (off len : ℕ) (d : Bytes) (l : List Mmap) (cntlen cntbase bytesleft : ℕ) (tp : Torrent) :
    Kept tp (blockWriteLoop off len d l cntlen cntbase bytesleft tp) := by
  induction l generalizing cntlen cntbase bytesleft tp with
  | nil => exact .refl tp
  | cons m rest ih =>
    simp only [Unworkable.blockWriteLoop]
    split
    · split
      · exact (setFile tp m.file _).trans (ih _ _ _ _)
      · exact setFile tp m.file _
    · split
      · exact ih _ _ _ _
      · split
        · exact (setFile tp m.file _).trans (ih _ _ _ _)
        · exact setFile tp m.file _

theorem torrentBlockWrite (tp : Torrent) (idx off len : ℕ) (d : Bytes) :
    Kept tp (torrentBlockWrite tp idx off len d) := blockWriteLoop off len d _ 0 0 len tp

end Kept

def Remapped : Torrent → Torrent → Prop := Relation.ReflTransGen (fun tp tp' => ∃ idx, ensureMapped tp idx = .ok tp')

theorem Remapped.refl (tp : Torrent) : Remapped tp tp := Relation.ReflTransGen.refl

theorem Remapped.trans {tp tp' tp'' : Torrent} (h : Remapped tp tp') (h' : Remapped tp' tp'') : Remapped tp tp'' :=
  Relation.ReflTransGen.trans h h'

theorem Remapped.single {tp tp' : Torrent} {idx : ℕ} (h : ensureMapped tp idx = .ok tp') : Remapped tp tp' :=
  Relation.ReflTransGen.single ⟨idx,h⟩

theorem Remapped.kept {tp tp' : Torrent} (h : Remapped tp tp') : Kept tp tp' := by
  induction h with
  | refl => exact .refl _
  | tail _ hmap ih =>
    obtain ⟨idx,hmap⟩ := hmap
    exact ih.trans (.ensureMapped hmap)

/-- Piece `idx` becomes verified and is counted. -/
structure Verifies (idx : ℕ) (tp tp' : Torrent) : Prop where
  mi : tp'.mi = tp.mi
  idx_lt : idx < tp.numPieces
  self : (tp'.piece idx).cksumok = true
  other : ∀ i, i ≠ idx → (tp'.piece i).cksumok = (tp.piece i).cksumok
  goodPieces : tp'.goodPieces = add32 tp.goodPieces 1

/-- `good_pieces` counts the verified pieces. -/
def Torrent.Tallied (tp : Torrent) : Prop := tp.goodPieces = tp.verified.card

section Tallied
variable {sha1 : Bytes → Bytes} {tp tp' tp'' : Torrent} {idx : ℕ}

theorem Kept.tallied (h : Kept tp tp') (ht : tp.Tallied) : tp'.Tallied := by
  unfold Torrent.Tallied
  rw [h.goodPieces,h.verified]
  exact ht

theorem Verifies.verified (h : Verifies idx tp tp') : tp'.verified = insert idx tp.verified :=
  Torrent.verified_insert h.mi h.idx_lt h.self h.other

theorem Verifies.tallied (h : Verifies idx tp tp') (hnew : (tp.piece idx).cksumok = false) (ht : tp.Tallied) :
    tp'.Tallied := by
  have hcard : tp'.verified.card = tp.verified.card + 1 := by
    rw [h.verified]
    apply Finset.card_insert_of_notMem
    intro hmem
    rw [(Torrent.mem_verified.mp hmem).2] at hnew
    cases hnew
  have hle := tp'.card_verified_le
  have hlt := tp'.numPieces_lt
  unfold Torrent.Tallied at ht ⊢
  rw [h.goodPieces,ht,hcard,add32_of_lt (by omega)]

theorem Verifies.of_kept (h : Kept tp tp') (h' : Verifies idx tp' tp'') : Verifies idx tp tp'' := by
  constructor
  · exact h'.mi.trans h.mi
  · have hlt := h'.idx_lt
    rwa [Torrent.numPieces,h.mi] at hlt
  · exact h'.self
  · intro i hi
    exact (h'.other i hi).trans (h.flags i)
  · rw [h'.goodPieces,h.goodPieces]

theorem Verifies.kept (h : Verifies idx tp tp') (h' : Kept tp' tp'') : Verifies idx tp tp'' := by
  constructor
  · exact h'.mi.trans h.mi
  · exact h.idx_lt
  · rw [h'.flags]
    exact h.self
  · intro i hi
    exact (h'.flags i).trans (h.other i hi)
  · rw [h'.goodPieces,h.goodPieces]

/-- A turn of the start-up check. -/
theorem startupPiece_verifies {stale : ℕ → UInt8} (h : startupPiece sha1 stale tp idx = .ok tp') :
    Kept tp tp' ∨ Verifies idx tp tp' := by
  unfold startupPiece at h
  obtain ⟨tpp,hfind,h⟩ := bind_ok.mp h
  obtain ⟨tp₁,hmap,h⟩ := bind_ok.mp h
  have hk := Kept.torrentPieceMap hmap
  split at h
  · cases h
    exact .inl (hk.trans (.torrentPieceUnmap tp₁ idx))
  · obtain ⟨⟨tp₂,good⟩,hcheck,h⟩ := bind_ok.mp h
    cases h
    rcases torrentPieceCheckhash_cases hcheck with ⟨rfl,rfl⟩ | ⟨rfl,rfl⟩
    · refine .inr (.of_kept hk (.kept ?_ (.torrentPieceUnmap _ idx)))
      refine ⟨rfl,?_,by simp,?_,rfl⟩
      · rw [Torrent.numPieces,hk.mi]
        exact (torrentPieceFind_ok.mp hfind).1
      · intro i hi
        simp [Torrent.setPiece_ne _ _ hi]
    · exact .inl (hk.trans (.torrentPieceUnmap tp₂ idx))

/-- The start-up check counts what it finds in `downloaded` and takes nothing off `left`. -/
theorem startupPiece_left {stale : ℕ → UInt8} (h : startupPiece sha1 stale tp idx = .ok tp') :
    tp'.left = tp.left ∧ tp'.uploaded = tp.uploaded := by
  unfold startupPiece at h
  obtain ⟨tpp,-,h⟩ := bind_ok.mp h
  obtain ⟨tp₁,hmap,h⟩ := bind_ok.mp h
  have hk := Kept.torrentPieceMap hmap
  split at h
  · cases h
    have hk' := hk.trans (.torrentPieceUnmap tp₁ idx)
    exact ⟨hk'.left,hk'.uploaded⟩
  · obtain ⟨⟨tp₂,good⟩,hcheck,h⟩ := bind_ok.mp h
    cases h
    have hun := Kept.torrentPieceUnmap
      (if good then
        { tp₂ with goodPieces := add32 tp₂.goodPieces 1, downloaded := tp₂.downloaded + (tp₂.piece idx).len }
        else tp₂) idx
    rcases torrentPieceCheckhash_cases hcheck with ⟨rfl,rfl⟩ | ⟨rfl,rfl⟩
    · exact ⟨hun.left.trans hk.left,hun.uploaded.trans hk.uploaded⟩
    · exact ⟨hun.left.trans hk.left,hun.uploaded.trans hk.uploaded⟩

theorem fastresumeTurn_verifies {bitfield : Bytes} (h : fastresumeTurn bitfield tp idx = .ok tp') :
    Kept tp tp' ∨ Verifies idx tp tp' := by
  unfold fastresumeTurn at h
  obtain ⟨tpp,hfind,h⟩ := bind_ok.mp h
  obtain ⟨bit,-,h⟩ := bind_ok.mp h
  cases h
  cases bit with
  | false => exact .inl (.refl tp)
  | true =>
    refine .inr ⟨rfl,(torrentPieceFind_ok.mp hfind).1,by simp,?_,rfl⟩
    intro i hi
    simp [Torrent.setPiece_ne _ _ hi]

/-- What the loops over all pieces keep: only pieces they have passed can be verified. -/
structure TalliedTo (mi : Metainfo) (i : ℕ) (tp : Torrent) : Prop where
  mi : tp.mi = mi
  tallied : tp.Tallied
  fresh : ∀ j, i ≤ j → (tp.piece j).cksumok = false

theorem TalliedTo.turn {mi : Metainfo} {i : ℕ} (h : TalliedTo mi i tp) (ht : Kept tp tp' ∨ Verifies i tp tp') :
    TalliedTo mi (i + 1) tp' := by
  rcases ht with hk | hv
  · refine ⟨hk.mi.trans h.mi,hk.tallied h.tallied,?_⟩
    intro j hj
    rw [hk.flags]
    exact h.fresh j (by omega)
  · refine ⟨hv.mi.trans h.mi,hv.tallied (h.fresh i (le_refl i)) h.tallied,?_⟩
    intro j hj
    rw [hv.other j (by omega)]
    exact h.fresh j (by omega)

theorem TalliedTo.create (pagesize : ℕ) (mi : Metainfo) (disk : ℕ → FileState) : TalliedTo mi 0
    (torrentPiecesCreate pagesize mi disk) := by
  refine ⟨rfl,?_,fun _ _ => rfl⟩
  have hnone : (torrentPiecesCreate pagesize mi disk).verified = ∅ := by
    apply Finset.filter_false_of_mem
    intro i _ hc
    cases hc
  rw [Torrent.Tallied,hnone]
  rfl

theorem startup_tallied {stale : ℕ → UInt8} {pagesize : ℕ} {mi : Metainfo} {disk : ℕ → FileState}
    (h : startup sha1 stale (torrentPiecesCreate pagesize mi disk) = .ok tp) : TalliedTo mi mi.numPieces tp :=
  foldlM_range (P := TalliedTo mi) (fun _ _ _ _ ht hturn => ht.turn (startupPiece_verifies hturn))
    (.create pagesize mi disk) h

theorem torrentFastresumeLoad_tallied {contents : Bytes} {pagesize : ℕ} {mi : Metainfo} {disk : ℕ → FileState}
    (h : torrentFastresumeLoad (torrentPiecesCreate pagesize mi disk) contents = .ok tp) :
    TalliedTo mi mi.numPieces tp :=
  foldlM_range (P := TalliedTo mi) (fun _ _ _ _ ht hturn => ht.turn (fastresumeTurn_verifies hturn))
    (.create pagesize mi disk) h

end Tallied

end Unworkable
