import Unworkable.Library.Bits
import Unworkable.Torrent.Counters

/-! # The resume file

The resume file holds the flags of the pieces as a bit field, and a torrent created afresh takes
its flags and counters from it. The size of the field is computed in 32 bits: for the last seven
numbers of pieces it wraps to nothing, and the first bit lies outside the buffer.
-/
namespace Unworkable
open Library

section Bits
variable {bf bf' : Bytes} {i n : ℕ}

theorem utilSetbit_ok : utilSetbit bf i = .ok bf' ↔ i / 8 < bf.length ∧ bf' = setBitAt bf i := by
  unfold utilSetbit setBitAt
  by_cases h : i / 8 < bf.length
  · simp [h,eq_comm]
  · simp [h]

theorem utilGetbit_eq (h : i / 8 < bf.length) : utilGetbit bf i = .ok (bitAt bf i) := by
  simp [utilGetbit,bitAt,List.getElem?_eq_getElem h]

theorem bitfieldLen_eq (hn : n < 4294967296) (h : 0 < bitfieldLen n) : bitfieldLen n = (n + 7) / 8 := by
  unfold bitfieldLen add32 wrap32 at *
  omega

theorem bitfieldLen_eq_iff (hn : n < 4294967296) : bitfieldLen n = (n + 7) / 8 ↔ n < 4294967289 := by
  unfold bitfieldLen add32 wrap32
  omega

end Bits

section Dump
variable {tp : Torrent} {i : ℕ} {bits : Bytes}

theorem length_torrentBitfieldGet (h : torrentBitfieldGet tp = .ok bits) : bits.length = bitfieldLen tp.numPieces := by
  have hloop := foldlM_rel (R := fun a b : Bytes => b.length = a.length) (fun _ => rfl) (fun hab hbc => hbc.trans hab) _
    (fun bf bf' i _ hstep => by
      obtain ⟨tpp,-,hstep⟩ := bind_ok.mp hstep
      split at hstep
      · rw [(utilSetbit_ok.mp hstep).2,length_setBitAt]
      · cases hstep
        rfl) h
  rw [hloop,List.length_replicate]

/-- The bits of the first `i` pieces are their flags, and the others are zero. -/
structure Packed (tp : Torrent) (i : ℕ) (bits : Bytes) : Prop where
  size : bits.length = (tp.numPieces + 7) / 8
  bits : ∀ j, bitAt bits j = (decide (j < i) && (tp.piece j).cksumok)

theorem Packed.step (h : Packed tp i bits) (hi : i < tp.numPieces) :
    ∃ bits', (do
      let tpp ← torrentPieceFind tp i
      if tpp.cksumok then utilSetbit bits i else .ok bits) = .ok bits' ∧ Packed tp (i + 1) bits' := by
  have hfind : torrentPieceFind tp i = .ok (tp.piece i) := torrentPieceFind_ok.mpr ⟨hi,rfl⟩
  have hroom : i / 8 < bits.length := by
    rw [h.size]
    omega
  rw [hfind,ok_bind]
  cases hc : (tp.piece i).cksumok with
  | true =>
    refine ⟨setBitAt bits i,utilSetbit_ok.mpr ⟨hroom,rfl⟩,?_,?_⟩
    · rw [length_setBitAt,h.size]
    · intro j
      rw [bitAt_setBitAt hroom,h.bits]
      by_cases hj : j = i
      · simp [hj,hc]
      · have hlt : j < i + 1 ↔ j < i := by omega
        simp [hj,hlt]
  | false =>
    refine ⟨bits,rfl,h.size,?_⟩
    intro j
    rw [h.bits]
    by_cases hj : j = i
    · simp [hj,hc]
    · have hlt : j < i + 1 ↔ j < i := by omega
      simp [hlt]

theorem torrentBitfieldGet_packed (h : tp.numPieces < 4294967289) :
    ∃ bits, torrentBitfieldGet tp = .ok bits ∧ Packed tp tp.numPieces bits := by
  apply foldlM_range_ok (P := Packed tp)
  · intro i hi bits hpacked
    exact hpacked.step hi
  · constructor
    · rw [List.length_replicate,(bitfieldLen_eq_iff tp.numPieces_lt).mpr h]
    · intro j
      rw [bitAt_zeros]
      simp

theorem torrentEmpty_eq_false : torrentEmpty tp = false ↔ ∃ i < tp.numPieces, (tp.piece i).cksumok = true := by
  simp [torrentEmpty]

/-- A verified piece has no bit where the size has wrapped. -/
theorem torrentBitfieldGet_wraps (h : 4294967289 ≤ tp.numPieces) (hne : torrentEmpty tp = false) :
    torrentBitfieldGet tp ≠ .ok bits := by
  intro hget
  obtain ⟨i,hi,hc⟩ := torrentEmpty_eq_false.mp hne
  have hzero : bitfieldLen tp.numPieces = 0 := by
    have := tp.numPieces_lt
    unfold bitfieldLen add32 wrap32
    omega
  have hloop := foldlM_range (P := fun k (bf : Bytes) => bf.length = 0 ∧ ∀ j < k, (tp.piece j).cksumok = false)
    (fun k _ bf bf' hk hstep => by
      obtain ⟨tpp,hfind,hstep⟩ := bind_ok.mp hstep
      obtain ⟨-,rfl⟩ := torrentPieceFind_ok.mp hfind
      cases hflag : (tp.piece k).cksumok with
      | true =>
        rw [hflag] at hstep
        have hroom := (utilSetbit_ok.mp hstep).1
        omega
      | false =>
        rw [hflag] at hstep
        cases hstep
        refine ⟨hk.1,?_⟩
        intro j hj
        rcases Nat.lt_succ_iff_lt_or_eq.mp hj with hj | rfl
        · exact hk.2 j hj
        · exact hflag) ⟨by rw [List.length_replicate,hzero],fun j hj => absurd hj (Nat.not_lt_zero j)⟩ hget
  rw [hloop.2 i hi] at hc
  cases hc

end Dump

section Load
variable {mi : Metainfo} {tp : Torrent} {i : ℕ} {bits : Bytes}

/-- What the loader has made of the first `i` bits. -/
structure Loaded (mi : Metainfo) (bits : Bytes) (i : ℕ) (tp : Torrent) : Prop where
  same : tp.mi = mi
  flags : ∀ j, (tp.piece j).cksumok = (decide (j < i) && bitAt bits j)
  lens : ∀ j, (tp.piece j).len = pieceLen mi j
  downloaded : tp.downloaded = ∑ j ∈ (Finset.range i).filter (fun j => bitAt bits j = true), (pieceLen mi j : ℤ)

theorem Loaded.step (h : Loaded mi bits i tp) (hi : i < mi.numPieces) (hroom : i / 8 < bits.length) :
    ∃ tp', fastresumeTurn bits tp i = .ok tp' ∧ Loaded mi bits (i + 1) tp' := by
  have hfind : torrentPieceFind tp i = .ok (tp.piece i) := by
    rw [torrentPieceFind_ok,Torrent.numPieces,h.same]
    exact ⟨hi,rfl⟩
  have hlt : ∀ j, j ≠ i → (j < i + 1 ↔ j < i) := fun j hj => by omega
  simp only [fastresumeTurn,hfind,utilGetbit_eq hroom,ok_bind]
  refine ⟨_,rfl,?_⟩
  cases hbit : bitAt bits i with
  | true =>
    constructor
    · exact h.same
    · intro j
      by_cases hj : j = i
      · simp [hj,hbit]
      · simp only [if_true,Torrent.setPiece_ne _ _ hj,h.flags,hlt j hj]
    · intro j
      by_cases hj : j = i
      · simp [hj,h.lens]
      · simp only [if_true,Torrent.setPiece_ne _ _ hj,h.lens]
    · rw [Finset.range_add_one,Finset.filter_insert,if_pos hbit,Finset.sum_insert (by simp)]
      simp only [if_true,h.downloaded,h.lens]
      ring
  | false =>
    constructor
    · exact h.same
    · intro j
      simp only [Bool.false_eq_true,if_false,h.flags]
      by_cases hj : j = i
      · simp [hj,hbit]
      · rw [decide_eq_decide.mpr (hlt j hj)]
    · exact h.lens
    · have hnot : ¬ bitAt bits i = true := by simp [hbit]
      rw [Finset.range_add_one,Finset.filter_insert,if_neg hnot]
      exact h.downloaded

theorem torrentFastresumeLoad_loaded (disk : ℕ → FileState) (h : mi.numPieces < 4294967289)
    (hsize : bits.length = (mi.numPieces + 7) / 8) :
    ∃ tp, torrentFastresumeLoad (torrentPiecesCreate pagesize mi disk) bits = .ok tp ∧
      Loaded mi bits mi.numPieces tp := by
  have hlen : bits.length = bitfieldLen mi.numPieces := by rw [hsize,(bitfieldLen_eq_iff mi.numPieces_lt).mpr h]
  have hwhole : bits.take (bitfieldLen mi.numPieces) ++ List.replicate (bitfieldLen mi.numPieces - bits.length) 0 =
      bits := by
    rw [← hlen,List.take_length,Nat.sub_self,List.replicate_zero,List.append_nil]
  unfold torrentFastresumeLoad
  dsimp only
  rw [show (torrentPiecesCreate pagesize mi disk).numPieces = mi.numPieces from rfl,hwhole]
  apply foldlM_range_ok (P := Loaded mi bits)
  · intro i hi tp hloaded
    apply hloaded.step hi
    rw [hsize]
    omega
  · refine ⟨rfl,?_,fun _ => rfl,rfl⟩
    intro j
    simp [torrentPiecesCreate]

end Load

/-- The flags of a torrent go through the resume file: the file has one bit for each piece and zeros
behind them, and loading it into a torrent created afresh gives back flags and counters. -/
def Torrent.Resumes (tp : Torrent) (disk : ℕ → FileState) : Prop :=
  ∃ dumped bits loaded, torrentFastresumeDump tp = .ok dumped ∧ dumped.funresume = some bits ∧
    bits.length = (tp.numPieces + 7) / 8 ∧ (∀ j, tp.numPieces ≤ j → bitAt bits j = false) ∧
    torrentFastresumeLoad (torrentPiecesCreate tp.pagesize tp.mi disk) bits = .ok loaded ∧
    loaded.verified = tp.verified ∧ loaded.goodPieces = tp.verified.card ∧
    loaded.downloaded = ∑ i ∈ tp.verified, ((loaded.piece i).len : ℤ)

theorem Torrent.Resumes.few {tp : Torrent} {disk : ℕ → FileState} (h : tp.Resumes disk) :
    tp.numPieces < 4294967289 := by
  obtain ⟨dumped,bits,loaded,hdump,hfile,hsize,-⟩ := h
  obtain ⟨bits',hget,hdump⟩ := bind_ok.mp hdump
  cases hdump
  cases hfile
  rw [← bitfieldLen_eq_iff tp.numPieces_lt,← length_torrentBitfieldGet hget,hsize]

/-- The resume file gives back what was dumped if and only if its size does not wrap. -/
theorem fastresume_round_trip_iff (tp : Torrent) (disk : ℕ → FileState) :
    tp.Resumes disk ↔ tp.numPieces < 4294967289 := by
  constructor
  · exact Torrent.Resumes.few
  · intro h
    obtain ⟨bits,hget,hpacked⟩ := torrentBitfieldGet_packed h
    obtain ⟨loaded,hload,hloaded⟩ := torrentFastresumeLoad_loaded disk h hpacked.size
    have hbit : ∀ j < tp.numPieces, bitAt bits j = (tp.piece j).cksumok := by
      intro j hj
      rw [hpacked.bits]
      simp [hj]
    have hverified : loaded.verified = tp.verified := by
      ext j
      rw [Torrent.mem_verified,Torrent.mem_verified,Torrent.numPieces,hloaded.same]
      refine and_congr_right fun hj => ?_
      rw [hloaded.flags,hbit j hj]
      simp [hj]
    refine ⟨_,bits,loaded,bind_ok.mpr ⟨bits,hget,rfl⟩,rfl,hpacked.size,?_,hload,hverified,?_,?_⟩
    · intro j hj
      rw [hpacked.bits]
      simp [hj]
    · rw [← hverified]
      exact (torrentFastresumeLoad_tallied hload).tallied
    · have hset : (Finset.range tp.mi.numPieces).filter (fun j => bitAt bits j = true) = tp.verified := by
        apply Finset.filter_congr
        intro j hj
        rw [hbit j (Finset.mem_range.mp hj)]
      rw [hloaded.downloaded,hset]
      exact Finset.sum_congr rfl fun j _ => by rw [hloaded.lens]

def Metainfo.mostPieces : Metainfo where
  type := .singlefile
  name := []
  files := [⟨4294967295,[]⟩]
  pieces := List.replicate (20 * 4294967295) 0
  pieceLength := 1
  infoHash := List.replicate 20 0
  pieceLength_lt := one_lt_word
  infoHash_length := length_zeroHash
  single_file _ := rfl

theorem Metainfo.numPieces_mostPieces : Metainfo.mostPieces.numPieces = 4294967295 := by
  have hlen : Metainfo.mostPieces.pieces.length = 20 * 4294967295 := List.length_replicate
  unfold Metainfo.numPieces
  rw [hlen]
  decide

theorem fastresume_loses_mostPieces :
    ¬ (torrentPiecesCreate 4096 .mostPieces fun _ => ⟨false,0,none,false⟩).Resumes fun _ => ⟨false,0,none,false⟩ := by
  intro h
  have hfew : Metainfo.mostPieces.numPieces < 4294967289 := h.few
  rw [Metainfo.numPieces_mostPieces] at hfew
  omega

end Unworkable
