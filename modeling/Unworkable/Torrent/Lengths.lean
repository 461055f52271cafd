import Unworkable.Torrent.State

/-! # The lengths of the pieces

Both branches of `torrent_pieces_create` give the last piece what the others leave, in 32
bits. The product of the multi-file branch has wrapped by then, and the difference undoes it.
-/
namespace Unworkable
open Library

section Lengths
variable (mi : Metainfo) {i : ℕ}

theorem pieceLen_front (hi : i + 1 < mi.numPieces) : pieceLen mi i = mi.pieceLength := by
  have hlast : i ≠ sub32 mi.numPieces 1 := by
    rw [sub32_of_le mi.numPieces_lt (by omega)]
    omega
  unfold pieceLen
  cases mi.type
  · exact if_neg hlast
  · exact if_neg hlast

/-- The product of the multi-file branch, wrapped or not, is right modulo a word. -/
theorem pieceLen_last (hn : 1 ≤ mi.numPieces) : (pieceLen mi (mi.numPieces - 1) : ℤ) =
    (mi.len - ((mi.numPieces - 1 : ℕ) : ℤ) * mi.pieceLength) % 4294967296 := by
  have hlast : sub32 mi.numPieces 1 = mi.numPieces - 1 := sub32_of_le mi.numPieces_lt hn
  unfold pieceLen Metainfo.len
  cases mi.type with
  | singlefile =>
    simp only [hlast,if_true]
    have hnonneg := Int.emod_nonneg (mi.fileLength - ((mi.numPieces - 1 : ℕ) : ℤ) * mi.pieceLength)
      (by decide : (4294967296 : ℤ) ≠ 0)
    rw [wrapInt32,mul_comm (mi.pieceLength : ℤ)]
    exact Int.toNat_of_nonneg hnonneg
  | multifile =>
    simp only [hlast,if_true]
    unfold wrapInt32 mul32 wrap32
    rw [Int.toNat_of_nonneg (Int.emod_nonneg _ (by decide))]
    push_cast
    exact Int.sub_emod_emod _ _ _

theorem pieceLen_congr {mi mi' : Metainfo} (hn : mi'.numPieces = mi.numPieces) (hpl : mi'.pieceLength = mi.pieceLength)
    (hlen : mi'.len = mi.len) (hi : i < mi.numPieces) : pieceLen mi' i = pieceLen mi i := by
  by_cases hfront : i + 1 < mi.numPieces
  · rw [pieceLen_front mi hfront,pieceLen_front mi' (by omega),hpl]
  · have hlast : i = mi.numPieces - 1 := by omega
    have h := pieceLen_last mi (by omega)
    have h' := pieceLen_last mi' (by omega)
    rw [hn,hpl,hlen,← h] at h'
    rw [hlast]
    exact Int.ofNat_inj.mp h'

end Lengths

/-- The ranges `[i * pieceLength, i * pieceLength + len i)` follow each other from the start
of the torrent to its end. -/
structure Metainfo.Tiles (mi : Metainfo) (len : ℕ → ℕ) : Prop where
  consecutive : ∀ i, i + 1 < mi.numPieces → i * mi.pieceLength + len i = (i + 1) * mi.pieceLength
  last : (((mi.numPieces - 1) * mi.pieceLength + len (mi.numPieces - 1) : ℕ) : ℤ) = mi.len
  disjoint : ∀ i j, i < j → j < mi.numPieces → i * mi.pieceLength + len i ≤ j * mi.pieceLength
  cover : ∀ x : ℕ, (∃ i < mi.numPieces, i * mi.pieceLength ≤ x ∧ x < i * mi.pieceLength + len i) ↔ (x : ℤ) < mi.len
  sum : ((∑ i ∈ Finset.range mi.numPieces, len i : ℕ) : ℤ) = mi.len

section Tiles
variable {mi : Metainfo} {len : ℕ → ℕ}

/-- The partial sums are the starts of the ranges. -/
theorem sum_consecutive (h : ∀ i, i + 1 < mi.numPieces → i * mi.pieceLength + len i = (i + 1) * mi.pieceLength) {k : ℕ}
    (hk : k < mi.numPieces) : ∑ i ∈ Finset.range k, len i = k * mi.pieceLength := by
  induction k with
  | zero => simp
  | succ k ih => rw [Finset.sum_range_succ,ih (by omega),h k hk]

theorem Metainfo.Tiles.of_ends (hn : 1 ≤ mi.numPieces)
    (hfront : ∀ i, i + 1 < mi.numPieces → i * mi.pieceLength + len i = (i + 1) * mi.pieceLength)
    (hlast : (((mi.numPieces - 1) * mi.pieceLength + len (mi.numPieces - 1) : ℕ) : ℤ) = mi.len) : mi.Tiles len where
  consecutive := hfront
  last := hlast
  disjoint i j hij hj := by
    rw [hfront i (by omega)]
    exact Nat.mul_le_mul_right _ hij
  cover x := by
    constructor
    · rintro ⟨i,hi,-,hx⟩
      rw [← hlast]
      by_cases hlt : i + 1 < mi.numPieces
      · rw [hfront i hlt] at hx
        have hle : (i + 1) * mi.pieceLength ≤ (mi.numPieces - 1) * mi.pieceLength := Nat.mul_le_mul_right _ (by omega)
        exact_mod_cast (by omega : x < (mi.numPieces - 1) * mi.pieceLength + len (mi.numPieces - 1))
      · have hi' : i = mi.numPieces - 1 := by omega
        rw [← hi']
        exact_mod_cast hx
    · intro hx
      rw [← hlast] at hx
      have hx' : x < (mi.numPieces - 1) * mi.pieceLength + len (mi.numPieces - 1) := by exact_mod_cast hx
      by_cases hle : (mi.numPieces - 1) * mi.pieceLength ≤ x
      · exact ⟨mi.numPieces - 1,by omega,hle,hx'⟩
      · have hquot : x / mi.pieceLength < mi.numPieces - 1 := Nat.div_lt_of_lt_mul (by rw [mul_comm]; omega)
        have hpos : 0 < mi.pieceLength := by
          by_contra hzero
          rw [Nat.eq_zero_of_not_pos hzero,mul_zero] at hle
          omega
        refine ⟨x / mi.pieceLength,by omega,Nat.div_mul_le_self _ _,?_⟩
        rw [hfront _ (by omega)]
        exact Nat.lt_mul_of_div_lt (Nat.lt_succ_self _) hpos
  sum := by
    have hsplit : mi.numPieces = mi.numPieces - 1 + 1 := by omega
    rw [hsplit,Finset.sum_range_succ,sum_consecutive hfront (by omega)]
    exact hlast

end Tiles

/-- Every piece but the last has the piece length, the last one the rest modulo a word, and
single-file and multi-file torrents of the same figures have the same pieces. Where the rest
is a word, the pieces tile the torrent. -/
theorem piece_lengths_tile (pagesize : ℕ) (mi : Metainfo) (disk : ℕ → FileState) (hn : 1 ≤ mi.numPieces) :
    (∀ i, i + 1 < mi.numPieces → ((torrentPiecesCreate pagesize mi disk).piece i).len = mi.pieceLength) ∧
      (((torrentPiecesCreate pagesize mi disk).piece (mi.numPieces - 1)).len : ℤ) =
        (mi.len - ((mi.numPieces - 1 : ℕ) : ℤ) * mi.pieceLength) % 4294967296 ∧
      (∀ pagesize' mi' disk', mi'.numPieces = mi.numPieces → mi'.pieceLength = mi.pieceLength → mi'.len = mi.len →
        ∀ i < mi.numPieces, ((torrentPiecesCreate pagesize' mi' disk').piece i).len =
          ((torrentPiecesCreate pagesize mi disk).piece i).len) ∧
      (0 ≤ mi.len - ((mi.numPieces - 1 : ℕ) : ℤ) * mi.pieceLength →
        mi.len - ((mi.numPieces - 1 : ℕ) : ℤ) * mi.pieceLength < 4294967296 →
        mi.Tiles fun i => ((torrentPiecesCreate pagesize mi disk).piece i).len) := by
  refine ⟨fun i hi => pieceLen_front mi hi,pieceLen_last mi hn,?_,?_⟩
  · intro _ mi' disk' hnum hpl hlen i hi
    exact pieceLen_congr hnum hpl hlen hi
  · intro hlow hhigh
    apply Metainfo.Tiles.of_ends hn
    · intro i hi
      show i * mi.pieceLength + pieceLen mi i = _
      rw [pieceLen_front mi hi]
      ring
    · have hlast := pieceLen_last mi hn
      rw [Int.emod_eq_of_lt hlow hhigh] at hlast
      show (((mi.numPieces - 1) * mi.pieceLength + pieceLen mi (mi.numPieces - 1) : ℕ) : ℤ) = mi.len
      push_cast
      rw [hlast]
      ring

/-- Six gigabytes in two files: the product of the multi-file branch wraps. -/
def Metainfo.sixGigabytes : Metainfo where
  type := .multifile
  name := []
  files := [⟨3221225472,[]⟩,⟨3221225473,[]⟩]
  pieces := List.replicate 80 0
  pieceLength := 2147483648
  infoHash := List.replicate 20 0
  pieceLength_lt := by decide
  infoHash_length := length_zeroHash
  single_file h := by cases h

theorem piece_lengths_tile_sixGigabytes :
    (((torrentPiecesCreate 4096 .sixGigabytes fun _ => ⟨false,0,none,false⟩).piece 3).len : ℤ) = 1 ∧
      Metainfo.sixGigabytes.Tiles fun i => ((torrentPiecesCreate 4096 .sixGigabytes fun _ =>
        ⟨false,0,none,false⟩).piece i).len := by
  have hnum : Metainfo.sixGigabytes.numPieces = 4 := by decide
  have hlen : Metainfo.sixGigabytes.len = 6442450945 := by decide
  have hrest : Metainfo.sixGigabytes.len - ((Metainfo.sixGigabytes.numPieces - 1 : ℕ) : ℤ) *
      Metainfo.sixGigabytes.pieceLength = 1 := by
    rw [hnum,hlen]
    decide
  obtain ⟨-,hlast,-,htiles⟩ := piece_lengths_tile 4096 .sixGigabytes (fun _ => ⟨false,0,none,false⟩)
    (by rw [hnum]; decide)
  rw [hrest,hnum] at hlast
  refine ⟨hlast,htiles ?_ ?_⟩
  · rw [hrest]
    decide
  · rw [hrest]
    decide

end Unworkable
