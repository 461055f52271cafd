import Unworkable.Digest.Streaming
import Unworkable.Session.Restart
import Unworkable.Torrent.Lengths

/-! # A finished download

Once all pieces of a torrent are verified, its file holds what the torrent was made from, unless two different
strings with one digest have been found.
-/
namespace Unworkable
open Library

/-- The torrent was made from this content: the pieces tile it, and their digests are those of its parts. -/
structure Metainfo.MadeFrom (sha1 : Bytes → Bytes) (mi : Metainfo) (content : Bytes) : Prop where
  pieces : 1 ≤ mi.numPieces
  size : (content.length : ℤ) = mi.len
  enough : ((mi.numPieces - 1 : ℕ) : ℤ) * mi.pieceLength ≤ mi.len
  rest : mi.len - ((mi.numPieces - 1 : ℕ) : ℤ) * mi.pieceLength < 4294967296
  digests : ∀ i < mi.numPieces, mi.digest i = sha1 (window content (mi.pieceLength * i) (pieceLen mi i))

namespace Metainfo.MadeFrom
variable {sha1 : Bytes → Bytes} {mi : Metainfo} {content : Bytes}

theorem tiles (h : mi.MadeFrom sha1 content) : mi.Tiles (pieceLen mi) := by
  apply Metainfo.Tiles.of_ends h.pieces
  · intro i hi
    rw [pieceLen_front mi hi]
    ring
  · have hlast := pieceLen_last mi h.pieces
    rw [Int.emod_eq_of_lt (by linarith [h.enough]) h.rest] at hlast
    push_cast
    rw [hlast]
    ring

/-- A file with the same pieces is the same. -/
theorem take_eq (h : mi.MadeFrom sha1 content) {data : Bytes}
    (hpieces : ∀ i < mi.numPieces, window data (mi.pieceLength * i) (pieceLen mi i) =
      window content (mi.pieceLength * i) (pieceLen mi i)) : data.take content.length = content := by
  apply List.ext_getElem?
  intro x
  by_cases hx : x < content.length
  · have hlen : (x : ℤ) < mi.len := by rw [← h.size]; exact_mod_cast hx
    obtain ⟨i,hi,hlow,hhigh⟩ := (h.tiles.cover x).mpr hlen
    rw [Nat.mul_comm] at hlow hhigh
    have hpiece := congrArg (fun bs => bs[x - mi.pieceLength * i]?) (hpieces i hi)
    simp only [getElem?_window] at hpiece
    rw [if_pos (by omega),if_pos (by omega),show mi.pieceLength * i + (x - mi.pieceLength * i) = x by omega] at hpiece
    rw [List.getElem?_take_of_lt hx,hpiece]
  · have hle := Nat.not_lt.mp hx
    rw [List.getElem?_eq_none hle,List.getElem?_eq_none]
    rw [List.length_take]
    omega

end Metainfo.MadeFrom

/-- The file of a download that has all pieces, over any number of processes, begins with the content that its
torrent was made from, or a collision of the digest is at hand. -/
theorem download_is_content (sha1 : Bytes → Bytes) (b : Boot) (content : Bytes) (hs : b.mi.type = .singlefile)
    (hn : b.mi.numPieces ≤ 214748365) (hmade : b.mi.MadeFrom sha1 content) (hleft : Left sha1 b.mi b.disk b.resume)
    (s : Session) (h : Reachable sha1 b s) (hall : s.tp.goodPieces = s.tp.numPieces) :
    (s.tp.fileData 0).take content.length = content ∨
      ∃ i < b.mi.numPieces, s.tp.pieceBytes i ≠ window content (b.mi.pieceLength * i) (pieceLen b.mi i) ∧
        sha1 (s.tp.pieceBytes i) = sha1 (window content (b.mi.pieceLength * i) (pieceLen b.mi i)) := by
  have hfew : b.mi.numPieces < 4294967289 := by omega
  have hintact := h.intact_of_honest hs hfew (hleft.honest hs hfew)
  have hmi := h.sound.2
  have hflags : ∀ i < s.tp.numPieces, (s.tp.piece i).cksumok = true := by
    rw [← s.tp.card_verified_eq]
    exact h.tallied.symm.trans hall
  have hdigest : ∀ i < b.mi.numPieces, sha1 (s.tp.pieceBytes i) =
      sha1 (window content (b.mi.pieceLength * i) (pieceLen b.mi i)) := by
    intro i hi
    have hi' : i < s.tp.numPieces := by rwa [Torrent.numPieces,hmi]
    rw [hintact.checked i hi' (hflags i hi'),hmi,window_digest hn hi]
    exact hmade.digests i hi
  by_cases hsame : ∀ i < b.mi.numPieces, s.tp.pieceBytes i = window content (b.mi.pieceLength * i) (pieceLen b.mi i)
  · left
    apply hmade.take_eq
    intro i hi
    have hbytes := hsame i hi
    unfold Torrent.pieceBytes at hbytes
    rwa [hmi] at hbytes
  · right
    push Not at hsame
    obtain ⟨i,hi,hne⟩ := hsame
    exact ⟨i,hi,hne,hdigest i hi⟩

/-- A torrent of one byte, made from the byte zero, with the SHA-1 of the source. -/
theorem download_is_content_one : ∃ s, Reachable (sha1Digest .littleEndian) (.oneByte zeroByteDigest 1) s ∧
    s.tp.goodPieces = s.tp.numPieces ∧ ((s.tp.fileData 0).take 1 = [0] ∨
      ∃ i < 1, s.tp.pieceBytes i ≠ window [0] i (pieceLen (Metainfo.oneByte zeroByteDigest 1) i)) := by
  have hrun : ((Boot.oneByte zeroByteDigest 1).run (sha1Digest .littleEndian) (oneRequestRun ++
      inputs 1002 0 (messagePortions [msgPieceId,0,0,0,0,0,0,0,0,0]))).toOption.map
      (fun s => decide (s.tp.goodPieces = s.tp.numPieces)) = some true := by decide +kernel
  obtain ⟨s,hs,hP⟩ := exists_reachable hrun
  have hmade : (Boot.oneByte zeroByteDigest 1).mi.MadeFrom (sha1Digest .littleEndian) [0] := by
    refine ⟨by decide,by decide,by decide,by decide,?_⟩
    have hdigest : ∀ i < 1, (Boot.oneByte zeroByteDigest 1).mi.digest i = sha1Digest .littleEndian
        (window [0] ((Boot.oneByte zeroByteDigest 1).mi.pieceLength * i)
            (pieceLen (Boot.oneByte zeroByteDigest 1).mi i)) := by
      decide +kernel
    exact hdigest
  have hall := of_decide_eq_true hP
  refine ⟨s,hs,hall,?_⟩
  rcases download_is_content _ (.oneByte zeroByteDigest 1) [0] rfl (by decide) hmade (.first _) s hs hall with
    hfile | ⟨i,hi,hne,-⟩
  · exact .inl hfile
  · rw [show (Boot.oneByte zeroByteDigest 1).mi.pieceLength * i = i from Nat.one_mul i] at hne
    exact .inr ⟨i,hi,hne⟩

end Unworkable
