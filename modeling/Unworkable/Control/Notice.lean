import Unworkable.Control.RoundTrip

/-! # The notice of the pieces

A list of indices is whole if none of them is cut in the small buffer it is printed to,
and it is sent if its digits leave room in a message sized by the number of pieces.
-/
namespace Unworkable
open Library

/-- `ctl_server_broadcast_message`, on what has been written to each connection. -/
def ctlServerBroadcastMessage (conns : List Bytes) (msg : Bytes) : List Bytes := conns.map (· ++ msg)

/-- `ctl_server_notify_pieces`, to a server if there is one. -/
def ctlServerNotifyPieces (cs : Option (List Bytes)) (tp : Torrent) : Except Halt (Option (List Bytes)) :=
  match cs with
  | none => .ok none
  | some conns => (ctlServerPieces tp).map fun msg => some (ctlServerBroadcastMessage conns msg)

def Torrent.piecesNotice (tp : Torrent) : Bytes :=
  ascii "pieces:" ++ [44].intercalate (tp.good.map decimal) ++ ascii "\r\n"

/-- The notice is returned whole, and all connections are sent it. -/
def NoticeFits (tp : Torrent) : Prop :=
  ctlServerPieces tp = .ok tp.piecesNotice ∧
    ∀ conns, ctlServerNotifyPieces (some conns) tp = .ok (some (conns.map (· ++ tp.piecesNotice)))

section Notice
variable {tp : Torrent} {msglen : ℕ}

theorem piecesTurn_outcome {w : ℕ × Bytes} {i : ℕ} (hi : i < tp.numPieces) : (∃ v, piecesTurn tp msglen w i = .ok v) ∨
    piecesTurn tp msglen w i = .error (.errx "ctl_server_pieces() string truncation") := by
  have hfind : torrentPieceFind tp i = .ok (tp.piece i) := torrentPieceFind_ok.mpr ⟨hi,rfl⟩
  rw [piecesTurn,hfind,ok_bind]
  split
  · unfold listTurn strlcat
    dsimp only
    split
    · exact .inr rfl
    · exact .inl ⟨_,rfl⟩
  · exact .inl ⟨_,rfl⟩

theorem foldlM_piecesTurn_outcome {l : List ℕ} (hl : ∀ i ∈ l, i < tp.numPieces) (w : ℕ × Bytes) :
    (∃ v, l.foldlM (piecesTurn tp msglen) w = .ok v) ∨
      l.foldlM (piecesTurn tp msglen) w = .error (.errx "ctl_server_pieces() string truncation") := by
  induction l generalizing w with
  | nil => exact .inl ⟨w,rfl⟩
  | cons i l ih =>
    rw [List.foldlM_cons]
    rcases @piecesTurn_outcome tp msglen w i (hl i List.mem_cons_self) with ⟨v,hv⟩ | hv
    · rw [hv,ok_bind]
      exact ih (fun j hj => hl j (List.mem_cons_of_mem i hj)) v
    · exact .inr (by rw [hv]; rfl)

/-- Truncation is all that can go wrong. -/
theorem ctlServerPieces_outcome (tp : Torrent) : (∃ bs, ctlServerPieces tp = .ok bs) ∨
    ctlServerPieces tp = .error (.errx "ctl_server_pieces() string truncation") := by
  unfold ctlServerPieces
  dsimp only
  rcases foldlM_piecesTurn_outcome (fun i hi => List.mem_range.mp hi) _ with ⟨v,hv⟩ | hv
  · exact .inl ⟨v.2,by rw [hv]; rfl⟩
  · exact .inr (by rw [hv]; rfl)

theorem noticeFits_of_ok (h : ctlServerPieces tp = .ok tp.piecesNotice) : NoticeFits tp := by
  refine ⟨h,?_⟩
  intro conns
  rw [ctlServerNotifyPieces,h]
  rfl

/-- Indices of five digits are printed whole, with either ending. -/
theorem piecesText_eq (hne : tp.good ≠ []) (h : ∀ i ∈ tp.good, i < 100000) : tp.piecesText = tp.piecesNotice := by
  have hshort : ∀ t ∈ tp.good.map decimal, t.length ≤ 5 := by
    intro t ht
    obtain ⟨i,hi,rfl⟩ := List.mem_map.mp ht
    exact length_decimal_le (by decide) (h i hi)
  rw [Torrent.piecesText,listText_whole (by simpa using hne) hshort,Torrent.piecesNotice,List.append_assoc]
  rfl

/-- The ending is there only if the last index leaves room for it. -/
theorem good_lt_of_whole (h : tp.piecesText = tp.piecesNotice) : ∀ i ∈ tp.good, i < 100000 := by
  rw [Torrent.piecesText,Torrent.piecesNotice,List.append_assoc,List.append_cancel_left_eq] at h
  apply (@newline_piecesText tp _).2
  rw [h]
  exact List.mem_append_right _ (by decide)

end Notice

/-- The notice fits exactly if no index has more than five digits and there are few enough
digits for the number of pieces. -/
theorem pieces_notice_iff (tp : Torrent) (hsize : tp.goodPieces = tp.verified.card) (hne : tp.verified.Nonempty) :
    NoticeFits tp ↔ (∀ i ∈ tp.verified, i < 100000) ∧
      ∑ i ∈ tp.verified, (decimal i).length < 56 + 4 * tp.verified.card := by
  have hgood : tp.good ≠ [] := by
    obtain ⟨i,hi⟩ := hne
    exact List.ne_nil_of_mem (Torrent.mem_good.mpr hi)
  constructor
  · rintro ⟨hok,-⟩
    obtain ⟨hfit,htext⟩ := (ctlServerPieces_ok hsize).mp hok
    have hlt := good_lt_of_whole htext
    exact ⟨fun i hi => hlt i (Torrent.mem_good.mpr hi),(piecesText_fits hlt).mp hfit⟩
  · rintro ⟨hlt,hsum⟩
    have hlt : ∀ i ∈ tp.good, i < 100000 := fun i hi => hlt i (Torrent.mem_good.mp hi)
    exact noticeFits_of_ok ((ctlServerPieces_ok hsize).mpr ⟨(piecesText_fits hlt).mpr hsum,piecesText_eq hgood hlt⟩)

/-- A torrent of `n` pieces, of which those from `k` on are verified. -/
def verifiedFrom (n k : ℕ) : Torrent :=
  let tp := torrentPiecesCreate 4096 (.oneByte (List.replicate (20 * n) 0) 1) fun _ => ⟨false,0,none,false⟩
  { tp with
    piece := fun i => { tp.piece i with cksumok := decide (k ≤ i) }
    goodPieces := n - k }

section VerifiedFrom
variable {n k : ℕ}

theorem verifiedFrom_verified (hn : n < 4294967296) : (verifiedFrom n k).verified = Finset.Ico k n := by
  have hnum : (verifiedFrom n k).numPieces = n := by
    have hlen : (List.replicate (20 * n) (0 : UInt8)).length / digestLength = n := by
      rw [List.length_replicate]
      exact Nat.mul_div_cancel_left n (by decide)
    exact (congrArg wrap32 hlen).trans (Nat.mod_eq_of_lt hn)
  apply Finset.ext
  intro i
  rw [Torrent.mem_verified,hnum,Finset.mem_Ico,and_comm]
  exact and_congr_left' decide_eq_true_iff

theorem verifiedFrom_size (hn : n < 4294967296) :
    (verifiedFrom n k).goodPieces = (verifiedFrom n k).verified.card := by
  rw [verifiedFrom_verified hn,Nat.card_Ico]
  rfl

end VerifiedFrom

theorem pieces_notice_two : NoticeFits (verifiedFrom 12 10) := by
  have hset := verifiedFrom_verified (n := 12) (k := 10) (by decide)
  apply (pieces_notice_iff _ (verifiedFrom_size (by decide)) (by rw [hset]; decide)).mpr
  rw [hset]
  decide

/-- The ending of an index of six digits is cut, and 56 pieces of five digits end the process. -/
theorem notice_cut : ¬ NoticeFits (verifiedFrom 100001 100000) ∧
    ctlServerPieces (verifiedFrom 10056 10000) = .error (.errx "ctl_server_pieces() string truncation") := by
  constructor
  · rintro ⟨hok,-⟩
    obtain ⟨-,htext⟩ := (ctlServerPieces_ok (verifiedFrom_size (by decide))).mp hok
    have hmem : 100000 ∈ (verifiedFrom 100001 100000).good := by
      rw [Torrent.mem_good,verifiedFrom_verified (by decide)]
      decide
    exact absurd (good_lt_of_whole htext _ hmem) (by decide)
  · have hset := verifiedFrom_verified (n := 10056) (k := 10000) (by decide)
    rcases ctlServerPieces_outcome (verifiedFrom 10056 10000) with ⟨bs,hbs⟩ | herr
    · obtain ⟨hfit,-⟩ := (ctlServerPieces_ok (verifiedFrom_size (by decide))).mp hbs
      have hlt : ∀ i ∈ (verifiedFrom 10056 10000).good, i < 100000 := by
        intro i hi
        rw [Torrent.mem_good,hset,Finset.mem_Ico] at hi
        omega
      rw [piecesText_fits hlt,hset] at hfit
      exact absurd hfit (by decide +kernel)
    · exact herr

end Unworkable
