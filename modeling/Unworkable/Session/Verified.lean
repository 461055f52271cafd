import Unworkable.Session.Representation
import Unworkable.Torrent.Startup

/-! # The data behind verified pieces

Along every run of a single-file torrent that starts with the hash check of all pieces, a
verified piece keeps the bytes it was checked with. The digest it was checked against is its
own as long as the 32-bit place of the digest does not wrap.
-/
namespace Unworkable
open Library

section Moves
variable {sha1 : Bytes → Bytes} {c c' : Core}

/-- No move clears the flag of a verified piece. -/
theorem Move.cksumok (h : Move sha1 c c') {i : ℕ} (hi : (c.tp.piece i).cksumok = true) :
    (c'.tp.piece i).cksumok = true := by
  cases h with
  | routine hr =>
    cases hr with
    | torrent htm => exact htm.cksumok hi
    | ask p ha => rwa [ha.frame.1]
    | attend ha => rwa [ha.tp]
  | deliver _ _ _ _ _ =>
    simp only [Core.deliver,torrentBlockWrite_piece]
    exact hi
  | _ => exact hi

theorem Moves.cksumok (h : Moves sha1 c c') {i : ℕ} (hi : (c.tp.piece i).cksumok = true) :
    (c'.tp.piece i).cksumok = true := by
  induction h with
  | refl => exact hi
  | tail _ hmove ih => exact hmove.cksumok ih

/-- The guard before every block write and the bounds of its request keep it inside a piece
that is not verified. -/
theorem Intact.ledgerMove (h : Intact sha1 c.tp) (hs : c.Sound) (hmove : Move sha1 c c') : Intact sha1 c'.tp := by
  cases hmove with
  | routine hr =>
    cases hr with
    | torrent htm => exact h.move htm
    | ask p ha => rwa [ha.frame.1]
    | attend ha => rwa [ha.tp]
  | @deliver p d idx off data hidx hck hmap hfind hlen =>
    obtain ⟨pd,hpd,hkey⟩ := hs.wf.find_some hfind
    have hkey' : pd.idx = idx ∧ pd.off = off := by simpa [PieceDl.key] using hkey
    obtain ⟨-,-,hoff,hblock⟩ := hs.blocks h.single d pd hpd
    rw [DlStore.get_of_dl hpd] at hlen
    rw [hkey'.1,hkey'.2,(h.shape idx).1] at hoff hblock
    exact h.write hidx hck (h.mapped idx hmap) (by omega)
  | _ => exact h

theorem Intact.ledgerMoves (h : Intact sha1 c.tp) (hs : c.Sound) (hmoves : Moves sha1 c c') : Intact sha1 c'.tp := by
  induction hmoves with
  | refl => exact h
  | tail hprev hmove ih => exact ih.ledgerMove (hs.moves hprev) hmove

end Moves

section Reachable
variable {sha1 : Bytes → Bytes} {b : Boot} {s : Session}

/-- The data invariant in every state reached from the hash check of a single-file torrent. -/
theorem Reachable.intact (hs : b.mi.type = .singlefile) (hr : b.resume = none) (h : Reachable sha1 b s) :
    Intact sha1 s.tp := by
  obtain ⟨tp,htp,hmoves⟩ := h.moves
  obtain ⟨hmi,hlen⟩ := Boot.torrent_frame htp
  have hsound : (Session.initial tp b.maxfds b.peerid b.seed b.now).core.Sound :=
    ⟨DlStore.wf_empty,hlen,fun _ d pd hd => by cases hd⟩
  have hstart : Intact sha1 tp := by
    simp only [Boot.torrent,hr] at htp
    exact (Intact.create b.pagesize b.mi hs b.disk).moves (startup_moves htp)
  exact Intact.ledgerMoves (c := (Session.initial tp b.maxfds b.peerid b.seed b.now).core)
    (hstart.counters rfl rfl rfl) hsound hmoves

/-- The place of a digest does not wrap while `20 * (num_pieces - 1)` fits in 32 bits. -/
theorem window_digest {mi : Metainfo} (hn : mi.numPieces ≤ 214748365) {i : ℕ} (hi : i < mi.numPieces) :
    window mi.pieces (mul32 digestLength i) digestLength = mi.digest i := by
  have hmul : mul32 digestLength i = digestLength * i := wrap32_of_lt (by unfold digestLength; omega)
  rw [hmul,Metainfo.digest]

end Reachable

/-- With no more than 214748365 pieces, in every state of every run a verified piece is on
disk in full with the digest the metainfo gives for it, and stays verified. -/
theorem verified_pieces_intact (sha1 : Bytes → Bytes) (b : Boot) (hs : b.mi.type = .singlefile)
    (hr : b.resume = none) (hn : b.mi.numPieces ≤ 214748365) (s : Session) (h : Reachable sha1 b s) :
    (∀ i < s.tp.numPieces, (s.tp.piece i).cksumok = true →
      (s.tp.pieceBytes i).length = (s.tp.piece i).len ∧ sha1 (s.tp.pieceBytes i) = b.mi.digest i) ∧
    ∀ es s', run sha1 s es = .ok s' → ∀ i, (s.tp.piece i).cksumok = true → (s'.tp.piece i).cksumok = true := by
  have hi := h.intact hs hr
  have hmi := h.sound.2
  constructor
  · intro i hlt hck
    refine ⟨?_,?_⟩
    · rw [(hi.shape i).1]
      exact length_window (hi.backed i (.inr hck))
    · rw [hi.checked i hlt hck,← hmi]
      rw [← hmi] at hn
      exact window_digest hn hlt
  · intro es s' hrun i hck
    obtain ⟨es₀,hes₀⟩ := h
    obtain ⟨s₀,hs₀,hrun₀⟩ := bind_ok.mp hes₀
    obtain ⟨tp,-,rfl⟩ := Boot.session_ok hs₀
    have hpeered := (initial_peered tp b.maxfds b.peerid b.seed b.now).moves
      (run_moves (initial_peered _ _ _ _ _) hrun₀)
    exact Moves.cksumok (run_moves hpeered hrun) hck

/-- A peer delivers the only piece of a torrent; it is told that it is choked, and the piece stays. -/
theorem verified_pieces_intact_oneByte : ∃ s s', (Boot.oneByte zeroByteDigest 1).run sha1ZeroByte (oneRequestRun ++
    inputs 1002 0 (messagePortions [msgPieceId,0,0,0,0,0,0,0,0,0])) = .ok s ∧ (s.tp.piece 0).cksumok = true ∧
    sha1ZeroByte (s.tp.pieceBytes 0) = zeroByteDigest ∧
    run sha1ZeroByte s (inputs 1003 0 (messagePortions [msgChokeId])) = .ok s' ∧ (s'.tp.piece 0).cksumok = true := by
  have hrun : ((Boot.oneByte zeroByteDigest 1).run sha1ZeroByte (oneRequestRun ++
      inputs 1002 0 (messagePortions [msgPieceId,0,0,0,0,0,0,0,0,0]))).toOption.map (fun s =>
        decide ((s.tp.piece 0).cksumok = true ∧ 0 < s.tp.numPieces) &&
        ((run sha1ZeroByte s (inputs 1003 0 (messagePortions [msgChokeId]))).toOption.map (fun _ => true) ==
          some true)) =
      some true := by decide +kernel
  obtain ⟨s,hs,hP⟩ := exists_ok hrun
  obtain ⟨hstate,hnext⟩ := Bool.and_eq_true_iff.mp hP
  obtain ⟨hck,hpos⟩ := of_decide_eq_true hstate
  obtain ⟨s',hs',-⟩ := exists_ok (eq_of_beq hnext)
  obtain ⟨hall,hstays⟩ := verified_pieces_intact sha1ZeroByte _ rfl rfl (by decide) s ⟨_,hs⟩
  exact ⟨s,s',hs,hck,(hall 0 hpos hck).2,hs',hstays _ s' hs' 0 hck⟩

section OneByte
variable {pieces : Bytes} {n : ℕ}

theorem numPieces_oneByte (hlen : pieces.length = 20 * n) (hn : n < 4294967296) {k : ℤ} :
    (Metainfo.oneByte pieces k).numPieces = n := by
  rw [Metainfo.numPieces,show (Metainfo.oneByte pieces k).pieces.length = 20 * n from hlen,digestLength,
    Nat.mul_div_cancel_left n (by omega)]
  exact wrap32_of_lt hn

theorem pieceLen_oneByte (hlen : pieces.length = 20 * n) (hn : n < 4294967296) {i : ℕ} (hi : i < n) :
    pieceLen (Metainfo.oneByte pieces n) i = 1 := by
  have hnum := numPieces_oneByte hlen hn (k := n)
  have hlast : sub32 n 1 = n - 1 := sub32_of_le hn (by omega)
  have htype : (Metainfo.oneByte pieces n).type = .singlefile := rfl
  have hfile : (Metainfo.oneByte pieces n).fileLength = n := rfl
  have hpl : (Metainfo.oneByte pieces n).pieceLength = 1 := rfl
  simp only [pieceLen,htype,hnum,hlast,hfile,hpl]
  split
  · have hdiff : (n : ℤ) - (1 : ℕ) * (i : ℕ) = 1 := by push_cast; omega
    rw [hdiff]
    rfl
  · rfl

end OneByte

section Wrapped

/-- Digests of a torrent of `n` pieces of one byte each: the digest of the byte zero stands
four bytes from the start, and everything else is zero. -/
def shiftedDigests (n : ℕ) : Bytes := List.replicate 4 0 ++ zeroByteDigest ++ List.replicate (20 * n - 24) 0

theorem length_shiftedDigests {n : ℕ} (h : 2 ≤ n) : (shiftedDigests n).length = 20 * n := by
  simp only [shiftedDigests,List.length_append,List.length_replicate,zeroByteDigest,List.length_cons,List.length_nil]
  omega

theorem window_shiftedDigests (n : ℕ) : window (shiftedDigests n) 4 20 = zeroByteDigest := by
  simp only [window,shiftedDigests,List.append_assoc]
  rw [List.drop_left' (by simp),List.take_left' (by decide)]

theorem window_shiftedDigests_far {n off : ℕ} (h : 24 ≤ off) (hoff : off + 20 ≤ 20 * n) :
    window (shiftedDigests n) off 20 = List.replicate 20 0 := by
  have hlen : (List.replicate 4 0 ++ zeroByteDigest : Bytes).length = 24 := by decide
  simp only [window,shiftedDigests]
  rw [List.drop_append,List.drop_eq_nil_of_le (by omega),hlen,List.nil_append,List.drop_replicate,List.take_replicate]
  congr 1
  omega

def Boot.zeros (n : ℕ) : Boot :=
  { Boot.oneByte (shiftedDigests n) n with disk := fun _ => ⟨false,0,some (List.replicate n 0),false⟩ }

theorem zeros_numPieces {n : ℕ} (h : 2 ≤ n) (hn : n < 4294967296) : (Boot.zeros n).mi.numPieces = n :=
  numPieces_oneByte (length_shiftedDigests h) hn

theorem zeros_pieceLen {n : ℕ} (h : 2 ≤ n) (hn : n < 4294967296) {i : ℕ} (hi : i < n) :
    pieceLen (Boot.zeros n).mi i = 1 := pieceLen_oneByte (length_shiftedDigests h) hn hi

theorem zeros_present {n : ℕ} (h : 2 ≤ n) (hn : n < 4294967296) {i : ℕ} (hi : i < n) :
    (Boot.zeros n).mi.Present (Boot.zeros n).disk i := by
  have hdata : (diskData (Boot.zeros n).disk 0).length = n := List.length_replicate
  have hpl : (Boot.zeros n).mi.pieceLength = 1 := rfl
  refine (Metainfo.present_singlefile rfl ?_).1
  rw [zeros_pieceLen h hn hi,hdata,hpl]
  omega

/-- The start-up check of such a torrent, by the digests it compares with. -/
theorem zeros_startup {n : ℕ} (h : 2 ≤ n) (hn : n < 4294967296) : ∃ s,
    Reachable sha1ZeroByte (Boot.zeros n) s ∧ s.tp.mi = (Boot.zeros n).mi ∧ ∀ i < n,
      window (shiftedDigests n) (mul32 digestLength i) digestLength = zeroByteDigest →
      (s.tp.piece i).cksumok = true := by
  have hnum := zeros_numPieces h hn
  have hmap : ∀ i < (Boot.zeros n).mi.numPieces, (Boot.zeros n).mi.Mappable (Boot.zeros n).pagesize i := by
    intro i hi _
    rw [zeros_pieceLen h hn (hi.trans_eq hnum)]
    exact fun hzero => absurd hzero.1 Nat.one_ne_zero
  obtain ⟨tp,htp,hck⟩ := startup_recognised sha1ZeroByte (Boot.zeros n).pagesize (Boot.zeros n).mi (Boot.zeros n).disk
    (Boot.zeros n).stale hmap nofun
  have hboot : (Boot.zeros n).torrent sha1ZeroByte = .ok tp := htp
  refine ⟨.initial tp 128 (List.replicate 20 1) true 1000,⟨[],?_⟩,(Boot.torrent_frame hboot).1,?_⟩
  · have hseed : (!(Boot.zeros n).seed) = false := rfl
    simp only [Boot.run,Boot.session,Boot.start,hboot,ok_bind,hseed,Bool.false_eq_true,false_and,if_false]
    rfl
  · intro i hi hdigest
    have hmapped : ¬ (Boot.zeros n).mi.Unmapped i := fun hu => by cases hu.1
    exact (hck i (hi.trans_eq hnum.symm)).mpr ⟨fun j hj => zeros_present h hn (hj.trans_lt hi),hmapped,hdigest.symm⟩

end Wrapped

/-- With one piece more the digest of the last piece is looked up at `4294967300` reduced to
32 bits. The torrent below has the digest of its one-byte pieces there and zeros at the
place of the last digest: its last piece is verified against the wrong digest. -/
theorem verified_piece_wrong_digest : ∃ s, Reachable sha1ZeroByte (Boot.zeros 214748366) s ∧
    214748365 < s.tp.numPieces ∧ (s.tp.piece 214748365).cksumok = true ∧
    sha1ZeroByte (s.tp.pieceBytes 214748365) ≠ (Boot.zeros 214748366).mi.digest 214748365 := by
  obtain ⟨s,hs,hmi,hck⟩ := zeros_startup (show 2 ≤ 214748366 by decide) (by decide)
  refine ⟨s,hs,?_,?_,?_⟩
  · rw [Torrent.numPieces,hmi,zeros_numPieces (by decide) (by decide)]
    decide
  · refine hck 214748365 (by decide) ?_
    have hwrap : mul32 digestLength 214748365 = 4 := by decide
    rw [hwrap]
    exact window_shiftedDigests 214748366
  · have hdigest : (Boot.zeros 214748366).mi.digest 214748365 = List.replicate 20 0 :=
      window_shiftedDigests_far (n := 214748366) (by decide) (by decide)
    rw [hdigest]
    exact show zeroByteDigest ≠ List.replicate 20 0 by decide

end Unworkable
