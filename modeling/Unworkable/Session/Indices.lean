import Unworkable.Session.Census

/-! # Piece indices from the wire

Every message with a piece index guards it with the same comparison, and the lookup of the
piece and the bit set for it rely on that guard. It compares with `num_pieces - 1`, so that a
torrent without pieces refuses no index at all; and a torrent with almost `2^32` pieces has a
bit field whose 32-bit size has wrapped.
-/
namespace Unworkable
open Library

/-- The guard on an index that a message brings is exact, and what passes it is in bounds. -/
structure IndexChecked (s : Session) (idx : ℕ) : Prop where
  guard : indexRefused s idx = true ↔ s.tp.numPieces ≤ idx
  find : indexRefused s idx = false → ∃ tpp, torrentPieceFind s.tp idx = .ok tpp
  /-- The bit is set in the bit field of the peer, or in the one that HAVE allocates. -/
  setbit : indexRefused s idx = false → ∀ bf, (bf = List.replicate (bitfieldLen s.tp.numPieces) 0 ∨
    ∃ p ∈ s.peers, (s.peer p).bitfield = some bf) → ∃ bf', utilSetbit bf idx = .ok bf'

def BitfieldsFit (n : ℕ) (s : Session) : Prop := ∀ p ∈ s.peers, ∀ bf, (s.peer p).bitfield = some bf →
    bf.length = bitfieldLen n

section Fit
variable {sha1 : Bytes → Bytes} {env : Env} {s s' : Session} {n : ℕ}

theorem BitfieldsFit.renewed (h : BitfieldsFit n s) (hr : s.roster.Renewed s'.roster) : BitfieldsFit n s' := by
  intro p hp bf hbf
  rcases hr.peer p hp with ⟨hp',-,hbit⟩ | ⟨-,-,hbit⟩
  · exact h p hp' bf (hbit.symm.trans hbf)
  · have hnone : (s'.peer p).bitfield = none := hbit
    rw [hnone] at hbf
    cases hbf

theorem BitfieldsFit.touches {p : PeerId} {renew : Bool} (h : BitfieldsFit n s) (ht : Touches env n renew s p s')
    (hp : p ∈ s.peers) :
    BitfieldsFit n s' := by
  intro q hq bf hbf
  by_cases he : q = p
  · subst he
    rcases ht.peer.bitfield bf hbf with hlen | ⟨bf',hbf',hlen⟩
    · exact hlen
    · exact hlen.trans (h q hp bf' hbf')
  · obtain ⟨q',hq'⟩ := ht.rest
    have hmem : q ∈ s.peers := by
      have hpeers : s'.peers = s.peers := congrArg Roster.peers hq'
      rwa [hpeers] at hq
    exact h q hmem bf ((mask_eq (ht.mask_ne he)).2.2.1.symm.trans hbf)

theorem Reachable.bitfieldsFit {b : Boot} (h : Reachable sha1 b s) : BitfieldsFit s.tp.numPieces s := by
  have hfit : BitfieldsFit b.mi.numPieces s := by
    refine h.rule (fun tp _ => nofun) ?_
    rintro t ⟨env,e⟩ t' hreach ht hstep
    obtain ⟨hcensus,hconnected⟩ := hreach.census
    rcases step_roster hcensus hconnected hstep with ⟨-,hatt⟩ | ⟨p,avail,-,hp,htouch⟩
    · exact ht.renewed hatt.renewed
    · have hn : t.tp.numPieces = b.mi.numPieces := congrArg Metainfo.numPieces hreach.sound.2
      rw [hn] at htouch
      exact ht.touches htouch hp
  rwa [show s.tp.numPieces = b.mi.numPieces from congrArg Metainfo.numPieces h.sound.2]

end Fit

section Exact
variable {s : Session} {idx : ℕ}

theorem indexRefused_iff : indexRefused s idx = true ↔ idx > sub32 s.tp.numPieces 1 := by
  simp only [indexRefused,decide_eq_true_eq]

/-- Without pieces no 32-bit index is refused. -/
theorem indexRefused_zero (hn : s.tp.numPieces = 0) (hidx : idx < 4294967296) : indexRefused s idx = false := by
  rw [Bool.eq_false_iff,ne_eq,indexRefused_iff,hn]
  unfold sub32 wrap32
  omega

theorem indexRefused_pos (hn : 0 < s.tp.numPieces) : indexRefused s idx = true ↔ s.tp.numPieces ≤ idx := by
  rw [indexRefused_iff,gt_sub32_one s.tp.numPieces_lt hn]

/-- In every reachable state: all 32-bit indices are checked exactly if and only if the torrent
has a piece and not so many that the size of a bit field wraps. -/
theorem index_checked_iff (sha1 : Bytes → Bytes) (b : Boot) (s : Session) (h : Reachable sha1 b s) :
    (∀ idx < 4294967296, IndexChecked s idx) ↔ 0 < s.tp.numPieces ∧ s.tp.numPieces ≤ 4294967288 := by
  have hfit := h.bitfieldsFit
  have hlt := s.tp.numPieces_lt
  constructor
  · intro hall
    have hpos : 0 < s.tp.numPieces := by
      by_contra hzero
      have hn : s.tp.numPieces = 0 := by omega
      have hguard := (hall 0 (by decide)).guard
      rw [indexRefused_zero hn (by decide),hn] at hguard
      exact absurd (hguard.mpr (le_refl _)) (by decide)
    refine ⟨hpos,?_⟩
    by_contra hbig
    have hidx := hall (s.tp.numPieces - 1) (by omega)
    have hpass : indexRefused s (s.tp.numPieces - 1) = false := by
      rw [Bool.eq_false_iff,ne_eq,indexRefused_pos hpos]
      omega
    obtain ⟨bf',hset⟩ := hidx.setbit hpass _ (.inl rfl)
    have hlen := (utilSetbit_ok.mp hset).1
    rw [List.length_replicate] at hlen
    unfold bitfieldLen add32 wrap32 at hlen
    omega
  · rintro ⟨hpos,hbig⟩ idx -
    have hguard : indexRefused s idx = true ↔ _ := indexRefused_pos hpos
    have hpass : indexRefused s idx = false → idx < s.tp.numPieces := by
      intro hpass
      rw [Bool.eq_false_iff,ne_eq,hguard] at hpass
      omega
    refine ⟨hguard,fun hp => ⟨_,torrentPieceFind_ok.mpr ⟨hpass hp,rfl⟩⟩,?_⟩
    intro hp bf hbf
    have hlen : bf.length = bitfieldLen s.tp.numPieces := by
      rcases hbf with rfl | ⟨p,hmem,hbit⟩
      · exact List.length_replicate
      · exact hfit p hmem bf hbit
    refine ⟨_,utilSetbit_ok.mpr ⟨?_,rfl⟩⟩
    have hidx := hpass hp
    rw [hlen]
    unfold bitfieldLen add32 wrap32
    omega

end Exact

/-- A client that has asked a peer for the only piece of its torrent. -/
theorem index_checked_iff_one : ∃ s, Reachable sha1ZeroByte (.oneByte zeroByteDigest 1) s ∧
    (s.peer 0).bitfield = some [0x80] ∧ ∀ idx < 4294967296, IndexChecked s idx := by
  have hrun : ((Boot.oneByte zeroByteDigest 1).run sha1ZeroByte oneRequestRun).toOption.map (fun s =>
      decide ((s.peer 0).bitfield = some [0x80] ∧ s.tp.numPieces = 1)) = some true := by decide +kernel
  obtain ⟨s,hs,hP⟩ := exists_reachable hrun
  obtain ⟨hbf,hn⟩ := of_decide_eq_true hP
  exact ⟨s,hs,hbf,(index_checked_iff _ _ s hs).mpr (by omega)⟩

/-- A peer of a client that seeds a torrent whose `pieces` string is shorter than a digest asks
for piece 0: the guard lets it through, and the lookup reads behind the array. -/
theorem index_unchecked : ∃ s, Reachable sha1ZeroByte (.oneByte (List.replicate 5 0) 1) s ∧ s.tp.numPieces = 0 ∧
    0 ∈ s.peers ∧ ¬ IndexChecked s 0 ∧ networkPeerProcessMessage sha1ZeroByte (.plain 1000) s 0 msgRequestId
      [msgRequestId,0,0,0,0,0,0,0,0,0,0,0,1] = .error .wild := by
  have hrun : ((Boot.oneByte (List.replicate 5 0) 1).run sha1ZeroByte
      ((.plain 1000,.accept 1) :: inputs 1000 0 handshakePortions)).toOption.map (fun s =>
        decide (s.tp.numPieces = 0 ∧ 0 ∈ s.peers) &&
          match networkPeerProcessMessage sha1ZeroByte (.plain 1000) s 0 msgRequestId
              [msgRequestId,0,0,0,0,0,0,0,0,0,0,0,1] with
          | .error .wild => true
          | _ => false) = some true := by decide +kernel
  obtain ⟨s,hs,hP⟩ := exists_reachable hrun
  obtain ⟨hstate,hmsg⟩ := Bool.and_eq_true_iff.mp hP
  obtain ⟨hn,hp⟩ := of_decide_eq_true hstate
  refine ⟨s,hs,hn,hp,?_,?_⟩
  · intro hchecked
    have hguard := hchecked.guard
    rw [indexRefused_zero hn (by decide),hn] at hguard
    exact absurd (hguard.mpr (le_refl _)) (by decide)
  · split at hmsg
    · assumption
    · cases hmsg

end Unworkable
