import Unworkable.Torrent.Counters
import Unworkable.Session.Refinement

/-! # Counters of the torrent over a run

Apart from an accepted PIECE message no event touches the flags or the counters of the
torrent. An accepted one adds its payload to `downloaded`, and if it completes a piece that
passes its check it sets the flag, raises `good_pieces` and lowers `left`.
-/
namespace Unworkable
open Library

/-- What an accepted block of `n` bytes of piece `idx` does to flags and counters. -/
structure Received (idx n : ℕ) (tp tp' : Torrent) : Prop where
  downloaded : tp'.downloaded = tp.downloaded + n
  uploaded : tp'.uploaded = tp.uploaded
  outcome : Kept { tp with downloaded := tp.downloaded + n } tp' ∨
    Verifies idx tp tp' ∧ tp'.left = tp.left - (tp'.piece idx).len

section Pieces
variable {sha1 : Bytes → Bytes} {env : Env} {s s' : Session} {p : PeerId} {idx : ℕ}

theorem pieceVerified_tp (h : pieceVerified env s idx = .ok s') : s'.tp.mi = s.tp.mi ∧ s'.tp.piece = s.tp.piece ∧
    s'.tp.goodPieces = add32 s.tp.goodPieces 1 ∧ s'.tp.left = s.tp.left - (s.tp.piece idx).len ∧
    s'.tp.downloaded = s.tp.downloaded ∧ s'.tp.uploaded = s.tp.uploaded := by
  unfold pieceVerified at h
  obtain ⟨tp,htp,h⟩ := bind_ok.mp h
  obtain ⟨t,ht,h⟩ := bind_ok.mp h
  cases h
  unfold torrentFastresumeDump at htp
  obtain ⟨bf,-,htp⟩ := bind_ok.mp htp
  cases htp
  have hfold : (t.peers.foldl (fun s q => networkPeerWriteHave env s q idx) t).core = t.core :=
    core_foldl t (fun s q => core_networkPeerWrite env s q _) t.peers
  rw [show (t.peers.foldl (fun s q => networkPeerWriteHave env s q idx) t).tp = t.tp from congrArg Core.tp hfold,
    show t.tp = _ from congrArg Core.tp (core_announceCompleted ht)]
  exact ⟨rfl,rfl,rfl,rfl,rfl,rfl⟩

def Torrent.passed (tp : Torrent) (idx : ℕ) : Torrent :=
  torrentPieceUnmap (tp.setPiece idx (fun t => { t with cksumok := true })) idx

/-- The two ways in which a hash check ends. -/
theorem checkPiece_cases (h : checkPiece sha1 env s idx = .ok s') : ∃ st,
    s' = { s with tp := torrentPieceUnmap s.tp idx, store := st } ∨
      ∃ u, pieceVerified env { s with tp := s.tp.passed idx } idx = .ok u ∧ s' = { u with store := st } := by
  simp only [checkPiece] at h
  obtain ⟨⟨tp,good⟩,hcheck,h⟩ := bind_ok.mp h
  obtain ⟨u,hu,h⟩ := bind_ok.mp h
  obtain ⟨st,-,h⟩ := bind_ok.mp h
  cases h
  refine ⟨st,?_⟩
  rcases torrentPieceCheckhash_cases hcheck with ⟨rfl,rfl⟩ | ⟨rfl,rfl⟩
  · exact .inr ⟨u,hu,rfl⟩
  · cases hu
    exact .inl rfl

/-- Bookkeeping for a piece that passed its check. -/
theorem verifies_of_pieceVerified (hidx : idx < s.tp.numPieces)
    (h : pieceVerified env { s with tp := s.tp.passed idx } idx = .ok s') : Verifies idx s.tp s'.tp ∧
      s'.tp.left = s.tp.left - (s'.tp.piece idx).len ∧ s'.tp.downloaded = s.tp.downloaded ∧
      s'.tp.uploaded = s.tp.uploaded := by
  have hk := Kept.torrentPieceUnmap (s.tp.setPiece idx (fun t => { t with cksumok := true })) idx
  obtain ⟨hmi,hpiece,hgood,hleft,hdown,hup⟩ := pieceVerified_tp h
  refine ⟨⟨?_,hidx,?_,?_,?_⟩,?_,?_,?_⟩
  · exact hmi.trans hk.mi
  · rw [hpiece]
    simp [Torrent.passed,hk.flags]
  · intro i hi
    rw [hpiece]
    simp [Torrent.passed,hk.flags,Torrent.setPiece_ne _ _ hi]
  · rw [hgood]
    exact congrArg (add32 · 1) hk.goodPieces
  · rw [hleft,hpiece]
    exact congrArg (· - _) hk.left
  · exact hdown.trans hk.downloaded
  · exact hup.trans hk.uploaded

/-- The hash check of a complete piece. -/
theorem checkPiece_tp (hidx : idx < s.tp.numPieces) (h : checkPiece sha1 env s idx = .ok s') : Kept s.tp s'.tp ∨
    Verifies idx s.tp s'.tp ∧ s'.tp.left = s.tp.left - (s'.tp.piece idx).len ∧
      s'.tp.downloaded = s.tp.downloaded ∧ s'.tp.uploaded = s.tp.uploaded := by
  obtain ⟨st,rfl | ⟨u,hu,rfl⟩⟩ := checkPiece_cases h
  · exact .inl (.torrentPieceUnmap s.tp idx)
  · have hv := verifies_of_pieceVerified hidx hu
    exact .inr hv

/-- What the handler of an accepted block does to flags and counters. -/
theorem receiveBlock_received {off : ℕ} {data : Bytes} {d : DlId}
    (hfind : networkPieceDlFind s.store (some p) idx off = some d)
    (h : receiveBlock sha1 env s p idx off data = .ok s') : Received idx data.length s.tp s'.tp := by
  simp only [receiveBlock] at h
  obtain ⟨tp₁,hmap,h⟩ := bind_ok.mp h
  obtain ⟨t,hread,h⟩ := bind_ok.mp h
  obtain ⟨found,-,h⟩ := bind_ok.mp h
  simp only [networkPeerReadPiece,Session.setPeer_store,hfind] at hread
  obtain ⟨tpp,htpp,hread⟩ := bind_ok.mp hread
  obtain ⟨hidx,-⟩ := torrentPieceFind_ok.mp htpp
  cases hread
  have hk : Kept s.tp (torrentBlockWrite tp₁ idx off data.length data) :=
    (Kept.ensureMapped hmap).trans (.torrentBlockWrite _ _ _ _ _)
  have hk' : Kept { s.tp with downloaded := s.tp.downloaded + data.length }
      { torrentBlockWrite tp₁ idx off data.length data with
        downloaded := (torrentBlockWrite tp₁ idx off data.length data).downloaded + data.length } :=
    ⟨hk.mi,hk.flags,hk.goodPieces,hk.left,by rw [← hk.downloaded],hk.uploaded⟩
  have hmi : (torrentBlockWrite tp₁ idx off data.length data).mi = tp₁.mi := torrentBlockWrite_mi _ _ _ _ _
  cases found with
  | false =>
    cases h
    exact ⟨hk'.downloaded,hk'.uploaded,.inl hk'⟩
  | true =>
    have hcases := checkPiece_tp (by rw [Torrent.numPieces,Session.setPeer_tp,hmi]; exact hidx) h
    rcases hcases with hc | ⟨hv,hleft,hdown,hup⟩
    · have hall := hk'.trans hc
      exact ⟨hall.downloaded,hall.uploaded,.inl hall⟩
    · have hv' := Verifies.of_kept hk' hv
      refine ⟨hdown.trans hk'.downloaded,hup.trans hk'.uploaded,
        .inr ⟨⟨hv'.mi,hv'.idx_lt,hv'.self,hv'.other,hv'.goodPieces⟩,?_⟩⟩
      rw [hleft]
      exact congrArg (· - _) hk'.left

end Pieces

section Steps
variable {sha1 : Bytes → Bytes} {env : Env} {s s' : Session} {p : PeerId}

theorem Attends.tp {a b : Core} (h : Attends a b) : b.tp = a.tp := by
  induction h with
  | refl => rfl
  | tail _ hmove ih => exact hmove.tp.trans ih

theorem Kept.of_core (h : s'.core = s.core) : Kept s.tp s'.tp := by
  rw [show s'.tp = s.tp from congrArg Core.tp h]
  exact .refl _

/-- What the parts of a tick do to the torrent and the peer list. -/
structure TickPart (s s' : Session) : Prop where
  torrent : Remapped s.tp s'.tp
  nextPeer : s'.nextPeer = s.nextPeer
  peers : s'.peers ⊆ s.peers

theorem TickPart.trans {a b c : Session} (h : TickPart a b) (h' : TickPart b c) : TickPart a c :=
  ⟨h.torrent.trans h'.torrent,h'.nextPeer.trans h.nextPeer,fun _ hq => h.peers (h'.peers hq)⟩

theorem TickPart.of_core {tp : Torrent} (hk : Remapped s.tp tp) (h : s'.core = { s.core with tp := tp }) :
    TickPart s s' := by
  have htp : s'.tp = tp := congrArg Core.tp h
  have hpeers : s'.peers = s.peers := congrArg Core.peers h
  refine ⟨?_,congrArg Core.nextPeer h,?_⟩
  · rw [htp]
    exact hk
  · rw [hpeers]
    exact List.Subset.refl _

theorem TickPart.of_core_eq (h : s'.core = s.core) : TickPart s s' := .of_core (.refl _) h

theorem fillLoop_part {n : ℕ} (hp : p < s.nextPeer) (h : fillLoop env p n s = .ok s') :
    TickPart s s' ∧ s'.tp = s.tp := by
  induction n generalizing s with
  | zero =>
    cases h
    exact ⟨.of_core_eq rfl,rfl⟩
  | succ n ih =>
    obtain ⟨t,ht,h⟩ := fillLoop_succ hp h
    have hturn : TickPart s t ∧ t.tp = s.tp := by
      rcases ht with hcore | hask
      · exact ⟨.of_core_eq hcore,congrArg Core.tp hcore⟩
      · obtain ⟨htp,hpeers,hnext⟩ := hask.frame
        refine ⟨⟨?_,hnext,?_⟩,htp⟩
        · rw [show t.tp = s.tp from htp]
          exact .refl _
        · rw [show t.peers = s.peers from hpeers]
          exact List.Subset.refl _
    obtain ⟨hrest,htp⟩ := ih (hturn.1.nextPeer.symm ▸ hp) h
    exact ⟨hturn.1.trans hrest,htp.trans hturn.2⟩

theorem schedulerFillRequests_part (hp : p < s.nextPeer) (h : schedulerFillRequests env s p = .ok s') :
    TickPart s s' ∧ s'.tp = s.tp := by
  simp only [schedulerFillRequests] at h
  split at h
  · exact fillLoop_part hp h
  · cases h
    exact ⟨.of_core_eq rfl,rfl⟩

theorem schedulerPeer_part (hp : p < s.nextPeer) (h : schedulerPeer env s p = .ok s') : TickPart s s' := by
  rcases schedulerPeer_cases h with rfl | hcore | ⟨t,ht,h⟩
  · exact ⟨.refl _,rfl,fun q hq => List.mem_of_mem_erase hq⟩
  · exact .of_core_eq hcore
  · have hup : TickPart s t := by
      rcases schedulerDequeueUploads_core ht with hcore | ⟨idx,tp,htp,hcore⟩
      · exact .of_core_eq hcore
      · exact .of_core (.single htp) hcore
    exact hup.trans (schedulerFillRequests_part (hup.nextPeer.symm ▸ hp) h).1

/-- The turns of all peers. -/
theorem foldlM_schedulerPeer_part (hs : s.core.Peered) (h : s.peers.foldlM (schedulerPeer env) s = .ok s') :
    TickPart s s' := by
  refine foldlM_rel (R := fun t t' : Session => t.nextPeer = s.nextPeer → TickPart t t')
    (fun t _ => .of_core_eq rfl) ?_ s.peers ?_ h rfl
  · intro a b c hab hbc ha
    exact (hab ha).trans (hbc ((hab ha).nextPeer.trans ha))
  · intro t t' p hp ht hnext
    exact schedulerPeer_part (hnext.symm ▸ hs.lt p hp) ht

/-- What follows the turns of the peers leaves the torrent alone. -/
theorem scheduler_rest {s₁ s₂ s₃ : Session} (hs : s.core.Peered) (h₁ : s.peers.foldlM (schedulerPeer env) s = .ok s₁)
    (h₂ : schedulerChokeAlgorithm env s₁ = .ok s₂) (h₃ : s₃ = s₂ ∨ schedulerEndgameAlgorithm env s₂ = .ok s₃)
    (h₄ : s' = s₃ ∨ announce env s₃ = .ok s') : s'.tp = s₁.tp := by
  have hpart := (foldlM_schedulerPeer_part hs h₁).trans (.of_core_eq (core_schedulerChokeAlgorithm h₂))
  have hchoke : s₂.tp = s₁.tp := congrArg Core.tp (core_schedulerChokeAlgorithm h₂)
  have hend : s₃.tp = s₂.tp := by
    rcases h₃ with rfl | h₃
    · rfl
    · have hp₂ : ∀ p ∈ s₂.peers, p < s₂.nextPeer := by
        intro p hp
        rw [hpart.nextPeer]
        exact hs.lt p (hpart.peers hp)
      have hstep : EndgameStep (fun bs => bs) s₂ s₃ := schedulerEndgameAlgorithm_step hp₂ h₃
      exact hstep.2.1
  have hann : s'.tp = s₃.tp := by
    rcases h₄ with rfl | h₄
    · rfl
    · exact congrArg Core.tp (core_announce h₄)
  exact hann.trans (hend.trans hchoke)

/-- A tick is the turns of the peers, the choke algorithm, the endgame if it is time for it, and
perhaps an announce. -/
theorem scheduler_cases (h : scheduler env s = .ok s') : ∃ s₁ s₂ s₃, s.peers.foldlM (schedulerPeer env) s = .ok s₁ ∧
    schedulerChokeAlgorithm env s₁ = .ok s₂ ∧ (s₃ = s₂ ∨ schedulerEndgameAlgorithm env s₂ = .ok s₃) ∧
    (s' = s₃ ∨ announce env s₃ = .ok s') := by
  unfold scheduler at h
  obtain ⟨s₁,h₁,h⟩ := bind_ok.mp h
  obtain ⟨s₂,h₂,h⟩ := bind_ok.mp h
  obtain ⟨endgame,-,h⟩ := bind_ok.mp h
  obtain ⟨s₃,h₃,h⟩ := bind_ok.mp h
  refine ⟨s₁,s₂,s₃,h₁,h₂,?_,?_⟩
  · split at h₃
    · exact .inr h₃
    · cases h₃
      exact .inl rfl
  · split at h
    · exact .inr h
    · cases h
      exact .inl rfl

/-- A tick of the scheduler maps pieces at most. -/
theorem scheduler_remapped (hs : s.core.Peered) (h : scheduler env s = .ok s') : Remapped s.tp s'.tp := by
  obtain ⟨s₁,s₂,s₃,h₁,h₂,h₃,h₄⟩ := scheduler_cases h
  rw [scheduler_rest hs h₁ h₂ h₃ h₄]
  exact (foldlM_schedulerPeer_part hs h₁).torrent

/-- Event `e` brings a block of `n` payload bytes of piece `idx` that is taken. -/
def Event.accepts (env : Env) (s : Session) (e : Event) (idx n : ℕ) : Prop :=
  ∃ p avail msg d, e = .response p avail ∧ p ∈ s.peers ∧ completed env (s.peer p) avail = some msg ∧
    msg.headD 0 = msgPieceId ∧ Accepts env s p msg d ∧ idx = msgField env msg 1 ∧ n = (msg.drop 9).length

/-- Only an accepted block changes flags and counters. -/
theorem step_counters (hs : s.core.Peered) {e : Event} (h : step sha1 s (env,e) = .ok s') : Kept s.tp s'.tp ∨
    ∃ idx n, e.accepts env s idx n ∧ (s.tp.piece idx).cksumok = false ∧ Received idx n s.tp s'.tp := by
  cases e with
  | response p avail =>
    simp only [step] at h
    split at h
    · rename_i hp
      rcases peerResponse_cases h with ⟨-,hcore⟩ | ⟨msg,t,hmsg,hcore,ht⟩
      · exact .inl (.of_core hcore)
      · have hread : (s.setPeer p (afterRead env · avail)).core = s.core := core_afterRead avail
        have htp : s'.tp = t.tp := congrArg Core.tp hcore
        rw [htp]
        rcases networkPeerProcessMessage_cases ht with hc | ⟨-,hfast,hc⟩ | ⟨-,hc⟩ | ⟨hid,d,u,hacc,hu,hc⟩
        · exact .inl (.of_core (hc.trans hread))
        · rw [core_msgChoke_slow hfast] at hc
          rw [show t.tp = s.tp from congrArg Core.tp hc]
          exact .inl (.refl _)
        · rcases msgReject_cases env (s.setPeer p (afterRead env · avail)) p msg with hr | ⟨e,-,-,-,hr⟩
          · exact .inl (.of_core ((hc.trans hr).trans hread))
          · rw [show t.tp = s.tp from congrArg Core.tp (hc.trans hr)]
            exact .inl (.refl _)
        · have hrec := receiveBlock_received hacc.found hu
          rw [← show t.tp = u.tp from congrArg Core.tp hc] at hrec
          have hacc' : Accepts env s p msg d :=
            ⟨hacc.idx_lt,hacc.off_le,hacc.unverified,hacc.found,hacc.header,hacc.length⟩
          exact .inr ⟨_,_,⟨p,avail,msg,d,rfl,hp,hmsg,hid,hacc',rfl,rfl⟩,hacc.unverified,hrec⟩
    · cases h
      exact .inl (.refl _)
  | scheduler => exact .inl (scheduler_remapped hs h).kept
  | _ =>
    have htp : s'.tp = s.tp := (step_attends (by simp) (by simp) h).tp
    rw [htp]
    exact .inl (.refl _)

theorem Received.tallied {idx n : ℕ} {tp tp' : Torrent} (h : Received idx n tp tp')
    (hnew : (tp.piece idx).cksumok = false) (ht : tp.Tallied) : tp'.Tallied := by
  rcases h.outcome with hk | ⟨hv,-⟩
  · exact hk.tallied ht
  · exact hv.tallied hnew ht

end Steps

section Runs
variable {sha1 : Bytes → Bytes} {b : Boot} {s : Session}

theorem Boot.torrent_tallied {tp : Torrent} (h : b.torrent sha1 = .ok tp) : TalliedTo b.mi b.mi.numPieces tp := by
  unfold Boot.torrent at h
  cases hr : b.resume with
  | none =>
    rw [hr] at h
    exact startup_tallied h
  | some contents =>
    rw [hr] at h
    exact torrentFastresumeLoad_tallied h

theorem networkStartTorrent_tallied {tp : Torrent} (h : tp.Tallied) : (networkStartTorrent tp).Tallied := h

theorem run_tallied {s₀ : Session} (hs : s₀.core.Peered) (ht : s₀.tp.Tallied) {es : List (Env × Event)}
    (h : run sha1 s₀ es = .ok s) : s.tp.Tallied := by
  have hall := foldlM_rel (R := fun t t' : Session => t.core.Peered ∧ t.tp.Tallied → t'.core.Peered ∧ t'.tp.Tallied)
    (fun _ h => h) (fun hab hbc h => hbc (hab h)) es ?_ h
  · exact (hall ⟨hs,ht⟩).2
  · rintro t t' ⟨env,e⟩ - hstep ⟨hp,htal⟩
    refine ⟨hp.moves (step_moves hp hstep),?_⟩
    rcases step_counters hp hstep with hk | ⟨idx,n,-,hnew,hrec⟩
    · exact hk.tallied htal
    · exact hrec.tallied hnew htal

theorem Reachable.tallied {b : Boot} (h : Reachable sha1 b s) : s.tp.Tallied := by
  obtain ⟨es,hes⟩ := h
  obtain ⟨s₀,hs₀,hes⟩ := bind_ok.mp hes
  obtain ⟨tp₀,htp₀,rfl⟩ := Boot.session_ok hs₀
  exact run_tallied (initial_peered _ _ _ _ _) (networkStartTorrent_tallied (Boot.torrent_tallied htp₀).tallied) hes

/-- From start-up on, `good_pieces` is the number of verified pieces in every state, so it never
exceeds `num_pieces`, their difference does not wrap, and they are equal exactly when all
pieces are verified. -/
theorem good_pieces_counts_verified (sha1 : Bytes → Bytes) (b : Boot) (tp : Torrent)
    (h : b.torrent sha1 = .ok tp ∨ ∃ s, Reachable sha1 b s ∧ s.tp = tp) :
    tp.goodPieces = tp.verified.card ∧
      tp.goodPieces ≤ tp.numPieces ∧ sub32 tp.numPieces tp.goodPieces = tp.numPieces - tp.goodPieces ∧
      (tp.goodPieces = tp.numPieces ↔ ∀ i < tp.numPieces, (tp.piece i).cksumok = true) := by
  have htal : tp.Tallied := by
    rcases h with h | ⟨s,hs,rfl⟩
    · exact (Boot.torrent_tallied h).tallied
    · exact hs.tallied
  have hle : tp.goodPieces ≤ tp.numPieces := htal ▸ tp.card_verified_le
  refine ⟨htal,hle,sub32_of_le tp.numPieces_lt hle,?_⟩
  rw [htal]
  exact tp.card_verified_eq

/-- A peer delivers the only piece. -/
theorem good_pieces_counts_verified_one : ∃ s, Reachable sha1ZeroByte (.oneByte zeroByteDigest 1) s ∧
    s.tp.goodPieces = 1 ∧ s.tp.verified.card = 1 ∧ ∀ i < s.tp.numPieces, (s.tp.piece i).cksumok = true := by
  have hrun : ((Boot.oneByte zeroByteDigest 1).run sha1ZeroByte (oneRequestRun ++
      inputs 1002 0 (messagePortions [msgPieceId,0,0,0,0,0,0,0,0,0]))).toOption.map
      (fun s => decide (s.tp.goodPieces = 1 ∧ s.tp.numPieces = 1)) = some true := by decide +kernel
  obtain ⟨s,hs,hP⟩ := exists_reachable hrun
  obtain ⟨hgood,hnum⟩ := of_decide_eq_true hP
  obtain ⟨hcard,-,-,hall⟩ := good_pieces_counts_verified sha1ZeroByte _ s.tp (.inr ⟨s,hs,rfl⟩)
  exact ⟨s,hs,hgood,hcard ▸ hgood,hall.mp (hgood.trans hnum.symm)⟩

end Runs

end Unworkable
