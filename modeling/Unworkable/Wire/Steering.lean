import Unworkable.Session.Representation

/-! # What steers the reader, and what messages do to it

The reader of a peer is steered by the bits of the two handshake stages, by the mark of a
dead peer, by the bytes still pending and by the info hash. A message leaves these alone, or
it kills its sender.
-/
namespace Unworkable
open Library

section Calm

/-- The parts of a peer that steer the reader are as before. -/
structure Calm (q q' : Peer) : Prop where
  handshake1 : q'.state.handshake1 = q.state.handshake1
  handshake2 : q'.state.handshake2 = q.state.handshake2
  dead : q'.state.dead = q.state.dead
  sendbitfield : q'.state.sendbitfield = q.state.sendbitfield
  infoHash : q'.infoHash = q.infoHash
  rxpending : q'.rxpending = q.rxpending

theorem Calm.refl (q : Peer) : Calm q q := ⟨rfl,rfl,rfl,rfl,rfl,rfl⟩

theorem Calm.trans {q q' q'' : Peer} (h : Calm q q') (h' : Calm q' q'') : Calm q q'' :=
  ⟨h'.1.trans h.1,h'.2.trans h.2,h'.3.trans h.3,h'.4.trans h.4,h'.5.trans h.5,h'.6.trans h.6⟩

variable {sha1 : Bytes → Bytes} {env : Env} {s s' : Session} {p r : PeerId} {msg : Bytes}

theorem calm_setPeer (s : Session) (p r : PeerId) {f : Peer → Peer} (hf : ∀ q, Calm q (f q)) :
    Calm (s.peer p) ((s.setPeer r f).peer p) := by
  by_cases h : p = r
  · subst h
    rw [Session.setPeer_self]
    exact hf _
  · rw [Session.setPeer_ne _ _ _ h]
    exact .refl _

theorem calm_networkPeerWrite (env : Env) (s : Session) (p r : PeerId) (msg : Bytes) :
    Calm (s.peer p) ((networkPeerWrite env s r msg).peer p) :=
  calm_setPeer s p r (f := fun q => { q with lastsend := env.now }) (fun _ => ⟨rfl,rfl,rfl,rfl,rfl,rfl⟩)

theorem peer_gimmePiece {x : Option ℕ} (h : gimmePiece env s p = .ok (s',x)) : s'.peer = s.peer := by
  obtain ⟨array,last,rfl⟩ := gimmePiece_frame h
  rfl

theorem calm_expressInterest (h : expressInterest env s p = .ok s') : Calm (s.peer p) (s'.peer p) := by
  obtain ⟨array,last,store,rfl | rfl⟩ := expressInterest_frame h
  · exact .refl _
  · refine Calm.trans ?_ (calm_networkPeerWrite env _ p p _)
    exact calm_setPeer { s with rarityArray := array, lastRarity := last, store := store } p p
      (by intro q; exact ⟨rfl,rfl,rfl,rfl,rfl,rfl⟩)

theorem calm_installBitfield (s : Session) (p : PeerId) (bf : Bytes) :
    Calm (s.peer p) ((installBitfield s p bf).peer p) :=
  calm_setPeer s p p (by intro q; exact ⟨rfl,rfl,rfl,rfl,rfl,rfl⟩)

theorem calm_msgHave (h : msgHave env s p msg = .ok s') : Calm (s.peer p) (s'.peer p) := by
  simp only [msgHave] at h
  split at h
  · cases h
    exact .refl _
  · obtain ⟨bf,-,h⟩ := bind_ok.mp h
    have hset := calm_expressInterest h
    cases hb : (s.peer p).bitfield with
    | none =>
      simp only [hb] at hset
      exact ((calm_installBitfield s p _).trans
        (calm_setPeer _ p p (by intro q; exact ⟨rfl,rfl,rfl,rfl,rfl,rfl⟩))).trans hset
    | some _ =>
      simp only [hb] at hset
      exact (calm_setPeer s p p (by intro q; exact ⟨rfl,rfl,rfl,rfl,rfl,rfl⟩)).trans hset

theorem calm_pieceVerified {idx : ℕ} (h : pieceVerified env s idx = .ok s') : Calm (s.peer p) (s'.peer p) := by
  unfold pieceVerified at h
  obtain ⟨tp,-,h⟩ := bind_ok.mp h
  obtain ⟨t,ht,h⟩ := bind_ok.mp h
  cases h
  have hpeer : t.peer = s.peer := by
    unfold announceCompleted announce at ht
    split_ifs at ht
    · cases ha : env.announce <;> simp only [ha] at ht <;> cases ht <;> rfl
    · cases ht; rfl
    · cases ht; rfl
  rw [← hpeer]
  exact foldl_rel (R := fun s s' : Session => Calm (s.peer p) (s'.peer p)) (fun _ => .refl _) Calm.trans t.peers
    (fun s q _ => calm_networkPeerWrite env s p q _) t

theorem calm_networkPeerReadPiece {tp : Torrent} {idx off : ℕ} {data : Bytes}
    (h : networkPeerReadPiece { s with tp := tp } p idx off data = .ok s') : Calm (s.peer p) (s'.peer p) := by
  unfold networkPeerReadPiece at h
  obtain ⟨tpp,-,h⟩ := bind_ok.mp h
  split at h
  · cases h
    exact .refl _
  · cases h
    rw [Session.setPeer_self]
    exact ⟨rfl,rfl,rfl,rfl,rfl,rfl⟩

theorem calm_receiveBlock {idx off : ℕ} {data : Bytes} (h : receiveBlock sha1 env s p idx off data = .ok s') :
    Calm (s.peer p) (s'.peer p) := by
  simp only [receiveBlock] at h
  obtain ⟨tp,-,h⟩ := bind_ok.mp h
  obtain ⟨t,ht,h⟩ := bind_ok.mp h
  obtain ⟨found,-,h⟩ := bind_ok.mp h
  have hread : Calm (s.peer p) (t.peer p) := by
    refine Calm.trans (calm_setPeer s p p ?_) (calm_networkPeerReadPiece ht)
    intro q
    exact ⟨rfl,rfl,rfl,rfl,rfl,rfl⟩
  cases found with
  | false =>
    cases h
    exact hread
  | true =>
    simp only [if_true,checkPiece] at h
    obtain ⟨⟨tp',good⟩,-,h⟩ := bind_ok.mp h
    obtain ⟨u,hu,h⟩ := bind_ok.mp h
    obtain ⟨st,-,h⟩ := bind_ok.mp h
    cases h
    refine hread.trans ?_
    cases good with
    | true =>
      have hverified := calm_pieceVerified (p := p) hu
      exact hverified
    | false =>
      cases hu
      exact .refl _

theorem calm_chokeTurn (s : Session) (p : PeerId) (d : DlId) : Calm (s.peer p) ((chokeTurn p s d).peer p) := by
  unfold chokeTurn
  dsimp only
  rw [Session.setPeer_self]
  exact ⟨rfl,rfl,rfl,rfl,rfl,rfl⟩

theorem calm_msgReject (s : Session) (p : PeerId) (msg : Bytes) :
    Calm (s.peer p) ((msgReject env s p msg).peer p) ∨ msgReject env s p msg = killPeer s p := by
  unfold msgReject
  cases hfast : (s.peer p).state.fast with
  | false => exact .inr rfl
  | true =>
    cases href : indexRefused s (msgField env msg 1) with
    | true => exact .inl (by simpa [href] using Calm.refl _)
    | false =>
      cases hd : networkPieceDlFind s.store (some p) (msgField env msg 1) (msgField env msg 5) with
      | none => exact .inl (by simpa [href,hd] using Calm.refl _)
      | some d =>
        simp only [href,hd,Bool.not_true,Bool.false_eq_true,if_false]
        exact .inl (calm_setPeer s p p (by intro q; exact ⟨rfl,rfl,rfl,rfl,rfl,rfl⟩))

/-- A message leaves the parts that steer the reader alone, or it kills its sender. -/
theorem calm_or_killed {id : UInt8} (h : networkPeerProcessMessage sha1 env s p id msg = .ok s') :
    Calm (s.peer p) (s'.peer p) ∨ s' = killPeer s p := by
  have hstate : ∀ f : PeerState → PeerState, (∀ b, (f b).handshake1 = b.handshake1 ∧ (f b).handshake2 = b.handshake2 ∧
      (f b).dead = b.dead ∧ (f b).sendbitfield = b.sendbitfield) → Calm (s.peer p) ((s.setState p f).peer p) := by
    intro f hf
    exact calm_setPeer s p p (fun q => ⟨(hf q.state).1,(hf q.state).2.1,(hf q.state).2.2.1,(hf q.state).2.2.2,rfl,rfl⟩)
  cases networkPeerProcessMessage_handled h with
  | choke =>
    have hset := hstate (fun b => { b with choked := true }) (fun _ => ⟨rfl,rfl,rfl,rfl⟩)
    unfold msgChoke
    dsimp only
    split
    · exact .inl hset
    · refine .inl (hset.trans (foldl_rel (R := fun s s' : Session => Calm (s.peer p) (s'.peer p)) (fun _ => .refl _)
        Calm.trans _ ?_ _))
      intro t d _
      exact calm_chokeTurn t p d
  | unchoke => exact .inl (hstate _ (fun _ => ⟨rfl,rfl,rfl,rfl⟩))
  | interested => exact .inl (hstate _ (fun _ => ⟨rfl,rfl,rfl,rfl⟩))
  | notinterested => exact .inl (hstate _ (fun _ => ⟨rfl,rfl,rfl,rfl⟩))
  | haves h => exact .inl (calm_msgHave h)
  | bitfield h =>
    unfold msgBitfield at h
    split_ifs at h
    · cases h
      exact .inl (.refl _)
    · cases h
      exact .inr rfl
    · exact .inl ((calm_installBitfield s p _).trans (calm_expressInterest h))
  | request h =>
    simp only [msgRequest] at h
    split at h
    · cases h
      exact .inl (.refl _)
    · obtain ⟨tpp,-,h⟩ := bind_ok.mp h
      split_ifs at h
      · cases h
        exact .inl (.refl _)
      · cases h
        exact .inl (calm_networkPeerWrite env s p p _)
      · cases h
        exact .inl (.refl _)
      · cases h
        exact .inl (calm_setPeer s p p (by intro q; exact ⟨rfl,rfl,rfl,rfl,rfl,rfl⟩))
  | piece h =>
    unfold msgPiece at h
    generalize msgField env msg 1 = idx at h
    generalize msgField env msg 5 = off at h
    unfold pieceAt at h
    split at h
    · cases h
      exact .inl (.refl _)
    · obtain ⟨tpp,-,h⟩ := bind_ok.mp h
      split at h
      · cases h
        exact .inl (.refl _)
      · split at h
        · cases h
          exact .inr rfl
        · unfold takeBlock at h
          split at h
          · cases h
            exact .inl (.refl _)
          · obtain ⟨t,ht,h⟩ := bind_ok.mp h
            cases h
            refine .inl (Calm.trans ?_ (calm_setPeer t p p (by intro q; exact ⟨rfl,rfl,rfl,rfl,rfl,rfl⟩)))
            split at ht
            · cases ht
              exact .refl _
            · exact calm_receiveBlock ht
  | cancel =>
    simp only [msgCancel]
    split
    · exact .inl (.refl _)
    · exact .inl (calm_setPeer s p p (by intro q; exact ⟨rfl,rfl,rfl,rfl,rfl,rfl⟩))
  | reject => exact calm_msgReject s p msg
  | havenone h =>
    unfold msgHaveFill at h
    split_ifs at h
    · cases h
      exact .inl (.refl _)
    · exact .inl ((calm_installBitfield s p _).trans (calm_expressInterest h))
  | haveall h =>
    unfold msgHaveFill at h
    split_ifs at h
    · cases h
      exact .inl (.refl _)
    · exact .inl ((calm_installBitfield s p _).trans (calm_expressInterest h))
  | other => exact .inl (.refl _)

end Calm

end Unworkable
