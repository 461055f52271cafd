import Unworkable.Session.Ledger

/-! # Every callback is a sequence of moves

One lemma for each function of the event loop: what it does to the ledger. Writers of
messages and assignments to other fields of a peer leave the ledger as it is.
-/
namespace Unworkable
open Library

section Unchanged
variable (env : Env) (s : Session) (p : PeerId)

theorem core_setPeer {f : Peer → Peer} (hf : (f (s.peer p)).dlQueueLen = (s.peer p).dlQueueLen) :
    (s.setPeer p f).core = s.core := by
  have hq : (fun q => ((s.setPeer p f).peer q).dlQueueLen) = fun q => (s.peer q).dlQueueLen := by
    funext q
    by_cases h : q = p
    · rw [h,Session.setPeer_self,hf]
    · rw [Session.setPeer_ne _ _ _ h]
  simp only [Session.core,hq]
  rfl

theorem core_setState (f : PeerState → PeerState) : (s.setState p f).core = s.core := core_setPeer s p rfl

theorem core_killPeer : (killPeer s p).core = s.core := core_setState s p _

theorem core_networkPeerWrite (msg : Bytes) : (networkPeerWrite env s p msg).core = s.core :=
  show (s.setPeer p (fun q => { q with lastsend := env.now })).core = s.core from core_setPeer s p rfl

theorem core_networkPeerHandshake : (networkPeerHandshake env s p).core = s.core :=
  (core_networkPeerWrite env _ p _).trans (core_setPeer s p rfl)

theorem core_networkPeerWriteUnchoke : (networkPeerWriteUnchoke env s p).core = s.core :=
  (core_networkPeerWrite env _ p _).trans (core_setPeer s p rfl)

theorem core_networkPeerWriteChoke : (networkPeerWriteChoke env s p).core = s.core :=
  (core_networkPeerWrite env _ p _).trans (core_setPeer s p rfl)

theorem core_networkPeerWriteInterested : (networkPeerWriteInterested env s p).core = s.core :=
  (core_networkPeerWrite env _ p _).trans (core_setPeer s p rfl)

theorem core_setPeer_queue {f : Peer → Peer} {g : ℕ → ℕ}
    (hf : (f (s.peer p)).dlQueueLen = g (s.peer p).dlQueueLen) : (s.setPeer p f).core = s.core.setQueue p g := by
  have hq : (fun q => ((s.setPeer p f).peer q).dlQueueLen) = Function.update (fun q => (s.peer q).dlQueueLen) p
      (g (s.peer p).dlQueueLen) := by
    funext q
    by_cases h : q = p
    · rw [h,Session.setPeer_self,hf,Function.update_self]
    · rw [Session.setPeer_ne _ _ _ h,Function.update_of_ne h]
  simp only [Session.core,Core.setQueue,hq]
  rfl

theorem core_setPeer_dec : (s.setPeer p (fun q => { q with dlQueueLen := sub32 q.dlQueueLen 1 })).core =
    s.core.setQueue p (sub32 · 1) := core_setPeer_queue s p rfl

/-- A loop whose turns leave the ledger as it is. -/
theorem core_foldl {α : Type} {f : Session → α → Session} (hf : ∀ s a, (f s a).core = s.core) (l : List α) :
    (l.foldl f s).core = s.core := by
  refine foldl_rel (R := fun s s' => s'.core = s.core) (fun _ => rfl) ?_ l (fun s a _ => hf s a) s
  intro a b c h h'
  exact h'.trans h

end Unchanged

section Writers
variable {sha1 : Bytes → Bytes} {env : Env} {s s' : Session} {p : PeerId}

theorem core_networkPeerWriteBitfield (h : networkPeerWriteBitfield env s p = .ok s') : s'.core = s.core := by
  unfold networkPeerWriteBitfield at h
  obtain ⟨bf,-,h⟩ := bind_ok.mp h
  cases h
  exact core_networkPeerWrite env s p _

theorem core_writePieces (h : writePieces env p s = .ok s') : s'.core = s.core := by
  unfold writePieces at h
  split_ifs at h
  · cases h; exact core_networkPeerWrite env s p _
  · cases h; exact core_networkPeerWrite env s p _
  · exact core_networkPeerWriteBitfield h
  · cases h; rfl
  · exact core_networkPeerWriteBitfield h

theorem core_sendBitfield (h : sendBitfield env p s = .ok s') : s'.core = s.core := by
  unfold sendBitfield at h
  split at h
  · obtain ⟨t,ht,h⟩ := bind_ok.mp h
    cases h
    exact (core_setState t p _).trans (core_writePieces ht)
  · cases h
    rfl

theorem core_announce (h : announce env s = .ok s') : s'.core = s.core := by
  unfold announce at h
  cases ha : env.announce <;> simp only [ha] at h <;> cases h <;> rfl

theorem ensureMapped_moves {tp tp' : Torrent} {idx : ℕ} (h : ensureMapped tp idx = .ok tp') :
    TorrentMoves sha1 tp tp' := by
  unfold ensureMapped at h
  split at h
  · cases h
    exact .refl
  · exact TorrentMove.moves (.map h)

/-- Sending a block maps its piece. -/
theorem networkPeerWritePiece_core {idx off len : ℕ} (h : networkPeerWritePiece env s p idx off len = .ok s') :
    ∃ tp, ensureMapped s.tp idx = .ok tp ∧ s'.core = { s.core with tp := tp } := by
  unfold networkPeerWritePiece at h
  obtain ⟨tpp,-,h⟩ := bind_ok.mp h
  obtain ⟨tp,htp,h⟩ := bind_ok.mp h
  obtain ⟨d,-,h⟩ := bind_ok.mp h
  refine ⟨tp,htp,?_⟩
  cases d with
  | none =>
    cases h
    rfl
  | some d =>
    dsimp only at h
    split at h
    · cases h
    · cases h
      rw [core_setPeer,core_networkPeerWrite]
      · rfl
      · rfl

end Writers

section Gimme
variable {sha1 : Bytes → Bytes} {env : Env} {s s' : Session} {p : PeerId}

theorem core_schedulerPieceRarityarray (h : schedulerPieceRarityarray env s = .ok s') : s'.core = s.core := by
  unfold schedulerPieceRarityarray at h
  obtain ⟨pieces,-,h⟩ := bind_ok.mp h
  cases h
  rfl

/-- The choice of a piece renews the rarity array at most. -/
theorem gimmePiece_frame {ι : Type} [RbIndex ι] {s s' : Session ι} {r : Option ℕ}
    (h : gimmePiece env s p = .ok (s',r)) :
    ∃ array last, s' = { s with rarityArray := array, lastRarity := last } := by
  unfold gimmePiece at h
  obtain ⟨begun,-,h⟩ := bind_ok.mp h
  cases begun with
  | some idx =>
    cases h
    exact ⟨s.rarityArray,s.lastRarity,rfl⟩
  | none =>
    dsimp only at h
    split at h
    · obtain ⟨pieces,-,h⟩ := bind_ok.mp h
      cases h
      exact ⟨s.rarityArray,s.lastRarity,rfl⟩
    · unfold schedulerPieceFindRarest at h
      obtain ⟨t,ht,h⟩ := bind_ok.mp h
      have hrare : ∃ array last, t = { s with rarityArray := array, lastRarity := last } := by
        split at ht
        · unfold schedulerPieceRarityarray at ht
          obtain ⟨pieces,-,ht⟩ := bind_ok.mp ht
          cases ht
          exact ⟨_,_,rfl⟩
        · cases ht
          exact ⟨s.rarityArray,s.lastRarity,rfl⟩
      split at h
      · cases h
      · obtain ⟨found,-,h⟩ := bind_ok.mp h
        cases h
        exact hrare

/-- The choice of a piece leaves the ledger as it is. -/
theorem core_gimmePiece {r : Option ℕ} (h : gimmePiece env s p = .ok (s',r)) : s'.core = s.core := by
  obtain ⟨array,last,rfl⟩ := gimmePiece_frame h
  rfl

/-- What `scheduler_piece_gimme` changes besides: the requests. -/
theorem schedulerPieceGimme_frame {nocreate : Bool} {r : Option DlId × Bool}
    (h : schedulerPieceGimme env s p nocreate = .ok (s',r)) :
    ∃ array last store, s' = { s with rarityArray := array, lastRarity := last, store := store } := by
  unfold schedulerPieceGimme at h
  obtain ⟨⟨t,found⟩,ht,h⟩ := bind_ok.mp h
  obtain ⟨array,last,rfl⟩ := gimmePiece_frame ht
  cases found with
  | none =>
    cases h
    exact ⟨array,last,s.store,rfl⟩
  | some idx =>
    obtain ⟨tpp,-,h⟩ := bind_ok.mp h
    cases nocreate with
    | true =>
      cases h
      exact ⟨array,last,s.store,rfl⟩
    | false =>
      obtain ⟨⟨store,d⟩,-,h⟩ := bind_ok.mp h
      cases h
      exact ⟨array,last,store,rfl⟩

/-- What the search for something of interest changes, before the peer may be told. -/
theorem expressInterest_frame (h : expressInterest env s p = .ok s') :
    ∃ array last store, s' = { s with rarityArray := array, lastRarity := last, store := store } ∨
      s' = networkPeerWriteInterested env { s with rarityArray := array, lastRarity := last, store := store } p := by
  unfold expressInterest at h
  obtain ⟨⟨t,x,res⟩,ht,h⟩ := bind_ok.mp h
  obtain ⟨array,last,store,rfl⟩ := schedulerPieceGimme_frame ht
  refine ⟨array,last,store,?_⟩
  dsimp only at h
  split at h
  · cases h
    exact .inr rfl
  · cases h
    exact .inl rfl

/-- The block search ends with a new request for a block nobody has asked for, or with an
orphaned one. -/
theorem gimmeBlock_cases {st st' : DlStore} {idx plen : ℕ} {offs : List ℕ} {d : DlId}
    (h : gimmeBlock st p idx plen offs = .ok (st',d)) : ∃ off ∈ offs,
      networkPieceDlFind st none idx off = none ∧ networkPieceDlCreate st p idx off (blockLen plen off) = (st',d) ∨
      networkPieceDlFind st none idx off = some d ∧ (st.get d).pc = none ∧ (st.get d).outstanding = true ∧
        st' = recycle p st d := by
  induction offs with
  | nil =>
    simp only [gimmeBlock] at h
    split at h <;> cases h
  | cons off rest ih =>
    simp only [gimmeBlock] at h
    cases hf : networkPieceDlFind st none idx off with
    | none =>
      simp only [hf] at h
      exact ⟨off,List.mem_cons_self,.inl ⟨hf,Except.ok.inj h⟩⟩
    | some e =>
      simp only [hf] at h
      split at h
      · rename_i hc
        cases h
        exact ⟨off,List.mem_cons_self,.inr ⟨hf,by simpa using hc.1,hc.2,rfl⟩⟩
      · obtain ⟨off',hoff',hc⟩ := ih h
        exact ⟨off',List.mem_cons_of_mem _ hoff',hc⟩

/-- `PIECE_GIMME_NOCREATE` leaves the ledger as it is. -/
theorem core_schedulerPieceGimme_nocreate {r : Option DlId × Bool}
    (h : schedulerPieceGimme env s p true = .ok (s',r)) : s'.core = s.core := by
  unfold schedulerPieceGimme at h
  obtain ⟨⟨t,found⟩,ht,h⟩ := bind_ok.mp h
  cases found with
  | none =>
    cases h
    exact core_gimmePiece ht
  | some idx =>
    obtain ⟨tpp,-,h⟩ := bind_ok.mp h
    cases h
    exact core_gimmePiece ht

/-- What `scheduler_piece_gimme` hands out, once counted, is a request to the peer. -/
theorem schedulerPieceGimme_cases {r : Option DlId × Bool} (h : schedulerPieceGimme env s p false = .ok (s',r)) :
    r.1 = none ∧ s'.core = s.core ∨
      (p < s.nextPeer → Ask p s.core (s'.core.setQueue p (add32 · 1))) ∧ r.1.isSome = true := by
  unfold schedulerPieceGimme at h
  obtain ⟨⟨t,found⟩,ht,h⟩ := bind_ok.mp h
  have hcore := core_gimmePiece ht
  cases found with
  | none =>
    cases h
    exact .inl ⟨rfl,hcore⟩
  | some idx =>
    obtain ⟨tpp,htpp,h⟩ := bind_ok.mp h
    obtain ⟨hidx,rfl⟩ := torrentPieceFind_ok.mp htpp
    obtain ⟨⟨store,d⟩,hblock,h⟩ := bind_ok.mp h
    cases h
    refine .inr ⟨?_,rfl⟩
    intro hp
    have hst : ({ t with store := store } : Session).core = { s.core with store := store } := by
      rw [← hcore]
      rfl
    have htp : t.tp = s.core.tp := by rw [← hcore]; rfl
    have hstore : t.store = s.core.store := by rw [← hcore]; rfl
    rw [htp] at hidx
    rw [htp,hstore] at hblock
    rw [hst]
    obtain ⟨off,hoff,⟨-,hc⟩ | ⟨hfind,hpc,hout,rfl⟩⟩ := gimmeBlock_cases hblock
    · have hr : Ask p s.core _ := .request hp hidx hoff
      rw [hc] at hr
      exact hr
    · exact Ask.recycle (c := s.core) hp hfind hpc hout

end Gimme

section Tick
variable {sha1 : Bytes → Bytes} {env : Env} {s s' : Session} {p : PeerId}

/-- One turn of the request loop: nothing to ask for, or a request to the peer. -/
theorem fillLoop_succ {n : ℕ} (hp : p < s.nextPeer) (h : fillLoop env p (n + 1) s = .ok s') :
    ∃ t, (t.core = s.core ∨ Ask p s.core t.core) ∧ fillLoop env p n t = .ok s' := by
  simp only [fillLoop] at h
  obtain ⟨⟨t,r,hint⟩,ht,h⟩ := bind_ok.mp h
  cases r with
  | none =>
    rcases schedulerPieceGimme_cases ht with ⟨-,hcore⟩ | ⟨-,hc⟩
    · exact ⟨t,.inl hcore,h⟩
    · cases hc
  | some d =>
    rcases schedulerPieceGimme_cases ht with ⟨hc,-⟩ | ⟨hr,-⟩
    · cases hc
    · refine ⟨_,.inr ?_,h⟩
      rw [core_setPeer_queue (g := (add32 · 1)) _ _ rfl,networkPeerRequestBlock,core_networkPeerWrite]
      exact hr hp

theorem fillLoop_routines {n : ℕ} (hp : p < s.nextPeer) (h : fillLoop env p n s = .ok s') :
    Routines sha1 s.core s'.core := by
  induction n generalizing s with
  | zero =>
    cases h
    exact .refl
  | succ n ih =>
    obtain ⟨t,hcore | hask,h⟩ := fillLoop_succ hp h
    · rw [← hcore]
      have hnext : t.nextPeer = s.nextPeer := congrArg Core.nextPeer hcore
      exact ih (by rwa [hnext]) h
    · have hnext : t.nextPeer = s.nextPeer := hask.frame.2.2
      exact (Routine.ask p hask).routines.trans (ih (by rwa [hnext]) h)

theorem schedulerFillRequests_routines (hp : p < s.nextPeer) (h : schedulerFillRequests env s p = .ok s') :
    Routines sha1 s.core s'.core := by
  simp only [schedulerFillRequests] at h
  split at h
  · exact fillLoop_routines hp h
  · cases h
    exact .refl

/-- An upload from the queue maps at most one piece. -/
theorem schedulerDequeueUploads_core (h : schedulerDequeueUploads env s p = .ok s') :
    s'.core = s.core ∨ ∃ idx tp, ensureMapped s.tp idx = .ok tp ∧ s'.core = { s.core with tp := tp } := by
  simp only [schedulerDequeueUploads,networkPieceUlDequeue] at h
  cases hu : (s.peer p).uls.head? with
  | none =>
    simp only [hu] at h
    cases h
    exact .inl rfl
  | some pu =>
    simp only [hu] at h
    obtain ⟨tp,htp,hcore⟩ := networkPeerWritePiece_core h
    rw [core_setPeer] at hcore
    · exact .inr ⟨pu.idx,tp,htp,hcore⟩
    · rfl

theorem schedulerDequeueUploads_routines (h : schedulerDequeueUploads env s p = .ok s') :
    Routines sha1 s.core s'.core := by
  rcases schedulerDequeueUploads_core h with hcore | ⟨idx,tp,htp,hcore⟩
  · rw [hcore]
    exact .refl
  · rw [hcore]
    exact (ensureMapped_moves htp).routines

theorem core_networkPeerFree : (networkPeerFree s p).core = { s.core with store := peerFreeDls s.store p } := by
  have h : (s.setPeer p (fun q => { q with uls := [], connfd := false })).core = s.core := core_setPeer s p rfl
  rw [← h]
  rfl

theorem dropPeer_attend : Attend s.core (dropPeer s p).core := by
  have h : (dropPeer s p).core = { s.core with store := peerFreeDls s.store p, peers := s.peers.erase p } := by
    rw [show (dropPeer s p).core = { (networkPeerFree s p).core with peers := s.peers.erase p } from rfl,
      core_networkPeerFree]
  rw [h]
  exact .drop p

/-- The tick drops a dead peer, kills a silent one, or sends it a block and asks it for more. -/
theorem schedulerPeer_cases (h : schedulerPeer env s p = .ok s') : s' = dropPeer s p ∨ s'.core = s.core ∨
    ∃ t, schedulerDequeueUploads env s p = .ok t ∧ schedulerFillRequests env t p = .ok s' := by
  unfold schedulerPeer at h
  split at h
  · cases h
    exact .inl rfl
  · simp only [schedulerThresholdKill] at h
    split at h
    · rename_i t hk
      split at hk
      · cases hk
        cases h
        exact .inr (.inl (core_setPeer _ _ rfl))
      · cases hk
    · rename_i t hk
      split at hk
      · cases hk
      · cases hk
        exact .inr (.inr (bind_ok.mp h))

theorem schedulerPeer_routines (hp : p < s.nextPeer) (h : schedulerPeer env s p = .ok s') :
    Routines sha1 s.core s'.core := by
  rcases schedulerPeer_cases h with rfl | hcore | ⟨t,ht,h⟩
  · exact dropPeer_attend.attends.routines
  · rw [hcore]
    exact .refl
  · have hup : Routines sha1 s.core t.core := schedulerDequeueUploads_routines ht
    exact hup.trans (schedulerFillRequests_routines (lt_of_lt_of_le hp hup.nextPeer_le) h)

theorem core_schedulerChokeAlgorithm (h : schedulerChokeAlgorithm env s = .ok s') : s'.core = s.core := by
  unfold schedulerChokeAlgorithm at h
  split at h
  · cases h
    rfl
  · obtain ⟨pc,-,h⟩ := bind_ok.mp h
    obtain ⟨p2,-,h⟩ := bind_ok.mp h
    cases h
    rw [core_foldl]
    · cases p2 with
      | none =>
        refine core_foldl _ ?_ _
        intro s p
        split_ifs
        · rfl
        · rfl
        · exact core_networkPeerWriteUnchoke env s p
      | some p =>
        rw [core_networkPeerWriteUnchoke]
        refine core_foldl _ ?_ _
        intro s p
        split_ifs
        · rfl
        · rfl
        · exact core_networkPeerWriteUnchoke env s p
    · intro s p
      split_ifs
      · rfl
      · exact core_networkPeerWriteChoke env s p
      · rfl

/-- One endgame block is a request to the peer, or it is queued there already. -/
theorem endgameBlock_cases (env : Env) {i plen off : ℕ} (hp : p < s.nextPeer) (hi : i < s.tp.numPieces)
    (hlen : (s.tp.piece i).len = plen) (hoff : off ∈ blockOffs plen) :
    endgameBlock env p i plen s off = s ∨ Ask p s.core (endgameBlock env p i plen s off).core := by
  unfold endgameBlock
  split
  · exact .inl rfl
  · have hr : Ask p s.core _ := .request hp hi (hlen.symm ▸ hoff)
    refine .inr ?_
    rw [core_setPeer_queue (g := (add32 · 1)) _ _ rfl,networkPeerRequestBlock,core_networkPeerWrite]
    subst hlen
    exact hr

theorem endgameBlock_routines {i plen off : ℕ} (hp : p < s.nextPeer) (hi : i < s.tp.numPieces)
    (hlen : (s.tp.piece i).len = plen) (hoff : off ∈ blockOffs plen) :
    Routines sha1 s.core (endgameBlock env p i plen s off).core := by
  rcases endgameBlock_cases env hp hi hlen hoff with heq | hask
  · rw [heq]
    exact .refl
  · exact (Routine.ask p hask).routines

/-- What the endgame loops keep from turn to turn: the torrent and the numbering of peers. -/
def EndgameStep (sha1 : Bytes → Bytes) (s s' : Session) : Prop :=
  Routines sha1 s.core s'.core ∧ s'.tp = s.tp ∧ s'.peers = s.peers ∧ s'.nextPeer = s.nextPeer

theorem EndgameStep.refl (s : Session) : EndgameStep sha1 s s := ⟨.refl,rfl,rfl,rfl⟩

theorem EndgameStep.trans {s₁ s₂ s₃ : Session} (h : EndgameStep sha1 s₁ s₂) (h' : EndgameStep sha1 s₂ s₃) :
    EndgameStep sha1 s₁ s₃ :=
  ⟨h.1.trans h'.1,h'.2.1.trans h.2.1,h'.2.2.1.trans h.2.2.1,h'.2.2.2.trans h.2.2.2⟩

theorem endgameBlock_frame (env : Env) (p : PeerId) (s : Session) (i plen off : ℕ) :
    (endgameBlock env p i plen s off).tp = s.tp ∧
    (endgameBlock env p i plen s off).peers = s.peers ∧
    (endgameBlock env p i plen s off).nextPeer = s.nextPeer := by
  unfold endgameBlock
  split
  · exact ⟨rfl,rfl,rfl⟩
  · exact ⟨rfl,rfl,rfl⟩

theorem endgamePeer_step {i : ℕ} (hp : p < s.nextPeer) (hi : i < s.tp.numPieces)
    (h : endgamePeer env i (s.tp.piece i).len s p = .ok s') : EndgameStep sha1 s s' := by
  unfold endgamePeer at h
  split at h
  · cases h
    exact .refl s
  · obtain ⟨has,-,h⟩ := bind_ok.mp h
    split_ifs at h
    · cases h
      exact .refl s
    · cases h
      exact .refl s
    · cases h
      -- the block loop, over a suffix of the offsets of the piece
      generalize hplen : (s.tp.piece i).len = plen
      have hall : ∀ offs : List ℕ, (∀ off ∈ offs, off ∈ blockOffs plen) → ∀ t : Session,
          p < t.nextPeer → i < t.tp.numPieces → (t.tp.piece i).len = plen →
          EndgameStep sha1 t (offs.foldl (endgameBlock env p i plen) t) := by
        intro offs
        induction offs with
        | nil => intro _ t _ _ _; exact .refl t
        | cons off rest ih =>
          intro hoffs t ht hti htl
          obtain ⟨htp,hpeers,hnext⟩ := endgameBlock_frame env p t i plen off
          refine EndgameStep.trans ⟨endgameBlock_routines ht hti htl (hoffs off List.mem_cons_self),htp,hpeers,hnext⟩ ?_
          refine ih (fun o ho => hoffs o (List.mem_cons_of_mem _ ho)) _ ?_ ?_ ?_
          · rwa [hnext]
          · rwa [htp]
          · rwa [htp]
      exact hall _ (fun _ ho => ho) s hp hi hplen

theorem endgamePiece_step {i : ℕ} (hpeers : ∀ p ∈ s.peers, p < s.nextPeer) (h : endgamePiece env s i = .ok s') :
    EndgameStep sha1 s s' := by
  unfold endgamePiece at h
  obtain ⟨tpp,htpp,h⟩ := bind_ok.mp h
  obtain ⟨hi,rfl⟩ := torrentPieceFind_ok.mp htpp
  split at h
  · cases h
    exact .refl s
  · have hall : ∀ ps : List PeerId, (∀ p ∈ ps, p < s.nextPeer) → ∀ t : Session, EndgameStep sha1 s t →
        ps.foldlM (endgamePeer env i (s.tp.piece i).len) t = .ok s' → EndgameStep sha1 s s' := by
      intro ps
      induction ps with
      | nil =>
        intro _ t ht hf
        cases hf
        exact ht
      | cons p rest ih =>
        intro hps t ht hf
        rw [List.foldlM_cons,bind_ok] at hf
        obtain ⟨u,hu,hf⟩ := hf
        refine ih (fun q hq => hps q (List.mem_cons_of_mem _ hq)) u ?_ hf
        rw [← ht.2.1] at hu hi
        exact ht.trans (endgamePeer_step (by rw [ht.2.2.2]; exact hps p List.mem_cons_self) hi hu)
    exact hall s.peers hpeers s (.refl s) h

theorem schedulerEndgameAlgorithm_step (hpeers : ∀ p ∈ s.peers, p < s.nextPeer)
    (h : schedulerEndgameAlgorithm env s = .ok s') : EndgameStep sha1 s s' := by
  have hall := foldlM_rel (R := fun t t' => (∀ p ∈ t.peers, p < t.nextPeer) → EndgameStep sha1 t t')
    (fun t _ => .refl t) ?_ _ (fun _ _ _ _ h hp => endgamePiece_step hp h) h
  · exact hall hpeers
  · intro a b c hab hbc hp
    have hstep := hab hp
    refine hstep.trans (hbc ?_)
    rw [hstep.2.2.1,hstep.2.2.2]
    exact hp

/-- The turns of all peers. -/
theorem schedulerPeers_routines (hs : s.core.Peered) (h : s.peers.foldlM (schedulerPeer env) s = .ok s') :
    Routines sha1 s.core s'.core := by
  have hall := foldlM_rel (R := fun t t' => s.nextPeer ≤ t.nextPeer → Routines sha1 t.core t'.core)
    (fun t _ => Routines.refl) ?_ s.peers ?_ h
  · exact hall (le_refl _)
  · intro a b c hab hbc ha
    exact (hab ha).trans (hbc (ha.trans (hab ha).nextPeer_le))
  · intro t t' p hp ht hle
    exact schedulerPeer_routines (lt_of_lt_of_le (hs.lt p hp) hle) ht

/-- The scheduler tick makes routine moves only. -/
theorem scheduler_routines (hs : s.core.Peered) (h : scheduler env s = .ok s') : Routines sha1 s.core s'.core := by
  unfold scheduler at h
  obtain ⟨s₁,h₁,h⟩ := bind_ok.mp h
  have hr₁ : Routines sha1 s.core s₁.core := schedulerPeers_routines hs h₁
  obtain ⟨s₂,h₂,h⟩ := bind_ok.mp h
  have hc₂ := core_schedulerChokeAlgorithm h₂
  obtain ⟨endgame,-,h⟩ := bind_ok.mp h
  obtain ⟨s₃,h₃,h⟩ := bind_ok.mp h
  have hr₃ : Routines sha1 s₂.core s₃.core := by
    split at h₃
    · refine (schedulerEndgameAlgorithm_step ?_ h₃).1
      have hp₂ : s₂.core.Peered := hc₂ ▸ hs.routines hr₁
      exact hp₂.lt
    · cases h₃
      exact .refl
  have hc₄ : s'.core = s₃.core := by
    split at h
    · exact core_announce h
    · cases h
      rfl
  rw [hc₄]
  rw [hc₂] at hr₃
  exact hr₁.trans hr₃

end Tick

section Messages
variable {sha1 : Bytes → Bytes} {env : Env} {s s' : Session} {p : PeerId} {msg : Bytes}

theorem core_chokeTurn_foldl (l : List DlId) (s : Session) : (l.foldl (chokeTurn p) s).core =
    { s.core.setQueue p (fun n => l.foldl (fun n _ => sub32 n 1) n) with store := l.foldl (orphan p) s.store } := by
  induction l generalizing s with
  | nil => simp [Core.setQueue,Session.core]
  | cons d l ih =>
    have hturn : (chokeTurn p s d).core = { s.core.setQueue p (sub32 · 1) with store := orphan p s.store d } := by
      rw [← core_setPeer_dec]
      rfl
    rw [List.foldl_cons,ih,hturn]
    simp [Core.setQueue,chokeTurn]

/-- CHOKE from a peer without the fast extension. -/
theorem core_msgChoke_slow (hf : (s.peer p).state.fast = false) : (msgChoke s p).core =
    { s.core.setQueue p (fun n => (s.store.lists p).foldl (fun n _ => sub32 n 1) n) with
      store := (s.store.lists p).foldl (orphan p) s.store } := by
  have hf' : ((s.setState p (fun b => { b with choked := true })).peer p).state.fast = false := by
    simpa [Session.setState] using hf
  simp only [msgChoke,hf',Bool.false_eq_true,if_false]
  rw [core_chokeTurn_foldl,core_setState]
  rfl

theorem core_msgChoke_fast (hf : (s.peer p).state.fast = true) : (msgChoke s p).core = s.core := by
  have hf' : ((s.setState p (fun b => { b with choked := true })).peer p).state.fast = true := by
    simpa [Session.setState] using hf
  simp only [msgChoke,hf',if_true]
  exact core_setState s p _

/-- REJECT frees the request that the lookup gives, or leaves the ledger as it is. -/
theorem msgReject_cases (env : Env) (s : Session) (p : PeerId) (msg : Bytes) :
    (msgReject env s p msg).core = s.core ∨ ∃ d,
    networkPieceDlFind s.store (some p) (msgField env msg 1) (msgField env msg 5) = some d ∧
    (s.peer p).state.fast = true ∧ indexRefused s (msgField env msg 1) = false ∧
    (msgReject env s p msg).core =
      { s.core.setQueue p (sub32 · 1) with store := networkPieceDlFree s.store d } := by
  unfold msgReject
  cases hfast : (s.peer p).state.fast with
  | false => exact .inl (core_killPeer s p)
  | true =>
    cases href : indexRefused s (msgField env msg 1) with
    | true => exact .inl (by simp [href])
    | false =>
      cases hd : networkPieceDlFind s.store (some p) (msgField env msg 1) (msgField env msg 5) with
      | none => exact .inl (by simp [href,hd])
      | some d =>
        refine .inr ⟨d,rfl,rfl,rfl,?_⟩
        rw [← core_setPeer_dec]
        simp only [href,hd,Bool.not_true,Bool.false_eq_true,if_false]
        rfl

theorem core_expressInterest (h : expressInterest env s p = .ok s') : s'.core = s.core := by
  unfold expressInterest at h
  obtain ⟨⟨t,r,res⟩,ht,h⟩ := bind_ok.mp h
  have hcore := core_schedulerPieceGimme_nocreate ht
  dsimp only at h
  split at h
  · cases h
    exact (core_networkPeerWriteInterested env t p).trans hcore
  · cases h
    exact hcore

theorem core_installBitfield (bf : Bytes) : (installBitfield s p bf).core = s.core := core_setPeer s p rfl

theorem core_msgHave (h : msgHave env s p msg = .ok s') : s'.core = s.core := by
  simp only [msgHave] at h
  split at h
  · cases h
    rfl
  · obtain ⟨bf,-,h⟩ := bind_ok.mp h
    rw [core_expressInterest h,core_setPeer _ _ rfl]
    cases (s.peer p).bitfield with
    | none => exact core_installBitfield _
    | some _ => rfl

theorem core_msgBitfield (h : msgBitfield env s p msg = .ok s') : s'.core = s.core := by
  unfold msgBitfield at h
  split_ifs at h
  · cases h
    rfl
  · cases h
    exact core_killPeer s p
  · rw [core_expressInterest h,core_installBitfield]

theorem core_msgHaveFill {fill : UInt8} (h : msgHaveFill env s p fill = .ok s') : s'.core = s.core := by
  unfold msgHaveFill at h
  split_ifs at h
  · cases h
    rfl
  · rw [core_expressInterest h,core_installBitfield]

theorem core_msgRequest (h : msgRequest env s p msg = .ok s') : s'.core = s.core := by
  simp only [msgRequest] at h
  split at h
  · cases h
    rfl
  · obtain ⟨tpp,-,h⟩ := bind_ok.mp h
    split_ifs at h
    · cases h
      rfl
    · cases h
      exact core_networkPeerWrite env s p _
    · cases h
      rfl
    · cases h
      exact core_setPeer s p rfl

theorem core_msgCancel : (msgCancel env s p msg).core = s.core := by
  simp only [msgCancel]
  split
  · rfl
  · exact core_setPeer s p rfl

theorem ensureMapped_mapped {tp tp' : Torrent} {idx : ℕ} (h : ensureMapped tp idx = .ok tp') :
    (tp'.piece idx).mapped = true ∧ tp'.mi = tp.mi ∧ (tp'.piece idx).cksumok = (tp.piece idx).cksumok := by
  unfold ensureMapped at h
  split at h
  · rename_i hm
    cases h
    exact ⟨hm,rfl,rfl⟩
  · obtain ⟨hmi,hck,hm⟩ := torrentPieceMap_frame h
    exact ⟨hm,hmi,hck idx⟩

theorem core_announceCompleted (h : announceCompleted env s = .ok s') : s'.core = s.core := by
  unfold announceCompleted at h
  split at h
  · split at h
    · cases h
    · split at h
      · exact core_announce h
      · cases h
        rfl
  · cases h
    rfl

theorem core_pieceVerified (sha1 : Bytes → Bytes) {idx : ℕ} (h : pieceVerified env s idx = .ok s') :
    ∃ tp', TorrentMove sha1 s.tp tp' ∧ s'.core = { s.core with tp := tp' } := by
  unfold pieceVerified at h
  obtain ⟨tp,htp,h⟩ := bind_ok.mp h
  obtain ⟨t,ht,h⟩ := bind_ok.mp h
  cases h
  have hdump : tp.mi = s.tp.mi ∧ tp.piece = s.tp.piece ∧ tp.disk = s.tp.disk := by
    unfold torrentFastresumeDump at htp
    obtain ⟨bf,-,htp⟩ := bind_ok.mp htp
    cases htp
    exact ⟨rfl,rfl,rfl⟩
  refine ⟨{ tp with goodPieces := add32 tp.goodPieces 1, left := tp.left - (tp.piece idx).len },
    .counters hdump.1 hdump.2.1 hdump.2.2,?_⟩
  have hfold : (t.peers.foldl (fun s q => networkPeerWriteHave env s q idx) t).core = t.core :=
    core_foldl t (fun s q => core_networkPeerWrite env s q _) t.peers
  rw [hfold,core_announceCompleted ht]
  rfl

/-- What PIECE does once its block is accepted: the piece is mapped, the block delivered,
and if that completes the piece it is checked and one request of each block is freed. -/
theorem receiveBlock_cases {idx off : ℕ} {data : Bytes} {d : DlId}
    (hfind : networkPieceDlFind s.store (some p) idx off = some d)
    (h : receiveBlock sha1 env s p idx off data = .ok s') :
    ∃ tp₁ tp₂, ensureMapped s.tp idx = .ok tp₁ ∧
      TorrentMoves sha1 (torrentBlockWrite tp₁ idx off data.length data) tp₂ ∧
      (s'.core = { Core.deliver { s.core with tp := tp₁ } p d idx off data with tp := tp₂ } ∨
        ∃ st, everyBlock (Core.deliver { s.core with tp := tp₁ } p d idx off data).store p idx (tp₁.piece idx).len =
            .ok true ∧
          cleanupDls (Core.deliver { s.core with tp := tp₁ } p d idx off data).store idx (tp₁.piece idx).len =
            .ok st ∧
          s'.core = { Core.deliver { s.core with tp := tp₁ } p d idx off data with tp := tp₂, store := st }) := by
  simp only [receiveBlock] at h
  obtain ⟨tp₁,hmap,h⟩ := bind_ok.mp h
  obtain ⟨t,hread,h⟩ := bind_ok.mp h
  obtain ⟨found,hfound,h⟩ := bind_ok.mp h
  simp only [networkPeerReadPiece,Session.setPeer_store,hfind] at hread
  obtain ⟨tpp,htpp,hread⟩ := bind_ok.mp hread
  obtain ⟨hidx,-⟩ := torrentPieceFind_ok.mp htpp
  -- the block is written and counted
  have hcore : t.core = { Core.deliver { s.core with tp := tp₁ } p d idx off data with tp := t.tp } ∧
      TorrentMove sha1 (torrentBlockWrite tp₁ idx off data.length data) t.tp ∧
      t.store = (Core.deliver { s.core with tp := tp₁ } p d idx off data).store := by
    cases hread
    refine ⟨?_,.counters rfl rfl rfl,rfl⟩
    rw [core_setPeer _ _ rfl,Core.deliver]
    simp only [Session.core,Core.setQueue,Core.mk.injEq,true_and]
    exact ⟨rfl,rfl,congrArg Core.queue (core_setPeer_dec s p),rfl⟩
  obtain ⟨htcore,htmove,htstore⟩ := hcore
  have hlen : (t.tp.piece idx).len = (tp₁.piece idx).len := by
    cases hread
    simp
  have hidx' : idx < t.tp.numPieces := by
    rw [Torrent.numPieces,htmove.mi,torrentBlockWrite_mi]
    exact hidx
  refine ⟨tp₁,?_⟩
  cases found with
  | false =>
    have hts : t = s' := Except.ok.inj h
    subst hts
    exact ⟨t.tp,hmap,htmove.moves,.inl htcore⟩
  | true =>
    simp only [if_true,checkPiece] at h
    obtain ⟨⟨tp',good⟩,hcheck,h⟩ := bind_ok.mp h
    obtain ⟨u,hu,h⟩ := bind_ok.mp h
    obtain ⟨st,hst,h⟩ := bind_ok.mp h
    cases h
    have hchecked : TorrentMoves sha1 t.tp (torrentPieceUnmap tp' idx) :=
      (TorrentMove.verify hidx' hcheck).moves.trans (TorrentMove.unmap idx).moves
    obtain ⟨tp₂,htp₂,hucore⟩ : ∃ tp₂, TorrentMoves sha1 (torrentPieceUnmap tp' idx) tp₂ ∧
        u.core = { t.core with tp := tp₂ } := by
      cases good with
      | true =>
        obtain ⟨tp₂,hmove,hcore⟩ := core_pieceVerified sha1 hu
        exact ⟨tp₂,hmove.moves,hcore⟩
      | false =>
        cases hu
        exact ⟨_,.refl,rfl⟩
    have hustore : u.store = t.store := congrArg Core.store hucore
    refine ⟨tp₂,hmap,(htmove.moves.trans hchecked).trans htp₂,.inr ⟨st,?_,?_,?_⟩⟩
    · rw [← htstore,← hlen]
      exact hfound
    · rw [← htstore,← hlen,← hustore]
      exact hst
    · rw [show ({ u with store := st } : Session).core = { u.core with store := st } from rfl,hucore,htcore]

/-- A PIECE message whose block is taken: it is on request, has the length asked for, and
the piece is not verified yet. -/
structure AcceptsAt {ι : Type} [RbIndex ι] (s : Session ι) (p : PeerId) (idx off : ℕ) (msg : Bytes) (d : DlId) :
    Prop where
  idx_lt : idx < s.tp.numPieces
  off_le : off ≤ (s.tp.piece idx).len
  unverified : (s.tp.piece idx).cksumok = false
  found : networkPieceDlFind s.store (some p) idx off = some d
  header : 9 ≤ msg.length
  length : (msg.drop 9).length = (s.store.get d).len

/-- The same with index and offset read from the message. -/
def Accepts {ι : Type} [RbIndex ι] (env : Env) (s : Session ι) (p : PeerId) (msg : Bytes) (d : DlId) : Prop :=
  AcceptsAt s p (msgField env msg 1) (msgField env msg 5) msg d

theorem pieceAt_cases {idx off : ℕ} (h : pieceAt sha1 env s p idx off msg = .ok s') : s'.core = s.core ∨
    ∃ d t, AcceptsAt s p idx off msg d ∧ receiveBlock sha1 env s p idx off (msg.drop 9) = .ok t ∧
      s'.core = t.core := by
  unfold pieceAt at h
  split at h
  · cases h
    exact .inl rfl
  · obtain ⟨tpp,htpp,h⟩ := bind_ok.mp h
    obtain ⟨hidx,rfl⟩ := torrentPieceFind_ok.mp htpp
    split at h
    · cases h
      exact .inl rfl
    · rename_i hoff
      cases hd : networkPieceDlFind s.store (some p) idx off with
      | none =>
        simp only [hd] at h
        cases h
        exact .inl (core_killPeer s p)
      | some d =>
        simp only [hd,takeBlock] at h
        split at h
        · cases h
          exact .inl rfl
        · rename_i hlen
          obtain ⟨t,ht,h⟩ := bind_ok.mp h
          cases h
          rw [core_setPeer _ _ rfl]
          split at ht
          · cases ht
            exact .inl rfl
          · rename_i hck
            refine .inr ⟨d,t,⟨hidx,by omega,by simpa using hck,hd,by omega,?_⟩,ht,rfl⟩
            rw [List.length_drop]
            omega

theorem msgPiece_cases (h : msgPiece sha1 env s p msg = .ok s') : s'.core = s.core ∨
    ∃ d t, Accepts env s p msg d ∧
      receiveBlock sha1 env s p (msgField env msg 1) (msgField env msg 5) (msg.drop 9) = .ok t ∧
      s'.core = t.core := pieceAt_cases h

/-- What `network_peer_process_message` does, by the kind of the message. -/
inductive Handled (sha1 : Bytes → Bytes) (env : Env) (s : Session) (p : PeerId) (msg : Bytes) : UInt8 → Session → Prop
  | choke : Handled sha1 env s p msg msgChokeId (msgChoke s p)
  | unchoke : Handled sha1 env s p msg msgUnchokeId (msgUnchoke s p)
  | interested : Handled sha1 env s p msg msgInterestedId (msgInterested s p true)
  | notinterested : Handled sha1 env s p msg msgNotinterestedId (msgInterested s p false)
  | haves {s' : Session} (h : msgHave env s p msg = .ok s') : Handled sha1 env s p msg msgHaveId s'
  | bitfield {s' : Session} (h : msgBitfield env s p msg = .ok s') : Handled sha1 env s p msg msgBitfieldId s'
  | request {s' : Session} (h : msgRequest env s p msg = .ok s') : Handled sha1 env s p msg msgRequestId s'
  | piece {s' : Session} (h : msgPiece sha1 env s p msg = .ok s') : Handled sha1 env s p msg msgPieceId s'
  | cancel : Handled sha1 env s p msg msgCancelId (msgCancel env s p msg)
  | reject : Handled sha1 env s p msg msgRejectId (msgReject env s p msg)
  | havenone {s' : Session} (h : msgHaveFill env s p 0 = .ok s') : Handled sha1 env s p msg msgHavenoneId s'
  | haveall {s' : Session} (h : msgHaveFill env s p 0xFF = .ok s') : Handled sha1 env s p msg msgHaveallId s'
  | other {id : UInt8} : Handled sha1 env s p msg id s

theorem networkPeerProcessMessage_handled {id : UInt8} (h : networkPeerProcessMessage sha1 env s p id msg = .ok s') :
    Handled sha1 env s p msg id s' := by
  unfold networkPeerProcessMessage at h
  by_cases hid : id = msgChokeId
  · rw [if_pos hid] at h
    cases h
    exact hid ▸ .choke
  rw [if_neg hid] at h
  clear hid
  by_cases hid : id = msgUnchokeId
  · rw [if_pos hid] at h
    cases h
    exact hid ▸ .unchoke
  rw [if_neg hid] at h
  clear hid
  by_cases hid : id = msgInterestedId
  · rw [if_pos hid] at h
    cases h
    exact hid ▸ .interested
  rw [if_neg hid] at h
  clear hid
  by_cases hid : id = msgNotinterestedId
  · rw [if_pos hid] at h
    cases h
    exact hid ▸ .notinterested
  rw [if_neg hid] at h
  clear hid
  by_cases hid : id = msgHaveId
  · rw [if_pos hid] at h
    exact hid ▸ .haves h
  rw [if_neg hid] at h
  clear hid
  by_cases hid : id = msgBitfieldId
  · rw [if_pos hid] at h
    exact hid ▸ .bitfield h
  rw [if_neg hid] at h
  clear hid
  by_cases hid : id = msgRequestId
  · rw [if_pos hid] at h
    exact hid ▸ .request h
  rw [if_neg hid] at h
  clear hid
  by_cases hid : id = msgPieceId
  · rw [if_pos hid] at h
    exact hid ▸ .piece h
  rw [if_neg hid] at h
  clear hid
  by_cases hid : id = msgCancelId
  · rw [if_pos hid] at h
    cases h
    exact hid ▸ .cancel
  rw [if_neg hid] at h
  clear hid
  by_cases hid : id = msgRejectId
  · rw [if_pos hid] at h
    cases h
    exact hid ▸ .reject
  rw [if_neg hid] at h
  clear hid
  by_cases hid : id = msgHavenoneId
  · rw [if_pos hid] at h
    exact hid ▸ .havenone h
  rw [if_neg hid] at h
  clear hid
  by_cases hid : id = msgHaveallId
  · rw [if_pos hid] at h
    exact hid ▸ .haveall h
  rw [if_neg hid] at h
  cases h
  exact .other

/-- What a message does to the ledger: nothing, or what its kind says. -/
theorem networkPeerProcessMessage_cases {id : UInt8} (h : networkPeerProcessMessage sha1 env s p id msg = .ok s') :
    s'.core = s.core ∨
      id = msgChokeId ∧ (s.peer p).state.fast = false ∧ s'.core = (msgChoke s p).core ∨
      id = msgRejectId ∧ s'.core = (msgReject env s p msg).core ∨
      id = msgPieceId ∧ ∃ d t, Accepts env s p msg d ∧
        receiveBlock sha1 env s p (msgField env msg 1) (msgField env msg 5) (msg.drop 9) = .ok t ∧
        s'.core = t.core := by
  cases networkPeerProcessMessage_handled h with
  | choke =>
    cases hf : (s.peer p).state.fast with
    | true => exact .inl (core_msgChoke_fast hf)
    | false => exact .inr (.inl ⟨rfl,rfl,rfl⟩)
  | unchoke => exact .inl (core_setState s p _)
  | interested => exact .inl (core_setState s p _)
  | notinterested => exact .inl (core_setState s p _)
  | haves h => exact .inl (core_msgHave h)
  | bitfield h => exact .inl (core_msgBitfield h)
  | request h => exact .inl (core_msgRequest h)
  | piece h =>
    rcases msgPiece_cases h with hcore | hpiece
    · exact .inl hcore
    · exact .inr (.inr (.inr ⟨rfl,hpiece⟩))
  | cancel => exact .inl core_msgCancel
  | reject => exact .inr (.inr (.inl ⟨rfl,rfl⟩))
  | havenone h => exact .inl (core_msgHaveFill h)
  | haveall h => exact .inl (core_msgHaveFill h)
  | other => exact .inl rfl

theorem cleanup_moves {idx : ℕ} (offs : List ℕ) (c : Core) :
    Moves sha1 c { c with store := offs.foldl (cleanupTurn idx) c.store } := by
  induction offs generalizing c with
  | nil => exact .refl
  | cons off rest ih =>
    have hturn : Moves sha1 c { c with store := cleanupTurn idx c.store off } := by
      unfold cleanupTurn
      cases hf : networkPieceDlFind c.store none idx off with
      | none => exact .refl
      | some d => exact (Move.free hf).moves
    exact hturn.trans (ih _)

/-- Every message is a sequence of moves. -/
theorem networkPeerProcessMessage_moves {id : UInt8} (h : networkPeerProcessMessage sha1 env s p id msg = .ok s') :
    Moves sha1 s.core s'.core := by
  rcases networkPeerProcessMessage_cases h with hcore | ⟨-,hfast,hcore⟩ | ⟨-,hcore⟩ | ⟨-,d,t,hacc,ht,hcore⟩
  · rw [hcore]
    exact .refl
  · rw [hcore,core_msgChoke_slow hfast]
    exact Move.moves (.choke p)
  · rw [hcore]
    rcases msgReject_cases env s p msg with hc | ⟨d,hfind,-,-,hc⟩
    · rw [hc]
      exact .refl
    · rw [hc]
      exact Move.moves (.reject hfind)
  · rw [hcore]
    obtain ⟨tp₁,tp₂,hmap,hmoves,hend⟩ := receiveBlock_cases hacc.found ht
    obtain ⟨hmapped,hmi,hck⟩ := ensureMapped_mapped hmap
    have h₁ : Routines sha1 s.core { s.core with tp := tp₁ } := (ensureMapped_moves hmap).routines
    have h₂ : Moves sha1 { s.core with tp := tp₁ } _ := Move.moves (.deliver
      (show msgField env msg 1 < tp₁.numPieces by rw [Torrent.numPieces,hmi]; exact hacc.idx_lt)
      (hck.trans hacc.unverified) hmapped hacc.found hacc.length)
    have h₃ : Routines sha1 (Core.deliver { s.core with tp := tp₁ } p d (msgField env msg 1) (msgField env msg 5)
        (msg.drop 9)) _ := hmoves.routines
    have h₁₃ := h₁.moves.trans (h₂.trans h₃.moves)
    rcases hend with hend | ⟨st,-,hst,hend⟩
    · rw [hend]
      exact h₁₃
    · rw [hend]
      unfold cleanupDls at hst
      split at hst
      · cases hst
      · cases hst
        exact h₁₃.trans (cleanup_moves _ _)

end Messages

section Steps
variable {sha1 : Bytes → Bytes} {env : Env} {s s' : Session} {p : PeerId}

def afterRead (env : Env) (q : Peer) (avail : Bytes) : Peer :=
  pushRead (avail.take (armRead env q).rxpending) (armRead env q)

/-- The message that an entry of the callback completes, if it completes one. -/
def completed (env : Env) (q : Peer) (avail : Bytes) : Option Bytes :=
  let q := afterRead env q avail
  if q.rxpending = 0 ∧ q.state.handshake1 = false ∧ q.state.handshake2 = false ∧ q.state.gotlen = true then
    some q.rxmsg
  else none

theorem core_afterRead (avail : Bytes) : (s.setPeer p (afterRead env · avail)).core = s.core := by
  refine core_setPeer s p ?_
  simp only [afterRead,pushRead,armRead]
  split_ifs <;> rfl

theorem afterRead_fast (q : Peer) (avail : Bytes) : (afterRead env q avail).state.fast = q.state.fast := by
  simp only [afterRead,pushRead,armRead]
  split_ifs <;> rfl

/-- One entry of the read callback: the read, what a complete read leads to, and the label `out`. -/
theorem peerResponse_eq (avail : Bytes) : peerResponse sha1 env p s avail =
    (if 0 < (afterRead env (s.peer p) avail).rxpending then .pure (s.setPeer p (afterRead env · avail))
      else finishRead sha1 env p (s.setPeer p (afterRead env · avail))).bind (fun s => ⟨[],sendBitfield env p s⟩) := by
  have hs : (s.setPeer p (armRead env)).setPeer p (pushRead (avail.take (armRead env (s.peer p)).rxpending)) =
      s.setPeer p (afterRead env · avail) := by
    simp only [Session.setPeer,Function.update_self,Function.update_idem,afterRead]
  have hp : (peerReader sha1 env p).pending (s.setPeer p (armRead env)) = (armRead env (s.peer p)).rxpending := by
    simp [peerReader]
  simp only [peerResponse,Reader.invoke]
  rw [show (peerReader sha1 env p).arm s = s.setPeer p (armRead env) from rfl,hp,
    show (peerReader sha1 env p).push (s.setPeer p (armRead env)) _ = _ from hs]
  simp [peerReader]

def ReadsInto (env : Env) (infoHash : Bytes) (q q' : Peer) : Prop :=
  q' = q ∨ q' = finishHandshake1 q ∨ q' = finishHandshake2 infoHash q ∨ q' = finishLength env q

/-- An entry of the callback is a read that completes no message, or one that completes a message
and processes it, and then the label `out`. -/
theorem peerResponse_read {avail : Bytes} (h : (peerResponse sha1 env p s avail).result = .ok s') :
    ∃ t, sendBitfield env p t = .ok s' ∧
      (completed env (s.peer p) avail = none ∧
          (∃ q, ReadsInto env s.tp.mi.infoHash (afterRead env (s.peer p) avail) q ∧ t = s.setPeer p (fun _ => q)) ∨
        ∃ msg u, completed env (s.peer p) avail = some msg ∧ t = u.setPeer p (fun q => { q with rxmsg := [] }) ∧
          networkPeerProcessMessage sha1 env (s.setPeer p (afterRead env · avail)) p (msg.headD 0) msg = .ok u) := by
  rw [peerResponse_eq] at h
  obtain ⟨t,ht,hsend⟩ := Traced.bind_result_ok.mp h
  refine ⟨t,hsend,?_⟩
  have hset : ∀ g : Peer → Peer, (s.setPeer p (afterRead env · avail)).setPeer p g =
      s.setPeer p (fun _ => g (afterRead env (s.peer p) avail)) := by
    intro g
    rw [Session.setPeer_setPeer,Session.setPeer_const]
  split at ht
  · rename_i hpend
    cases ht
    exact .inl ⟨by simp [completed,Nat.pos_iff_ne_zero.mp hpend],_,.inl rfl,Session.setPeer_const s p _⟩
  · rename_i hpend
    have hzero : (afterRead env (s.peer p) avail).rxpending = 0 := by omega
    simp only [finishRead,Session.setPeer_self] at ht
    cases hh1 : (afterRead env (s.peer p) avail).state.handshake1 with
    | true =>
      simp only [hh1,if_true] at ht
      cases ht
      exact .inl ⟨by simp [completed,hh1],_,.inr (.inl rfl),hset _⟩
    | false =>
    cases hh2 : (afterRead env (s.peer p) avail).state.handshake2 with
    | true =>
      simp only [hh1,hh2,Bool.false_eq_true,if_false,if_true] at ht
      cases ht
      exact .inl ⟨by simp [completed,hh2],_,.inr (.inr (.inl rfl)),hset _⟩
    | false =>
    cases hgot : (afterRead env (s.peer p) avail).state.gotlen with
    | false =>
      simp only [hh1,hh2,hgot,Bool.false_eq_true,if_false,Bool.not_false,if_true] at ht
      cases ht
      exact .inl ⟨by simp [completed,hgot],_,.inr (.inr (.inr rfl)),hset _⟩
    | true =>
      simp only [hh1,hh2,hgot,Bool.false_eq_true,if_false,Bool.not_true] at ht
      obtain ⟨u,hu,rfl⟩ := map_ok.mp ht
      exact .inr ⟨_,u,by simp [completed,hzero,hh1,hh2,hgot],rfl,hu⟩

theorem ReadsInto.dlQueueLen {infoHash : Bytes} {q q' : Peer} (h : ReadsInto env infoHash q q') :
    q'.dlQueueLen = q.dlQueueLen := by
  rcases h with rfl | rfl | rfl | rfl
  · rfl
  · simp only [finishHandshake1]
    split_ifs <;> rfl
  · simp only [finishHandshake2]
    split_ifs <;> rfl
  · simp only [finishLength]
    split_ifs <;> rfl

theorem afterRead_dlQueueLen (q : Peer) (avail : Bytes) : (afterRead env q avail).dlQueueLen = q.dlQueueLen := by
  simp only [afterRead,pushRead,armRead]
  split_ifs <;> rfl

/-- An entry of the callback processes the message it completes, and otherwise leaves the
ledger as it is. -/
theorem peerResponse_cases {avail : Bytes} (h : (peerResponse sha1 env p s avail).result = .ok s') :
    completed env (s.peer p) avail = none ∧ s'.core = s.core ∨
      ∃ msg t, completed env (s.peer p) avail = some msg ∧ s'.core = t.core ∧
        networkPeerProcessMessage sha1 env (s.setPeer p (afterRead env · avail)) p (msg.headD 0) msg = .ok t := by
  obtain ⟨t,hsend,ht⟩ := peerResponse_read h
  have hcore : s'.core = t.core := core_sendBitfield hsend
  rcases ht with ⟨hnone,q,hq,rfl⟩ | ⟨msg,u,hmsg,rfl,hu⟩
  · refine .inl ⟨hnone,hcore.trans (core_setPeer s p ?_)⟩
    exact hq.dlQueueLen.trans (afterRead_dlQueueLen _ _)
  · exact .inr ⟨msg,u,hmsg,hcore.trans (core_setPeer u p rfl),hu⟩

theorem peerResponse_moves {avail : Bytes} (h : (peerResponse sha1 env p s avail).result = .ok s') :
    Moves sha1 s.core s'.core := by
  rcases peerResponse_cases h with ⟨-,hcore⟩ | ⟨msg,t,-,hcore,hmsg⟩
  · rw [hcore]
    exact .refl
  · have hmoves := networkPeerProcessMessage_moves hmsg
    rw [core_afterRead] at hmoves
    rwa [hcore]

/-- A peer added to the list starts with an empty queue. -/
theorem join_attend {q : Peer} (hq : q.dlQueueLen = 0) (n : ℕ) : Attend s.core ({ s with
    peers := s.peers ++ [s.nextPeer]
    peer := Function.update s.peer s.nextPeer q
    nextPeer := s.nextPeer + 1
    numPeers := n } : Session).core := by
  have hqueue : (fun p => (Function.update s.peer s.nextPeer q p).dlQueueLen) =
      Function.update (fun p => (s.peer p).dlQueueLen) s.nextPeer 0 := by
    funext p
    by_cases hp : p = s.nextPeer
    · simp [hp,hq]
    · simp [hp]
  have hj : Attend s.core _ := .join
  simp only [Session.core,Core.setQueue] at hj ⊢
  rwa [hqueue]

theorem networkPeerlistAddPeer_attends (s : Session) (addr : ℕ) :
    Attends s.core (networkPeerlistAddPeer s addr).core := by
  unfold networkPeerlistAddPeer
  split
  · exact .refl
  · exact (join_attend rfl _).attends

theorem connectNew_attends (s : Session) (p : PeerId) : Attends s.core (connectNew env s p).core := by
  unfold connectNew
  split
  · exact .refl
  · dsimp only
    have hcore := core_setState s p (fun b => { b with handshake1 := true })
    split
    · rw [← hcore]
      exact dropPeer_attend.attends
    · rw [core_networkPeerHandshake,core_setPeer _ _ rfl,hcore]
      exact .refl

theorem networkPeerlistUpdate_attends {addrs : List ℕ} (h : networkPeerlistUpdate env s addrs = .ok s') :
    Attends s.core s'.core := by
  have htrans : ∀ {a b c : Session}, Attends a.core b.core → Attends b.core c.core → Attends a.core c.core :=
    fun h h' => h.trans h'
  have hadd := foldl_rel (R := fun s s' : Session => Attends s.core s'.core) (fun _ => .refl) htrans addrs
    (fun s a _ => networkPeerlistAddPeer_attends s a) s
  rw [networkPeerlistUpdate_ok h]
  exact hadd.trans (foldl_rel (R := fun s s' : Session => Attends s.core s'.core) (fun _ => .refl) htrans _
    (fun s p _ => connectNew_attends s p) _)

theorem networkHandlePeerConnect_attends (s : Session) (addr : ℕ) :
    Attends s.core (networkHandlePeerConnect env s addr).core := by
  unfold networkHandlePeerConnect
  rw [core_networkPeerHandshake]
  exact (join_attend rfl _).attends

/-- An event other than input from a peer or a tick changes the peer list at most. -/
theorem step_attends {e : Event} (he : ∀ p avail, e ≠ .response p avail) (he' : e ≠ .scheduler)
    (h : step sha1 s (env,e) = .ok s') : Attends s.core s'.core := by
  cases e with
  | response p avail => exact (he p avail rfl).elim
  | error p =>
    cases h
    split
    · rw [core_killPeer]
      exact .refl
    · exact .refl
  | keepalive p =>
    cases h
    split
    · rw [networkPeerWriteKeepalive,core_networkPeerWrite]
      exact .refl
    · exact .refl
  | accept addr =>
    cases h
    exact networkHandlePeerConnect_attends s addr
  | tracker addrs =>
    simp only [step] at h
    obtain ⟨t,ht,h⟩ := bind_ok.mp h
    cases h
    cases addrs with
    | none =>
      cases ht
      exact .refl
    | some as =>
      have hupd : Attends s.core t.core := networkPeerlistUpdate_attends ht
      exact hupd
  | announceTimer =>
    simp only [step] at h
    split at h
    · cases h
      exact .refl
    · rw [core_announce h]
      exact .refl
  | scheduler => exact (he' rfl).elim

/-- Every event is a sequence of moves. -/
theorem step_moves (hs : s.core.Peered) {e : Env × Event} (h : step sha1 s e = .ok s') :
    Moves sha1 s.core s'.core := by
  obtain ⟨env,e⟩ := e
  cases e with
  | response p avail =>
    simp only [step] at h
    split at h
    · exact peerResponse_moves h
    · cases h
      exact .refl
  | scheduler => exact (scheduler_routines hs h).moves
  | _ => exact (step_attends (by simp) (by simp) h).routines.moves

/-- Every run is a sequence of moves. -/
theorem run_moves {s₀ : Session} (hs : s₀.core.Peered) {es : List (Env × Event)} (h : run sha1 s₀ es = .ok s) :
    Moves sha1 s₀.core s.core := by
  refine foldlM_rel (R := fun t t' : Session => t.core.Peered → Moves sha1 t.core t'.core) (fun _ _ => .refl) ?_ es
    (fun t t' e _ ht hp => step_moves hp ht) h hs
  intro a b c hab hbc ha
  exact (hab ha).trans (hbc (ha.moves (hab ha)))

theorem initial_peered (tp : Torrent) (maxfds : ℕ) (peerid : Bytes) (seed : Bool) (now : ℕ) :
    (Session.initial tp maxfds peerid seed now).core.Peered :=
  ⟨fun p hp => by simp [Session.core,Session.initial] at hp,List.nodup_nil⟩

theorem Boot.session_ok {b : Boot} (h : b.session sha1 = .ok s) :
    ∃ tp, b.torrent sha1 = .ok tp ∧ s = .initial tp b.maxfds b.peerid b.seed b.now := by
  unfold Boot.session Boot.start at h
  obtain ⟨tp,htp,h⟩ := bind_ok.mp h
  split at h
  · cases h
  · cases h
    exact ⟨tp,htp,rfl⟩

/-- Whatever is reachable is reachable by moves from a fresh session. -/
theorem Reachable.moves {b : Boot} (h : Reachable sha1 b s) : ∃ tp, b.torrent sha1 = .ok tp ∧
    Moves sha1 (Session.initial tp b.maxfds b.peerid b.seed b.now).core s.core := by
  obtain ⟨es,hes⟩ := h
  obtain ⟨s₀,hs₀,hes⟩ := bind_ok.mp hes
  obtain ⟨tp,htp,rfl⟩ := Boot.session_ok hs₀
  exact ⟨tp,htp,run_moves (initial_peered tp b.maxfds b.peerid b.seed b.now) hes⟩

end Steps

/-- A property of torrents that is kept by everything that can happen to one. -/
structure Steady (sha1 : Bytes → Bytes) (P : Torrent → Prop) : Prop where
  move : ∀ {tp tp' : Torrent}, P tp → TorrentMove sha1 tp tp' → P tp'
  write : ∀ {tp : Torrent} (idx off len : ℕ) (d : Bytes), P tp → P (torrentBlockWrite tp idx off len d)
  resume : ∀ {tp : Torrent} (i n : ℕ) (d : ℤ), P tp →
    P { tp.setPiece i (fun t => { t with cksumok := true }) with goodPieces := n, downloaded := d }

namespace Steady
variable {sha1 : Bytes → Bytes} {P : Torrent → Prop}

theorem moves (h : Steady sha1 P) {c c' : Core} (hmoves : Moves sha1 c c') (hc : P c.tp) : P c'.tp := by
  induction hmoves with
  | refl => exact hc
  | tail _ hmove ih =>
    cases hmove with
    | routine hr =>
      cases hr with
      | torrent hm => exact h.move ih hm
      | ask p ha =>
        rw [ha.frame.1]
        exact ih
      | attend ha =>
        rw [ha.tp]
        exact ih
    | deliver _ _ _ _ _ => exact h.write _ _ _ _ ih
    | _ => exact ih

/-- Both ways of starting keep it. -/
theorem boot (h : Steady sha1 P) {b : Boot} {tp : Torrent} (hcreate : P (torrentPiecesCreate b.pagesize b.mi b.disk))
    (hboot : b.torrent sha1 = .ok tp) : P tp := by
  unfold Boot.torrent at hboot
  cases hr : b.resume with
  | none =>
    rw [hr] at hboot
    have hall : ∀ tp', TorrentMoves sha1 (torrentPiecesCreate b.pagesize b.mi b.disk) tp' → P tp' := by
      intro tp' hmoves
      induction hmoves with
      | refl => exact hcreate
      | tail _ hmove ih => exact h.move ih hmove
    exact hall tp (startup_moves hboot)
  | some contents =>
    rw [hr] at hboot
    refine foldlM_rel (R := fun t t' : Torrent => P t → P t') (fun _ h => h) (fun hab hbc h => hbc (hab h)) _ ?_ hboot
      hcreate
    intro t t' i _ hturn ht
    unfold fastresumeTurn at hturn
    obtain ⟨tpp,-,hturn⟩ := bind_ok.mp hturn
    obtain ⟨bit,-,hturn⟩ := bind_ok.mp hturn
    cases hturn
    cases bit with
    | false => exact ht
    | true => exact h.resume i _ _ ht

theorem session (h : Steady sha1 P) {b : Boot} {s : Session} (hcreate : P (torrentPiecesCreate b.pagesize b.mi b.disk))
    (hboot : b.session sha1 = .ok s) : P s.tp := by
  obtain ⟨tp,htp,rfl⟩ := Boot.session_ok hboot
  exact h.move (h.boot hcreate htp) (.counters rfl rfl rfl)

end Steady

end Unworkable
