import Unworkable.Session.Discards
import Unworkable.Session.Fields
import Unworkable.Wire.Agreement

/-! # Who is asked in the endgame

`scheduler_endgame_algorithm` skips a peer whose bit for the piece is set, so that it asks the
peers that lack a piece and none that has it. A peer killed in the same tick has its choke bit
cleared with the rest of its state, and is asked like an unchoked one.
-/
namespace Unworkable
open Library

/-- A request for the block is on the list of the peer. -/
def DlStore.Queued (st : DlStore) (p : PeerId) (idx off : ℕ) : Prop := ∃ d ∈ st.lists p, (st.get d).key = (idx,off)

/-- The REQUEST for the block at `off` of piece `idx`. -/
def requestMessage (tp : Torrent) (idx off : ℕ) : Bytes :=
  message msgRequestId (be32 idx ++ be32 off ++ be32 (blockLen (tp.piece idx).len off))

/-- A block of an unverified piece that an unchoked peer has not been asked for. -/
structure Missing (s : Session) (p : PeerId) (i off : ℕ) : Prop where
  idx : i < s.tp.numPieces
  unverified : (s.tp.piece i).cksumok = false
  block : off ∈ blockOffs (s.tp.piece i).len
  peer : p ∈ s.peers
  unchoked : (s.peer p).state.choked = false
  unqueued : ¬ s.store.Queued p i off

/-- The peer can serve the block: it is alive and has announced the piece. -/
structure Due (s : Session) (p : PeerId) (i off : ℕ) : Prop where
  missing : Missing s p i off
  alive : (s.peer p).state.dead = false
  announced : ∃ bf, (s.peer p).bitfield = some bf ∧ bitAt bf i = true

/-- What the endgame asks for: blocks of pieces whose bit is not set. -/
structure Asked (s : Session) (p : PeerId) (i off : ℕ) : Prop where
  missing : Missing s p i off
  unannounced : ∃ bf, (s.peer p).bitfield = some bf ∧ bitAt bf i = false

/-- The requests written between `s` and `s'` are those that are due. -/
structure EndgameServes (s s' : Session) : Prop where
  sound : ∀ x ∈ s'.out.drop s.out.length, ∃ i off, Due s x.1 i off ∧ x.2 = requestMessage s.tp i off
  complete : ∀ p i off, Due s p i off → (p,requestMessage s.tp i off) ∈ s'.out.drop s.out.length

/-- `s` with requests for the blocks of `asked` written and queued. -/
structure Extended (s₀ s : Session) (asked : Set (PeerId × ℕ × ℕ)) : Prop where
  tp : s.tp = s₀.tp
  peers : s.peers = s₀.peers
  state : ∀ q, (s.peer q).state = (s₀.peer q).state
  bitfield : ∀ q, (s.peer q).bitfield = (s₀.peer q).bitfield
  wf : s.store.Wf
  queued : ∀ q j o, s.store.Queued q j o ↔ s₀.store.Queued q j o ∨ (q,j,o) ∈ asked
  out : ∃ l, s.out = s₀.out ++ l ∧ ∀ x, x ∈ l ↔ ∃ q j o, (q,j,o) ∈ asked ∧ x = (q,requestMessage s₀.tp j o)

section Loops
variable {env : Env} {s₀ s : Session} {asked : Set (PeerId × ℕ × ℕ)} {p : PeerId} {i off : ℕ}

theorem Extended.refl (hwf : s₀.store.Wf) : Extended s₀ s₀ ∅ where
  tp := rfl
  peers := rfl
  state _ := rfl
  bitfield _ := rfl
  wf := hwf
  queued := by simp
  out := ⟨[],by simp⟩

/-- Requests that are queued anyway add nothing. -/
theorem Extended.congr {asked' : Set (PeerId × ℕ × ℕ)} (h : Extended s₀ s asked) (hset : asked' = asked) :
    Extended s₀ s asked' := hset ▸ h

theorem queued_create {st : DlStore} (hwf : st.Wf) (p : PeerId) (i off len : ℕ) (q : PeerId) (j o : ℕ) :
    (networkPieceDlCreate st p i off len).1.Queued q j o ↔ st.Queued q j o ∨ (q,j,o) = (p,i,off) := by
  have hold : ∀ d ∈ st.lists q, (networkPieceDlCreate st p i off len).1.get d = st.get d := by
    intro d hd
    obtain ⟨pd,hpd,-⟩ := hwf.dl_of_mem_lists hd
    rw [DlStore.get_of_dl hpd,DlStore.get_of_dl (hwf.create_dl_old p i off len hpd)]
  have hnew : (networkPieceDlCreate st p i off len).1.get st.next = ⟨some p,i,off,len,0⟩ := by
    refine DlStore.get_of_dl ?_
    rw [DlStore.create_dl,if_pos rfl]
  unfold DlStore.Queued
  rw [DlStore.create_lists]
  by_cases hq : q = p
  · subst hq
    rw [if_pos rfl]
    constructor
    · rintro ⟨d,hd,hk⟩
      rcases List.mem_append.mp hd with hd | hd
      · exact .inl ⟨d,hd,hold d hd ▸ hk⟩
      · rw [List.mem_singleton.mp hd,hnew] at hk
        exact .inr (congrArg (Prod.mk q) hk.symm)
    · rintro (⟨d,hd,hk⟩ | heq)
      · exact ⟨d,List.mem_append_left _ hd,(hold d hd).symm ▸ hk⟩
      · refine ⟨st.next,List.mem_append_right _ (List.mem_singleton_self _),?_⟩
        rw [hnew]
        exact (Prod.mk.inj heq).2.symm
  · rw [if_neg hq]
    constructor
    · rintro ⟨d,hd,hk⟩
      exact .inl ⟨d,hd,hold d hd ▸ hk⟩
    · rintro (⟨d,hd,hk⟩ | heq)
      · exact ⟨d,hd,(hold d hd).symm ▸ hk⟩
      · exact (hq (Prod.mk.inj heq).1).elim

theorem any_queued {st : DlStore} : ((st.lists p).any (fun d => (st.get d).idx = i ∧ (st.get d).off = off)) = true ↔
    st.Queued p i off := by
  simp [DlStore.Queued,PieceDl.key]

/-- One block: it is asked for unless it is on the list. -/
theorem Extended.block (env : Env) (h : Extended s₀ s asked) (p : PeerId) (i off : ℕ) :
    Extended s₀ (endgameBlock env p i (s₀.tp.piece i).len s off)
      (asked ∪ {x | x = (p,i,off) ∧ ¬ s₀.store.Queued p i off}) := by
  unfold endgameBlock
  by_cases hq : s.store.Queued p i off
  · rw [if_pos (any_queued.mpr hq)]
    refine h.congr (Set.union_eq_self_of_subset_right ?_)
    rintro x ⟨rfl,hnew⟩
    exact ((h.queued p i off).mp hq).resolve_left hnew
  · rw [if_neg (fun hany => hq (any_queued.mp hany))]
    have hnew : ¬ s₀.store.Queued p i off := fun h₀ => hq ((h.queued p i off).mpr (.inl h₀))
    have hset : asked ∪ {x | x = (p,i,off) ∧ ¬ s₀.store.Queued p i off} = asked ∪ {(p,i,off)} := by
      ext x
      simp [hnew]
    rw [hset]
    obtain ⟨l,hl,hmem⟩ := h.out
    refine ⟨h.tp,h.peers,?_,?_,h.wf.create p i off _,?_,?_⟩
    · intro q
      rw [← h.state q]
      by_cases hqp : q = p
      · simp [hqp,networkPeerRequestBlock,networkPeerWrite]
      · simp [networkPeerRequestBlock,networkPeerWrite,Session.setPeer_ne _ _ _ hqp]
    · intro q
      rw [← h.bitfield q]
      by_cases hqp : q = p
      · simp [hqp,networkPeerRequestBlock,networkPeerWrite]
      · simp [networkPeerRequestBlock,networkPeerWrite,Session.setPeer_ne _ _ _ hqp]
    · intro q j o
      refine (queued_create h.wf p i off _ q j o).trans ?_
      rw [h.queued,Set.mem_union,Set.mem_singleton_iff,or_assoc]
    · refine ⟨l ++ [(p,requestMessage s₀.tp i off)],?_,?_⟩
      · rw [← List.append_assoc,← hl]
        rfl
      · intro x
        rw [List.mem_append,List.mem_singleton,hmem]
        constructor
        · rintro (⟨q,j,o,hin,rfl⟩ | rfl)
          · exact ⟨q,j,o,.inl hin,rfl⟩
          · exact ⟨p,i,off,.inr rfl,rfl⟩
        · rintro ⟨q,j,o,hin | hin,rfl⟩
          · exact .inl ⟨q,j,o,hin,rfl⟩
          · obtain ⟨rfl,rfl,rfl⟩ : q = p ∧ j = i ∧ o = off := by simpa using hin
            exact .inr rfl

/-- The blocks of one piece for one peer. -/
theorem Extended.peerTurn (h : Extended s₀ s asked) (hfull : FullFields s₀) (hp : p ∈ s₀.peers)
    (hi : i < s₀.tp.numPieces)
    (hck : (s₀.tp.piece i).cksumok = false) (hwraps : blockLoopWraps (s₀.tp.piece i).len = false) :
    ∃ s', endgamePeer env i (s₀.tp.piece i).len s p = .ok s' ∧
      Extended s₀ s' (asked ∪ {x | Asked s₀ x.1 x.2.1 x.2.2 ∧ x.2.1 = i ∧ x.1 = p}) := by
  have hskip : (∀ off, ¬ Asked s₀ p i off) →
      Extended s₀ s (asked ∪ {x | Asked s₀ x.1 x.2.1 x.2.2 ∧ x.2.1 = i ∧ x.1 = p}) := by
    intro hnone
    refine h.congr (Set.union_eq_self_of_subset_right ?_)
    rintro ⟨q,j,o⟩ ⟨hasked,rfl,rfl⟩
    exact (hnone o hasked).elim
  unfold endgamePeer
  rw [h.bitfield p]
  cases hbf : (s₀.peer p).bitfield with
  | none =>
    refine ⟨s,rfl,hskip ?_⟩
    rintro off ⟨-,bf,hsome,-⟩
    cases hbf.symm.trans hsome
  | some bf =>
    simp only [hfull.getbit hp hbf hi,ok_bind]
    cases hbit : bitAt bf i with
    | true =>
      refine ⟨s,rfl,hskip ?_⟩
      rintro off ⟨-,bf',hsome,hunset⟩
      cases hbf.symm.trans hsome
      cases hbit.symm.trans hunset
    | false =>
      rw [if_neg Bool.false_ne_true,h.state p]
      cases hchoked : (s₀.peer p).state.choked with
      | true =>
        refine ⟨s,rfl,hskip ?_⟩
        intro off hasked
        cases hchoked.symm.trans hasked.missing.unchoked
      | false =>
        rw [if_neg Bool.false_ne_true,hwraps,if_neg Bool.false_ne_true]
        refine ⟨_,rfl,?_⟩
        have hloop := foldl_gathers (R := Extended s₀) (fun off => {x | x = (p,i,off) ∧ ¬ s₀.store.Queued p i off})
          (blockOffs (s₀.tp.piece i).len) (fun off _ t b ht => Extended.block env ht p i off) h
        have hset : {x | ∃ off ∈ blockOffs (s₀.tp.piece i).len, x ∈ {x | x = (p,i,off) ∧ ¬ s₀.store.Queued p i off}} =
            {x | Asked s₀ x.1 x.2.1 x.2.2 ∧ x.2.1 = i ∧ x.1 = p} := by
          ext ⟨q,j,o⟩
          constructor
          · rintro ⟨off,hoff,heq,hnew⟩
            cases heq
            exact ⟨⟨⟨hi,hck,hoff,hp,hchoked,hnew⟩,bf,hbf,hbit⟩,rfl,rfl⟩
          · rintro ⟨hasked,rfl,rfl⟩
            exact ⟨o,hasked.missing.block,rfl,hasked.missing.unqueued⟩
        rwa [hset] at hloop

/-- One piece for all peers. -/
theorem Extended.pieceTurn (h : Extended s₀ s asked) (hfull : FullFields s₀) (hi : i < s₀.tp.numPieces)
    (hwraps : (s₀.tp.piece i).cksumok = false → blockLoopWraps (s₀.tp.piece i).len = false) :
    ∃ s', endgamePiece env s i = .ok s' ∧
      Extended s₀ s' (asked ∪ {x | Asked s₀ x.1 x.2.1 x.2.2 ∧ x.2.1 = i}) := by
  have hfind : torrentPieceFind s.tp i = .ok (s₀.tp.piece i) := by
    rw [h.tp]
    exact torrentPieceFind_ok.mpr ⟨hi,rfl⟩
  simp only [endgamePiece,hfind,ok_bind]
  cases hck : (s₀.tp.piece i).cksumok with
  | true =>
    refine ⟨s,rfl,h.congr (Set.union_eq_self_of_subset_right ?_)⟩
    rintro ⟨q,j,o⟩ ⟨hasked,rfl⟩
    cases hck.symm.trans hasked.missing.unverified
  | false =>
    rw [if_neg Bool.false_ne_true,h.peers]
    obtain ⟨s',hs',hext⟩ := foldlM_gathers (R := Extended s₀)
      (fun p => {x | Asked s₀ x.1 x.2.1 x.2.2 ∧ x.2.1 = i ∧ x.1 = p}) s₀.peers
      (fun p hp t b ht => ht.peerTurn hfull hp hi hck (hwraps hck)) h
    refine ⟨s',hs',hext.congr ?_⟩
    congr 1
    ext ⟨q,j,o⟩
    constructor
    · rintro ⟨hasked,rfl⟩
      exact ⟨q,hasked.missing.peer,hasked,rfl,rfl⟩
    · rintro ⟨p,-,hasked,hj,-⟩
      exact ⟨hasked,hj⟩

/-- The endgame asks for exactly the blocks of pieces that peers have not announced. -/
theorem schedulerEndgameAlgorithm_asks (env : Env) (hwf : s₀.store.Wf) (hfull : FullFields s₀)
    (hwraps : ∀ i < s₀.tp.numPieces, (s₀.tp.piece i).cksumok = false → blockLoopWraps (s₀.tp.piece i).len = false) :
    ∃ s', schedulerEndgameAlgorithm env s₀ = .ok s' ∧ Extended s₀ s' {x | Asked s₀ x.1 x.2.1 x.2.2} := by
  obtain ⟨s',hs',hext⟩ := foldlM_gathers (R := Extended s₀) (fun i => {x | Asked s₀ x.1 x.2.1 x.2.2 ∧ x.2.1 = i})
    (List.range s₀.tp.numPieces)
    (fun i hi t b ht => ht.pieceTurn hfull (List.mem_range.mp hi) (hwraps i (List.mem_range.mp hi))) (.refl hwf)
  refine ⟨s',hs',hext.congr ?_⟩
  ext ⟨q,j,o⟩
  constructor
  · intro hasked
    exact .inr ⟨j,List.mem_range.mpr hasked.missing.idx,hasked,rfl⟩
  · rintro (hin | ⟨i,-,hasked,-⟩)
    · exact hin.elim
    · exact hasked

end Loops

section Test
variable {env : Env} {s : Session}

/-- No piece that is still to be verified is so long that its block loop wraps, once the test for
the endgame has gone through it. -/
theorem endgameFrom_short {l : List ℕ} (h : endgameFrom s l = .ok true) :
    ∀ i ∈ l, (s.tp.piece i).cksumok = false → blockLoopWraps (s.tp.piece i).len = false := by
  induction l with
  | nil => nofun
  | cons j rest ih =>
    simp only [endgameFrom] at h
    obtain ⟨tpp,htpp,h⟩ := bind_ok.mp h
    obtain ⟨-,rfl⟩ := torrentPieceFind_ok.mp htpp
    intro i hi hck
    rcases List.mem_cons.mp hi with rfl | hi
    · rw [hck,if_neg Bool.false_ne_true] at h
      obtain ⟨assigned,hassigned,h⟩ := bind_ok.mp h
      cases assigned with
      | true =>
        unfold schedulerPieceAssigned at hassigned
        dsimp only at hassigned
        split_ifs at hassigned with hall hwraps
        · simpa using hwraps
        · cases hassigned
      | false => cases h
    · split at h
      · exact ih h i hi hck
      · obtain ⟨assigned,-,h⟩ := bind_ok.mp h
        cases assigned with
        | true => exact ih h i hi hck
        | false => cases h

/-- The REQUEST of one block is not that of another piece. -/
theorem requestMessage_inj {tp : Torrent} {i j off o : ℕ} (hi : i < 4294967296) (hj : j < 4294967296)
    (h : requestMessage tp i off = requestMessage tp j o) : i = j := by
  have hread : ∀ {k : ℕ}, k < 4294967296 → ∀ o, msgField (.plain 0) ((requestMessage tp k o).drop 4) 1 = k := by
    intro k hk o
    simp only [requestMessage,message,List.append_assoc]
    exact msgField_first msgRequestId _ hk
  rw [← hread hi off,h,hread hj o]

/-- The states that the scheduler tests for the endgame in: those between two events, and those in
which a tick gets to the test. -/
def EndgamePoint (sha1 : Bytes → Bytes) (b : Boot) (s : Session) : Prop := Reachable sha1 b s ∨
  ∃ env r u, Reachable sha1 b r ∧ r.peers.foldlM (schedulerPeer env) r = .ok u ∧ schedulerChokeAlgorithm env u = .ok s

theorem EndgamePoint.sound {sha1 : Bytes → Bytes} {b : Boot} (h : EndgamePoint sha1 b s) :
    s.store.Wf ∧ FullFields s := by
  rcases h with h | ⟨env,r,u,hr,hu,hs⟩
  · exact ⟨h.sound.1.wf,h.fullFields⟩
  · obtain ⟨hcensus,hconnected⟩ := hr.census
    have hmoves : Moves sha1 r.core u.core := (schedulerPeers_routines ⟨hcensus.lt,hcensus.nodup⟩ hu).moves
    have hcore : s.core = u.core := core_schedulerChokeAlgorithm hs
    have hroster : s.roster = u.roster := roster_of_chart (chart_schedulerChokeAlgorithm hs)
    have hrenewed := (attended_schedulerPeers hcensus hconnected hu).renewed
    rw [← hroster] at hrenewed
    rw [← hcore] at hmoves
    refine ⟨(hr.sound.1.moves hmoves).wf,?_⟩
    have hn : s.tp.numPieces = r.tp.numPieces := congrArg Metainfo.numPieces (Core.Sound.mi hmoves)
    intro p hp bf hbf
    rw [hn]
    rcases hrenewed.peer p hp with ⟨hp',-,hbit⟩ | ⟨-,-,hbit⟩
    · exact hr.fullFields p hp' bf (hbit.symm.trans hbf)
    · cases hbit.symm.trans hbf

/-- In every state in which the test for the endgame succeeds: the requests made are those that are
due if and only if every peer that has a bit field and does not choke us has all blocks of the
unverified pieces on its list already, dead peers apart that have announced the piece. -/
theorem endgame_serves_iff (sha1 : Bytes → Bytes) (b : Boot) (s : Session) (h : EndgamePoint sha1 b s) (env : Env)
    (hend : schedulerIsEndgame s = .ok true) :
    (∃ s', schedulerEndgameAlgorithm env s = .ok s' ∧ EndgameServes s s') ↔
      ∀ i < s.tp.numPieces, (s.tp.piece i).cksumok = false → ∀ p ∈ s.peers, (s.peer p).state.choked = false →
        ∀ bf, (s.peer p).bitfield = some bf → ((s.peer p).state.dead = true ∧ bitAt bf i = true) ∨
          ∀ off ∈ blockOffs (s.tp.piece i).len, s.store.Queued p i off := by
  obtain ⟨hwf,hfull⟩ := h.sound
  obtain ⟨s',hs',hext⟩ := schedulerEndgameAlgorithm_asks env hwf hfull
    (fun i hi => endgameFrom_short hend i (List.mem_range.mpr hi))
  obtain ⟨l,hl,hmem⟩ := hext.out
  have hdrop : s'.out.drop s.out.length = l := by rw [hl,List.drop_left]
  have hlt : ∀ {p i off}, Missing s p i off → i < 4294967296 := fun hm => hm.idx.trans s.tp.numPieces_lt
  simp only [hs',Except.ok.injEq,exists_eq_left']
  constructor
  · rintro ⟨hsound,hcomplete⟩ i hi hck p hp hchoked bf hbf
    by_contra hcond
    rw [not_or] at hcond
    obtain ⟨hlive,hall⟩ := hcond
    push Not at hall
    obtain ⟨off,hoff,hnew⟩ := hall
    have hmissing : Missing s p i off := ⟨hi,hck,hoff,hp,hchoked,hnew⟩
    -- a request that is made is not due, and one that is due is not made
    cases hbit : bitAt bf i with
    | false =>
      have hin : (p,requestMessage s.tp i off) ∈ l := (hmem _).mpr ⟨p,i,off,⟨hmissing,bf,hbf,hbit⟩,rfl⟩
      rw [hdrop] at hsound
      obtain ⟨j,o,hdue,hmsg⟩ := hsound _ hin
      obtain ⟨bf',hbf',hset⟩ := hdue.announced
      cases hbf.symm.trans hbf'
      rw [← requestMessage_inj (hlt hmissing) (hlt hdue.missing) hmsg,hbit] at hset
      cases hset
    | true =>
      have halive : (s.peer p).state.dead = false := by
        rw [Bool.eq_false_iff]
        exact fun hdead => hlive ⟨hdead,hbit⟩
      have hin := hcomplete p i off ⟨hmissing,halive,bf,hbf,hbit⟩
      rw [hdrop] at hin
      obtain ⟨q,j,o,hasked,heq⟩ := (hmem _).mp hin
      obtain ⟨rfl,hmsg⟩ := Prod.mk.inj heq
      obtain ⟨bf',hbf',hunset⟩ := hasked.unannounced
      cases hbf.symm.trans hbf'
      rw [← requestMessage_inj (hlt hmissing) (hlt hasked.missing) hmsg,hbit] at hunset
      cases hunset
  · intro hcond
    constructor
    · intro x hx
      rw [hdrop] at hx
      obtain ⟨q,j,o,⟨hm,bf,hbf,hbit⟩,-⟩ := (hmem x).mp hx
      rcases hcond j hm.idx hm.unverified q hm.peer hm.unchoked bf hbf with ⟨-,hset⟩ | hall
      · cases hset.symm.trans hbit
      · exact (hm.unqueued (hall o hm.block)).elim
    · rintro q j o ⟨hm,halive,bf,hbf,hbit⟩
      rcases hcond j hm.idx hm.unverified q hm.peer hm.unchoked bf hbf with ⟨hdead,-⟩ | hall
      · cases hdead.symm.trans halive
      · exact (hm.unqueued (hall o hm.block)).elim

/-- The only block is on request; then a second peer announces that it has nothing, and unchokes. -/
def emptyPeerRun : List (Env × Event) :=
  oneRequestRun ++ inputs 1002 1 (messagePortions [msgBitfieldId,0]) ++ inputs 1002 1 (messagePortions [msgUnchokeId])

/-- The endgame asks that peer for the block. -/
theorem endgame_asks_empty : ∃ s s', EndgamePoint sha1ZeroByte (.oneByte (List.replicate 20 0) 1) s ∧
    schedulerIsEndgame s = .ok true ∧ schedulerEndgameAlgorithm (.plain 1003) s = .ok s' ∧ ¬ EndgameServes s s' := by
  have hrun : ((Boot.oneByte (List.replicate 20 0) 1).run sha1ZeroByte emptyPeerRun).toOption.map (fun s =>
      decide ((schedulerIsEndgame s).toOption = some true ∧ (s.peer 1).bitfield = some [0]) &&
      ((schedulerEndgameAlgorithm (.plain 1003) s).toOption.map (fun s' =>
        decide ((1,requestMessage s.tp 0 0) ∈ s'.out.drop s.out.length)) == some true)) = some true := by decide +kernel
  obtain ⟨s,hs,hP⟩ := exists_reachable hrun
  obtain ⟨hstate,hasked⟩ := Bool.and_eq_true_iff.mp hP
  obtain ⟨hend,hbf⟩ := of_decide_eq_true hstate
  obtain ⟨s',hs',hin⟩ := exists_ok (eq_of_beq hasked)
  refine ⟨s,s',.inl hs,ok_of_toOption hend,hs',?_⟩
  rintro ⟨hsound,-⟩
  obtain ⟨i,off,hdue,-⟩ := hsound _ (of_decide_eq_true hin)
  obtain ⟨bf,hbf',hset⟩ := hdue.announced
  cases hbf.symm.trans hbf'
  rw [show ([0] : Bytes) = List.replicate 1 0 from rfl,bitAt_zeros] at hset
  cases hset

/-- Before that peer says anything it is not asked, and the first peer has the block on its list. -/
theorem endgame_serves_iff_silent : ∃ s s', EndgamePoint sha1ZeroByte (.oneByte (List.replicate 20 0) 1) s ∧
    (s.tp.piece 0).cksumok = false ∧ schedulerEndgameAlgorithm (.plain 1003) s = .ok s' ∧ EndgameServes s s' := by
  have hrun : ((Boot.oneByte (List.replicate 20 0) 1).run sha1ZeroByte oneRequestRun).toOption.map (fun s =>
      decide ((schedulerIsEndgame s).toOption = some true ∧ s.tp.numPieces = 1 ∧ s.peers = [0,1] ∧
        (s.tp.piece 0).cksumok = false ∧ blockOffs (s.tp.piece 0).len = [0] ∧ (s.peer 1).bitfield = none ∧
        0 ∈ s.store.lists 0 ∧ (s.store.get 0).key = (0,0))) = some true := by decide +kernel
  obtain ⟨s,hs,hP⟩ := exists_reachable hrun
  obtain ⟨hend,hn,hpeers,hck,hblocks,hsilent,hlist,hkey⟩ := of_decide_eq_true hP
  obtain ⟨s',hs',hserves⟩ :=
    (endgame_serves_iff sha1ZeroByte _ s (.inl hs) (.plain 1003) (ok_of_toOption hend)).mpr (by
      intro i hi _ p hp _ bf hbf
      rw [hn,Nat.lt_one_iff] at hi
      subst hi
      rw [hblocks]
      rw [hpeers,List.mem_pair] at hp
      rcases hp with rfl | rfl
      · refine .inr fun off hoff => ?_
        rw [List.mem_singleton.mp hoff]
        exact ⟨0,hlist,hkey⟩
      · cases hsilent.symm.trans hbf)
  exact ⟨s,s',.inl hs,hck,hs',hserves⟩

end Test

end Unworkable
