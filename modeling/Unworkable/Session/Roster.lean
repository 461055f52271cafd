import Unworkable.Session.Announced
import Unworkable.Session.Uploads

/-! # The roster

The list of peers with its count, and of each peer the parts that say who it is, how far its
connection has come, what it announced and when it was last heard of. Choking, requests,
uploads and rates come and go without touching the roster; what is left of a callback is a
short list of changes.
-/
namespace Unworkable
open Library

def Peer.mask (q : Peer) : Peer := { q with
  uls := [], lastsend := 0, connected := 0, totalrx := 0, totaltx := 0, dlQueueLen := 0
  state := { q.state with amchoking := false, aminterested := false, choked := false, interested := false } }

structure Roster where
  peers : List PeerId
  numPeers : ℕ
  nextPeer : PeerId
  maxfds : ℕ
  peer : PeerId → Peer

def Session.roster (s : Session) : Roster := ⟨s.peers,s.numPeers,s.nextPeer,s.maxfds,fun q => (s.peer q).mask⟩

/-- A peer without its chores: what is written to it, what it is asked for, and the bits of choking and interest. -/
def Peer.still (q : Peer) : Peer := { q with
  lastsend := 0, connected := 0, totaltx := 0, dlQueueLen := 0
  state := { q.state with amchoking := false, aminterested := false, choked := false, interested := false } }

def Session.chart (s : Session) : Roster := ⟨s.peers,s.numPeers,s.nextPeer,s.maxfds,fun q => (s.peer q).still⟩

theorem roster_of_chart {s s' : Session} (h : s'.chart = s.chart) : s'.roster = s.roster :=
  congrArg (fun r : Roster => { r with peer := fun q => { r.peer q with uls := [], totalrx := 0 } }) h

section Chores
variable {env : Env} {s s' t : Session} {p : PeerId}

theorem chart_setPeer (s : Session) (p : PeerId) {f : Peer → Peer} (hf : (f (s.peer p)).still = (s.peer p).still) :
    (s.setPeer p f).chart = s.chart := by
  have hpeer : (fun q => ((s.setPeer p f).peer q).still) = fun q => (s.peer q).still := by
    funext q
    by_cases h : q = p
    · rw [h,Session.setPeer_self,hf]
    · rw [Session.setPeer_ne _ _ _ h]
  simp only [Session.chart,hpeer]
  rfl

theorem chart_foldl {α : Type} {f : Session → α → Session} (hf : ∀ s a, (f s a).chart = s.chart) (l : List α)
    (s : Session) : (l.foldl f s).chart = s.chart :=
  foldl_rel (R := fun s s' : Session => s'.chart = s.chart) (fun _ => rfl) (fun h h' => h'.trans h) l
    (fun s a _ => hf s a) s

theorem chart_foldlM {α : Type} {f : Session → α → Except Halt Session} {l : List α}
    (hf : ∀ s s' a, f s a = .ok s' → s'.chart = s.chart) (h : l.foldlM f s = .ok s') : s'.chart = s.chart :=
  foldlM_rel (R := fun s s' : Session => s'.chart = s.chart) (fun _ => rfl) (fun h h' => h'.trans h) l
    (fun s s' a _ => hf s s' a) h

theorem chart_networkPeerWrite (env : Env) (s : Session) (p : PeerId) (msg : Bytes) :
    (networkPeerWrite env s p msg).chart = s.chart :=
  show (s.setPeer p (fun q => { q with lastsend := env.now })).chart = s.chart from chart_setPeer s p rfl

theorem chart_networkPeerWriteUnchoke (env : Env) (s : Session) (p : PeerId) :
    (networkPeerWriteUnchoke env s p).chart = s.chart :=
  (chart_networkPeerWrite env _ p _).trans (chart_setPeer s p rfl)

theorem chart_networkPeerWriteChoke (env : Env) (s : Session) (p : PeerId) :
    (networkPeerWriteChoke env s p).chart = s.chart :=
  (chart_networkPeerWrite env _ p _).trans (chart_setPeer s p rfl)

theorem chart_networkPeerWriteInterested (env : Env) (s : Session) (p : PeerId) :
    (networkPeerWriteInterested env s p).chart = s.chart :=
  (chart_networkPeerWrite env _ p _).trans (chart_setPeer s p rfl)

theorem chart_networkPeerHandshake (env : Env) (s : Session) (p : PeerId) :
    (networkPeerHandshake env s p).chart = s.chart :=
  (chart_networkPeerWrite env _ p _).trans (chart_setPeer s p rfl)

theorem chart_announce (h : announce env s = .ok s') : s'.chart = s.chart := by
  unfold announce at h
  cases ha : env.announce <;> simp only [ha] at h <;> cases h <;> rfl

theorem chart_writePieces (h : writePieces env p s = .ok s') : s'.chart = s.chart := by
  have hbit : ∀ t, networkPeerWriteBitfield env s p = .ok t → t.chart = s.chart := by
    intro t ht
    unfold networkPeerWriteBitfield at ht
    obtain ⟨bf,-,ht⟩ := bind_ok.mp ht
    cases ht
    exact chart_networkPeerWrite env s p _
  unfold writePieces at h
  split_ifs at h
  · cases h
    exact chart_networkPeerWrite env s p _
  · cases h
    exact chart_networkPeerWrite env s p _
  · exact hbit s' h
  · cases h
    rfl
  · exact hbit s' h

theorem chart_schedulerPieceGimme {nocreate : Bool} {x : Option DlId × Bool}
    (h : schedulerPieceGimme env s p nocreate = .ok (s',x)) : s'.chart = s.chart := by
  obtain ⟨array,last,store,rfl⟩ := schedulerPieceGimme_frame h
  rfl

theorem chart_expressInterest (h : expressInterest env s p = .ok s') : s'.chart = s.chart := by
  obtain ⟨array,last,store,rfl | rfl⟩ := expressInterest_frame h
  · rfl
  · exact chart_networkPeerWriteInterested env _ p

theorem chart_fillLoop {n : ℕ} (h : fillLoop env p n s = .ok s') : s'.chart = s.chart := by
  induction n generalizing s with
  | zero =>
    cases h
    rfl
  | succ n ih =>
    simp only [fillLoop] at h
    obtain ⟨⟨u,r,hint⟩,hu,h⟩ := bind_ok.mp h
    have hr := chart_schedulerPieceGimme hu
    cases r with
    | none => exact (ih h).trans hr
    | some d =>
      have hreq : (networkPeerRequestBlock env u p (u.store.get d).idx (u.store.get d).off (u.store.get d).len).chart =
          s.chart := (chart_networkPeerWrite env u p _).trans hr
      exact (ih h).trans ((chart_setPeer _ p rfl).trans hreq)

theorem chart_schedulerFillRequests (h : schedulerFillRequests env s p = .ok s') : s'.chart = s.chart := by
  simp only [schedulerFillRequests] at h
  split at h
  · exact chart_fillLoop h
  · cases h
    rfl

theorem chart_networkPeerWritePiece {idx off len : ℕ} (h : networkPeerWritePiece env s p idx off len = .ok s') :
    s'.chart = s.chart := by
  unfold networkPeerWritePiece at h
  obtain ⟨tpp,-,h⟩ := bind_ok.mp h
  obtain ⟨tp,-,h⟩ := bind_ok.mp h
  obtain ⟨d,-,h⟩ := bind_ok.mp h
  cases d with
  | none =>
    cases h
    rfl
  | some d =>
    dsimp only at h
    split at h
    · cases h
    · cases h
      exact (chart_setPeer _ p rfl).trans ((chart_networkPeerWrite env _ p _).trans rfl)

theorem chart_schedulerChokeAlgorithm (h : schedulerChokeAlgorithm env s = .ok s') : s'.chart = s.chart := by
  unfold schedulerChokeAlgorithm at h
  split at h
  · cases h
    rfl
  · obtain ⟨pc,-,h⟩ := bind_ok.mp h
    obtain ⟨p2,-,h⟩ := bind_ok.mp h
    cases h
    rw [chart_foldl]
    · have hfirst : ∀ (l : List PeerId) (u : Session), (l.foldl (fun s p =>
          if !(s.peer p).state.amchoking then s
          else if !(s.peer p).state.interested then s
          else networkPeerWriteUnchoke env s p) u).chart = u.chart := by
        intro l u
        refine chart_foldl ?_ l u
        intro u q
        split_ifs
        · rfl
        · rfl
        · exact chart_networkPeerWriteUnchoke env u q
      cases p2 with
      | none => exact hfirst _ s
      | some q => exact (chart_networkPeerWriteUnchoke env _ q).trans (hfirst _ s)
    · intro u q
      split_ifs
      · rfl
      · exact chart_networkPeerWriteChoke env u q
      · rfl

theorem chart_endgameBlock (env : Env) (s : Session) (p : PeerId) (i plen off : ℕ) :
    (endgameBlock env p i plen s off).chart = s.chart := by
  unfold endgameBlock
  split
  · rfl
  · refine (chart_setPeer _ p rfl).trans ((chart_networkPeerWrite env _ p _).trans rfl)

theorem chart_endgamePiece {i : ℕ} (h : endgamePiece env s i = .ok s') : s'.chart = s.chart := by
  unfold endgamePiece at h
  obtain ⟨tpp,-,h⟩ := bind_ok.mp h
  split at h
  · cases h
    rfl
  · refine chart_foldlM ?_ h
    intro u u' q hu
    unfold endgamePeer at hu
    split at hu
    · cases hu
      rfl
    · obtain ⟨has,-,hu⟩ := bind_ok.mp hu
      split_ifs at hu
      · cases hu
        rfl
      · cases hu
        rfl
      · cases hu
        exact chart_foldl (fun v off => chart_endgameBlock env v q i _ off) _ u

theorem chart_schedulerEndgameAlgorithm (h : schedulerEndgameAlgorithm env s = .ok s') : s'.chart = s.chart :=
  chart_foldlM (fun _ _ _ hu => chart_endgamePiece hu) h

theorem chart_pieceVerified {idx : ℕ} (h : pieceVerified env s idx = .ok s') : s'.chart = s.chart := by
  unfold pieceVerified at h
  obtain ⟨tp,-,h⟩ := bind_ok.mp h
  obtain ⟨u,hu,h⟩ := bind_ok.mp h
  cases h
  refine (chart_foldl (fun u q => chart_networkPeerWrite env u q _) _ u).trans ?_
  unfold announceCompleted at hu
  split_ifs at hu
  · exact (chart_announce hu).trans rfl
  · cases hu
    rfl
  · cases hu
    rfl

theorem chart_store (s : Session) (st : DlStore) : ({ s with store := st } : Session).chart = s.chart := rfl

theorem chart_tp (s : Session) (tp : Torrent) : ({ s with tp := tp } : Session).chart = s.chart := rfl

theorem chart_dequeue (s : Session) (p : PeerId) :
    (s.setPeer p (fun q => { q with dlQueueLen := sub32 q.dlQueueLen 1 })).chart = s.chart :=
  chart_setPeer s p (by simp only [Peer.still])

theorem chart_chokeTurn (s : Session) (p : PeerId) (d : DlId) : (chokeTurn p s d).chart = s.chart :=
  (chart_store _ _).trans (chart_dequeue s p)

/-- The same change of a peer, made to two sessions with the same chart. -/
theorem chart_setPeer_congr (h : t.chart = s.chart) (p : PeerId) {f : Peer → Peer}
    (hf : ∀ q q', q.still = q'.still → (f q).still = (f q').still) : (t.setPeer p f).chart = (s.setPeer p f).chart := by
  have hstill : ∀ q, (t.peer q).still = (s.peer q).still := fun q => congrFun (congrArg Roster.peer h) q
  have hpeer : (fun q => ((t.setPeer p f).peer q).still) = fun q => ((s.setPeer p f).peer q).still := by
    funext q
    by_cases hq : q = p
    · rw [hq,Session.setPeer_self,Session.setPeer_self,hf _ _ (hstill p)]
    · rw [Session.setPeer_ne _ _ _ hq,Session.setPeer_ne _ _ _ hq,hstill]
  simp only [Session.chart,hpeer,Roster.mk.injEq,and_true]
  exact ⟨congrArg Roster.peers h,congrArg Roster.numPeers h,congrArg Roster.nextPeer h,congrArg Roster.maxfds h⟩

/-- The payload of a block on request is charged to its sender a second time. -/
theorem chart_networkPeerReadPiece {idx off : ℕ} {data : Bytes} {d : DlId}
    (hd : networkPieceDlFind s.store (some p) idx off = some d) (h : networkPeerReadPiece s p idx off data = .ok s') :
    s'.chart = (s.setPeer p (fun q => { q with totalrx := q.totalrx + data.length })).chart := by
  unfold networkPeerReadPiece at h
  obtain ⟨tpp,-,h⟩ := bind_ok.mp h
  simp only [hd] at h
  cases h
  rfl

theorem chart_receiveBlock {sha1 : Bytes → Bytes} {idx off : ℕ} {data : Bytes} {d : DlId}
    (hd : networkPieceDlFind s.store (some p) idx off = some d) (h : receiveBlock sha1 env s p idx off data = .ok s') :
    s'.chart = (s.setPeer p (fun q => { q with totalrx := q.totalrx + data.length })).chart := by
  unfold receiveBlock at h
  obtain ⟨tp,-,h⟩ := bind_ok.mp h
  obtain ⟨u,hu,h⟩ := bind_ok.mp h
  obtain ⟨found,-,h⟩ := bind_ok.mp h
  have hread : u.chart = (s.setPeer p (fun q => { q with totalrx := q.totalrx + data.length })).chart := by
    generalize hready : ({ s.setPeer p (fun q => { q with dlQueueLen := sub32 q.dlQueueLen 1 }) with tp :=
      tp } : Session) =
      ready at hu
    have hstore : ready.store = s.store := by rw [← hready]; rfl
    have hchart : ready.chart = s.chart := by
      rw [← hready]
      exact chart_dequeue s p
    rw [← hstore] at hd
    refine (chart_networkPeerReadPiece hd hu).trans (chart_setPeer_congr hchart p ?_)
    intro q q' hq
    simp only [Peer.still,Peer.mk.injEq] at hq ⊢
    simp [hq]
  split at h
  · unfold checkPiece at h
    obtain ⟨⟨tp',good⟩,-,h⟩ := bind_ok.mp h
    obtain ⟨v,hv,h⟩ := bind_ok.mp h
    obtain ⟨st,-,h⟩ := bind_ok.mp h
    cases h
    refine Eq.trans ?_ hread
    split at hv
    · exact (chart_pieceVerified hv).trans (chart_tp u _)
    · cases hv
      exact chart_tp u (torrentPieceUnmap tp' idx)
  · cases h
    exact hread

end Chores

section Frames
variable {sha1 : Bytes → Bytes} {env : Env} {s s' t t' : Session} {p : PeerId}

theorem roster_setPeer (s : Session) (p : PeerId) {f : Peer → Peer} (hf : (f (s.peer p)).mask = (s.peer p).mask) :
    (s.setPeer p f).roster = s.roster := by
  have hpeer : (fun q => ((s.setPeer p f).peer q).mask) = fun q => (s.peer q).mask := by
    funext q
    by_cases h : q = p
    · rw [h,Session.setPeer_self,hf]
    · rw [Session.setPeer_ne _ _ _ h]
  simp only [Session.roster,hpeer]
  rfl

/-- The same change of a peer, made to two sessions with the same roster. -/
theorem roster_setPeer_congr (h : t.roster = s.roster) (p : PeerId) {f : Peer → Peer}
    (hf : ∀ q q', q.mask = q'.mask → (f q).mask = (f q').mask) : (t.setPeer p f).roster = (s.setPeer p f).roster := by
  have hmask : ∀ q, (t.peer q).mask = (s.peer q).mask := fun q => congrFun (congrArg Roster.peer h) q
  have hpeer : (fun q => ((t.setPeer p f).peer q).mask) = fun q => ((s.setPeer p f).peer q).mask := by
    funext q
    by_cases hq : q = p
    · rw [hq,Session.setPeer_self,Session.setPeer_self,hf _ _ (hmask p)]
    · rw [Session.setPeer_ne _ _ _ hq,Session.setPeer_ne _ _ _ hq,hmask]
  simp only [Session.roster,hpeer,Roster.mk.injEq,and_true]
  exact ⟨congrArg Roster.peers h,congrArg Roster.numPeers h,congrArg Roster.nextPeer h,congrArg Roster.maxfds h⟩

theorem roster_networkPeerWrite (env : Env) (s : Session) (p : PeerId) (msg : Bytes) :
    (networkPeerWrite env s p msg).roster = s.roster := roster_of_chart (chart_networkPeerWrite env s p msg)

theorem roster_schedulerDequeueUploads (h : schedulerDequeueUploads env s p = .ok s') : s'.roster = s.roster := by
  simp only [schedulerDequeueUploads,networkPieceUlDequeue] at h
  cases hu : (s.peer p).uls.head? with
  | none =>
    simp only [hu] at h
    cases h
    rfl
  | some pu =>
    simp only [hu] at h
    exact (roster_of_chart (chart_networkPeerWritePiece h)).trans (roster_setPeer s p rfl)

end Frames

section Messages
variable {sha1 : Bytes → Bytes} {env : Env} {s s' : Session} {p : PeerId} {msg : Bytes}

/-- The block of a PIECE message is on request in the length it has, verified already or not. -/
def timelyAt (s : Session) (p : PeerId) (idx off : ℕ) (msg : Bytes) : Bool :=
  match networkPieceDlFind s.store (some p) idx off with
  | none => false
  | some d => !indexRefused s idx && decide (off ≤ (s.tp.piece idx).len ∧ 9 ≤ msg.length ∧
      msg.length - 9 = (s.store.get d).len)

def timely (env : Env) (s : Session) (p : PeerId) (msg : Bytes) : Bool :=
  timelyAt s p (msgField env msg 1) (msgField env msg 5) msg

/-- What a callback may do to the masked part of a peer: the connection stays, a new bit field
has the size for the torrent, and `renew` says that the peer was heard of. -/
structure Touched (env : Env) (n : ℕ) (renew : Bool) (q q' : Peer) : Prop where
  addr : q'.addr = q.addr
  connfd : q'.connfd = q.connfd
  bitfield : ∀ bf', q'.bitfield = some bf' →
    bf'.length = bitfieldLen n ∨ ∃ bf, q.bitfield = some bf ∧ bf'.length = bf.length
  lastrecv : q'.lastrecv = if renew then env.now else q.lastrecv

theorem mask_eq {q q' : Peer} (h : q'.mask = q.mask) :
    q'.addr = q.addr ∧ q'.connfd = q.connfd ∧ q'.bitfield = q.bitfield ∧ q'.lastrecv = q.lastrecv := by
  simp only [Peer.mask,Peer.mk.injEq] at h
  exact ⟨h.1,h.2.1,h.2.2.2.2.2.2.1,h.2.2.2.2.2.2.2.2.2.2.2.1⟩

theorem Touched.of_mask {n : ℕ} {q q' : Peer} (h : q'.mask = q.mask) : Touched env n false q q' := by
  obtain ⟨haddr,hfd,hbit,hlast⟩ := mask_eq h
  exact ⟨haddr,hfd,fun bf' hbf => .inr ⟨bf',hbit.symm.trans hbf,rfl⟩,hlast⟩

theorem Touched.mask {n : ℕ} {renew : Bool} {q q₁ q' : Peer} (h : Touched env n renew q q')
    (hq : q₁.mask = q'.mask) : Touched env n renew q q₁ := by
  obtain ⟨haddr,hfd,hbit,hlast⟩ := mask_eq hq
  exact ⟨haddr.trans h.addr,hfd.trans h.connfd,fun bf' hbf => h.bitfield bf' (hbit.symm.trans hbf),
    hlast.trans h.lastrecv⟩

/-- The roster of a session in which a callback touched one peer. -/
structure Touches (env : Env) (n : ℕ) (renew : Bool) (s : Session) (p : PeerId) (s' : Session) : Prop where
  rest : ∃ q, s'.roster = (s.setPeer p (fun _ => q)).roster
  peer : Touched env n renew (s.peer p) (s'.peer p)

theorem Touches.of_roster {n : ℕ} (h : s'.roster = s.roster) : Touches env n false s p s' where
  rest := ⟨s.peer p,by rw [h,s.setPeer_eq_self p _ rfl]⟩
  peer := .of_mask (congrFun (congrArg Roster.peer h) p)

theorem Touches.of_setPeer {n : ℕ} {renew : Bool} (f : Peer → Peer) (h : s'.roster = (s.setPeer p f).roster)
    (hf : Touched env n renew (s.peer p) (f (s.peer p))) : Touches env n renew s p s' where
  rest := ⟨f (s.peer p),h⟩
  peer := by
    have hmask := congrFun (congrArg Roster.peer h) p
    simp only [Session.roster,Session.setPeer_self] at hmask
    exact hf.mask hmask

theorem touches_killPeer (env : Env) (n : ℕ) (s : Session) (p : PeerId) : Touches env n false s p (killPeer s p) :=
  .of_setPeer _ rfl ⟨rfl,rfl,fun bf h => .inr ⟨bf,h,rfl⟩,rfl⟩

theorem touches_install {bf : Bytes} (hlen : bf.length = bitfieldLen s.tp.numPieces)
    (h : expressInterest env (installBitfield s p bf) p = .ok s') : Touches env s.tp.numPieces false s p s' := by
  refine .of_setPeer _ (roster_of_chart (chart_expressInterest h)) ⟨rfl,rfl,?_,rfl⟩
  rintro bf' ⟨⟩
  exact .inl hlen

theorem touches_msgHave (h : msgHave env s p msg = .ok s') : Touches env s.tp.numPieces false s p s' := by
  unfold msgHave at h
  dsimp only at h
  by_cases hidx : indexRefused s (msgField env msg 1) = true
  · rw [if_pos hidx] at h
    cases h
    exact .of_roster rfl
  rw [if_neg hidx] at h
  obtain ⟨bf,hbf,h⟩ := bind_ok.mp h
  obtain ⟨-,rfl⟩ := utilSetbit_ok.mp hbf
  have hr := roster_of_chart (chart_expressInterest h)
  cases hbit : (s.peer p).bitfield with
  | some bf₀ =>
    rw [hbit] at hr
    simp only [hbit,Option.getD_some] at hr
    refine .of_setPeer _ hr ⟨rfl,rfl,?_,rfl⟩
    rintro bf' ⟨⟩
    exact .inr ⟨bf₀,hbit,length_setBitAt _ _⟩
  | none =>
    rw [hbit] at hr
    simp only [installBitfield,Session.setPeer_self,Option.getD_some,Session.setPeer_setPeer] at hr
    refine .of_setPeer _ hr ⟨rfl,rfl,?_,rfl⟩
    rintro bf' ⟨⟩
    exact .inl (by rw [length_setBitAt,List.length_replicate])

/-- A block that is not on request in the right length changes nothing, or kills its sender if it is
not on request at all. A timely one renews its sender, and is received if its piece is not verified yet. -/
theorem pieceAt_result {idx off : ℕ} (h : pieceAt sha1 env s p idx off msg = .ok s') :
    timelyAt s p idx off msg = false ∧ (s' = s ∨ s' = killPeer s p) ∨
      timelyAt s p idx off msg = true ∧ (s.tp.piece idx).cksumok = true ∧
        s' = s.setPeer p (fun q => { q with lastrecv := env.now }) ∨
      ∃ d t, timelyAt s p idx off msg = true ∧ (s.tp.piece idx).cksumok = false ∧
        networkPieceDlFind s.store (some p) idx off = some d ∧
        receiveBlock sha1 env s p idx off (msg.drop 9) = .ok t ∧
        s' = t.setPeer p (fun q => { q with lastrecv := env.now }) := by
  unfold pieceAt at h
  unfold timelyAt
  by_cases hidx : indexRefused s idx = true
  · rw [if_pos hidx] at h
    cases h
    refine .inl ⟨?_,.inl rfl⟩
    cases networkPieceDlFind s.store (some p) idx off with
    | none => rfl
    | some d => simp [hidx]
  rw [if_neg hidx] at h
  obtain ⟨tpp,htpp,h⟩ := bind_ok.mp h
  obtain ⟨-,rfl⟩ := torrentPieceFind_ok.mp htpp
  by_cases hoff : off > (s.tp.piece idx).len
  · rw [if_pos hoff] at h
    cases h
    refine .inl ⟨?_,.inl rfl⟩
    cases networkPieceDlFind s.store (some p) idx off with
    | none => rfl
    | some d => simp [Nat.not_le.mpr hoff]
  rw [if_neg hoff] at h
  cases hd : networkPieceDlFind s.store (some p) idx off with
  | none =>
    simp only [hd] at h
    cases h
    exact .inl ⟨rfl,.inr rfl⟩
  | some d =>
    simp only [hd,takeBlock] at h
    by_cases hlen : msg.length < 9 ∨ msg.length - 9 ≠ (s.store.get d).len
    · rw [if_pos hlen] at h
      cases h
      refine .inl ⟨?_,.inl rfl⟩
      simp only [Bool.and_eq_false_iff,decide_eq_false_iff_not]
      right
      omega
    · rw [if_neg hlen] at h
      obtain ⟨t,ht,h⟩ := bind_ok.mp h
      cases h
      have htimely : (!indexRefused s idx && decide (off ≤ (s.tp.piece idx).len ∧ 9 ≤ msg.length ∧
          msg.length - 9 = (s.store.get d).len)) = true := by
        simp only [Bool.and_eq_true,Bool.not_eq_true',decide_eq_true_eq]
        exact ⟨Bool.eq_false_iff.mpr hidx,by omega⟩
      split at ht
      · rename_i hck
        cases ht
        exact .inr (.inl ⟨htimely,hck,rfl⟩)
      · rename_i hck
        exact .inr (.inr ⟨d,t,htimely,Bool.eq_false_iff.mpr hck,rfl,ht,rfl⟩)

theorem touches_pieceAt {n idx off : ℕ} (h : pieceAt sha1 env s p idx off msg = .ok s') :
    Touches env n (timelyAt s p idx off msg) s p s' := by
  have hrenew : ∀ {t : Session}, t.roster = s.roster →
      Touches env n true s p (t.setPeer p (fun q => { q with lastrecv := env.now })) := by
    intro t ht
    refine .of_setPeer (fun q => { q with lastrecv := env.now }) (roster_setPeer_congr ht p ?_)
      ⟨rfl,rfl,fun bf hbf => .inr ⟨bf,hbf,rfl⟩,rfl⟩
    intro q q' hq
    simp only [Peer.mask,Peer.mk.injEq] at hq ⊢
    simp [hq]
  rcases pieceAt_result h with ⟨huntimely,rfl | rfl⟩ | ⟨htimely,-,rfl⟩ | ⟨d,t,htimely,-,hd,ht,rfl⟩
  · rw [huntimely]
    exact .of_roster rfl
  · rw [huntimely]
    exact touches_killPeer env _ s p
  · rw [htimely]
    exact hrenew rfl
  · rw [htimely]
    exact hrenew ((roster_of_chart (chart_receiveBlock hd ht)).trans (roster_setPeer s p rfl))

theorem roster_msgReject (env : Env) (s : Session) (p : PeerId) (msg : Bytes) :
    msgReject env s p msg = killPeer s p ∨ (msgReject env s p msg).roster = s.roster := by
  unfold msgReject
  cases hfast : (s.peer p).state.fast with
  | false => exact .inl rfl
  | true =>
    right
    rw [Bool.not_true,if_neg Bool.false_ne_true]
    dsimp only
    by_cases hidx : indexRefused s (msgField env msg 1) = true
    · rw [if_pos hidx]
    rw [if_neg hidx]
    cases networkPieceDlFind s.store (some p) (msgField env msg 1) (msgField env msg 5) with
    | none => rfl
    | some d => exact roster_of_chart ((chart_store _ _).trans (chart_dequeue s p))

theorem roster_msgCancel (env : Env) (s : Session) (p : PeerId) (msg : Bytes) :
    (msgCancel env s p msg).roster = s.roster := by
  unfold msgCancel
  dsimp only
  by_cases hidx : indexRefused s (msgField env msg 1) = true
  · rw [if_pos hidx]
  · rw [if_neg hidx]
    exact roster_setPeer s p rfl

theorem roster_msgRequest (h : msgRequest env s p msg = .ok s') : s'.roster = s.roster := by
  unfold msgRequest at h
  dsimp only at h
  by_cases hidx : indexRefused s (msgField env msg 1) = true
  · rw [if_pos hidx] at h
    cases h
    rfl
  rw [if_neg hidx] at h
  obtain ⟨tpp,-,h⟩ := bind_ok.mp h
  split at h
  · cases h
    rfl
  · split at h
    · split at h
      · cases h
        exact roster_networkPeerWrite env s p _
      · cases h
        rfl
    · cases h
      exact roster_setPeer s p rfl

theorem roster_msgChoke (s : Session) (p : PeerId) : (msgChoke s p).roster = s.roster := by
  have hset : (s.setState p (fun b => { b with choked := true })).roster = s.roster := roster_setPeer s p rfl
  unfold msgChoke
  dsimp only
  split
  · exact hset
  · exact (roster_of_chart (chart_foldl (fun u d => chart_chokeTurn u p d) _ _)).trans hset

/-- One message touches its sender only, and renews it exactly when it brings a block on request. -/
theorem touches_message {id : UInt8} (h : networkPeerProcessMessage sha1 env s p id msg = .ok s') :
    Touches env s.tp.numPieces (decide (id = msgPieceId) && timely env s p msg) s p s' := by
  by_cases hid : id = msgPieceId
  · subst hid
    rw [networkPeerProcessMessage_piece] at h
    exact touches_pieceAt h
  rw [decide_eq_false hid,Bool.false_and]
  have hfill : ∀ fill, msgHaveFill env s p fill = .ok s' → Touches env s.tp.numPieces false s p s' := by
    intro fill h
    unfold msgHaveFill at h
    split at h
    · cases h
      exact .of_roster rfl
    · exact touches_install List.length_replicate h
  cases networkPeerProcessMessage_handled h with
  | choke => exact .of_roster (roster_msgChoke s p)
  | unchoke => exact .of_roster (roster_setPeer s p rfl)
  | interested => exact .of_roster (roster_setPeer s p rfl)
  | notinterested => exact .of_roster (roster_setPeer s p rfl)
  | haves h => exact touches_msgHave h
  | bitfield h =>
    unfold msgBitfield at h
    split at h
    · cases h
      exact .of_roster rfl
    · split at h
      · cases h
        exact touches_killPeer env _ s p
      · rename_i hlen
        refine touches_install ?_ h
        rw [List.length_drop]
        omega
  | request h => exact .of_roster (roster_msgRequest h)
  | piece h => exact (hid rfl).elim
  | cancel => exact .of_roster (roster_msgCancel env s p msg)
  | reject =>
    rcases roster_msgReject env s p msg with hkill | hsame
    · rw [hkill]
      exact touches_killPeer env _ s p
    · exact .of_roster hsame
  | havenone h => exact hfill _ h
  | haveall h => exact hfill _ h
  | other => exact .of_roster rfl

end Messages

section Reads
variable {sha1 : Bytes → Bytes} {env : Env} {s s' t u : Session} {p : PeerId} {n : ℕ}

theorem Touched.trans {r r' : Bool} {q q' q'' : Peer} (h : Touched env n r q q') (h' : Touched env n r' q' q'') :
    Touched env n (r || r') q q'' where
  addr := h'.addr.trans h.addr
  connfd := h'.connfd.trans h.connfd
  bitfield bf hbf := by
    rcases h'.bitfield bf hbf with hlen | ⟨bf',hbf',hlen⟩
    · exact .inl hlen
    · rcases h.bitfield bf' hbf' with hlen' | ⟨bf'',hbf'',hlen'⟩
      · exact .inl (hlen.trans hlen')
      · exact .inr ⟨bf'',hbf'',hlen.trans hlen'⟩
  lastrecv := by
    rw [h'.lastrecv,h.lastrecv]
    cases r <;> cases r' <;> rfl

theorem Touches.trans {r r' : Bool} (h : Touches env n r s p t) (h' : Touches env n r' t p u) :
    Touches env n (r || r') s p u where
  rest := by
    obtain ⟨q,hq⟩ := h.rest
    obtain ⟨q',hq'⟩ := h'.rest
    refine ⟨q',hq'.trans ?_⟩
    rw [roster_setPeer_congr hq p (fun _ _ _ => rfl),Session.setPeer_setPeer]
  peer := h.peer.trans h'.peer

/-- The read renews a peer when it starts a handshake. -/
theorem touched_afterRead (env : Env) (n : ℕ) (q : Peer) (avail : Bytes) :
    Touched env n (q.state.handshake1 && decide (q.rxpending = 0)) q (afterRead env q avail) := by
  have hlast : (armRead env q).lastrecv =
      if (q.state.handshake1 && decide (q.rxpending = 0)) = true then env.now else q.lastrecv := by
    unfold armRead
    by_cases hz : q.rxpending = 0
    · cases hh : q.state.handshake1 <;> simp [hz]
    · simp [hz]
  refine ⟨?_,?_,fun bf hbf => .inr ⟨bf,?_,rfl⟩,hlast⟩
  · simp only [afterRead,pushRead,armRead]
    split_ifs <;> rfl
  · simp only [afterRead,pushRead,armRead]
    split_ifs <;> rfl
  · simp only [afterRead,pushRead,armRead] at hbf
    split_ifs at hbf <;> exact hbf

theorem ReadsInto.touched {infoHash : Bytes} {q q' : Peer} (h : ReadsInto env infoHash q q') :
    Touched env n false q q' := by
  have hsame : ∀ {x : Peer}, x.addr = q.addr → x.connfd = q.connfd → x.bitfield = q.bitfield →
      x.lastrecv = q.lastrecv → Touched env n false q x :=
    fun haddr hfd hbit hlast => ⟨haddr,hfd,fun bf hbf => .inr ⟨bf,hbit.symm.trans hbf,rfl⟩,hlast⟩
  rcases h with rfl | rfl | rfl | rfl
  · exact hsame rfl rfl rfl rfl
  · simp only [finishHandshake1]
    split_ifs
    · exact hsame rfl rfl rfl rfl
    · exact hsame rfl rfl rfl rfl
  · simp only [finishHandshake2]
    split_ifs
    · exact hsame rfl rfl rfl rfl
    · exact hsame rfl rfl rfl rfl
  · simp only [finishLength]
    split_ifs
    · exact hsame rfl rfl rfl rfl
    · exact hsame rfl rfl rfl rfl

theorem touches_setState (f : PeerState → PeerState) : Touches env n false s p (s.setState p f) :=
  .of_setPeer _ rfl ⟨rfl,rfl,fun bf h => .inr ⟨bf,h,rfl⟩,rfl⟩

theorem touches_sendBitfield (h : sendBitfield env p s = .ok s') : Touches env n false s p s' := by
  unfold sendBitfield at h
  split at h
  · obtain ⟨t,ht,h⟩ := bind_ok.mp h
    cases h
    exact (Touches.of_roster (n := n) (roster_of_chart (chart_writePieces ht))).trans (touches_setState _)
  · cases h
    exact .of_roster rfl

/-- What one entry of the read callback hears from its peer: the start of a handshake or a
block on request. -/
def renews (env : Env) (s : Session) (p : PeerId) (avail : Bytes) : Bool :=
  ((s.peer p).state.handshake1 && decide ((s.peer p).rxpending = 0)) ||
    match completed env (s.peer p) avail with
    | none => false
    | some msg => decide (msg.headD 0 = msgPieceId) && timely env s p msg

theorem touches_peerResponse {avail : Bytes} (h : (peerResponse sha1 env p s avail).result = .ok s') :
    Touches env s.tp.numPieces (renews env s p avail) s p s' := by
  obtain ⟨t,hsend,ht⟩ := peerResponse_read h
  have hlast := touches_sendBitfield (n := s.tp.numPieces) hsend
  have hread := touched_afterRead env s.tp.numPieces (s.peer p) avail
  unfold renews
  rcases ht with ⟨hnone,q,hq,rfl⟩ | ⟨msg,v,hmsg,rfl,hv⟩
  · rw [hnone]
    have hfirst := hread.trans hq.touched
    have hall := (Touches.of_setPeer (fun _ => q) rfl hfirst).trans hlast
    simpa only [Bool.or_false] using hall
  · rw [hmsg]
    have hfirst : Touches env s.tp.numPieces _ s p (s.setPeer p (afterRead env · avail)) := .of_setPeer _ rfl hread
    have hclear : Touches env s.tp.numPieces false v p (v.setPeer p (fun q => { q with rxmsg := [] })) :=
      .of_setPeer _ rfl ⟨rfl,rfl,fun bf hbf => .inr ⟨bf,hbf,rfl⟩,rfl⟩
    have hall := ((hfirst.trans (touches_message hv)).trans hclear).trans hlast
    rwa [Bool.or_false,Bool.or_false] at hall

end Reads

end Unworkable
