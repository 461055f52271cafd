import Unworkable.Session.Census
import Unworkable.Session.Unrequested
import Unworkable.Library.CancelQueue

/-! # Accounts of the peers

The blocks a peer waits for and the bytes counted from it. Of all callbacks only its own input and the
tick change the account of a peer: input adds to the count and queues or cancels a block, and the turn
of the peer in a tick takes the head of its queue.
-/
namespace Unworkable
open Library

structure Account where
  uls : List PieceUl
  totalrx : ℕ
  deriving DecidableEq

def Peer.account (q : Peer) : Account := ⟨q.uls,q.totalrx⟩

def Session.accounts (s : Session) (p : PeerId) : Account := (s.peer p).account

/-- The account after some events at the queue and `n` more bytes. -/
def Account.after (a : Account) (es : List (QueueEvent PieceUl)) (n : ℕ) : Account :=
  ⟨es.foldl QueueEvent.after a.uls,a.totalrx + n⟩

theorem Account.after_nil (a : Account) : a.after [] 0 = a := rfl

theorem Account.after_after (a : Account) (es es' : List (QueueEvent PieceUl)) (n n' : ℕ) :
    (a.after es n).after es' n' = a.after (es ++ es') (n + n') := by
  simp [Account.after,List.foldl_append,Nat.add_assoc]

instance (env : Env) (s : Session) (msg : Bytes) : Decidable (Queued env s msg) :=
  decidable_of_iff (msgField env msg 1 < s.tp.numPieces ∧ msgField env msg 5 ≤ (s.tp.piece (msgField env msg 1)).len ∧
    (s.tp.piece (msgField env msg 1)).cksumok = true)
    ⟨fun h => ⟨h.1,h.2.1,h.2.2⟩,fun h => ⟨h.idx_lt,h.off_le,h.verified⟩⟩

def messageEvents (env : Env) (s : Session) (id : UInt8) (msg : Bytes) : List (QueueEvent PieceUl) :=
  if id = msgRequestId then if Queued env s msg then [.arrive (requestedUl env msg)] else []
  else if id = msgCancelId then if indexRefused s (msgField env msg 1) then [] else [.cancel (requestedUl env msg)]
  else []

/-- The bytes of a message that are counted when it is processed: the payload of a block on request that
is not verified. -/
def payload (env : Env) (s : Session) (p : PeerId) (id : UInt8) (msg : Bytes) : ℕ :=
  if id = msgPieceId ∧ timely env s p msg = true ∧ (s.tp.piece (msgField env msg 1)).cksumok = false then
    msg.length - 9
  else 0

section Messages
variable {sha1 : Bytes → Bytes} {env : Env} {s s' : Session} {p : PeerId} {msg : Bytes}

theorem accounts_of_chart (h : s'.chart = s.chart) : s'.accounts = s.accounts := by
  funext p
  have hp := congrArg (fun r : Roster => (r.peer p).account) h
  exact hp

theorem accounts_setPeer (s : Session) (p : PeerId) (f : Peer → Peer) :
    (s.setPeer p f).accounts = Function.update s.accounts p (f (s.peer p)).account := by
  funext q
  by_cases hq : q = p
  · rw [hq,Function.update_self,Session.accounts,Session.setPeer_self]
  · rw [Function.update_of_ne hq,Session.accounts,Session.setPeer_ne _ _ _ hq]
    rfl

theorem accounts_setPeer_eq (s : Session) (p : PeerId) {f : Peer → Peer}
    (hf : (f (s.peer p)).account = (s.peer p).account) : (s.setPeer p f).accounts = s.accounts := by
  rw [accounts_setPeer,hf]
  exact Function.update_eq_self p s.accounts

theorem accounts_setState (s : Session) (p : PeerId) (f : PeerState → PeerState) :
    (s.setState p f).accounts = s.accounts := accounts_setPeer_eq s p rfl

theorem accounts_killPeer (s : Session) (p : PeerId) : (killPeer s p).accounts = s.accounts := accounts_setState s p _

theorem accounts_install {bf : Bytes} (h : expressInterest env (installBitfield s p bf) p = .ok s') :
    s'.accounts = s.accounts :=
  (accounts_of_chart (chart_expressInterest h)).trans (accounts_setPeer_eq s p rfl)

theorem accounts_msgChoke (s : Session) (p : PeerId) : (msgChoke s p).accounts = s.accounts := by
  have hset := accounts_setState s p (fun b => { b with choked := true })
  unfold msgChoke
  dsimp only
  split
  · exact hset
  · exact (accounts_of_chart (chart_foldl (fun u d => chart_chokeTurn u p d) _ _)).trans hset

theorem accounts_msgHave (h : msgHave env s p msg = .ok s') : s'.accounts = s.accounts := by
  unfold msgHave at h
  dsimp only at h
  by_cases hidx : indexRefused s (msgField env msg 1) = true
  · rw [if_pos hidx] at h
    cases h
    rfl
  rw [if_neg hidx] at h
  obtain ⟨bf,-,h⟩ := bind_ok.mp h
  apply (accounts_of_chart (chart_expressInterest h)).trans
  cases hbit : (s.peer p).bitfield with
  | some _ => exact accounts_setPeer_eq s p rfl
  | none => exact (accounts_setPeer_eq _ p rfl).trans (accounts_setPeer_eq s p rfl)

theorem accounts_msgBitfield (h : msgBitfield env s p msg = .ok s') : s'.accounts = s.accounts := by
  unfold msgBitfield at h
  split_ifs at h
  · cases h
    rfl
  · cases h
    exact accounts_killPeer s p
  · exact accounts_install h

theorem accounts_msgHaveFill {fill : UInt8} (h : msgHaveFill env s p fill = .ok s') : s'.accounts = s.accounts := by
  unfold msgHaveFill at h
  split_ifs at h
  · cases h
    rfl
  · exact accounts_install h

theorem accounts_msgReject (env : Env) (s : Session) (p : PeerId) (msg : Bytes) :
    (msgReject env s p msg).accounts = s.accounts := by
  unfold msgReject
  cases hfast : (s.peer p).state.fast with
  | false => exact accounts_killPeer s p
  | true =>
    rw [Bool.not_true,if_neg Bool.false_ne_true]
    dsimp only
    by_cases hidx : indexRefused s (msgField env msg 1) = true
    · rw [if_pos hidx]
    rw [if_neg hidx]
    cases networkPieceDlFind s.store (some p) (msgField env msg 1) (msgField env msg 5) with
    | none => rfl
    | some d => exact accounts_of_chart ((chart_store _ _).trans (chart_dequeue s p))

theorem accounts_msgRequest (h : msgRequest env s p msg = .ok s') : s'.accounts =
    Function.update s.accounts p ((s.accounts p).after (messageEvents env s msgRequestId msg) 0) := by
  rw [messageEvents,if_pos rfl]
  have hsame : ¬ Queued env s msg → s'.accounts = s.accounts → s'.accounts = Function.update s.accounts p
      ((s.accounts p).after (if Queued env s msg then [.arrive (requestedUl env msg)] else []) 0) := by
    intro hnot heq
    rw [if_neg hnot,Account.after_nil,Function.update_eq_self,heq]
  unfold msgRequest at h
  dsimp only at h
  by_cases hidx : indexRefused s (msgField env msg 1) = true
  · rw [if_pos hidx] at h
    cases h
    refine hsame (fun hq => ?_) rfl
    rw [indexRefused_of_lt hq.idx_lt] at hidx
    cases hidx
  rw [if_neg hidx] at h
  obtain ⟨tpp,htpp,h⟩ := bind_ok.mp h
  obtain ⟨hlt,rfl⟩ := torrentPieceFind_ok.mp htpp
  split_ifs at h with hoff hck hfast
  · cases h
    exact hsame (fun hq => Nat.not_le.mpr hoff hq.off_le) rfl
  · cases h
    refine hsame (fun hq => ?_) (accounts_of_chart (chart_networkPeerWrite env s p _))
    rw [hq.verified] at hck
    cases hck
  · cases h
    refine hsame (fun hq => ?_) rfl
    rw [hq.verified] at hck
    cases hck
  · cases h
    rw [if_pos ⟨hlt,Nat.not_lt.mp hoff,by simpa using hck⟩]
    exact accounts_setPeer s p _

theorem accounts_msgCancel (env : Env) (s : Session) (p : PeerId) (msg : Bytes) : (msgCancel env s p msg).accounts =
    Function.update s.accounts p ((s.accounts p).after (messageEvents env s msgCancelId msg) 0) := by
  rw [messageEvents,if_neg (by decide),if_pos rfl]
  unfold msgCancel
  dsimp only
  by_cases hidx : indexRefused s (msgField env msg 1) = true
  · rw [if_pos hidx,if_pos hidx,Account.after_nil,Function.update_eq_self]
  · rw [if_neg hidx,if_neg hidx]
    exact accounts_setPeer s p _

theorem accounts_pieceAt {idx off : ℕ} (h : pieceAt sha1 env s p idx off msg = .ok s') : s'.accounts =
    Function.update s.accounts p ((s.accounts p).after []
      (if timelyAt s p idx off msg = true ∧ (s.tp.piece idx).cksumok = false then msg.length - 9 else 0)) := by
  have hsame : ¬ (timelyAt s p idx off msg = true ∧ (s.tp.piece idx).cksumok = false) → s'.accounts = s.accounts →
      s'.accounts = Function.update s.accounts p ((s.accounts p).after []
        (if timelyAt s p idx off msg = true ∧ (s.tp.piece idx).cksumok = false then msg.length - 9 else 0)) := by
    intro hnot heq
    rw [if_neg hnot,Account.after_nil,Function.update_eq_self,heq]
  rcases pieceAt_result h with ⟨huntimely,rfl | rfl⟩ | ⟨htimely,hck,rfl⟩ | ⟨d,t,htimely,hck,hd,ht,rfl⟩
  · exact hsame (fun hyp => by simp [huntimely] at hyp) rfl
  · exact hsame (fun hyp => by simp [huntimely] at hyp) (accounts_killPeer s p)
  · exact hsame (fun hyp => by simp [hck] at hyp) (accounts_setPeer_eq s p rfl)
  · rw [if_pos ⟨htimely,hck⟩]
    apply (accounts_setPeer_eq t p rfl).trans
    apply (accounts_of_chart (chart_receiveBlock hd ht)).trans
    rw [accounts_setPeer]
    simp [Account.after,Session.accounts,Peer.account]

/-- One message: only the account of its sender changes. -/
theorem accounts_message {id : UInt8} (h : networkPeerProcessMessage sha1 env s p id msg = .ok s') : s'.accounts =
    Function.update s.accounts p ((s.accounts p).after (messageEvents env s id msg) (payload env s p id msg)) := by
  have hnone : id ≠ msgPieceId → payload env s p id msg = 0 := fun hid => if_neg (fun hyp => hid hyp.1)
  by_cases hreq : id = msgRequestId
  · subst hreq
    rw [networkPeerProcessMessage_request] at h
    rw [hnone (by decide)]
    exact accounts_msgRequest h
  by_cases hcancel : id = msgCancelId
  · subst hcancel
    rw [networkPeerProcessMessage_cancel] at h
    cases h
    rw [hnone (by decide)]
    exact accounts_msgCancel env s p msg
  have hevents : messageEvents env s id msg = [] := by
    rw [messageEvents,if_neg hreq,if_neg hcancel]
  rw [hevents]
  by_cases hpiece : id = msgPieceId
  · subst hpiece
    rw [networkPeerProcessMessage_piece] at h
    simpa [payload,timely] using accounts_pieceAt h
  rw [hnone hpiece,Account.after_nil,Function.update_eq_self]
  cases networkPeerProcessMessage_handled h with
  | choke => exact accounts_msgChoke s p
  | unchoke => exact accounts_setState s p _
  | interested => exact accounts_setState s p _
  | notinterested => exact accounts_setState s p _
  | haves h => exact accounts_msgHave h
  | bitfield h => exact accounts_msgBitfield h
  | request h => exact (hreq rfl).elim
  | piece h => exact (hpiece rfl).elim
  | cancel => exact (hcancel rfl).elim
  | reject => exact accounts_msgReject env s p msg
  | havenone h => exact accounts_msgHaveFill h
  | haveall h => exact accounts_msgHaveFill h
  | other => rfl

end Messages

section Reads
variable {sha1 : Bytes → Bytes} {env : Env} {s s' : Session} {p : PeerId} {avail : Bytes}

def readLen (env : Env) (q : Peer) (avail : Bytes) : ℕ := (avail.take (armRead env q).rxpending).length

theorem afterRead_account (env : Env) (q : Peer) (avail : Bytes) :
    (afterRead env q avail).account = q.account.after [] (readLen env q avail) := by
  have harm : (armRead env q).account = q.account := by
    unfold armRead
    split_ifs <;> rfl
  show (armRead env q).account.after [] (readLen env q avail) = _
  rw [harm]

theorem ReadsInto.account {infoHash : Bytes} {q q' : Peer} (h : ReadsInto env infoHash q q') :
    q'.account = q.account := by
  rcases h with rfl | rfl | rfl | rfl
  · rfl
  · simp only [finishHandshake1]
    split_ifs <;> rfl
  · simp only [finishHandshake2]
    split_ifs <;> rfl
  · simp only [finishLength]
    split_ifs <;> rfl

theorem accounts_sendBitfield (h : sendBitfield env p s = .ok s') : s'.accounts = s.accounts := by
  unfold sendBitfield at h
  split at h
  · obtain ⟨t,ht,h⟩ := bind_ok.mp h
    cases h
    exact (accounts_setState t p _).trans (accounts_of_chart (chart_writePieces ht))
  · cases h
    rfl

theorem messageEvents_congr (h : s'.tp = s.tp) (id : UInt8) (msg : Bytes) :
    messageEvents env s' id msg = messageEvents env s id msg := by
  have hqueued : Queued env s' msg ↔ Queued env s msg := by
    constructor
    · intro hq
      exact ⟨h ▸ hq.idx_lt,h ▸ hq.off_le,h ▸ hq.verified⟩
    · intro hq
      exact ⟨h ▸ hq.idx_lt,h ▸ hq.off_le,h ▸ hq.verified⟩
  have hrefused : indexRefused s' (msgField env msg 1) = indexRefused s (msgField env msg 1) := by
    rw [indexRefused,h]
    rfl
  unfold messageEvents
  rw [if_congr hqueued rfl rfl,hrefused]

def inputEvents (env : Env) (s : Session) (p : PeerId) (avail : Bytes) : List (QueueEvent PieceUl) :=
  match completed env (s.peer p) avail with
  | none => []
  | some msg => messageEvents env s (msg.headD 0) msg

def inputPayload (env : Env) (s : Session) (p : PeerId) (avail : Bytes) : ℕ :=
  match completed env (s.peer p) avail with
  | none => 0
  | some msg => payload env s p (msg.headD 0) msg

/-- One entry of the read callback. -/
theorem accounts_peerResponse (h : (peerResponse sha1 env p s avail).result = .ok s') : s'.accounts =
    Function.update s.accounts p ((s.accounts p).after (inputEvents env s p avail)
      (readLen env (s.peer p) avail + inputPayload env s p avail)) := by
  obtain ⟨t,hsend,ht⟩ := peerResponse_read h
  rw [accounts_sendBitfield hsend]
  rcases ht with ⟨hnone,q,hq,rfl⟩ | ⟨msg,u,hmsg,rfl,hu⟩
  · simp only [inputEvents,inputPayload,hnone,Nat.add_zero]
    rw [accounts_setPeer,hq.account,afterRead_account]
    rfl
  · simp only [inputEvents,inputPayload,hmsg]
    have hread : (s.setPeer p (afterRead env · avail)).accounts =
        Function.update s.accounts p ((s.accounts p).after [] (readLen env (s.peer p) avail)) := by
      rw [accounts_setPeer,afterRead_account]
      rfl
    rw [accounts_setPeer_eq u p rfl,accounts_message hu,hread,Function.update_self,Function.update_idem,
      Account.after_after,List.nil_append,messageEvents_congr (s.setPeer_tp p _)]
    rfl

end Reads

/-- The peers afterwards are peers from before with the same account, or new ones with an empty one. -/
structure Carries (s s' : Session) : Prop where
  next : s.nextPeer ≤ s'.nextPeer
  peer : ∀ p ∈ s'.peers, p ∈ s.peers ∧ s'.accounts p = s.accounts p ∨ s.nextPeer ≤ p ∧ s'.accounts p = ⟨[],0⟩

namespace Carries
variable {env : Env} {s s' s'' : Session} {p : PeerId}

theorem refl (s : Session) : Carries s s := ⟨le_refl _,fun _ hp => .inl ⟨hp,rfl⟩⟩

theorem trans (h : Carries s s') (h' : Carries s' s'') : Carries s s'' := by
  refine ⟨h.next.trans h'.next,?_⟩
  intro p hp
  rcases h'.peer p hp with ⟨hp',hacc'⟩ | ⟨hle,hacc'⟩
  · rcases h.peer p hp' with ⟨hp'',hacc⟩ | ⟨hle,hacc⟩
    · exact .inl ⟨hp'',hacc'.trans hacc⟩
    · exact .inr ⟨hle,hacc'.trans hacc⟩
  · exact .inr ⟨h.next.trans hle,hacc'⟩

theorem of_accounts (hpeers : s'.peers = s.peers) (hnext : s'.nextPeer = s.nextPeer) (hacc : s'.accounts = s.accounts) :
    Carries s s' := by
  refine ⟨hnext.ge,?_⟩
  intro p hp
  rw [hpeers] at hp
  exact .inl ⟨hp,congrFun hacc p⟩

theorem of_chart (h : s'.chart = s.chart) : Carries s s' :=
  of_accounts (congrArg Roster.peers h) (congrArg Roster.nextPeer h) (accounts_of_chart h)

theorem setPeer (s : Session) (p : PeerId) {f : Peer → Peer} (hf : (f (s.peer p)).account = (s.peer p).account) :
    Carries s (s.setPeer p f) := of_accounts rfl rfl (accounts_setPeer_eq s p hf)

theorem setState (s : Session) (p : PeerId) (f : PeerState → PeerState) : Carries s (s.setState p f) := setPeer s p rfl

theorem join (h : s.roster.Census) {q : Peer} (hq : q.account = ⟨[],0⟩) : Carries s (s.join q) := by
  refine ⟨Nat.le_succ _,?_⟩
  intro p hp
  rcases List.mem_append.mp hp with hp | hp
  · exact .inl ⟨hp,congrArg Peer.account (join_peer h hp q)⟩
  · rw [List.mem_singleton.mp hp]
    refine .inr ⟨le_refl _,?_⟩
    have hself : (s.join q).peer s.nextPeer = q := Function.update_self _ _ _
    rw [Session.accounts,hself,hq]

theorem dropPeer (h : s.roster.Census) : Carries s (dropPeer s p) := by
  refine ⟨le_refl _,?_⟩
  intro q hq
  obtain ⟨hne,hmem⟩ := h.nodup.mem_erase_iff.mp hq
  exact .inl ⟨hmem,congrArg Peer.account (Session.setPeer_ne s p (fun q => { q with uls := [], connfd := false }) hne)⟩

theorem connectNew (h : s.roster.Census) : Carries s (connectNew env s p) := by
  unfold Unworkable.connectNew
  split
  · exact .refl s
  · dsimp only
    have hset := setState s p (fun b => { b with handshake1 := true })
    split
    · exact hset.trans (dropPeer ⟨h.nodup,h.lt,h.count⟩)
    · have hconn := hset.trans (setPeer _ p (f := fun q => { q with connfd := true }) rfl)
      exact hconn.trans (of_chart (chart_networkPeerHandshake env _ p))

theorem networkPeerlistUpdate (h : s.roster.Census) {addrs : List ℕ}
    (ht : Unworkable.networkPeerlistUpdate env s addrs = .ok t) : Carries s t := by
  have hadd : ∀ (l : List ℕ) (u : Session), u.roster.Census →
      (l.foldl networkPeerlistAddPeer u).roster.Census ∧ Carries u (l.foldl networkPeerlistAddPeer u) := by
    intro l
    induction l with
    | nil => exact fun u hu => ⟨hu,.refl u⟩
    | cons a l ih =>
      intro u hu
      rw [List.foldl_cons]
      rcases networkPeerlistAddPeer_roster u a with heq | heq
      · rw [heq]
        exact ih u hu
      · rw [heq]
        obtain ⟨hcensus,hcarries⟩ := ih _ (census_join hu (networkPeerCreate a))
        exact ⟨hcensus,(join hu rfl).trans hcarries⟩
  obtain ⟨hcensus,hcarries⟩ := hadd addrs s h
  have hstart : Connecting (addrs.foldl networkPeerlistAddPeer s).roster (addrs.foldl networkPeerlistAddPeer s).peers
      (addrs.foldl networkPeerlistAddPeer s) :=
    ⟨hcensus,.refl _,hcensus.nodup,fun _ hq => hq,fun q hq hnot => (hnot hq).elim⟩
  rw [networkPeerlistUpdate_ok ht]
  exact (foldl_rest (P := fun rest u => Connecting (addrs.foldl networkPeerlistAddPeer s).roster rest u ∧ Carries s u)
    (fun p rest u hu => ⟨hu.1.turn,hu.2.trans (connectNew hu.1.census)⟩) ⟨hstart,hcarries⟩).2

theorem networkHandlePeerConnect (h : s.roster.Census) (addr : ℕ) : Carries s (networkHandlePeerConnect env s addr) :=
  (join h rfl).trans (of_chart (chart_networkPeerHandshake env _ _))

end Carries

section Tick
variable {env : Env} {s s' t : Session} {p : PeerId}

/-- What the turn of a peer hands to `network_peer_write_piece`: the head of its queue, unless the peer
is reaped or killed. -/
def handed (env : Env) (s : Session) (p : PeerId) : List PieceUl :=
  if attended env s p then (s.peer p).uls.head?.toList else []

/-- The turn of a peer that is neither reaped nor killed. -/
theorem schedulerPeer_attended (h : attended env s p = true) : schedulerPeer env s p =
    (handed env s p).foldlM (fun t pu => networkPeerWritePiece env t p pu.idx pu.off pu.len)
      (s.setPeer p (fun q => { q with uls := q.uls.tail })) >>= (schedulerFillRequests env · p) := by
  unfold attended at h
  simp only [Bool.and_eq_true,Bool.not_eq_true'] at h
  obtain ⟨hdead,hkill⟩ := h
  have hkill' : schedulerThresholdKill env s p = (s,false) := by
    unfold schedulerThresholdKill at hkill ⊢
    dsimp only at hkill ⊢
    split_ifs at hkill ⊢
    rfl
  have hhanded : handed env s p = (s.peer p).uls.head?.toList := if_pos (by simp [attended,hdead,hkill])
  unfold schedulerPeer
  rw [hdead,if_neg Bool.false_ne_true,hkill',hhanded]
  dsimp only
  unfold schedulerDequeueUploads networkPieceUlDequeue
  cases huls : (s.peer p).uls with
  | nil =>
    have hsame : s.setPeer p (fun q => { q with uls := q.uls.tail }) = s := by
      apply Session.setPeer_eq_self
      rw [huls,List.tail_nil,← huls]
    rw [hsame]
    rfl
  | cons pu rest =>
    simp only [List.head?_cons,Option.toList_some,List.foldlM_cons,List.foldlM_nil,bind_pure]

theorem schedulerPeer_unattended (h : attended env s p = false) : handed env s p = [] ∧
    (schedulerPeer env s p = .ok (dropPeer s p) ∨ schedulerPeer env s p = .ok (killPeer s p)) := by
  refine ⟨if_neg (Bool.eq_false_iff.mp h),?_⟩
  unfold schedulerPeer
  cases hdead : (s.peer p).state.dead with
  | true => exact .inl rfl
  | false =>
    right
    have hkill : (schedulerThresholdKill env s p).2 = true := by simpa [attended,hdead] using h
    have hkill' : schedulerThresholdKill env s p = (killPeer s p,true) := by
      unfold schedulerThresholdKill at hkill ⊢
      dsimp only at hkill ⊢
      split_ifs at hkill ⊢
      rfl
    rw [if_neg Bool.false_ne_true,hkill']

/-- The turn of a peer reaps it, or serves what is handed over. -/
theorem schedulerPeer_accounts (h : schedulerPeer env s p = .ok s') : handed env s p = [] ∧ s' = dropPeer s p ∨
    s'.peers = s.peers ∧ s'.nextPeer = s.nextPeer ∧
      s'.accounts = Function.update s.accounts p ((s.accounts p).after ((handed env s p).map .serve) 0) := by
  cases hatt : attended env s p with
  | false =>
    obtain ⟨hnil,hdrop | hkill⟩ := schedulerPeer_unattended hatt
    · rw [hdrop] at h
      cases h
      exact .inl ⟨hnil,rfl⟩
    · rw [hkill] at h
      cases h
      refine .inr ⟨rfl,rfl,?_⟩
      rw [hnil,List.map_nil,Account.after_nil,Function.update_eq_self,accounts_killPeer]
  | true =>
    right
    have hhanded : handed env s p = (s.peer p).uls.head?.toList := if_pos hatt
    rw [schedulerPeer_attended hatt] at h
    obtain ⟨t,ht,h⟩ := bind_ok.mp h
    have hchart : s'.chart = (s.setPeer p (fun q => { q with uls := q.uls.tail })).chart := by
      apply (chart_schedulerFillRequests h).trans
      exact chart_foldlM (fun u u' pu hu => chart_networkPeerWritePiece hu) ht
    refine ⟨congrArg Roster.peers hchart,congrArg Roster.nextPeer hchart,?_⟩
    rw [accounts_of_chart hchart,accounts_setPeer,hhanded]
    have hserve : ((s.peer p).uls.head?.toList.map QueueEvent.serve).foldl QueueEvent.after (s.peer p).uls =
        (s.peer p).uls.tail := by
      cases (s.peer p).uls with
      | nil => rfl
      | cons pu rest => rfl
    simp only [Account.after,Session.accounts,Peer.account,hserve,Nat.add_zero]

/-- What the turns of a tick hand over for `p`. A turn that stops the process is the last one. -/
def tickHands (env : Env) (p : PeerId) : List PeerId → Session → List PieceUl
  | [],_ => []
  | q :: rest,s => (if q = p then handed env s p else []) ++ match schedulerPeer env s q with
    | .ok t => tickHands env p rest t
    | .error _ => []

theorem tickHands_cons (l : List PeerId) {q : PeerId} (h : schedulerPeer env s q = .ok t) :
    tickHands env p (q :: l) s = (if q = p then handed env s p else []) ++ tickHands env p l t := by
  simp only [tickHands,h]

theorem tickHands_of_not_mem {l : List PeerId} (h : p ∉ l) (s : Session) : tickHands env p l s = [] := by
  induction l generalizing s with
  | nil => rfl
  | cons q l ih =>
    have hq : q ≠ p := fun he => h (he ▸ List.mem_cons_self)
    rw [tickHands,if_neg hq,List.nil_append]
    cases schedulerPeer env s q with
    | error e => rfl
    | ok t => exact ih (fun hmem => h (List.mem_cons_of_mem q hmem)) t

/-- The turns of all peers. -/
theorem schedulerPeers_accounts {l : List PeerId} (hnodup : s.peers.Nodup)
    (h : l.foldlM (schedulerPeer env) s = .ok s') :
    s'.nextPeer = s.nextPeer ∧ ∀ p ∈ s'.peers, p ∈ s.peers ∧
      s'.accounts p = (s.accounts p).after ((tickHands env p l s).map .serve) 0 := by
  induction l generalizing s with
  | nil =>
    cases h
    exact ⟨rfl,fun p hp => ⟨hp,rfl⟩⟩
  | cons q l ih =>
    rw [List.foldlM_cons,bind_ok] at h
    obtain ⟨t,ht,h⟩ := h
    rcases schedulerPeer_accounts ht with ⟨-,rfl⟩ | ⟨hpeers,hnext,hacc⟩
    · obtain ⟨hnext,hrest⟩ := ih (hnodup.erase q) h
      refine ⟨hnext,?_⟩
      intro p hp
      obtain ⟨hp',hacc⟩ := hrest p hp
      obtain ⟨hne,hmem⟩ := hnodup.mem_erase_iff.mp hp'
      refine ⟨hmem,?_⟩
      rw [hacc,tickHands_cons l ht,if_neg (Ne.symm hne),List.nil_append]
      have hpeer : (dropPeer s q).peer p = s.peer p :=
        Session.setPeer_ne s q (fun q => { q with uls := [], connfd := false }) hne
      rw [show (dropPeer s q).accounts p = s.accounts p from congrArg Peer.account hpeer]
    · obtain ⟨hnext',hrest⟩ := ih (hpeers ▸ hnodup) h
      refine ⟨hnext'.trans hnext,?_⟩
      intro p hp
      obtain ⟨hp',hacc'⟩ := hrest p hp
      refine ⟨hpeers ▸ hp',?_⟩
      rw [hacc',tickHands_cons l ht,hacc,List.map_append]
      by_cases hq : q = p
      · rw [if_pos hq,hq,Function.update_self,Account.after_after]
      · rw [if_neg hq,Function.update_of_ne (Ne.symm hq)]
        rfl

/-- A peer has one turn in a tick. -/
theorem tickHands_cases {l : List PeerId} (hl : l.Nodup) (s : Session) :
    tickHands env p l s = [] ∨ p ∈ l ∧ tickHands env p l s = handed env s p := by
  induction l generalizing s with
  | nil => exact .inl rfl
  | cons q l ih =>
    obtain ⟨hq,hl⟩ := List.nodup_cons.mp hl
    by_cases he : q = p
    · subst he
      refine .inr ⟨List.mem_cons_self,?_⟩
      rw [tickHands,if_pos rfl]
      cases schedulerPeer env s q with
      | error e => exact List.append_nil _
      | ok t =>
        dsimp only
        rw [tickHands_of_not_mem hq,List.append_nil]
    · rw [tickHands,if_neg he,List.nil_append]
      cases ht : schedulerPeer env s q with
      | error e => exact .inl rfl
      | ok t =>
        have hpeer : t.peer p = s.peer p := (schedulerPeer_uploads ht).1 p (Ne.symm he)
        have hhanded : handed env t p = handed env s p := by
          rw [handed,attended_congr hpeer,hpeer]
          rfl
        rw [← hhanded]
        rcases ih hl t with hnil | ⟨hmem,heq⟩
        · exact .inl hnil
        · exact .inr ⟨List.mem_cons_of_mem q hmem,heq⟩

end Tick

def Event.queueEvents (env : Env) (s : Session) (p : PeerId) : Event → List (QueueEvent PieceUl)
  | .response q avail => if q = p ∧ p ∈ s.peers then inputEvents env s p avail else []
  | .scheduler => (tickHands env p s.peers s).map .serve
  | _ => []

def Event.readLen (env : Env) (s : Session) (p : PeerId) : Event → ℕ
  | .response q avail => if q = p ∧ p ∈ s.peers then Unworkable.readLen env (s.peer p) avail else 0
  | _ => 0

def Event.recounted (env : Env) (s : Session) (p : PeerId) : Event → ℕ
  | .response q avail => if q = p ∧ p ∈ s.peers then inputPayload env s p avail else 0
  | _ => 0

section Steps
variable {sha1 : Bytes → Bytes} {env : Env} {s s' : Session} {p : PeerId}

/-- Events other than input from a peer and ticks carry the accounts over. -/
theorem step_carries (hs : s.roster.Census) {e : Event} (he : ∀ q avail, e ≠ .response q avail) (he' : e ≠ .scheduler)
    (h : step sha1 s (env,e) = .ok s') : Carries s s' := by
  cases e with
  | response q avail => exact (he q avail rfl).elim
  | scheduler => exact (he' rfl).elim
  | error q =>
    cases h
    split
    · exact .setState s q _
    · exact .refl s
  | keepalive q =>
    cases h
    split
    · exact .of_chart (chart_networkPeerWrite env s q _)
    · exact .refl s
  | accept addr =>
    cases h
    exact .networkHandlePeerConnect hs addr
  | tracker addrs =>
    simp only [step] at h
    obtain ⟨t,ht,h⟩ := bind_ok.mp h
    cases h
    cases addrs with
    | none =>
      cases ht
      exact .of_accounts rfl rfl rfl
    | some as => exact (Carries.networkPeerlistUpdate hs ht).trans (.of_accounts rfl rfl rfl)
  | announceTimer =>
    simp only [step] at h
    split at h
    · cases h
      exact .refl s
    · exact .of_chart (chart_announce h)

/-- What one event does to the accounts of the peers that remain. -/
theorem step_accounts (hs : s.roster.Census) {e : Event} (h : step sha1 s (env,e) = .ok s') :
    s.nextPeer ≤ s'.nextPeer ∧ ∀ p ∈ s'.peers,
      p ∈ s.peers ∧ s'.accounts p = (s.accounts p).after (e.queueEvents env s p)
      (e.readLen env s p + e.recounted env s p) ∨
        s.nextPeer ≤ p ∧ s'.accounts p = ⟨[],0⟩ := by
  cases e with
  | response q avail =>
    simp only [step] at h
    split at h
    · rename_i hq
      obtain ⟨f,hf⟩ := (touches_peerResponse h).rest
      have hpeers : s'.peers = s.peers := congrArg Roster.peers hf
      have hnext : s'.nextPeer = s.nextPeer := congrArg Roster.nextPeer hf
      refine ⟨hnext.ge,?_⟩
      intro p hp
      rw [hpeers] at hp
      refine .inl ⟨hp,?_⟩
      rw [accounts_peerResponse h]
      simp only [Event.queueEvents,Event.readLen,Event.recounted]
      by_cases he : q = p
      · subst he
        rw [if_pos ⟨rfl,hp⟩,if_pos ⟨rfl,hp⟩,if_pos ⟨rfl,hp⟩,Function.update_self]
      · have hne : ¬ (q = p ∧ p ∈ s.peers) := fun hyp => he hyp.1
        rw [if_neg hne,if_neg hne,if_neg hne,Function.update_of_ne (Ne.symm he)]
        rfl
    · rename_i hq
      cases h
      refine ⟨le_refl _,fun p hp => .inl ⟨hp,?_⟩⟩
      have hne : ¬ (q = p ∧ p ∈ s.peers) := fun hyp => hq (hyp.1 ▸ hyp.2)
      simp only [Event.queueEvents,Event.readLen,Event.recounted,if_neg hne]
      rfl
  | scheduler =>
    obtain ⟨t,ht,hchart⟩ := scheduler_chart h
    obtain ⟨hnext,hall⟩ := schedulerPeers_accounts hs.nodup ht
    have hnext' : s'.nextPeer = t.nextPeer := congrArg Roster.nextPeer hchart
    have hpeers : s'.peers = t.peers := congrArg Roster.peers hchart
    refine ⟨(hnext'.trans hnext).ge,?_⟩
    intro p hp
    obtain ⟨hmem,hacc⟩ := hall p (hpeers ▸ hp)
    rw [accounts_of_chart hchart]
    exact .inl ⟨hmem,hacc⟩
  | _ =>
    obtain ⟨hnext,hpeer⟩ := step_carries hs (by simp) (by simp) h
    exact ⟨hnext,hpeer⟩

/-- Input from a peer takes nobody off the list. -/
theorem response_peers {avail : Bytes} (h : step sha1 s (env,.response p avail) = .ok s') : s'.peers = s.peers := by
  simp only [step] at h
  split at h
  · obtain ⟨q,hq⟩ := (touches_peerResponse h).rest
    exact congrArg Roster.peers hq
  · cases h
    rfl

/-- The queue events of one step: at most one, and only the head of the queue is served. -/
theorem queueEvents_cases (hs : s.roster.Census) (e : Event) : e.queueEvents env s p = [] ∨
    p ∈ s.peers ∧ ∃ x, e.queueEvents env s p = [x] ∧ x.Serves (s.accounts p).uls := by
  cases e with
  | response q avail =>
    by_cases hq : q = p ∧ p ∈ s.peers
    · simp only [Event.queueEvents,if_pos hq,inputEvents]
      cases completed env (s.peer p) avail with
      | none => exact .inl rfl
      | some msg =>
        dsimp only
        unfold messageEvents
        split_ifs
        · exact .inr ⟨hq.2,_,rfl,trivial⟩
        · exact .inl rfl
        · exact .inl rfl
        · exact .inr ⟨hq.2,_,rfl,trivial⟩
        · exact .inl rfl
    · exact .inl (if_neg hq)
  | scheduler =>
    simp only [Event.queueEvents]
    have hnodup : s.peers.Nodup := hs.nodup
    rcases @tickHands_cases env p _ hnodup s with hnil | ⟨hmem,heq⟩
    · exact .inl (by rw [hnil]; rfl)
    · rw [heq,handed]
      split
      · cases huls : (s.peer p).uls with
        | nil => exact .inl rfl
        | cons pu rest =>
          refine .inr ⟨hmem,.serve pu,rfl,?_⟩
          show (s.peer p).uls.head? = some pu
          rw [huls,List.head?_cons]
      · exact .inl rfl
  | _ => exact .inl rfl

end Steps

end Unworkable
