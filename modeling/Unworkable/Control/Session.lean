import Unworkable.Control.Notice

/-! # A session with its control server

The handlers that notify the control connections, with the server beside the session: a block that is read, a piece
that is verified, and a list of peers from the tracker. A step of the session with its server is a step of the session,
and what it sends to the connections is told by what it does to the session.
-/
namespace Unworkable
open Library

/-- `struct ctl_server` beside its session: what has been written to each connection, if a server was started. -/
structure Controlled where
  sc : Session
  started : ℤ
  server : Option (List Bytes)

def Controlled.notified (c : Controlled) (server : Except Halt (Option (List Bytes))) : Except Halt Controlled :=
  server.map fun server => { c with server := server }

def ctlServerNotify (cs : Option (List Bytes)) (msg : Except Halt Bytes) : Except Halt (Option (List Bytes)) :=
  match cs with
  | none => .ok none
  | some conns => msg.map fun msg => some (ctlServerBroadcastMessage conns msg)

def bytesText (bytes : ℤ) : Bytes := ascii "bytes:" ++ decimalInt bytes ++ ascii "\r\n"

/-- The message of `ctl_server_notify_bytes`. -/
def ctlServerBytes (bytes : ℤ) : Except Halt Bytes :=
  if ctlMessageLen ≤ (bytesText bytes).length then .error (.errx "ctl_server_notify_bytes() string truncation")
  else .ok (bytesText bytes)

/-- `ctl_server_conn_bootstrap`, from the session and what it started with. -/
def ctlServerBootstrap (s : Session) (started : ℤ) : Except Halt Bytes := do
  let text := ascii "num_peers:" ++ decimal s.numPeers ++ ascii "\r\nnum_pieces:" ++ decimal s.tp.numPieces ++
    ascii "\r\ntorrent_size:" ++ decimalInt s.tp.mi.len ++ ascii "\r\ntorrent_bytes:" ++ decimalInt started ++
      ascii "\r\n"
  if text.length ≥ bootstrapLen then .error (.errx "ctl_server_conn_bootstrap() string truncation")
  else
    let pieces ← ctlServerPieces s.tp
    let peers ← ctlServerPeers s
    .ok (snprintf bootstrapLen text ++ pieces ++ peers)

theorem ctlServerConnBootstrap_eq (cs : CtlServer) : ctlServerConnBootstrap cs =
    ctlServerBootstrap cs.sc cs.started := rfl

def ctlServerHandleConnect (c : Controlled) (accepted : Bool) : Except Halt Controlled :=
  match c.server with
  | none => .ok c
  | some conns =>
    if accepted then (ctlServerBootstrap c.sc c.started).map fun text => { c with server := some (conns ++ [text]) }
    else .ok c

/-- `ctl_server_handle_conn_error`, on the connection at place `k`. -/
def ctlServerHandleConnError (c : Controlled) (k : ℕ) : Controlled :=
  { c with server := c.server.map (·.eraseIdx k) }

section Handlers
variable (sha1 : Bytes → Bytes) (env : Env)

/-- `network_peer_read_piece`, to its end. -/
def ctlReadPiece (c : Controlled) (p : PeerId) (idx off : ℕ) (data : Bytes) : Except Halt Controlled := do
  let s ← networkPeerReadPiece c.sc p idx off data
  match networkPieceDlFind c.sc.store (some p) idx off with
  | none => .ok { c with sc := s }
  | some _ => Controlled.notified { c with sc := s } (ctlServerNotify c.server (ctlServerBytes s.tp.downloaded))

def ctlPieceVerified (c : Controlled) (idx : ℕ) : Except Halt Controlled := do
  let s ← pieceVerified env c.sc idx
  Controlled.notified { c with sc := s } (ctlServerNotifyPieces c.server s.tp)

def ctlCheckPiece (c : Controlled) (idx : ℕ) : Except Halt Controlled := do
  let plen := (c.sc.tp.piece idx).len
  let (tp,good) ← torrentPieceCheckhash sha1 env.stale c.sc.tp idx
  let c := { c with sc := { c.sc with tp := torrentPieceUnmap tp idx } }
  let c ← (if good then ctlPieceVerified env c idx else .ok c)
  let store ← cleanupDls c.sc.store idx plen
  .ok { c with sc := { c.sc with store := store } }

def ctlReceiveBlock (c : Controlled) (p : PeerId) (idx off : ℕ) (data : Bytes) : Except Halt Controlled := do
  let s := c.sc.setPeer p (fun q => { q with dlQueueLen := sub32 q.dlQueueLen 1 })
  let tp ← ensureMapped s.tp idx
  let c ← ctlReadPiece { c with sc := { s with tp := tp } } p idx off data
  let found ← everyBlock c.sc.store p idx (c.sc.tp.piece idx).len
  if found then ctlCheckPiece sha1 env c idx else .ok c

def ctlTakeBlock (c : Controlled) (p : PeerId) (idx off : ℕ) (msg : Bytes) (d : DlId) : Except Halt Controlled :=
  if msg.length < 9 ∨ msg.length - 9 ≠ (c.sc.store.get d).len then .ok c
  else do
    let c ← (if (c.sc.tp.piece idx).cksumok then .ok c else ctlReceiveBlock sha1 env c p idx off (msg.drop 9))
    .ok { c with sc := c.sc.setPeer p (fun q => { q with lastrecv := env.now }) }

def ctlPieceAt (c : Controlled) (p : PeerId) (idx off : ℕ) (msg : Bytes) : Except Halt Controlled := do
  if indexRefused c.sc idx then .ok c
  else
    let tpp ← torrentPieceFind c.sc.tp idx
    if off > tpp.len then .ok c
    else match networkPieceDlFind c.sc.store (some p) idx off with
      | none => .ok { c with sc := killPeer c.sc p }
      | some d => ctlTakeBlock sha1 env c p idx off msg d

/-- `network_peer_process_message`: of all messages only PIECE notifies. -/
def ctlProcessMessage (c : Controlled) (p : PeerId) (id : UInt8) (msg : Bytes) : Except Halt Controlled :=
  if id = msgPieceId then ctlPieceAt sha1 env c p (msgField env msg 1) (msgField env msg 5) msg
  else (networkPeerProcessMessage sha1 env c.sc p id msg).map fun s => { c with sc := s }

def ctlFinishRead (p : PeerId) (c : Controlled) : Traced Call Halt Controlled :=
  let q := c.sc.peer p
  if q.state.handshake1 then .pure { c with sc := c.sc.setPeer p finishHandshake1 }
  else if q.state.handshake2 then .pure { c with sc := c.sc.setPeer p (finishHandshake2 c.sc.tp.mi.infoHash) }
  else if !q.state.gotlen then .pure { c with sc := c.sc.setPeer p (finishLength env) }
  else
    let id := q.rxmsg.headD 0
    ⟨[⟨id,q.rxmsg,q⟩],(ctlProcessMessage sha1 env c p id q.rxmsg).map
      (fun c => { c with sc := c.sc.setPeer p (fun q => { q with rxmsg := [] }) })⟩

/-- `network_handle_peer_response` as a resumable reader over the session with its server. -/
def ctlReader (p : PeerId) : Reader Call Halt Controlled where
  arm c := { c with sc := c.sc.setPeer p (armRead env) }
  pending c := (c.sc.peer p).rxpending
  push c bs := { c with sc := c.sc.setPeer p (pushRead bs) }
  finish := ctlFinishRead sha1 env p
  settle c := (sendBitfield env p c.sc).map fun s => { c with sc := s }

end Handlers

/-- The callbacks of the event loop, those of the control server among them. -/
inductive CtlEvent where
  | session (e : Event)
  /-- `ctl_server_handle_connect`, and whether `accept` succeeds. -/
  | connect (accepted : Bool)
  /-- `ctl_server_handle_conn_error`. -/
  | disconnect (k : ℕ)

section Step
variable (sha1 : Bytes → Bytes)

def ctlStep (c : Controlled) : Env × CtlEvent → Except Halt Controlled
  | (env,.session (.response p avail)) =>
    if p ∈ c.sc.peers then ((ctlReader sha1 env p).invoke c avail).result else .ok c
  | (env,.session (.tracker (some addrs))) => do
    let s ← networkPeerlistUpdate env c.sc addrs
    let c ← Controlled.notified { c with sc := s } (ctlServerNotify c.server (ctlServerPeers s))
    .ok { c with sc := { c.sc with announceUnderway := false } }
  | (env,.session e) => (step sha1 c.sc (env,e)).map fun s => { c with sc := s }
  | (_,.connect accepted) => ctlServerHandleConnect c accepted
  | (_,.disconnect k) => .ok (ctlServerHandleConnError c k)

/-- `main` up to the event loop, with a control server if there is a port for it. -/
def Boot.controlled (b : Boot) (gui : Bool) : Except Halt Controlled := do
  let tp ← b.torrent sha1
  let s ← b.session sha1
  .ok ⟨s,tp.downloaded,if gui then some [] else none⟩

/-- A process from its start through the given events. -/
def Boot.ctlRun (b : Boot) (gui : Bool) (es : List (Env × CtlEvent)) : Except Halt Controlled :=
  b.controlled sha1 gui >>= fun c => es.foldlM (ctlStep sha1) c

end Step

/-- The texts that a step of the session sends to every connection, by the torrent before and behind it: nothing, a
number of bytes, and behind one the pieces if one has been verified. -/
inductive Notices (tp tp' : Torrent) : Bytes → Prop
  | nothing (h : tp'.verified = tp.verified) : Notices tp tp' []
  | bytes (n : ℤ) (h : tp'.verified = tp.verified) : Notices tp tp' (bytesText n)
  | pieces {text : Bytes} (n : ℤ) (h : ctlServerPieces tp' = .ok text) : Notices tp tp' (bytesText n ++ text)

def Told (P : Bytes → Prop) (cs cs' : Option (List Bytes)) : Prop :=
  (cs = none ∧ cs' = none) ∨ ∃ conns text, cs = some conns ∧ cs' = some (conns.map (· ++ text)) ∧ P text

section Told
variable {P Q R : Bytes → Prop} {cs cs' cs'' : Option (List Bytes)}

theorem Told.same (h : P []) : Told P cs cs := by
  cases cs with
  | none => exact .inl ⟨rfl,rfl⟩
  | some conns => exact .inr ⟨conns,[],rfl,by simp,h⟩

theorem Told.trans (h : Told P cs cs') (h' : Told Q cs' cs'') (hR : ∀ t u, P t → Q u → R (t ++ u)) :
    Told R cs cs'' := by
  rcases h with ⟨rfl,rfl⟩ | ⟨conns,t,rfl,rfl,ht⟩
  · rcases h' with ⟨-,rfl⟩ | ⟨_,_,hnone,-,-⟩
    · exact .inl ⟨rfl,rfl⟩
    · cases hnone
  · rcases h' with ⟨hnone,-⟩ | ⟨conns',u,hconns,rfl,hu⟩
    · cases hnone
    · cases hconns
      exact .inr ⟨conns,t ++ u,rfl,by simp,hR t u ht hu⟩

theorem Told.mono (h : Told P cs cs') (hPQ : ∀ t, P t → Q t) : Told Q cs cs' := by
  rcases h with h | ⟨conns,t,hcs,hcs',ht⟩
  · exact .inl h
  · exact .inr ⟨conns,t,hcs,hcs',hPQ t ht⟩

end Told

section Handlers
variable {sha1 : Bytes → Bytes} {env : Env} {c c' : Controlled} {p : PeerId} {idx off : ℕ} {data msg : Bytes}

theorem notified_ok {server : Except Halt (Option (List Bytes))} (h : c.notified server = .ok c') :
    ∃ conns, server = .ok conns ∧ c' = { c with server := conns } := by
  obtain ⟨conns,hconns,rfl⟩ := map_ok.mp h
  exact ⟨conns,hconns,rfl⟩

theorem ctlServerNotify_ok {cs cs' : Option (List Bytes)} {text : Except Halt Bytes}
    (h : ctlServerNotify cs text = .ok cs') :
    Told (fun t => text = .ok t) cs cs' := by
  cases cs with
  | none =>
    cases h
    exact .inl ⟨rfl,rfl⟩
  | some conns =>
    obtain ⟨t,ht,rfl⟩ := map_ok.mp h
    exact .inr ⟨conns,t,rfl,rfl,ht⟩

theorem ctlServerNotifyPieces_eq (cs : Option (List Bytes)) (tp : Torrent) :
    ctlServerNotifyPieces cs tp = ctlServerNotify cs (ctlServerPieces tp) := by
  cases cs <;> rfl

theorem ctlServerBytes_ok {n : ℤ} {text : Bytes} (h : ctlServerBytes n = .ok text) : text = bytesText n := by
  unfold ctlServerBytes at h
  split at h
  · cases h
  · cases h
    rfl

/-- What a handler does to the session, and what it tells the connections. -/
structure Controls (P : Bytes → Prop) (c c' : Controlled) (s' : Except Halt Session) : Prop where
  session : s' = .ok c'.sc
  started : c'.started = c.started
  told : Told P c.server c'.server

theorem ctlReadPiece_ok {d : DlId} (h : ctlReadPiece c p idx off data = .ok c')
    (hfind : networkPieceDlFind c.sc.store (some p) idx off = some d) :
    Controls (fun t => ∃ n, t = bytesText n) c c' (networkPeerReadPiece c.sc p idx off data) := by
  unfold ctlReadPiece at h
  obtain ⟨s,hs,h⟩ := bind_ok.mp h
  rw [hfind] at h
  obtain ⟨conns,hconns,rfl⟩ := notified_ok h
  exact ⟨hs,rfl,(ctlServerNotify_ok hconns).mono fun t ht => ⟨_,ctlServerBytes_ok ht⟩⟩

theorem ctlPieceVerified_ok (h : ctlPieceVerified env c idx = .ok c') :
    Controls (fun t => ctlServerPieces c'.sc.tp = .ok t) c c' (pieceVerified env c.sc idx) := by
  obtain ⟨s,hs,h⟩ := bind_ok.mp h
  obtain ⟨conns,hconns,rfl⟩ := notified_ok h
  rw [ctlServerNotifyPieces_eq] at hconns
  exact ⟨hs,rfl,ctlServerNotify_ok hconns⟩

theorem ctlCheckPiece_ok (h : ctlCheckPiece sha1 env c idx = .ok c') :
    Controls (fun t => t = [] ∧ c'.sc.tp.verified = c.sc.tp.verified ∨ ctlServerPieces c'.sc.tp = .ok t) c c'
      (checkPiece sha1 env c.sc idx) := by
  simp only [ctlCheckPiece] at h
  obtain ⟨⟨tp,good⟩,hcheck,h⟩ := bind_ok.mp h
  obtain ⟨u,hu,h⟩ := bind_ok.mp h
  obtain ⟨st,hst,h⟩ := bind_ok.mp h
  cases h
  simp only [checkPiece,hcheck,ok_bind]
  cases good with
  | true =>
    obtain ⟨hs,hstarted,htold⟩ := ctlPieceVerified_ok hu
    refine ⟨?_,hstarted,htold.mono fun t ht => .inr ht⟩
    rw [if_pos rfl,hs,ok_bind,hst,ok_bind]
  | false =>
    cases hu
    refine ⟨?_,rfl,.same (.inl ⟨rfl,?_⟩)⟩
    · rw [if_neg Bool.false_ne_true,ok_bind,hst,ok_bind]
    · rcases torrentPieceCheckhash_cases hcheck with ⟨hgood,-⟩ | ⟨-,rfl⟩
      · cases hgood
      · exact (Kept.torrentPieceUnmap _ idx).verified

/-- The torrent behind a block that has been read. -/
theorem networkPeerReadPiece_verified {s s' : Session} (h : networkPeerReadPiece s p idx off data = .ok s') :
    s'.tp.verified = s.tp.verified := by
  unfold networkPeerReadPiece at h
  obtain ⟨_,-,h⟩ := bind_ok.mp h
  split at h
  · cases h
    rfl
  · cases h
    exact (Kept.torrentBlockWrite s.tp idx off data.length data).verified

theorem ctlReceiveBlock_ok {d : DlId} (hfind : networkPieceDlFind c.sc.store (some p) idx off = some d)
    (h : ctlReceiveBlock sha1 env c p idx off data = .ok c') :
    Controls (Notices c.sc.tp c'.sc.tp) c c' (receiveBlock sha1 env c.sc p idx off data) := by
  simp only [ctlReceiveBlock] at h
  obtain ⟨tp,htp,h⟩ := bind_ok.mp h
  obtain ⟨u,hu,h⟩ := bind_ok.mp h
  obtain ⟨found,hfound,h⟩ := bind_ok.mp h
  obtain ⟨hs,hstarted,htold⟩ := ctlReadPiece_ok hu hfind
  have hmapped : tp.verified = c.sc.tp.verified := (Kept.ensureMapped htp).verified
  have hver : u.sc.tp.verified = c.sc.tp.verified := (networkPeerReadPiece_verified hs).trans hmapped
  unfold receiveBlock
  dsimp only
  rw [htp,ok_bind,show networkPeerReadPiece _ p idx off data = .ok u.sc from hs,ok_bind,hfound,ok_bind]
  cases found with
  | false =>
    cases h
    refine ⟨rfl,hstarted,htold.mono ?_⟩
    rintro t ⟨n,rfl⟩
    exact .bytes n hver
  | true =>
    obtain ⟨hs',hstarted',htold'⟩ := ctlCheckPiece_ok h
    refine ⟨hs',hstarted'.trans hstarted,htold.trans htold' ?_⟩
    rintro t u ⟨n,rfl⟩ (⟨rfl,hver'⟩ | hpieces)
    · rw [List.append_nil]
      exact .bytes n (hver'.trans hver)
    · exact .pieces n hpieces

theorem ctlPieceAt_ok (h : ctlPieceAt sha1 env c p idx off msg = .ok c') :
    Controls (Notices c.sc.tp c'.sc.tp) c c' (pieceAt sha1 env c.sc p idx off msg) := by
  unfold ctlPieceAt at h
  unfold pieceAt
  split at h
  · cases h
    rw [if_pos ‹_›]
    exact ⟨rfl,rfl,.same (.nothing rfl)⟩
  rw [if_neg ‹_›]
  obtain ⟨tpp,htpp,h⟩ := bind_ok.mp h
  rw [htpp,ok_bind]
  split at h
  · cases h
    rw [if_pos ‹_›]
    exact ⟨rfl,rfl,.same (.nothing rfl)⟩
  rw [if_neg ‹_›]
  cases hfind : networkPieceDlFind c.sc.store (some p) idx off with
  | none =>
    rw [hfind] at h
    cases h
    exact ⟨rfl,rfl,.same (.nothing rfl)⟩
  | some d =>
    rw [hfind] at h
    dsimp only at h ⊢
    unfold ctlTakeBlock at h
    unfold takeBlock
    split at h
    · cases h
      rw [if_pos ‹_›]
      exact ⟨rfl,rfl,.same (.nothing rfl)⟩
    rw [if_neg ‹_›]
    obtain ⟨u,hu,h⟩ := bind_ok.mp h
    cases h
    split at hu
    · cases hu
      rw [if_pos ‹_›]
      exact ⟨rfl,rfl,.same (.nothing rfl)⟩
    · rw [if_neg ‹_›]
      obtain ⟨hs,hstarted,htold⟩ := ctlReceiveBlock_ok hfind hu
      rw [hs]
      exact ⟨rfl,hstarted,htold⟩

/-- Messages other than PIECE verify nothing. -/
theorem verified_of_other {s s' : Session} {id : UInt8} (hid : id ≠ msgPieceId)
    (h : networkPeerProcessMessage sha1 env s p id msg = .ok s') : s'.tp.verified = s.tp.verified := by
  have hcore {t : Session} (ht : t.core = s.core) : t.tp.verified = s.tp.verified := by
    rw [show t.tp = s.tp from congrArg Core.tp ht]
  rcases networkPeerProcessMessage_cases h with hc | ⟨-,hfast,hc⟩ | ⟨-,hc⟩ | ⟨hpiece,-⟩
  · exact hcore hc
  · rw [core_msgChoke_slow hfast] at hc
    rw [show s'.tp = s.tp from congrArg Core.tp hc]
  · rcases msgReject_cases env s p msg with hr | ⟨d,-,-,-,hr⟩
    · exact hcore (hc.trans hr)
    · rw [show s'.tp = s.tp from congrArg Core.tp (hc.trans hr)]
  · exact (hid hpiece).elim

theorem ctlProcessMessage_ok {id : UInt8} (h : ctlProcessMessage sha1 env c p id msg = .ok c') :
    Controls (Notices c.sc.tp c'.sc.tp) c c' (networkPeerProcessMessage sha1 env c.sc p id msg) := by
  unfold ctlProcessMessage at h
  split at h
  · rename_i hid
    rw [hid,networkPeerProcessMessage_piece]
    exact ctlPieceAt_ok h
  · rename_i hid
    obtain ⟨s,hs,rfl⟩ := map_ok.mp h
    exact ⟨hs,rfl,.same (.nothing (verified_of_other hid hs))⟩

theorem ctlFinishRead_ok (h : (ctlFinishRead sha1 env p c).result = .ok c') :
    Controls (Notices c.sc.tp c'.sc.tp) c c' (finishRead sha1 env p c.sc).result := by
  unfold ctlFinishRead at h
  unfold finishRead
  dsimp only at h ⊢
  split at h
  · rw [if_pos ‹_›]
    cases h
    exact ⟨rfl,rfl,.same (.nothing rfl)⟩
  rw [if_neg ‹_›]
  split at h
  · rw [if_pos ‹_›]
    cases h
    exact ⟨rfl,rfl,.same (.nothing rfl)⟩
  rw [if_neg ‹_›]
  split at h
  · rw [if_pos ‹_›]
    cases h
    exact ⟨rfl,rfl,.same (.nothing rfl)⟩
  rw [if_neg ‹_›]
  obtain ⟨u,hu,rfl⟩ := map_ok.mp h
  obtain ⟨hs,hstarted,htold⟩ := ctlProcessMessage_ok hu
  rw [hs]
  exact ⟨rfl,hstarted,htold⟩

/-- One entry of the read callback of a peer. -/
theorem ctlReader_invoke_ok {avail : Bytes} (h : ((ctlReader sha1 env p).invoke c avail).result = .ok c') :
    Controls (Notices c.sc.tp c'.sc.tp) c c' (peerResponse sha1 env p c.sc avail).result := by
  unfold Reader.invoke at h
  unfold peerResponse Reader.invoke
  obtain ⟨u,hu,hsettle⟩ := Traced.bind_result_ok.mp h
  obtain ⟨s,hs,rfl⟩ := map_ok.mp (show (sendBitfield env p u.sc).map (fun s => { u with sc := s }) =
    .ok c' from hsettle)
  have htp : s.tp = u.sc.tp := congrArg Core.tp (core_sendBitfield hs)
  suffices hread : Controls (Notices c.sc.tp u.sc.tp) c u _ from
    ⟨Traced.bind_result_ok.mpr ⟨u.sc,hread.session,hs⟩,hread.started,by rw [← htp] at hread; exact hread.told⟩
  generalize hread : (peerReader sha1 env p).push ((peerReader sha1 env p).arm c.sc)
    (avail.take ((peerReader sha1 env p).pending ((peerReader sha1 env p).arm c.sc))) = t
  have hpending : (0 < (ctlReader sha1 env p).pending { c with sc := t }) =
    (0 < (peerReader sha1 env p).pending t) := rfl
  have hu : (if 0 < (ctlReader sha1 env p).pending { c with sc := t } then .pure { c with sc := t }
      else (ctlReader sha1 env p).finish { c with sc := t }).result = .ok u := by rwa [← hread]
  have hbefore : t.tp = c.sc.tp := by rw [← hread]; rfl
  simp only [hpending] at hu
  split at hu
  · rw [if_pos ‹_›]
    cases hu
    exact ⟨rfl,rfl,.same (.nothing (congrArg Torrent.verified hbefore))⟩
  · rw [if_neg ‹_›]
    obtain ⟨hs,hstarted,htold⟩ := ctlFinishRead_ok hu
    exact ⟨hs,hstarted,by rwa [show ({ c with sc := t } : Controlled).sc.tp = c.sc.tp from hbefore] at htold⟩

end Handlers

end Unworkable
