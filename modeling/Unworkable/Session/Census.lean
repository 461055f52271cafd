import Unworkable.Session.Roster

/-! # The census of peers

The list of peers and its counter are updated at five places. What they have in common is
small: a peer leaves the list by `dropPeer`, and a new one joins it at the end with the next
number. Between two events every peer on the list holds a descriptor.
-/
namespace Unworkable
open Library

/-- The peers are distinct, have been numbered, and are counted in 32 bits. -/
structure Roster.Census (r : Roster) : Prop where
  nodup : r.peers.Nodup
  lt : ∀ p ∈ r.peers, p < r.nextPeer
  count : r.numPeers = wrap32 r.peers.length

def Roster.Connected (r : Roster) : Prop := ∀ p ∈ r.peers, (r.peer p).connfd = true

/-- The peers afterwards are peers from before, with the same bit field and the same time of
last receipt, or new ones. -/
structure Roster.Renewed (r r' : Roster) : Prop where
  next : r.nextPeer ≤ r'.nextPeer
  peer : ∀ p ∈ r'.peers,
    p ∈ r.peers ∧ (r'.peer p).lastrecv = (r.peer p).lastrecv ∧ (r'.peer p).bitfield = (r.peer p).bitfield ∨
      r.nextPeer ≤ p ∧ (r'.peer p).lastrecv = 0 ∧ (r'.peer p).bitfield = none

section Changes
variable {env : Env} {s s' t : Session} {p : PeerId} {r r' r'' : Roster}

theorem Roster.Renewed.refl (r : Roster) : r.Renewed r := ⟨le_refl _,fun _ hp => .inl ⟨hp,rfl,rfl⟩⟩

theorem Roster.Renewed.trans (h : r.Renewed r') (h' : r'.Renewed r'') : r.Renewed r'' := by
  refine ⟨h.next.trans h'.next,?_⟩
  intro p hp
  rcases h'.peer p hp with ⟨hp',hlast',hbit'⟩ | ⟨hle,hlast',hbit'⟩
  · rcases h.peer p hp' with ⟨hp'',hlast,hbit⟩ | ⟨hle,hlast,hbit⟩
    · exact .inl ⟨hp'',hlast'.trans hlast,hbit'.trans hbit⟩
    · exact .inr ⟨hle,hlast'.trans hlast,hbit'.trans hbit⟩
  · exact .inr ⟨h.next.trans hle,hlast',hbit'⟩

/-- An assignment to a peer that leaves its bit field and the time alone. -/
theorem renewed_setPeer (s : Session) (p : PeerId) {f : Peer → Peer}
    (hlast : (f (s.peer p)).lastrecv = (s.peer p).lastrecv) (hbit : (f (s.peer p)).bitfield = (s.peer p).bitfield) :
    s.roster.Renewed (s.setPeer p f).roster := by
  refine ⟨le_refl _,fun q hq => .inl ⟨hq,?_⟩⟩
  by_cases h : q = p
  · subst h
    simp only [Session.roster,Session.setPeer_self,Peer.mask]
    exact ⟨hlast,hbit⟩
  · simp only [Session.roster,Session.setPeer_ne _ _ _ h,and_self]

theorem census_dropPeer (h : s.roster.Census) (hp : p ∈ s.peers) : (dropPeer s p).roster.Census := by
  refine ⟨h.nodup.erase p,fun q hq => h.lt q (List.mem_of_mem_erase hq),?_⟩
  have hcount : s.numPeers = wrap32 s.peers.length := h.count
  have hpos := List.length_pos_of_mem hp
  show sub32 s.numPeers 1 = wrap32 (s.peers.erase p).length
  rw [List.length_erase_of_mem hp,hcount]
  unfold sub32 wrap32
  omega

theorem connected_dropPeer (h : s.roster.Census) (hc : s.roster.Connected) : (dropPeer s p).roster.Connected := by
  intro q hq
  have hne : q ≠ p := fun he => (h.nodup.mem_erase_iff.mp hq).1 he
  have hpeer : ((dropPeer s p).peer q) = s.peer q :=
    Session.setPeer_ne s p (fun q => { q with uls := [], connfd := false }) hne
  simp only [Session.roster,hpeer]
  exact hc q (List.mem_of_mem_erase hq)

theorem renewed_dropPeer (s : Session) (p : PeerId) : s.roster.Renewed (dropPeer s p).roster := by
  have hset := renewed_setPeer s p (f := fun q => { q with uls := [], connfd := false }) rfl rfl
  refine ⟨le_refl _,fun q hq => ?_⟩
  exact hset.peer q (List.mem_of_mem_erase hq)

def Session.join (s : Session) (q : Peer) : Session := { s with
  peers := s.peers ++ [s.nextPeer]
  peer := Function.update s.peer s.nextPeer q
  nextPeer := s.nextPeer + 1
  numPeers := add32 s.numPeers 1 }

theorem census_join (h : s.roster.Census) (q : Peer) : (s.join q).roster.Census := by
  refine ⟨?_,?_,?_⟩
  · refine List.nodup_append.mpr ⟨h.nodup,List.nodup_singleton _,?_⟩
    intro a ha b hb
    rw [List.mem_singleton.mp hb]
    exact Nat.ne_of_lt (h.lt a ha)
  · intro a ha
    rcases List.mem_append.mp ha with ha | ha
    · exact Nat.lt_succ_of_lt (h.lt a ha)
    · rw [List.mem_singleton.mp ha]
      exact Nat.lt_succ_self _
  · have hcount : s.numPeers = wrap32 s.peers.length := h.count
    show add32 s.numPeers 1 = wrap32 (s.peers ++ [s.nextPeer]).length
    rw [List.length_append,hcount]
    simp only [add32,wrap32,List.length_singleton]
    omega

theorem join_peer (h : s.roster.Census) (hp : p ∈ s.peers) (q : Peer) : (s.join q).peer p = s.peer p :=
  Function.update_of_ne (Nat.ne_of_lt (h.lt p hp)) _ _

theorem renewed_join (h : s.roster.Census) {q : Peer} (hlast : q.lastrecv = 0) (hbit : q.bitfield = none) :
    s.roster.Renewed (s.join q).roster := by
  refine ⟨Nat.le_succ _,?_⟩
  intro p hp
  rcases List.mem_append.mp hp with hp | hp
  · left
    simp only [Session.roster,join_peer h hp,and_self,and_true]
    exact hp
  · right
    rw [List.mem_singleton.mp hp]
    refine ⟨le_refl _,?_⟩
    simp only [Session.roster,Session.join,Function.update_self,Peer.mask]
    exact ⟨hlast,hbit⟩

end Changes

section Callbacks
variable {sha1 : Bytes → Bytes} {env : Env} {s s' t : Session} {p : PeerId}

/-- The peer has been silent for too long, as far as the session knows. -/
def overdue (env : Env) (q : Peer) : Bool :=
  (q.state.bitfield || q.state.established) && decide ((env.now : ℤ) - q.lastrecv ≥ peerCommsThreshold)

/-- The turn of a peer in a tick reaps it, kills it, or serves it. -/
theorem schedulerPeer_turn (h : schedulerPeer env s p = .ok s') :
    (s.peer p).state.dead = true ∧ s' = dropPeer s p ∨
      (s.peer p).state.dead = false ∧ overdue env (s.peer p) = true ∧ s' = killPeer s p ∨
      (s.peer p).state.dead = false ∧ overdue env (s.peer p) = false ∧
        ∃ t, schedulerDequeueUploads env s p = .ok t ∧ schedulerFillRequests env t p = .ok s' := by
  unfold schedulerPeer at h
  cases hdead : (s.peer p).state.dead with
  | true =>
    rw [hdead,if_pos rfl] at h
    cases h
    exact .inl ⟨rfl,rfl⟩
  | false =>
    rw [hdead,if_neg Bool.false_ne_true] at h
    right
    cases hover : overdue env (s.peer p) with
    | true =>
      have hkill : schedulerThresholdKill env s p = (killPeer s p,true) := if_pos hover
      rw [hkill] at h
      cases h
      exact .inl ⟨rfl,rfl,rfl⟩
    | false =>
      have hkill : schedulerThresholdKill env s p = (s,false) := if_neg (Bool.eq_false_iff.mp hover)
      rw [hkill] at h
      obtain ⟨t,ht,h⟩ := bind_ok.mp h
      exact .inr ⟨rfl,rfl,t,ht,h⟩

/-- As for the roster, a peer that is served leaves it as it is. -/
theorem schedulerPeer_roster (h : schedulerPeer env s p = .ok s') :
    (s.peer p).state.dead = true ∧ s' = dropPeer s p ∨
      (s.peer p).state.dead = false ∧ overdue env (s.peer p) = true ∧ s' = killPeer s p ∨
      (s.peer p).state.dead = false ∧ overdue env (s.peer p) = false ∧ s'.roster = s.roster := by
  rcases schedulerPeer_turn h with hdrop | hkill | ⟨hdead,hover,t,ht,h⟩
  · exact .inl hdrop
  · exact .inr (.inl hkill)
  · exact .inr (.inr ⟨hdead,hover,(roster_of_chart (chart_schedulerFillRequests h)).trans
      (roster_schedulerDequeueUploads ht)⟩)

/-- What holds of the roster between two events, and what became of the one before. -/
structure Attended (r r' : Roster) : Prop where
  census : r'.Census
  connected : r'.Connected
  renewed : r.Renewed r'

theorem Attended.refl {r : Roster} (h : r.Census) (hc : r.Connected) : Attended r r := ⟨h,hc,.refl r⟩

theorem Attended.trans {r r' r'' : Roster} (h : Attended r r') (h' : Attended r' r'') : Attended r r'' :=
  ⟨h'.census,h'.connected,h.renewed.trans h'.renewed⟩

theorem attended_setState (h : s.roster.Census) (hc : s.roster.Connected) (f : PeerState → PeerState) :
    Attended s.roster (s.setState p f).roster := by
  refine ⟨⟨h.nodup,h.lt,h.count⟩,?_,renewed_setPeer s p rfl rfl⟩
  intro q hq
  by_cases he : q = p
  · subst he
    simpa only [Session.roster,Session.setState,Session.setPeer_self,Peer.mask] using hc q hq
  · simpa only [Session.roster,Session.setState,Session.setPeer_ne _ _ _ he] using hc q hq

theorem attended_schedulerPeer (h : s.roster.Census) (hc : s.roster.Connected) (hp : p ∈ s.peers)
    (hs : schedulerPeer env s p = .ok s') : Attended s.roster s'.roster := by
  rcases schedulerPeer_roster hs with ⟨-,rfl⟩ | ⟨-,-,rfl⟩ | ⟨-,-,hr⟩
  · exact ⟨census_dropPeer h hp,connected_dropPeer h hc,renewed_dropPeer s p⟩
  · exact attended_setState h hc _
  · rw [hr]
    exact .refl h hc

/-- A turn takes at most its own peer off the list. -/
theorem schedulerPeer_mem {q : PeerId} (hq : q ∈ s.peers) (hne : q ≠ p) (hs : schedulerPeer env s p = .ok s') :
    q ∈ s'.peers := by
  rcases schedulerPeer_roster hs with ⟨-,rfl⟩ | ⟨-,-,rfl⟩ | ⟨-,-,hr⟩
  · exact (List.mem_erase_of_ne hne).mpr hq
  · exact hq
  · rwa [show s'.peers = s.peers from congrArg Roster.peers hr]

/-- The turns of all peers. -/
theorem attended_schedulerPeers (h : s.roster.Census) (hc : s.roster.Connected)
    (hs : s.peers.foldlM (schedulerPeer env) s = .ok s') : Attended s.roster s'.roster := by
  have hall := foldlM_rest (P := fun rest t => Attended s.roster t.roster ∧ rest.Nodup ∧ ∀ q ∈ rest, q ∈ t.peers)
    ?_ ⟨.refl h hc,h.nodup,fun q hq => hq⟩ hs
  · exact hall.1
  · rintro p rest u u' ⟨hatt,hnodup,hmem⟩ hu
    obtain ⟨hp,hrest⟩ := List.nodup_cons.mp hnodup
    refine ⟨hatt.trans (attended_schedulerPeer hatt.census hatt.connected (hmem p List.mem_cons_self) hu),hrest,?_⟩
    intro q hq
    have hne : q ≠ p := fun he => hp (he ▸ hq)
    exact schedulerPeer_mem (hmem q (List.mem_cons_of_mem p hq)) hne hu

/-- What follows the turns of the peers is chores. -/
theorem scheduler_chart (h : scheduler env s = .ok s') :
    ∃ t, s.peers.foldlM (schedulerPeer env) s = .ok t ∧ s'.chart = t.chart := by
  obtain ⟨t,u,v,ht,hu,hv,h⟩ := scheduler_cases h
  refine ⟨t,ht,?_⟩
  have hvu : v.chart = u.chart := by
    rcases hv with rfl | hv
    · rfl
    · exact chart_schedulerEndgameAlgorithm hv
  have hs'v : s'.chart = v.chart := by
    rcases h with rfl | h
    · rfl
    · exact chart_announce h
  exact hs'v.trans (hvu.trans (chart_schedulerChokeAlgorithm hu))

/-- A touched peer keeps its place and its descriptor. -/
theorem Touches.census {n : ℕ} {renew : Bool} (h : Touches env n renew s p s') (hs : s.roster.Census) :
    s'.roster.Census := by
  obtain ⟨q,hq⟩ := h.rest
  rw [hq]
  exact ⟨hs.nodup,hs.lt,hs.count⟩

/-- The other peers of a callback that touches one. -/
theorem Touches.mask_ne {n : ℕ} {renew : Bool} {q : PeerId} (h : Touches env n renew s p s') (hq : q ≠ p) :
    (s'.peer q).mask = (s.peer q).mask := by
  obtain ⟨q',hq'⟩ := h.rest
  have hpeer := congrFun (congrArg Roster.peer hq') q
  simpa only [Session.roster,Session.setPeer_ne _ _ _ hq] using hpeer

theorem Touches.connected {n : ℕ} {renew : Bool} (h : Touches env n renew s p s') (hc : s.roster.Connected) :
    s'.roster.Connected := by
  obtain ⟨q',hq'⟩ := h.rest
  intro q hq
  have hmem : q ∈ s.peers := by
    rw [hq'] at hq
    exact hq
  have hold : (s.peer q).connfd = true := hc q hmem
  show (s'.peer q).connfd = true
  by_cases he : q = p
  · subst he
    rw [h.peer.connfd,hold]
  · rw [(mask_eq (h.mask_ne he)).2.1,hold]

/-- One turn of the connecting loop: what it leaves on the list holds a descriptor. -/
theorem connectNew_roster (env : Env) (s : Session) (p : PeerId) :
    (s.peer p).connfd = true ∧ connectNew env s p = s ∨
      connectNew env s p = dropPeer (s.setState p (fun b => { b with handshake1 := true })) p ∨
        (connectNew env s p).roster = (s.setPeer p (fun q => { q with
          connfd := true, state := { q.state with handshake1 := true } })).roster := by
  unfold connectNew
  split
  · rename_i hfd
    exact .inl ⟨hfd,rfl⟩
  · dsimp only
    split
    · exact .inr (.inl rfl)
    · refine .inr (.inr ((roster_of_chart (chart_networkPeerHandshake env _ p)).trans ?_))
      simp only [Session.setState,Session.setPeer_setPeer]

/-- The connecting loop, with `rest` still to be looked at. -/
structure Connecting (r : Roster) (rest : List PeerId) (s : Session) : Prop where
  census : s.roster.Census
  renewed : r.Renewed s.roster
  nodup : rest.Nodup
  mem : ∀ q ∈ rest, q ∈ s.peers
  connected : ∀ q ∈ s.peers, q ∉ rest → (s.peer q).connfd = true

theorem Connecting.drop {r : Roster} {rest : List PeerId} (h : Connecting r (p :: rest) s) :
    Connecting r rest (dropPeer s p) := by
  obtain ⟨hp,hrest⟩ := List.nodup_cons.mp h.nodup
  refine ⟨census_dropPeer h.census (h.mem p List.mem_cons_self),h.renewed.trans (renewed_dropPeer s p),hrest,?_,?_⟩
  · intro q hq
    have hne : q ≠ p := fun he => hp (he ▸ hq)
    exact (List.mem_erase_of_ne hne).mpr (h.mem q (List.mem_cons_of_mem p hq))
  · intro q hq hnot
    obtain ⟨hne,hmem⟩ := h.census.nodup.mem_erase_iff.mp hq
    have hpeer : ((dropPeer s p).peer q) = s.peer q :=
      Session.setPeer_ne s p (fun q => { q with uls := [], connfd := false }) hne
    rw [hpeer]
    exact h.connected q hmem (by simp [hne,hnot])

theorem Connecting.set {r : Roster} {rest : List PeerId} {f : Peer → Peer} (h : Connecting r rest s)
    (hlast : (f (s.peer p)).lastrecv = (s.peer p).lastrecv) (hbit : (f (s.peer p)).bitfield = (s.peer p).bitfield)
    (hfd : (f (s.peer p)).connfd = true ∨ p ∈ rest) : Connecting r rest (s.setPeer p f) := by
  refine ⟨⟨h.census.nodup,h.census.lt,h.census.count⟩,h.renewed.trans (renewed_setPeer s p hlast hbit),h.nodup,h.mem,?_⟩
  intro q hq hnot
  by_cases he : q = p
  · subst he
    rw [Session.setPeer_self]
    exact hfd.resolve_right hnot
  · rw [Session.setPeer_ne _ _ _ he]
    exact h.connected q hq hnot

theorem Connecting.done {r : Roster} {rest : List PeerId} (h : Connecting r (p :: rest) s)
    (hfd : (s.peer p).connfd = true) : Connecting r rest s := by
  refine ⟨h.census,h.renewed,(List.nodup_cons.mp h.nodup).2,fun q hq => h.mem q (List.mem_cons_of_mem p hq),?_⟩
  intro q hq hnot
  by_cases he : q = p
  · rw [he,hfd]
  · exact h.connected q hq (by simp [he,hnot])

theorem Connecting.of_roster {r : Roster} {rest : List PeerId} (h : Connecting r rest s) (ht : t.roster = s.roster) :
    Connecting r rest t := by
  have hpeers : t.peers = s.peers := congrArg Roster.peers ht
  refine ⟨by rw [ht]; exact h.census,by rw [ht]; exact h.renewed,h.nodup,by rw [hpeers]; exact h.mem,?_⟩
  intro q hq hnot
  have hmask : (t.peer q).mask = (s.peer q).mask := congrFun (congrArg Roster.peer ht) q
  rw [(mask_eq hmask).2.1]
  exact h.connected q (hpeers ▸ hq) hnot

theorem Connecting.turn {r : Roster} {rest : List PeerId} (h : Connecting r (p :: rest) s) :
    Connecting r rest (connectNew env s p) := by
  rcases connectNew_roster env s p with ⟨hfd,heq⟩ | heq | heq
  · rw [heq]
    exact h.done hfd
  · rw [heq]
    have hset : Connecting r (p :: rest) (s.setState p (fun b => { b with handshake1 := true })) :=
      h.set rfl rfl (.inr List.mem_cons_self)
    exact hset.drop
  · have hset : Connecting r (p :: rest) (s.setPeer p (fun q => { q with
        connfd := true, state := { q.state with handshake1 := true } })) := h.set rfl rfl (.inl rfl)
    exact (hset.done (by rw [Session.setPeer_self])).of_roster heq

theorem networkPeerlistAddPeer_roster (s : Session) (addr : ℕ) : networkPeerlistAddPeer s addr = s ∨
    networkPeerlistAddPeer s addr = s.join (networkPeerCreate addr) := by
  unfold networkPeerlistAddPeer
  split
  · exact .inl rfl
  · exact .inr rfl

theorem attended_networkPeerlistUpdate (h : s.roster.Census) {addrs : List ℕ}
    (ht : networkPeerlistUpdate env s addrs = .ok t) :
    Attended s.roster t.roster := by
  have hadd : ∀ (l : List ℕ) (u : Session), u.roster.Census →
      (l.foldl networkPeerlistAddPeer u).roster.Census ∧
          u.roster.Renewed (l.foldl networkPeerlistAddPeer u).roster := by
    intro l
    induction l with
    | nil => exact fun u hu => ⟨hu,.refl _⟩
    | cons a l ih =>
      intro u hu
      rw [List.foldl_cons]
      rcases networkPeerlistAddPeer_roster u a with heq | heq
      · rw [heq]
        exact ih u hu
      · rw [heq]
        obtain ⟨hcensus,hrenewed⟩ := ih _ (census_join hu (networkPeerCreate a))
        exact ⟨hcensus,(renewed_join hu rfl rfl).trans hrenewed⟩
  obtain ⟨hcensus,hrenewed⟩ := hadd addrs s h
  have hstart : Connecting s.roster (addrs.foldl networkPeerlistAddPeer s).peers
      (addrs.foldl networkPeerlistAddPeer s) :=
    ⟨hcensus,hrenewed,hcensus.nodup,fun _ hq => hq,fun q hq hnot => (hnot hq).elim⟩
  have hend : Connecting s.roster [] t := by
    rw [networkPeerlistUpdate_ok ht]
    exact foldl_rest (P := Connecting s.roster) (fun p rest u hu => hu.turn) hstart
  exact ⟨hend.census,fun q hq => hend.connected q hq List.not_mem_nil,hend.renewed⟩

theorem attended_networkHandlePeerConnect (h : s.roster.Census) (hc : s.roster.Connected) (addr : ℕ) :
    Attended s.roster (networkHandlePeerConnect env s addr).roster := by
  have hr : (networkHandlePeerConnect env s addr).roster = (s.join { networkPeerCreate addr with
      connfd := true, state := { (networkPeerCreate addr).state with handshake1 := true } }).roster :=
    roster_of_chart (chart_networkPeerHandshake env _ _)
  rw [hr]
  refine ⟨census_join h _,?_,renewed_join h rfl rfl⟩
  intro q hq
  rcases List.mem_append.mp hq with hq | hq
  · have hold := hc q hq
    simp only [Session.roster,join_peer h hq] at hold ⊢
    exact hold
  · rw [List.mem_singleton.mp hq]
    simp only [Session.roster,Session.join,Function.update_self,Peer.mask]

/-- What one event does to the roster: input from a peer touches that peer, and every other
event keeps the bit fields and the times of last receipt. -/
theorem step_roster (h : s.roster.Census) (hc : s.roster.Connected) {e : Event} (hs : step sha1 s (env,e) = .ok s') :
    (∀ p ∈ s.peers, ∀ avail, e ≠ .response p avail) ∧ Attended s.roster s'.roster ∨
      ∃ p avail, e = .response p avail ∧ p ∈ s.peers ∧ Touches env s.tp.numPieces (renews env s p avail) s p s' := by
  have hother : (∀ p avail, e ≠ .response p avail) → Attended s.roster s'.roster →
      (∀ p ∈ s.peers, ∀ avail, e ≠ .response p avail) ∧ Attended s.roster s'.roster ∨
        ∃ p avail, e = .response p avail ∧ p ∈ s.peers ∧ Touches env s.tp.numPieces (renews env s p avail) s p s' :=
    fun he hatt => .inl ⟨fun p _ => he p,hatt⟩
  cases e with
  | response p avail =>
    simp only [step] at hs
    split at hs
    · rename_i hp
      exact .inr ⟨p,avail,rfl,hp,touches_peerResponse hs⟩
    · rename_i hp
      cases hs
      refine .inl ⟨?_,.refl h hc⟩
      rintro q hq avail' ⟨⟩
      exact hp hq
  | error p =>
    cases hs
    refine hother (fun _ _ he => by cases he) ?_
    split
    · exact attended_setState h hc _
    · exact .refl h hc
  | keepalive p =>
    cases hs
    refine hother (fun _ _ he => by cases he) ?_
    split
    · rw [networkPeerWriteKeepalive,roster_networkPeerWrite]
      exact .refl h hc
    · exact .refl h hc
  | accept addr =>
    cases hs
    exact hother (fun _ _ he => by cases he) (attended_networkHandlePeerConnect h hc addr)
  | tracker addrs =>
    simp only [step] at hs
    obtain ⟨t,ht,hs⟩ := bind_ok.mp hs
    cases hs
    refine hother (fun _ _ he => by cases he) ?_
    cases addrs with
    | none =>
      cases ht
      exact .refl h hc
    | some as =>
      have hupd : Attended s.roster t.roster := attended_networkPeerlistUpdate h ht
      exact hupd
  | announceTimer =>
    simp only [step] at hs
    refine hother (fun _ _ he => by cases he) ?_
    split at hs
    · cases hs
      exact .refl h hc
    · rw [roster_of_chart (chart_announce hs)]
      exact .refl h hc
  | scheduler =>
    obtain ⟨t,ht,hr⟩ := scheduler_chart hs
    have hatt := attended_schedulerPeers h hc ht
    rw [← roster_of_chart hr] at hatt
    exact hother (fun _ _ he => by cases he) hatt

end Callbacks

section Runs
variable {sha1 : Bytes → Bytes} {s s' : Session}

theorem step_census {e : Env × Event} (h : s.roster.Census) (hc : s.roster.Connected) (hs : step sha1 s e = .ok s') :
    s'.roster.Census ∧ s'.roster.Connected := by
  obtain ⟨env,e⟩ := e
  rcases step_roster h hc hs with ⟨-,hatt⟩ | ⟨p,avail,-,-,ht⟩
  · exact ⟨hatt.census,hatt.connected⟩
  · exact ⟨ht.census h,ht.connected hc⟩

/-- A property of the session a process starts with that every event keeps holds of every
reachable state. -/
theorem Reachable.rule {b : Boot} {I : Session → Prop}
    (hstart : ∀ tp, b.torrent sha1 = .ok tp → I (.initial tp b.maxfds b.peerid b.seed b.now))
    (hstep : ∀ s e s', Reachable sha1 b s → I s → step sha1 s e = .ok s' → I s') (h : Reachable sha1 b s) : I s := by
  obtain ⟨es,hes⟩ := h
  obtain ⟨s₀,hs₀,hrun⟩ := bind_ok.mp hes
  obtain ⟨tp,htp,hinit⟩ := Boot.session_ok hs₀
  have hreach : ∀ (es : List (Env × Event)) (s : Session), run sha1 s₀ es = .ok s → I s := by
    intro es
    induction es using List.reverseRecOn with
    | nil =>
      rintro s ⟨⟩
      rw [hinit]
      exact hstart tp htp
    | append_singleton es e ih =>
      intro s hrun
      rw [run,List.foldlM_append,bind_ok] at hrun
      obtain ⟨t,ht,hrun⟩ := hrun
      rw [List.foldlM_cons,bind_ok] at hrun
      obtain ⟨u,hu,hrun⟩ := hrun
      cases hrun
      exact hstep t e _ ⟨es,bind_ok.mpr ⟨s₀,hs₀,ht⟩⟩ (ih t ht) hu
  exact hreach es s hrun

theorem Reachable.step {b : Boot} {s s' : Session} {e : Env × Event} (h : Reachable sha1 b s)
    (hs : Unworkable.step sha1 s e = .ok s') : Reachable sha1 b s' := by
  obtain ⟨es,hes⟩ := h
  obtain ⟨s₀,hs₀,hes⟩ := bind_ok.mp hes
  refine ⟨es ++ [e],bind_ok.mpr ⟨s₀,hs₀,?_⟩⟩
  rw [run,List.foldlM_append]
  refine bind_ok.mpr ⟨s,hes,?_⟩
  rw [List.foldlM_cons,hs]
  rfl

theorem initial_census (tp : Torrent) (maxfds : ℕ) (peerid : Bytes) (seed : Bool) (now : ℕ) :
    (Session.initial tp maxfds peerid seed now).roster.Census ∧
      (Session.initial tp maxfds peerid seed now).roster.Connected :=
  ⟨⟨List.nodup_nil,nofun,rfl⟩,nofun⟩

theorem Reachable.census {b : Boot} (h : Reachable sha1 b s) : s.roster.Census ∧ s.roster.Connected :=
  h.rule (fun tp _ => initial_census tp b.maxfds b.peerid b.seed b.now) (fun _ _ _ _ hs => step_census hs.1 hs.2)

/-- What the kernel promises of open descriptors: they are distinct non-negative ints. -/
structure Descriptors (s : Session) (fd : PeerId → ℕ) : Prop where
  int : ∀ p ∈ s.peers, (s.peer p).connfd = true → fd p < 2147483648
  distinct : ∀ p ∈ s.peers, ∀ q ∈ s.peers, (s.peer p).connfd = true → (s.peer q).connfd = true → fd p = fd q → p = q

theorem Descriptors.length_le {fd : PeerId → ℕ} (h : Descriptors s fd) (hs : s.roster.Census)
    (hc : s.roster.Connected) :
    s.peers.length ≤ 2147483648 := by
  have hnodup : (s.peers.map fd).Nodup :=
    hs.nodup.map_on (fun p hp q hq => h.distinct p hp q hq (hc p hp) (hc q hq))
  have hsub : s.peers.map fd ⊆ List.range 2147483648 := by
    intro n hn
    obtain ⟨p,hp,rfl⟩ := List.mem_map.mp hn
    exact List.mem_range.mpr (h.int p hp (hc p hp))
  simpa using (hnodup.subperm hsub).length_le

theorem schedulerPeers_subset {env : Env} (h : s.peers.foldlM (schedulerPeer env) s = .ok s') : s'.peers ⊆ s.peers := by
  refine foldlM_rel (R := fun s s' : Session => s'.peers ⊆ s.peers) (fun _ => List.Subset.refl _)
    (fun h h' => List.Subset.trans h' h) s.peers ?_ h
  intro t t' p _ ht
  rcases schedulerPeer_roster ht with ⟨-,rfl⟩ | ⟨-,-,rfl⟩ | ⟨-,-,hr⟩
  · exact List.erase_subset
  · exact List.Subset.refl _
  · rw [show t'.peers = t.peers from congrArg Roster.peers hr]
    exact List.Subset.refl _

/-- The counter is the number of peers on the list, and when a tick comes to rank the peers it ranks each peer on
the list once and finds as many as it counted. -/
structure PeersCounted (s : Session) : Prop where
  count : s.numPeers = s.peers.length
  ranks : ∀ env t, s.peers.foldlM (schedulerPeer env) s = .ok t → ∃ rank, schedulerPeerSpeedrank env t = .ok rank ∧
    rank.length = t.numPeers ∧ (rank.map PeerCounter.peer).Perm t.peers

/-- So it is in every reachable state. -/
theorem Reachable.peersCounted {b : Boot} (h : Reachable sha1 b s) {fd : PeerId → ℕ} (hfd : Descriptors s fd) :
    PeersCounted s := by
  obtain ⟨hcensus,hconnected⟩ := h.census
  have hlen := hfd.length_le hcensus hconnected
  have hcount : s.numPeers = wrap32 s.peers.length := hcensus.count
  refine ⟨by rw [hcount]; unfold wrap32; omega,?_⟩
  intro env t ht
  have hatt := attended_schedulerPeers hcensus hconnected ht
  have hle := (hatt.census.nodup.subperm (schedulerPeers_subset ht)).length_le
  have hle' : t.peers.length ≤ s.peers.length := hle
  have hcount' : t.numPeers = t.peers.length := by
    have hwrap : t.numPeers = wrap32 t.peers.length := hatt.census.count
    rw [hwrap]
    unfold wrap32
    omega
  unfold schedulerPeerSpeedrank
  rw [if_neg (by rw [hcount']; exact fun hne => hne rfl)]
  refine ⟨_,rfl,?_,?_⟩
  · rw [(env.qsortPeers.sorts.perm _ _).length_eq,List.length_map,hcount']
  · refine ((env.qsortPeers.sorts.perm _ _).map _).trans ?_
    rw [List.map_map]
    exact List.Perm.of_eq (List.map_id _)

/-- A peer is evicted: when a turn comes, the counter has come to the limit. -/
def Evicts (env : Env) (s : Session) (addrs : List ℕ) : Prop :=
  let t := addrs.foldl networkPeerlistAddPeer s
  ∃ i, i < t.peers.length ∧ AtLimit ((t.peers.take i).foldl (connectNew env) t)

instance (env : Env) (s : Session) (addrs : List ℕ) : Decidable (Evicts env s addrs) :=
  inferInstanceAs (Decidable (∃ i, i < _ ∧ _))

theorem connectPeers_ok_iff {env : Env} (l : List PeerId) : (∃ t, l.foldlM (connectPeer env) s = .ok t) ↔
    ¬ ∃ i, i < l.length ∧ AtLimit ((l.take i).foldl (connectNew env) s) := by
  induction l generalizing s with
  | nil => exact iff_of_true ⟨s,rfl⟩ (by rintro ⟨i,hi,-⟩; exact Nat.not_lt_zero i hi)
  | cons p l ih =>
    rw [List.foldlM_cons]
    by_cases hfull : AtLimit s
    · rw [connectPeer,if_pos hfull]
      refine iff_of_false ?_ (not_not.mpr ⟨0,Nat.succ_pos _,hfull⟩)
      rintro ⟨t,ht⟩
      cases ht
    · rw [connectPeer,if_neg hfull,ok_bind,ih,not_iff_not]
      constructor
      · rintro ⟨i,hi,hlimit⟩
        exact ⟨i + 1,Nat.succ_lt_succ hi,hlimit⟩
      · rintro ⟨i,hi,hlimit⟩
        cases i with
        | zero => exact absurd hlimit hfull
        | succ i => exact ⟨i,Nat.lt_of_succ_lt_succ hi,hlimit⟩

def NoEviction : Session → Env × Event → Prop
  | s,(env,.tracker (some addrs)) => ¬ Evicts env s addrs
  | _,_ => True

instance : ∀ s e, Decidable (NoEviction s e)
  | s,(env,.tracker (some addrs)) => inferInstanceAs (Decidable (¬ Evicts env s addrs))
  | _,(_,.tracker none) | _,(_,.response _ _) | _,(_,.error _) | _,(_,.keepalive _) | _,(_,.accept _) |
    _,(_,.announceTimer) | _,(_,.scheduler) => .isTrue trivial

/-- If the event is a list of the tracker, its peers are taken over. -/
def TakesOver : Session → Env × Event → Prop
  | s,(env,.tracker (some addrs)) => ∃ t, networkPeerlistUpdate env s addrs = .ok t
  | _,_ => True

theorem takesOver_iff (e : Env × Event) : TakesOver s e ↔ NoEviction s e := by
  obtain ⟨env,e⟩ := e
  cases e with
  | tracker addrs =>
    cases addrs with
    | none => exact Iff.rfl
    | some addrs => exact connectPeers_ok_iff _
  | _ => exact Iff.rfl

/-- In all states between the events of a run the peers are counted, and the tracker's peers are taken over. -/
def CountsPeers (sha1 : Bytes → Bytes) : Session → List (Env × Event) → Prop
  | s,[] => PeersCounted s
  | s,e :: es => PeersCounted s ∧ TakesOver s e ∧ ∀ s', step sha1 s e = .ok s' → CountsPeers sha1 s' es

theorem CountsPeers.takesOver {es : List (Env × Event)} {e : Env × Event} (h : CountsPeers sha1 s (es ++ [e]))
    (hs : run sha1 s es = .ok s') : TakesOver s' e := by
  induction es generalizing s with
  | nil =>
    cases hs
    exact h.2.1
  | cons e' es ih =>
    rw [run,List.foldlM_cons] at hs
    obtain ⟨t,ht,hs⟩ := bind_ok.mp hs
    exact ih (h.2.2 t ht) hs

/-- The peers are counted throughout a run exactly if it evicts nobody. The kernel keeps the descriptors apart. -/
theorem peers_counted_iff (sha1 : Bytes → Bytes) (b : Boot) (s : Session) (h : Reachable sha1 b s)
    (es : List (Env × Event))
    (hfd : ∀ es₁, es₁ <+: es → ∀ t, run sha1 s es₁ = .ok t → ∃ fd, Descriptors t fd) :
    CountsPeers sha1 s es ↔ RunMeets sha1 NoEviction s es := by
  obtain ⟨fd,hfd₀⟩ := hfd [] List.nil_prefix s rfl
  have hcounted := h.peersCounted hfd₀
  induction es generalizing s fd with
  | nil => exact iff_of_true hcounted trivial
  | cons e es ih =>
    have hnext : ∀ s', step sha1 s e = .ok s' → (CountsPeers sha1 s' es ↔ RunMeets sha1 NoEviction s' es) := by
      intro s' hs'
      have hfd' : ∀ es₁, es₁ <+: es → ∀ t, run sha1 s' es₁ = .ok t → ∃ fd, Descriptors t fd := by
        intro es₁ hpre t ht
        refine hfd (e :: es₁) (List.cons_prefix_cons.mpr ⟨rfl,hpre⟩) t ?_
        rw [run,List.foldlM_cons,hs',ok_bind]
        exact ht
      obtain ⟨fd',hfd₀'⟩ := hfd' [] List.nil_prefix s' rfl
      exact ih s' (h.step hs') hfd' fd' hfd₀' ((h.step hs').peersCounted hfd₀')
    rw [CountsPeers,RunMeets,and_iff_right hcounted,takesOver_iff]
    exact and_congr_right' (forall_congr' fun s' => forall_congr' fun hs' => hnext s' hs')

/-- Two peers connect to a client, and the tracker names one of them and two more. -/
def namedRun : List (Env × Event) :=
  [(.plain 1000,.accept 1),(.plain 1000,.accept 2),(.plain 1001,.tracker (some [2,3,4]))]

theorem peers_counted_named : ∃ s s', Reachable sha1ZeroByte (.oneByte (List.replicate 20 0) 1) s ∧
    CountsPeers sha1ZeroByte s namedRun ∧ run sha1ZeroByte s namedRun = .ok s' ∧ s'.peers = [0,1,2,3] ∧
      s'.numPeers = 4 := by
  have hrun : ((Boot.oneByte (List.replicate 20 0) 1).run sha1ZeroByte []).toOption.map (fun s =>
      namedRun.inits.all (fun es => (run sha1ZeroByte s es).toOption.all fun t => t.peers.all (· < 4)) &&
      runMeets sha1ZeroByte NoEviction s namedRun &&
      ((run sha1ZeroByte s namedRun).toOption.map (fun t => decide (t.peers = [0,1,2,3] ∧ t.numPeers = 4)) ==
        some true)) =
      some true := by decide +kernel
  obtain ⟨s,hs,hP⟩ := exists_reachable hrun
  obtain ⟨hP,hend⟩ := Bool.and_eq_true_iff.mp hP
  obtain ⟨hfew,hmeets⟩ := Bool.and_eq_true_iff.mp hP
  obtain ⟨s',hs',hend⟩ := exists_ok (eq_of_beq hend)
  obtain ⟨hpeers,hcount⟩ := of_decide_eq_true hend
  refine ⟨s,s',hs,(peers_counted_iff sha1ZeroByte _ s hs namedRun ?_).mpr (runMeets_iff.mp hmeets),hs',hpeers,hcount⟩
  intro es₁ hpre t ht
  have hall := List.all_eq_true.mp hfew es₁ ((List.mem_inits _ _).mpr hpre)
  rw [ht] at hall
  have hlt : ∀ p ∈ t.peers, p < 4 := fun p hp => of_decide_eq_true (List.all_eq_true.mp hall p hp)
  refine ⟨fun p => p + 5,⟨?_,fun p _ q _ _ _ he => Nat.add_right_cancel he⟩⟩
  intro p hp _
  exact Nat.lt_of_lt_of_le (Nat.add_lt_add_right (hlt p hp) 5) (by decide)

/-- As many peers as 128 descriptors leave room for. -/
def crowdedRun : List (Env × Event) := (List.range 123).map fun i => (.plain 1000,.accept i)

/-- The next list of the tracker, even an empty one, evicts a peer. -/
theorem evicted_peer_freed : ∃ s s', (Boot.oneByte (List.replicate 20 0) 1).session sha1ZeroByte = .ok s ∧
    run sha1ZeroByte s crowdedRun = .ok s' ∧ s'.numPeers = 123 ∧
    networkPeerlistUpdate (.plain 1001) s' [] = .error .wild ∧
    ¬ CountsPeers sha1ZeroByte s (crowdedRun ++ [(.plain 1001,.tracker (some []))]) := by
  have hrun : ((Boot.oneByte (List.replicate 20 0) 1).session sha1ZeroByte).toOption.map (fun s =>
      (run sha1ZeroByte s crowdedRun).toOption.map (fun t =>
        decide (t.numPeers = 123 ∧ t.peers.head? = some 0 ∧ AtLimit t)) == some true) = some true := by decide +kernel
  obtain ⟨s,hs,hP⟩ := exists_ok hrun
  obtain ⟨s',hs',hP⟩ := exists_ok (eq_of_beq hP)
  obtain ⟨hcount,hhead,hlimit⟩ := of_decide_eq_true hP
  obtain ⟨rest,hpeers⟩ := List.head?_eq_some_iff.mp hhead
  have hwild : networkPeerlistUpdate (.plain 1001) s' [] = .error .wild := by
    rw [networkPeerlistUpdate,List.foldl_nil,hpeers,List.foldlM_cons,connectPeer,if_pos hlimit]
    rfl
  refine ⟨s,s',hs,hs',hcount,hwild,?_⟩
  intro hcounts
  obtain ⟨t,ht⟩ : TakesOver s' (.plain 1001,.tracker (some [])) := hcounts.takesOver hs'
  rw [hwild] at ht
  cases ht

end Runs

end Unworkable
