import Unworkable.Session.Writes

/-! # A peer while others are served

The callbacks that do not read from a peer leave it as it is, apart from the bookkeeping of its
traffic, unless they kill it or take it off the list. A peer gets its number and its handshake
in one callback.
-/
namespace Unworkable
open Library

section Mask
variable {q q' : Peer}

/-- The bits of a peer that its traffic does not touch. -/
theorem mask_state (h : q'.mask = q.mask) : q'.state.handshake1 = q.state.handshake1 ∧
    q'.state.handshake2 = q.state.handshake2 ∧ q'.state.sendbitfield = q.state.sendbitfield ∧
    q'.state.dead = q.state.dead ∧ q'.rxpending = q.rxpending ∧ q'.track = q.track := by
  simp only [Peer.mask,Peer.mk.injEq,PeerState.mk.injEq] at h
  simp only [Peer.track,Prod.mk.injEq]
  tauto

theorem DeadPeer.of_mask (hq : DeadPeer q) (h : q'.mask = q.mask) : DeadPeer q' := by
  obtain ⟨h₁,h₂,hsb,hd,-,-⟩ := mask_state h
  exact ⟨hd.trans hq.dead,h₁.trans hq.handshake1,h₂.trans hq.handshake2,hsb.trans hq.sendbitfield⟩

theorem Waiting.of_mask (hq : Waiting q) (h : q'.mask = q.mask) : Waiting q' := by
  obtain ⟨h₁,h₂,hsb,-,hz,-⟩ := mask_state h
  exact ⟨h₁.trans hq.handshake1,h₂.trans hq.handshake2,hsb.trans hq.sendbitfield,hz.trans hq.rxpending⟩

theorem Fresh.of_mask (hq : Fresh q) (h : q'.mask = q.mask) : Fresh q' := by
  obtain ⟨h₁,-,hsb,-,hz,-⟩ := mask_state h
  exact ⟨h₁.trans hq.handshake1,hsb.trans hq.sendbitfield,hz.trans hq.rxpending⟩

end Mask

theorem deadPeer_killPeer (s : Session) (p : PeerId) : DeadPeer ((killPeer s p).peer p) := by
  rw [killPeer,Session.setState,Session.setPeer_self]
  exact ⟨rfl,rfl,rfl,rfl⟩

/-- Where `r` is still on the list it was there before, and it is as it was or has been killed. -/
structure Stays (r : PeerId) (s s' : Session) : Prop where
  next : s.nextPeer ≤ s'.nextPeer
  peer : r ∈ s'.peers → r ∈ s.peers ∧ ((s'.peer r).mask = (s.peer r).mask ∨ DeadPeer (s'.peer r))

namespace Stays
variable {env : Env} {s s' s'' : Session} {p r : PeerId}

theorem of_roster (h : s'.roster = s.roster) : Stays r s s' where
  next := (congrArg Roster.nextPeer h).ge
  peer hr := by
    have hpeers : s'.peers = s.peers := congrArg Roster.peers h
    exact ⟨hpeers ▸ hr,.inl (congrFun (congrArg Roster.peer h) r)⟩

theorem refl (r : PeerId) (s : Session) : Stays r s s := of_roster rfl

theorem trans (h : Stays r s s') (h' : Stays r s' s'') : Stays r s s'' := by
  refine ⟨h.next.trans h'.next,?_⟩
  intro hr
  obtain ⟨hr',hsame' | hdead'⟩ := h'.peer hr
  · obtain ⟨hr'',hsame | hdead⟩ := h.peer hr'
    · exact ⟨hr'',.inl (hsame'.trans hsame)⟩
    · exact ⟨hr'',.inr (hdead.of_mask hsame')⟩
  · exact ⟨(h.peer hr').1,.inr hdead'⟩

theorem setPeer_ne (s : Session) (f : Peer → Peer) (hne : r ≠ p) : Stays r s (s.setPeer p f) := by
  refine ⟨le_refl _,fun hr => ⟨hr,.inl ?_⟩⟩
  rw [Session.setPeer_ne _ _ _ hne]

theorem killPeer (s : Session) (p : PeerId) : Stays r s (killPeer s p) := by
  by_cases h : r = p
  · rw [h]
    exact ⟨le_refl _,fun hr => ⟨hr,.inr (deadPeer_killPeer s p)⟩⟩
  · exact setPeer_ne s (fun q => { q with state := .deadOnly }) h

theorem dropPeer (hs : s.peers.Nodup) (p : PeerId) : Stays r s (dropPeer s p) := by
  refine ⟨le_refl _,?_⟩
  intro hr
  obtain ⟨hne,hr⟩ := hs.mem_erase_iff.mp hr
  have hset : Stays r s (s.setPeer p (fun q => { q with uls := [], connfd := false })) := setPeer_ne s _ hne
  exact hset.peer hr

theorem join (hr : r < s.nextPeer) (q : Peer) : Stays r s (s.join q) := by
  refine ⟨Nat.le_succ _,?_⟩
  intro hmem
  rcases List.mem_append.mp hmem with hmem | hmem
  · refine ⟨hmem,.inl ?_⟩
    rw [show (s.join q).peer r = s.peer r from Function.update_of_ne (Nat.ne_of_lt hr) _ _]
  · exact absurd (List.mem_singleton.mp hmem) (Nat.ne_of_lt hr)

theorem of_touches {n : ℕ} {renew : Bool} (hne : r ≠ p) (h : Touches env n renew s p s') : Stays r s s' := by
  obtain ⟨q,hq⟩ := h.rest
  have hpeers : s'.peers = s.peers := congrArg Roster.peers hq
  exact ⟨(show s'.nextPeer = s.nextPeer from congrArg Roster.nextPeer hq).ge,fun hr =>
    ⟨hpeers ▸ hr,.inl (h.mask_ne hne)⟩⟩

theorem schedulerPeer (hs : s.peers.Nodup) (h : schedulerPeer env s p = .ok s') : Stays r s s' ∧ s'.peers.Nodup := by
  rcases schedulerPeer_roster h with ⟨-,rfl⟩ | ⟨-,-,rfl⟩ | ⟨-,-,hr⟩
  · exact ⟨dropPeer hs p,hs.erase p⟩
  · exact ⟨killPeer s p,hs⟩
  · exact ⟨of_roster hr,by rwa [show s'.peers = s.peers from congrArg Roster.peers hr]⟩

theorem scheduler (hs : s.peers.Nodup) (h : scheduler env s = .ok s') : Stays r s s' := by
  obtain ⟨t,ht,hchart⟩ := scheduler_chart h
  have hloop := foldlM_rel (R := fun t t' : Session => t.peers.Nodup → Stays r t t' ∧ t'.peers.Nodup)
    (fun t ht => ⟨.refl r t,ht⟩) (fun hab hbc ha => ⟨(hab ha).1.trans (hbc (hab ha).2).1,(hbc (hab ha).2).2⟩) _
    (fun t t' q _ hstep hnodup => schedulerPeer hnodup hstep) ht
  exact (hloop hs).1.trans (of_roster (roster_of_chart hchart))

end Stays

def Session.greeting (s : Session) : Bytes := handshakeBytes s.tp.mi.infoHash (s.peerid.take 20)

/-- A peer that has been sent the handshake and has sent nothing itself. -/
structure Greeted (s : Session) (r : PeerId) : Prop where
  fresh : Fresh (s.peer r)
  unheard : (s.peer r).track = (none,false,false,false)
  stream : s.stream r = [s.greeting]

section Connecting
variable {env : Env} {s s' t : Session} {p r : PeerId}

theorem stream_networkPeerWrite (env : Env) (s : Session) (p r : PeerId) (msg : Bytes) :
    (networkPeerWrite env s p msg).stream r = s.stream r ++ if p = r then [msg] else [] := by
  by_cases h : p = r <;> simp [Session.stream,networkPeerWrite,h]

theorem stream_networkPeerHandshake (env : Env) (s : Session) (p r : PeerId) :
    (networkPeerHandshake env s p).stream r = s.stream r ++ if p = r then [s.greeting] else [] :=
  stream_networkPeerWrite env _ p r _

theorem networkPeerHandshake_peer (env : Env) (s : Session) (p r : PeerId) :
    ((networkPeerHandshake env s p).peer r).mask = (s.peer r).mask :=
  congrFun (congrArg Roster.peer (roster_of_chart (chart_networkPeerHandshake env s p))) r

/-- What connecting a peer leaves alone. -/
theorem connectNew_frame (env : Env) (s : Session) (p : PeerId) : (connectNew env s p).tp = s.tp ∧
    (connectNew env s p).peerid = s.peerid ∧ (connectNew env s p).nextPeer = s.nextPeer ∧
    (s.peers.Nodup → (connectNew env s p).peers.Nodup) ∧ (connectNew env s p).peers ⊆ s.peers := by
  have hdrop (u : Session) (hpeers : u.peers = s.peers) : (s.peers.Nodup → (dropPeer u p).peers.Nodup) ∧
      (dropPeer u p).peers ⊆ s.peers := by
    show (s.peers.Nodup → (u.peers.erase p).Nodup) ∧ u.peers.erase p ⊆ s.peers
    rw [hpeers]
    exact ⟨fun h => h.erase p,List.erase_subset⟩
  unfold connectNew
  split_ifs
  · exact ⟨rfl,rfl,rfl,id,List.Subset.refl _⟩
  · exact ⟨rfl,rfl,rfl,hdrop _ rfl⟩
  · exact ⟨rfl,rfl,rfl,id,List.Subset.refl _⟩

/-- Connecting a peer does nothing to another one. -/
theorem connectNew_other (env : Env) (s : Session) (hne : r ≠ p) : (connectNew env s p).peer r = s.peer r ∧
    (connectNew env s p).stream r = s.stream r ∧ (r ∈ s.peers → r ∈ (connectNew env s p).peers) := by
  have hset : ∀ (u : Session) (f : Peer → Peer), (u.setPeer p f).peer r = u.peer r := fun u f => u.setPeer_ne p f hne
  have hdrop : ∀ u : Session, (dropPeer u p).peer r = u.peer r := fun u =>
    hset u (fun q => { q with uls := [], connfd := false })
  unfold connectNew
  split_ifs
  · exact ⟨rfl,rfl,id⟩
  · exact ⟨(hdrop _).trans (hset s _),rfl,fun h => (List.mem_erase_of_ne hne).mpr h⟩
  · refine ⟨?_,?_,id⟩
    · have hwrite : ∀ (u : Session) (msg : Bytes), (networkPeerWrite env u p msg).peer r = u.peer r :=
        fun u _ => hset u (fun q => { q with lastsend := env.now })
      rw [networkPeerHandshake,hwrite,hset,hset]
      exact hset s _
    · rw [stream_networkPeerHandshake,if_neg (Ne.symm hne),List.append_nil]
      rfl

/-- A peer that is connected already stays so, or it is dropped; one that is new is greeted or dropped. -/
theorem connectNew_self (env : Env) (hs : s.peers.Nodup) (p : PeerId) : p ∉ (connectNew env s p).peers ∨
    (s.peer p).connfd = true ∧ connectNew env s p = s ∨
      (s.peer p).connfd = false ∧ (connectNew env s p).stream p = s.stream p ++ [s.greeting] ∧
        ((connectNew env s p).peer p).mask =
          { s.peer p with connfd := true, state := { (s.peer p).state with handshake1 := true } }.mask := by
  have hdrop : ∀ u : Session, u.peers = s.peers → p ∉ (dropPeer u p).peers := by
    intro u hu hmem
    have hmem' : p ∈ u.peers.erase p := hmem
    rw [hu] at hmem'
    exact (hs.mem_erase_iff.mp hmem').1 rfl
  unfold connectNew
  split_ifs with hfd hfail
  · exact .inr (.inl ⟨hfd,rfl⟩)
  · exact .inl (hdrop _ rfl)
  · refine .inr (.inr ⟨Bool.eq_false_iff.mpr hfd,?_,?_⟩)
    · rw [stream_networkPeerHandshake,if_pos rfl]
      rfl
    · rw [networkPeerHandshake_peer,Session.setPeer_self,Session.setState,Session.setPeer_self]

end Connecting

/-- What a callback other than a read from `r` means for `r`: a peer on the list hears of the piece that is
verified, if there is one, and otherwise stays; one that is new has been greeted. -/
structure Passes (r : PeerId) (s s' : Session) : Prop where
  mi : s'.tp.mi = s.tp.mi
  peerid : s'.peerid = s.peerid
  stays : r < s.nextPeer → Stays r s s'
  hears : r < s.nextPeer → r ∈ s'.peers → ∃ more : List WireMsg, s'.stream r = s.stream r ++ more.map WireMsg.bytes ∧
    (∀ m ∈ more, m.Sized) ∧ Hears s.tp.numPieces s.tp.verified s'.tp.verified more
  joins : s.nextPeer ≤ r → s.stream r = [] →
    s'.nextPeer ≤ r ∧ s'.stream r = [] ∨ r < s'.nextPeer ∧ (r ∉ s'.peers ∨ Greeted s' r)

section Passing
variable {env : Env} {s s' t u : Session} {p r : PeerId}

theorem passes_of_speech (hs : s.roster.Census) (hstays : Stays r s s') (h : Says r s s') : Passes r s s' := by
  have hmi : s'.tp.mi = s.tp.mi ∧ s'.peerid = s.peerid := by
    cases h with
    | nothing h => exact ⟨h.mi,h.peerid⟩
    | piece h hrest => exact ⟨hrest.mi.trans h.torrent.mi,hrest.peerid.trans h.peerid⟩
  refine ⟨hmi.1,hmi.2,fun _ => hstays,fun _ hr => (h.hears hs (hstays.peer hr).1).2.2,?_⟩
  intro hle hnone
  exact .inl ⟨h.nextPeer.trans_le hle,(h.stream_unborn hs hle).trans hnone⟩

theorem greeted_of_new (addr : ℕ) (h : (s.peer r).mask = { networkPeerCreate addr with
    connfd := true, state := { (networkPeerCreate addr).state with handshake1 := true } }.mask)
    (hstream : s.stream r = [s.greeting]) : Greeted s r := by
  obtain ⟨h₁,-,hsb,-,hz,htrack⟩ := mask_state h
  exact ⟨⟨h₁,hsb,hz⟩,htrack,hstream⟩

theorem passes_networkHandlePeerConnect (env : Env) (s : Session) (addr : ℕ) :
    Passes r s (networkHandlePeerConnect env s addr) := by
  generalize hq : { networkPeerCreate addr with
    connfd := true, state := { (networkPeerCreate addr).state with handshake1 := true } } = q
  have heq : networkHandlePeerConnect env s addr = networkPeerHandshake env (s.join q) s.nextPeer := by rw [← hq]; rfl
  have hmask : ∀ x, ((networkPeerHandshake env (s.join q) s.nextPeer).peer x).mask = ((s.join q).peer x).mask :=
    fun x => networkPeerHandshake_peer env (s.join q) s.nextPeer x
  have hstream := stream_networkPeerHandshake env (s.join q) s.nextPeer r
  rw [heq]
  refine ⟨rfl,rfl,?_,?_,?_⟩
  · intro hr
    exact (Stays.join hr q).trans (.of_roster (roster_of_chart (chart_networkPeerHandshake env _ _)))
  · intro hr _
    refine ⟨[],?_,nofun,.nothing nofun⟩
    rw [hstream,if_neg (Nat.ne_of_gt hr)]
    rfl
  · intro hle hnone
    rcases Nat.eq_or_lt_of_le hle with rfl | hlt
    · refine .inr ⟨Nat.lt_succ_self _,.inr (greeted_of_new addr ?_ ?_)⟩
      · rw [hmask,hq,show (s.join q).peer s.nextPeer = q from Function.update_self _ _ _]
      · rw [hstream,if_pos rfl,show (s.join q).stream s.nextPeer = [] from hnone]
        rfl
    · refine .inl ⟨hlt,?_⟩
      rw [hstream,if_neg (Nat.ne_of_lt hlt),show (s.join q).stream r = [] from hnone]
      rfl

/-- The session after the addresses of a tracker have been added: old peers are as they were, and new ones
are not connected yet. -/
structure Added (r : PeerId) (s t : Session) : Prop where
  census : t.roster.Census
  tp : t.tp = s.tp
  peerid : t.peerid = s.peerid
  stream : t.stream r = s.stream r
  next : s.nextPeer ≤ t.nextPeer
  old : r < s.nextPeer → t.peer r = s.peer r ∧ (r ∈ t.peers → r ∈ s.peers)
  new : s.nextPeer ≤ r → r ∈ t.peers → ∃ addr, t.peer r = networkPeerCreate addr

theorem added_networkPeerlistAddPeer {addr : ℕ} (h : Added r s t) : Added r s (networkPeerlistAddPeer t addr) := by
  rcases networkPeerlistAddPeer_roster t addr with heq | heq
  · rw [heq]
    exact h
  · rw [heq]
    refine ⟨census_join h.census _,h.tp,h.peerid,h.stream,h.next.trans (Nat.le_succ _),?_,?_⟩
    · intro hr
      have hlt : r < t.nextPeer := hr.trans_le h.next
      obtain ⟨hpeer,hmem⟩ := h.old hr
      refine ⟨(Function.update_of_ne (Nat.ne_of_lt hlt) _ _).trans hpeer,?_⟩
      intro hr'
      rcases List.mem_append.mp hr' with hr' | hr'
      · exact hmem hr'
      · exact absurd (List.mem_singleton.mp hr') (Nat.ne_of_lt hlt)
    · intro hle hr
      rcases List.mem_append.mp hr with hr | hr
      · obtain ⟨a,ha⟩ := h.new hle hr
        exact ⟨a,(Function.update_of_ne (Nat.ne_of_lt (h.census.lt r hr)) _ _).trans ha⟩
      · rw [List.mem_singleton.mp hr]
        exact ⟨addr,Function.update_self _ _ _⟩

theorem added_networkPeerlistAddPeers (hs : s.roster.Census) (addrs : List ℕ) :
    Added r s (addrs.foldl networkPeerlistAddPeer s) := by
  refine foldl_rel (R := fun t t' : Session => Added r s t → Added r s t') (fun _ h => h) (fun hab hbc h => hbc (hab h))
    addrs (fun t addr _ ht => added_networkPeerlistAddPeer ht) s ?_
  exact ⟨hs,rfl,rfl,rfl,le_refl _,fun _ => ⟨rfl,id⟩,fun hle hr => absurd (hs.lt r hr) (Nat.not_lt.mpr hle)⟩

/-- The connecting loop, with `rest` still to be looked at, as far as `r` is concerned. -/
structure Turning (r : PeerId) (t : Session) (rest : List PeerId) (u : Session) : Prop where
  tp : u.tp = t.tp
  peerid : u.peerid = t.peerid
  next : u.nextPeer = t.nextPeer
  nodup : u.peers.Nodup
  fresh : rest.Nodup
  mem : ∀ q ∈ rest, q ∈ t.peers
  sub : u.peers ⊆ t.peers
  before : r ∈ rest ∨ r ∉ t.peers → u.peer r = t.peer r ∧ u.stream r = t.stream r
  after : r ∉ rest → r ∈ u.peers → (t.peer r).connfd = true ∧ u.peer r = t.peer r ∧ u.stream r = t.stream r ∨
    (t.peer r).connfd = false ∧ u.stream r = t.stream r ++ [t.greeting] ∧
      (u.peer r).mask = { t.peer r with connfd := true, state := { (t.peer r).state with handshake1 := true } }.mask

theorem Turning.turn {rest : List PeerId} (h : Turning r t (p :: rest) u) : Turning r t rest (connectNew env u p) := by
  obtain ⟨hp,hrest⟩ := List.nodup_cons.mp h.fresh
  obtain ⟨htp,hid,hnext,hnodup,hsub⟩ := connectNew_frame env u p
  refine ⟨htp.trans h.tp,hid.trans h.peerid,hnext.trans h.next,hnodup h.nodup,hrest,
    fun q hq => h.mem q (List.mem_cons_of_mem p hq),List.Subset.trans hsub h.sub,?_,?_⟩
  · intro hr
    have hne : r ≠ p := by
      rintro rfl
      exact hr.elim hp (fun hout => hout (h.mem r List.mem_cons_self))
    obtain ⟨hpeer,hstream,-⟩ := connectNew_other env u hne
    rw [hpeer,hstream]
    exact h.before (hr.imp_left (List.mem_cons_of_mem p))
  · intro hr hmem
    by_cases hrp : r = p
    · subst hrp
      obtain ⟨hpeer,hstream⟩ := h.before (.inl List.mem_cons_self)
      have hgreet : u.greeting = t.greeting := by rw [Session.greeting,h.tp,h.peerid]; rfl
      rcases connectNew_self env h.nodup r with hout | ⟨hfd,heq⟩ | ⟨hfd,hs,hm⟩
      · exact absurd hmem hout
      · rw [heq]
        exact .inl ⟨hpeer ▸ hfd,hpeer,hstream⟩
      · rw [hs,hm,hpeer,hstream,hgreet]
        exact .inr ⟨hpeer ▸ hfd,rfl,rfl⟩
    · obtain ⟨hpeer,hstream,-⟩ := connectNew_other env u hrp
      rw [hpeer,hstream]
      exact h.after (by simp [hrp,hr]) (hsub hmem)

theorem passes_networkPeerlistUpdate (hs : s.roster.Census) (hc : s.roster.Connected) {addrs : List ℕ}
    (h : networkPeerlistUpdate env s addrs = .ok s') : Passes r s s' := by
  have hadd : Added r s (addrs.foldl networkPeerlistAddPeer s) := added_networkPeerlistAddPeers hs addrs
  rw [networkPeerlistUpdate_ok h]
  generalize addrs.foldl networkPeerlistAddPeer s = t at hadd
  have hstart : Turning r t t.peers t :=
    ⟨rfl,rfl,rfl,hadd.census.nodup,hadd.census.nodup,fun _ h => h,List.Subset.refl _,fun _ => ⟨rfl,rfl⟩,
      fun hout hr => absurd hr hout⟩
  have hend : Turning r t [] (t.peers.foldl (connectNew env) t) :=
    foldl_rest (P := Turning r t) (fun p rest u hu => hu.turn) hstart
  generalize t.peers.foldl (connectNew env) t = u at hend
  have hold : r < s.nextPeer → r ∈ u.peers → r ∈ s.peers ∧ u.peer r = s.peer r ∧ u.stream r = s.stream r := by
    intro hr hmem
    obtain ⟨hpeer,hin⟩ := hadd.old hr
    have hin := hin (hend.sub hmem)
    have hfd : (s.peer r).connfd = true := hc r hin
    rcases hend.after List.not_mem_nil hmem with ⟨-,hsame,hstream⟩ | ⟨hno,-,-⟩
    · exact ⟨hin,hsame.trans hpeer,hstream.trans hadd.stream⟩
    · rw [hpeer,hfd] at hno
      cases hno
  refine ⟨by rw [hend.tp,hadd.tp],hend.peerid.trans hadd.peerid,?_,?_,?_⟩
  · intro hr
    refine ⟨hadd.next.trans hend.next.ge,?_⟩
    intro hmem
    obtain ⟨hin,hpeer,-⟩ := hold hr hmem
    exact ⟨hin,.inl (by rw [hpeer])⟩
  · intro hr hmem
    obtain ⟨-,-,hstream⟩ := hold hr hmem
    refine ⟨[],by rw [hstream]; simp,nofun,?_⟩
    rw [hend.tp,hadd.tp]
    exact .nothing nofun
  · intro hle hnone
    by_cases hlt : r < u.nextPeer
    · refine .inr ⟨hlt,?_⟩
      by_cases hmem : r ∈ u.peers
      · obtain ⟨addr,hnew⟩ := hadd.new hle (hend.sub hmem)
        rcases hend.after List.not_mem_nil hmem with ⟨hfd,-,-⟩ | ⟨-,hstream,hmask⟩
        · rw [hnew] at hfd
          cases hfd
        · refine .inr (greeted_of_new addr (by rw [hmask,hnew]) ?_)
          rw [hstream,hadd.stream,hnone,Session.greeting,Session.greeting,hend.tp,hend.peerid]
          rfl
      · exact .inl hmem
    · have hout : r ∉ t.peers := fun hmem => hlt (hend.next ▸ hadd.census.lt r hmem)
      refine .inl ⟨Nat.le_of_not_lt hlt,?_⟩
      rw [(hend.before (.inr hout)).2,hadd.stream,hnone]

/-- Every callback but a read from `r` passes `r` by. -/
theorem step_passes {sha1 : Bytes → Bytes} {e : Event} (hs : s.roster.Census) (hc : s.roster.Connected)
    (he : ∀ avail, e ≠ .response r avail) (h : step sha1 s (env,e) = .ok s') : Passes r s s' := by
  have hsame : Passes r s s := passes_of_speech hs (.refl r s) (.nothing (.refl r s))
  cases e with
  | response p avail =>
    have hne : p ≠ r := by
      rintro rfl
      exact he avail rfl
    simp only [step] at h
    split at h
    · rename_i hp
      exact passes_of_speech hs (.of_touches hne.symm (touches_peerResponse h)) (peerResponse_speech (hs.lt p hp) hne h)
    · cases h
      exact hsame
  | error p =>
    cases h
    split
    · exact passes_of_speech hs (.killPeer s p) (.nothing (.setState s p _))
    · exact hsame
  | keepalive p =>
    cases h
    split
    · rename_i hp
      refine passes_of_speech hs (.of_roster ?_) (.nothing (.keepalive env (hs.lt p hp.1)))
      rw [networkPeerWriteKeepalive,roster_networkPeerWrite]
    · exact hsame
  | accept addr =>
    cases h
    exact passes_networkHandlePeerConnect env s addr
  | tracker addrs =>
    simp only [step] at h
    obtain ⟨t,ht,h⟩ := bind_ok.mp h
    cases h
    cases addrs with
    | none =>
      cases ht
      exact passes_of_speech hs (.of_roster rfl) (.nothing (.of_eq rfl rfl rfl rfl))
    | some as =>
      have hupdate : Passes r s t := passes_networkPeerlistUpdate hs hc ht
      refine ⟨hupdate.mi,hupdate.peerid,fun hr => (hupdate.stays hr).trans (.of_roster rfl),hupdate.hears,?_⟩
      intro hle hnone
      rcases hupdate.joins hle hnone with hstill | ⟨hlt,hout | hgreet⟩
      · exact .inl hstill
      · exact .inr ⟨hlt,.inl hout⟩
      · exact .inr ⟨hlt,.inr ⟨hgreet.fresh,hgreet.unheard,hgreet.stream⟩⟩
  | announceTimer =>
    simp only [step] at h
    split at h
    · cases h
      exact hsame
    · exact passes_of_speech hs (.of_roster (roster_of_chart (chart_announce h))) (.nothing (.announce h))
  | scheduler => exact passes_of_speech hs (.scheduler hs.nodup h) (.nothing (.scheduler hs hc h))

end Passing

end Unworkable
