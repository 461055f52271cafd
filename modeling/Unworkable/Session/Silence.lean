import Unworkable.Session.Census

/-! # Who is killed for silence

A tick kills a peer that has not been heard of for five minutes. What counts as hearing of a
peer is not what it sends: only the start of its handshake and a block that is on request
are written down, whatever else arrives.
-/
namespace Unworkable
open Library

def moments (sha1 : Bytes → Bytes) (R : Session → Env × Event → Bool) : Session → List (Env × Event) → List ℕ
  | _,[] => []
  | s,e :: es => (if R s e then [e.1.now] else []) ++ match step sha1 s e with
    | .ok s' => moments sha1 R s' es
    | .error _ => []

/-- Bytes arrive from `p`. -/
def hearsFrom (p : PeerId) (s : Session) : Env × Event → Bool
  | (_,.response q avail) => decide (q = p ∧ p ∈ s.peers ∧ avail ≠ [])
  | _ => false

/-- `p` starts its handshake or delivers a block on request. -/
def renewsPeer (p : PeerId) (s : Session) : Env × Event → Bool
  | (env,.response q avail) => decide (q = p ∧ p ∈ s.peers) && renews env s p avail
  | _ => false

/-- Bytes arrived from `p` in the last five minutes. -/
def HeardLately (sha1 : Bytes → Bytes) (s₀ : Session) (es : List (Env × Event)) (p : PeerId) (now : ℕ) : Prop :=
  ∃ t ∈ moments sha1 (hearsFrom p) s₀ es, t ≤ now ∧ now < t + peerCommsThreshold

/-- The time when `p` last started a handshake or delivered a block on request. -/
def lastRenewal (sha1 : Bytes → Bytes) (s₀ : Session) (es : List (Env × Event)) (p : PeerId) : ℕ :=
  (moments sha1 (renewsPeer p) s₀ es).getLast?.getD 0

/-- A tick in the course of a run: the state before it and after it. -/
structure TickAt (sha1 : Bytes → Bytes) (s₀ : Session) (es before : List (Env × Event)) (env : Env) (s s' : Session) :
    Prop where
  prefixed : (before ++ [(env,Event.scheduler)]) <+: es
  reached : run sha1 s₀ before = .ok s
  ticked : step sha1 s (env,.scheduler) = .ok s'

/-- Every peer that a tick of the run kills has been silent for five minutes. -/
def KillsOnlySilent (sha1 : Bytes → Bytes) (s₀ : Session) (es : List (Env × Event)) : Prop :=
  ∀ before env s s', TickAt sha1 s₀ es before env s s' → ∀ p ∈ s.peers, (s.peer p).state.dead = false →
    (s'.peer p).state.dead = true → ¬ HeardLately sha1 s₀ before p env.now

/-- At every tick of the run, a live peer past its handshake that was heard in the last five
minutes has in that time started its handshake or delivered a block on request. -/
def RenewsInTime (sha1 : Bytes → Bytes) (s₀ : Session) (es : List (Env × Event)) : Prop :=
  ∀ before env s s', TickAt sha1 s₀ es before env s s' → ∀ p ∈ s.peers, (s.peer p).state.dead = false →
    (s.peer p).state.bitfield = true ∨ (s.peer p).state.established = true → HeardLately sha1 s₀ before p env.now →
      env.now < lastRenewal sha1 s₀ before p + peerCommsThreshold

section Ticks
variable {env : Env} {s s' : Session} {p q : PeerId}

theorem overdue_mask {q q' : Peer} (h : q'.mask = q.mask) : overdue env q' = overdue env q := by
  obtain ⟨-,-,-,hlast⟩ := mask_eq h
  have hstate := congrArg Peer.state h
  simp only [Peer.mask,PeerState.mk.injEq] at hstate
  simp only [overdue,hlast,hstate]

theorem dead_mask {q q' : Peer} (h : q'.mask = q.mask) : q'.state.dead = q.state.dead := by
  have hstate := congrArg Peer.state h
  simp only [Peer.mask,PeerState.mk.injEq] at hstate
  exact hstate.2.2.2.2.2.2.2.1

/-- The turn of one peer leaves the others as they are. -/
theorem schedulerPeer_other (hq : p ≠ q) (h : schedulerPeer env s q = .ok s') : (s'.peer p).mask = (s.peer p).mask := by
  rcases schedulerPeer_roster h with ⟨-,rfl⟩ | ⟨-,-,rfl⟩ | ⟨-,-,hr⟩
  · have hpeer : (dropPeer s q).peer p = s.peer p :=
      Session.setPeer_ne s q (fun q => { q with uls := [], connfd := false }) hq
    rw [hpeer]
  · rw [killPeer,Session.setState,Session.setPeer_ne _ _ _ hq]
  · exact congrFun (congrArg Roster.peer hr) p

/-- A tick kills a live peer exactly when it is overdue. -/
theorem scheduler_kills (hnodup : s.peers.Nodup) (hp : p ∈ s.peers) (hlive : (s.peer p).state.dead = false)
    (h : scheduler env s = .ok s') : (s'.peer p).state.dead = overdue env (s.peer p) := by
  obtain ⟨t,ht,hr⟩ := scheduler_chart h
  have hend := foldlM_rest (P := fun rest t => rest.Nodup ∧
    (p ∈ rest → (t.peer p).mask = (s.peer p).mask) ∧ (p ∉ rest → (t.peer p).state.dead = overdue env (s.peer p)))
    ?_ ⟨hnodup,fun _ => rfl,fun hnot => (hnot hp).elim⟩ ht
  · rw [dead_mask (congrFun (congrArg Roster.peer (roster_of_chart hr)) p)]
    exact hend.2.2 List.not_mem_nil
  · rintro q rest u u' ⟨hnd,hbefore,hafter⟩ hu
    obtain ⟨hq,hrest⟩ := List.nodup_cons.mp hnd
    by_cases he : p = q
    · subst he
      refine ⟨hrest,fun hin => (hq hin).elim,fun _ => ?_⟩
      have hmask := hbefore List.mem_cons_self
      rw [← overdue_mask hmask]
      rcases schedulerPeer_roster hu with ⟨hdead,-⟩ | ⟨-,hover,rfl⟩ | ⟨hdead,hover,hr⟩
      · rw [dead_mask hmask,hlive] at hdead
        cases hdead
      · rw [hover,killPeer,Session.setState,Session.setPeer_self]
        rfl
      · rw [hover,dead_mask (congrFun (congrArg Roster.peer hr) p),hdead]
    · have hother := schedulerPeer_other he hu
      refine ⟨hrest,fun hin => hother.trans (hbefore (List.mem_cons_of_mem q hin)),fun hnot => ?_⟩
      rw [dead_mask hother]
      exact hafter (by simp [he,hnot])

end Ticks

section Histories
variable {sha1 : Bytes → Bytes} {R : Session → Env × Event → Bool} {s₀ s s' : Session} {es : List (Env × Event)}
  {e : Env × Event}

theorem moments_append (h : run sha1 s₀ es = .ok s) :
    moments sha1 R s₀ (es ++ [e]) = moments sha1 R s₀ es ++ if R s e then [e.1.now] else [] := by
  induction es generalizing s₀ with
  | nil =>
    cases h
    simp only [List.nil_append,moments]
    cases step sha1 s e with
    | ok s' => exact List.append_nil _
    | error h => exact List.append_nil _
  | cons a es ih =>
    rw [run,List.foldlM_cons,bind_ok] at h
    obtain ⟨t,ht,h⟩ := h
    simp only [List.cons_append,moments,ht,List.append_assoc]
    rw [ih h]

/-- The time the session keeps for each peer on the list is that of its last renewal. -/
structure Dated (sha1 : Bytes → Bytes) (s₀ : Session) (es : List (Env × Event)) (s : Session) : Prop where
  census : s.roster.Census
  connected : s.roster.Connected
  last : ∀ p ∈ s.peers, (s.peer p).lastrecv = lastRenewal sha1 s₀ es p
  fresh : ∀ p, s.nextPeer ≤ p → moments sha1 (renewsPeer p) s₀ es = []

theorem lastRenewal_append (h : run sha1 s₀ es = .ok s) (p : PeerId) : lastRenewal sha1 s₀ (es ++ [e]) p =
    if renewsPeer p s e then e.1.now else lastRenewal sha1 s₀ es p := by
  unfold lastRenewal
  rw [moments_append h]
  cases renewsPeer p s e with
  | true => rw [if_pos rfl,if_pos rfl,List.getLast?_concat,Option.getD_some]
  | false => rw [if_neg Bool.false_ne_true,if_neg Bool.false_ne_true,List.append_nil]

theorem Dated.step (h : Dated sha1 s₀ es s) (hrun : run sha1 s₀ es = .ok s) (hstep : step sha1 s e = .ok s') :
    Dated sha1 s₀ (es ++ [e]) s' := by
  obtain ⟨env,e⟩ := e
  obtain ⟨hcensus,hconnected⟩ := step_census h.census h.connected hstep
  have hnext : s.nextPeer ≤ s'.nextPeer := by
    rcases step_roster h.census h.connected hstep with ⟨-,hatt⟩ | ⟨p,avail,-,-,ht⟩
    · exact hatt.renewed.next
    · obtain ⟨q,hq⟩ := ht.rest
      exact (congrArg Roster.nextPeer hq).ge
  have hnew : ∀ p, s.nextPeer ≤ p → renewsPeer p s (env,e) = false := by
    intro p hp
    unfold renewsPeer
    split
    · have hnot : p ∉ s.peers := fun hmem => absurd (h.census.lt p hmem) (Nat.not_lt.mpr hp)
      simp [hnot]
    · rfl
  refine ⟨hcensus,hconnected,?_,?_⟩
  · intro p hp
    rw [lastRenewal_append hrun]
    rcases step_roster h.census h.connected hstep with ⟨hquiet,hatt⟩ | ⟨q,avail,rfl,hq,ht⟩
    · rcases hatt.renewed.peer p hp with ⟨hmem,hlast,-⟩ | ⟨hle,hlast,-⟩
      · have hno : renewsPeer p s (env,e) = false := by
          unfold renewsPeer
          split
          · rename_i q avail heq
            have hne : ¬ (q = p ∧ p ∈ s.peers) := by
              rintro ⟨rfl,-⟩
              exact hquiet q hmem avail (congrArg Prod.snd heq)
            simp [hne]
          · rfl
        rw [hno,if_neg Bool.false_ne_true]
        exact Eq.trans hlast (h.last p hmem)
      · rw [hnew p hle,if_neg Bool.false_ne_true,lastRenewal,h.fresh p hle]
        exact hlast
    · have hmem : p ∈ s.peers := by
        obtain ⟨q',hq'⟩ := ht.rest
        have hpeers : s'.peers = s.peers := congrArg Roster.peers hq'
        rwa [hpeers] at hp
      by_cases he : p = q
      · subst he
        rw [ht.peer.lastrecv,← h.last p hmem]
        simp [renewsPeer,hmem]
      · have hno : renewsPeer p s (env,.response q avail) = false := by simp [renewsPeer,Ne.symm he]
        rw [hno,if_neg Bool.false_ne_true,← h.last p hmem]
        exact (mask_eq (ht.mask_ne he)).2.2.2
  · intro p hp
    have hle := hnext.trans hp
    rw [moments_append hrun,hnew p hle,if_neg Bool.false_ne_true,List.append_nil]
    exact h.fresh p hle

theorem dated {b : Boot} (hs₀ : b.session sha1 = .ok s₀) (h : run sha1 s₀ es = .ok s) : Dated sha1 s₀ es s := by
  induction es using List.reverseRecOn generalizing s with
  | nil =>
    cases h
    obtain ⟨tp,-,rfl⟩ := Boot.session_ok hs₀
    obtain ⟨hcensus,hconnected⟩ := initial_census tp b.maxfds b.peerid b.seed b.now
    exact ⟨hcensus,hconnected,nofun,fun _ _ => rfl⟩
  | append_singleton es e ih =>
    rw [run,List.foldlM_append,bind_ok] at h
    obtain ⟨t,ht,h⟩ := h
    rw [List.foldlM_cons,bind_ok] at h
    obtain ⟨u,hu,h⟩ := h
    cases h
    exact (ih ht).step ht hu

/-- In every run, a tick kills only peers that have been silent for five minutes if and only if
every peer that is heard of renews itself in time. -/
theorem idle_kill_exact (sha1 : Bytes → Bytes) (b : Boot) (s₀ : Session) (es : List (Env × Event))
    (h : b.session sha1 = .ok s₀) : KillsOnlySilent sha1 s₀ es ↔ RenewsInTime sha1 s₀ es := by
  have hkill : ∀ before env s s', TickAt sha1 s₀ es before env s s' → ∀ p ∈ s.peers, (s.peer p).state.dead = false →
      ((s'.peer p).state.dead = true ↔ ((s.peer p).state.bitfield = true ∨ (s.peer p).state.established = true) ∧
        ¬ env.now < lastRenewal sha1 s₀ before p + peerCommsThreshold) := by
    intro before env s s' htick p hp hlive
    have hdated := dated h htick.reached
    rw [scheduler_kills hdated.census.nodup hp hlive htick.ticked,overdue,hdated.last p hp]
    simp only [Bool.and_eq_true,Bool.or_eq_true,decide_eq_true_eq]
    refine and_congr_right fun _ => ?_
    omega
  constructor
  · intro honly before env s s' htick p hp hlive hpast hheard
    by_contra hlate
    exact honly before env s s' htick p hp hlive ((hkill before env s s' htick p hp hlive).mpr ⟨hpast,hlate⟩) hheard
  · intro hrenews before env s s' htick p hp hlive hdead hheard
    obtain ⟨hpast,hlate⟩ := (hkill before env s s' htick p hp hlive).mp hdead
    exact hlate (hrenews before env s s' htick p hp hlive hpast hheard)

end Histories

section Runs

/-- A peer that shakes hands and then sends a keep-alive every two minutes. -/
def keepalives : List (Env × Event) := (.plain 1000,.accept 1) :: inputs 1000 0 handshakePortions ++
  inputs 1120 0 [[0,0,0,0]] ++ inputs 1240 0 [[0,0,0,0]]

theorem last_tick {es before : List (Env × Event)} {env env' : Env} (hes : ∀ e ∈ es, e.2 ≠ .scheduler)
    (h : (before ++ [(env,Event.scheduler)]) <+: es ++ [(env',.scheduler)]) : before = es ∧ env = env' := by
  rcases List.prefix_concat_iff.mp h with heq | hes'
  · obtain ⟨hbefore,hlast⟩ := List.append_inj' heq rfl
    exact ⟨hbefore,congrArg Prod.fst (List.cons.inj hlast).1⟩
  · exact absurd rfl (hes _ (hes'.subset (List.mem_append_right _ (List.mem_singleton_self _))))

/-- A tick a minute after the last keep-alive kills that peer. -/
theorem keepalives_killed : ∃ s₀, (Boot.oneByte (List.replicate 20 0) 1).session sha1ZeroByte = .ok s₀ ∧
    ¬ KillsOnlySilent sha1ZeroByte s₀ (keepalives ++ [(.plain 1300,.scheduler)]) := by
  have hrun : ((Boot.oneByte (List.replicate 20 0) 1).session sha1ZeroByte).toOption.map (fun s₀ =>
      match run sha1ZeroByte s₀ keepalives with
      | .error _ => false
      | .ok s => decide (0 ∈ s.peers ∧ (s.peer 0).state.dead = false ∧
          1240 ∈ moments sha1ZeroByte (hearsFrom 0) s₀ keepalives) &&
        match step sha1ZeroByte s (.plain 1300,.scheduler) with
        | .error _ => false
        | .ok s' => (s'.peer 0).state.dead) = some true := by decide +kernel
  obtain ⟨s₀,hs₀,hP⟩ := exists_ok hrun
  refine ⟨s₀,hs₀,?_⟩
  intro honly
  cases hs : run sha1ZeroByte s₀ keepalives with
  | error e => simp [hs] at hP
  | ok s =>
    simp only [hs,Bool.and_eq_true,decide_eq_true_eq] at hP
    obtain ⟨⟨hp,hlive,hheard⟩,hP⟩ := hP
    cases hs' : step sha1ZeroByte s (.plain 1300,.scheduler) with
    | error e => simp [hs'] at hP
    | ok s' =>
      simp only [hs'] at hP
      have htick : TickAt sha1ZeroByte s₀ (keepalives ++ [(.plain 1300,.scheduler)]) keepalives (.plain 1300) s s' :=
        ⟨List.prefix_rfl,hs,hs'⟩
      exact honly keepalives _ s s' htick 0 hp hlive hP ⟨1240,hheard,by decide,by decide⟩

/-- A tick a minute earlier finds that its handshake is young enough, and does not kill it. -/
theorem idle_kill_exact_keepalives : ∃ s₀ s, (Boot.oneByte (List.replicate 20 0) 1).session sha1ZeroByte = .ok s₀ ∧
    run sha1ZeroByte s₀ (keepalives ++ [(.plain 1240,.scheduler)]) = .ok s ∧ (s.peer 0).state.dead = false ∧
    KillsOnlySilent sha1ZeroByte s₀ (keepalives ++ [(.plain 1240,.scheduler)]) := by
  have hrun : ((Boot.oneByte (List.replicate 20 0) 1).session sha1ZeroByte).toOption.map (fun s₀ =>
      decide (lastRenewal sha1ZeroByte s₀ keepalives 0 = 1000) &&
      ((run sha1ZeroByte s₀ keepalives).toOption.map (fun s => decide (s.peers = [0])) == some true) &&
      ((run sha1ZeroByte s₀ (keepalives ++ [(.plain 1240,.scheduler)])).toOption.map
        (fun s => decide ((s.peer 0).state.dead = false)) == some true)) = some true := by decide +kernel
  obtain ⟨s₀,hs₀,hP⟩ := exists_ok hrun
  obtain ⟨hP,htick⟩ := Bool.and_eq_true_iff.mp hP
  obtain ⟨hlast,hpeers⟩ := Bool.and_eq_true_iff.mp hP
  obtain ⟨t,ht,hpeers⟩ := exists_ok (eq_of_beq hpeers)
  obtain ⟨s,hs,hlive⟩ := exists_ok (eq_of_beq htick)
  refine ⟨s₀,s,hs₀,hs,of_decide_eq_true hlive,(idle_kill_exact sha1ZeroByte _ s₀ _ hs₀).mpr ?_⟩
  intro before env u u' hat p hp _ _ _
  -- the only tick of the run is its last event
  obtain ⟨rfl,rfl⟩ : before = keepalives ∧ env = .plain 1240 :=
    last_tick (by simp [keepalives,inputs,handshakePortions]) hat.prefixed
  cases ht.symm.trans hat.reached
  rw [of_decide_eq_true hpeers,List.mem_singleton] at hp
  rw [hp,of_decide_eq_true hlast]
  decide

end Runs

end Unworkable
