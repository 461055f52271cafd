import Unworkable.Session.Account

/-! # The count of received bytes

Every read adds the bytes it got to `totalrx`, and `network_peer_read_piece` adds the payload of the block it
takes once more. So the count, and with it the rate by which peers are ranked, is right only as long as
no block with a payload is taken.
-/
namespace Unworkable
open Library

section Sums
variable (sha1 : Bytes → Bytes)

/-- The sum over the steps of a run, up to the one that stops the process. -/
def runSum (f : Env → Session → Event → ℕ) : Session → List (Env × Event) → ℕ
  | _,[] => 0
  | s,e :: es => f e.1 s e.2 + match step sha1 s e with
    | .ok t => runSum f t es
    | .error _ => 0

/-- The bytes read from `p` in a run. -/
def bytesRead (p : PeerId) : Session → List (Env × Event) → ℕ := runSum sha1 (fun env s e => e.readLen env s p)

/-- The average rate of a peer from which `n` bytes were read, in bytes a second. -/
def averageRate (env : Env) (q : Peer) (n : ℕ) : ℕ :=
  n / ((env.now + (18446744073709551616 - q.connected)) % 18446744073709551616)

/-- At every point of a run the counter of each peer is the number of bytes read from it, and its rate
is their average. -/
def CountsReads (s₀ : Session) (es : List (Env × Event)) : Prop :=
  ∀ es₁, es₁ <+: es → ∀ s, run sha1 s₀ es₁ = .ok s → ∀ p ∈ s.peers, (s.peer p).totalrx = bytesRead sha1 p s₀ es₁ ∧
    ∀ env, networkPeerRxrate env (s.peer p) = averageRate env (s.peer p) (bytesRead sha1 p s₀ es₁)

end Sums

/-- Event `e` brings a block with some payload that is on request in its length and whose piece is not verified. -/
def Event.bringsBlock (env : Env) (s : Session) : Event → Bool
  | .response p avail => decide (p ∈ s.peers) && match completed env (s.peer p) avail with
    | none => false
    | some msg => decide (msg.headD 0 = msgPieceId) && timely env s p msg &&
        !(s.tp.piece (msgField env msg 1)).cksumok && decide (9 < msg.length)
  | _ => false

section Steps
variable {sha1 : Bytes → Bytes} {env : Env} {s s' : Session} {p : PeerId}

theorem networkPeerRxrate_eq (env : Env) (q : Peer) : networkPeerRxrate env q = averageRate env q q.totalrx := by
  unfold networkPeerRxrate averageRate
  dsimp only
  split
  · rename_i hzero
    rw [hzero,Nat.div_zero]
  · rfl

/-- An event counts something twice exactly when it brings such a block. -/
theorem recounted_eq_zero_iff {e : Event} : (∀ p, e.recounted env s p = 0) ↔ e.bringsBlock env s = false := by
  cases e with
  | response q avail =>
    have hone : (∀ p, Event.recounted env s p (.response q avail) = 0) ↔
        (q ∈ s.peers → inputPayload env s q avail = 0) := by
      constructor
      · intro h hq
        have hpayload := h q
        rwa [Event.recounted,if_pos ⟨rfl,hq⟩] at hpayload
      · intro h p
        simp only [Event.recounted]
        split
        · rename_i hp
          obtain ⟨rfl,hp⟩ := hp
          exact h hp
        · rfl
    rw [hone,Event.bringsBlock,inputPayload]
    by_cases hq : q ∈ s.peers
    · rw [decide_eq_true hq,Bool.true_and]
      cases completed env (s.peer q) avail with
      | none => simp
      | some msg =>
        dsimp only
        by_cases hyp : msg.headD 0 = msgPieceId ∧ timely env s q msg = true ∧
            (s.tp.piece (msgField env msg 1)).cksumok = false
        · rw [payload,if_pos hyp,decide_eq_true hyp.1,hyp.2.1,hyp.2.2]
          simp only [hq,true_implies,Bool.true_and,Bool.not_false,decide_eq_false_iff_not]
          omega
        · rw [payload,if_neg hyp]
          simp only [implies_true,true_iff,Bool.and_eq_false_iff,Bool.not_eq_false',decide_eq_false_iff_not]
          by_cases hid : msg.headD 0 = msgPieceId
          · cases htimely : timely env s q msg with
            | false => exact .inl (.inl (.inr rfl))
            | true => exact .inl (.inr ((Bool.not_eq_false _).mp fun hck => hyp ⟨hid,htimely,hck⟩))
          · exact .inl (.inl (.inl hid))
    · simp [hq]
  | _ => exact ⟨fun _ => rfl,fun _ _ => rfl⟩

theorem readLen_of_not_mem (h : p ∉ s.peers) (e : Event) : e.readLen env s p = 0 ∧ e.recounted env s p = 0 := by
  cases e with
  | response q avail =>
    have hne : ¬ (q = p ∧ p ∈ s.peers) := fun hyp => h hyp.2
    exact ⟨if_neg hne,if_neg hne⟩
  | _ => exact ⟨rfl,rfl⟩

theorem runSum_snoc (f : Env → Session → Event → ℕ) {es : List (Env × Event)} (h : run sha1 s es = .ok s')
    (e : Env × Event) : runSum sha1 f s (es ++ [e]) = runSum sha1 f s es + f e.1 s' e.2 := by
  induction es generalizing s with
  | nil =>
    cases h
    rw [List.nil_append,runSum,runSum,Nat.zero_add]
    cases step sha1 s' e with
    | error err => rfl
    | ok t => rfl
  | cons e₁ es ih =>
    rw [run,List.foldlM_cons,bind_ok] at h
    obtain ⟨t,ht,h⟩ := h
    rw [List.cons_append,runSum,runSum,ht]
    dsimp only
    rw [ih h,Nat.add_assoc]

theorem run_snoc {es : List (Env × Event)} {t : Session} {e : Env × Event} (h : run sha1 s es = .ok t)
    (hstep : step sha1 t e = .ok s') : run sha1 s (es ++ [e]) = .ok s' := by
  rw [run,List.foldlM_append,bind_ok]
  exact ⟨t,h,by rw [List.foldlM_cons,hstep]; rfl⟩

/-- The bytes counted from `p`: what was read, and what was counted again. -/
structure Counted (sha1 : Bytes → Bytes) (p : PeerId) (s₀ : Session) (es : List (Env × Event)) (s : Session) :
    Prop where
  census : s.roster.Census ∧ s.roster.Connected
  listed : p ∈ s.peers → (s.peer p).totalrx =
    bytesRead sha1 p s₀ es + runSum sha1 (fun env s e => e.recounted env s p) s₀ es
  fresh : s.nextPeer ≤ p → bytesRead sha1 p s₀ es + runSum sha1 (fun env s e => e.recounted env s p) s₀ es = 0

theorem Counted.snoc {s₀ : Session} {es : List (Env × Event)} (h : Counted sha1 p s₀ es s)
    (hrun : run sha1 s₀ es = .ok s) {e : Env × Event} (hstep : step sha1 s e = .ok s') :
    Counted sha1 p s₀ (es ++ [e]) s' := by
  obtain ⟨env,e⟩ := e
  obtain ⟨hnext,hall⟩ := step_accounts h.census.1 hstep
  have hsum : bytesRead sha1 p s₀ (es ++ [(env,e)]) +
      runSum sha1 (fun env s e => e.recounted env s p) s₀ (es ++ [(env,e)]) =
      bytesRead sha1 p s₀ es + runSum sha1 (fun env s e => e.recounted env s p) s₀ es +
        (e.readLen env s p + e.recounted env s p) := by
    simp only [bytesRead]
    rw [runSum_snoc _ hrun,runSum_snoc _ hrun]
    dsimp only
    omega
  have hgone : s.nextPeer ≤ p → bytesRead sha1 p s₀ (es ++ [(env,e)]) +
      runSum sha1 (fun env s e => e.recounted env s p) s₀ (es ++ [(env,e)]) = 0 := by
    intro hle
    have hnot : p ∉ s.peers := fun hmem => absurd (h.census.1.lt p hmem) (Nat.not_lt.mpr hle)
    obtain ⟨hread,hre⟩ := @readLen_of_not_mem env s p hnot e
    rw [hsum,h.fresh hle,hread,hre]
  refine ⟨step_census h.census.1 h.census.2 hstep,?_,fun hle => hgone (hnext.trans hle)⟩
  intro hp
  rcases hall p hp with ⟨hmem,hacc⟩ | ⟨hle,hacc⟩
  · have htotal : (s'.peer p).totalrx = (s.peer p).totalrx + (e.readLen env s p + e.recounted env s p) :=
      congrArg Account.totalrx hacc
    rw [htotal,h.listed hmem,hsum]
  · have htotal : (s'.peer p).totalrx = 0 := congrArg Account.totalrx hacc
    rw [htotal,hgone hle]

theorem Counted.run {s₀ : Session} (h : Counted sha1 p s₀ [] s₀) {es : List (Env × Event)}
    (hrun : run sha1 s₀ es = .ok s) : Counted sha1 p s₀ es s := by
  induction es using List.reverseRecOn generalizing s with
  | nil =>
    cases hrun
    exact h
  | append_singleton es e ih =>
    rw [Unworkable.run,List.foldlM_append,bind_ok] at hrun
    obtain ⟨t,ht,hrun⟩ := hrun
    rw [List.foldlM_cons,bind_ok] at hrun
    obtain ⟨u,hu,hrun⟩ := hrun
    cases hrun
    exact (ih ht).snoc ht hu

theorem Boot.session_counted {b : Boot} (h : b.session sha1 = .ok s) (p : PeerId) : Counted sha1 p s [] s := by
  obtain ⟨tp,-,rfl⟩ := Boot.session_ok h
  exact ⟨initial_census tp b.maxfds b.peerid b.seed b.now,fun hp => absurd hp List.not_mem_nil,fun _ => rfl⟩

theorem runSum_eq_zero {f : Env → Session → Event → ℕ} {es : List (Env × Event)}
    (hzero : RunShows sha1 (fun s e _ => f e.1 s e.2 = 0) s es) (hrun : run sha1 s es = .ok s') :
    runSum sha1 f s es = 0 := by
  induction es generalizing s with
  | nil => rfl
  | cons e es ih =>
    rw [Unworkable.run,List.foldlM_cons,bind_ok] at hrun
    obtain ⟨t,ht,hrun⟩ := hrun
    obtain ⟨hfirst,hrest⟩ := hzero t ht
    rw [runSum,ht,hfirst,Nat.zero_add]
    exact ih hrest hrun

/-- The count of received bytes is right throughout a run exactly when no step that completes takes a block
with a payload. -/
theorem counts_reads_iff (sha1 : Bytes → Bytes) (b : Boot) (s₀ : Session) (hboot : b.session sha1 = .ok s₀)
    (es : List (Env × Event)) :
    CountsReads sha1 s₀ es ↔ RunShows sha1 (fun s e _ => e.2.bringsBlock e.1 s = false) s₀ es := by
  constructor
  · intro hcounts
    refine runShows_iff.mpr ?_
    rintro es₁ ⟨env,e⟩ es₂ rfl s s' hrun hstep
    apply recounted_eq_zero_iff.mp
    intro p
    show e.recounted env s p = 0
    by_cases hp : p ∈ s'.peers
    · have hrun' : run sha1 s₀ (es₁ ++ [(env,e)]) = .ok s' := run_snoc hrun hstep
      have htotal := ((Boot.session_counted hboot p).run hrun').listed hp
      have hread := (hcounts (es₁ ++ [(env,e)]) ⟨es₂,by simp⟩ s' hrun' p hp).1
      rw [runSum_snoc _ hrun] at htotal
      dsimp only at htotal
      omega
    · cases e with
      | response q avail =>
        rw [response_peers hstep] at hp
        exact (readLen_of_not_mem hp _).2
      | _ => rfl
  · rintro hnone es₁ ⟨es₂,rfl⟩ s hrun p hp
    have hzero : runSum sha1 (fun env s e => e.recounted env s p) s₀ es₁ = 0 := by
      refine runSum_eq_zero (runShows_iff.mpr ?_) hrun
      intro es' e es'' hsplit t t' ht hstep
      have hbrings := runShows_iff.mp hnone es' e (es'' ++ es₂) (by rw [hsplit]; simp) t t' ht hstep
      exact recounted_eq_zero_iff.mpr hbrings p
    have htotal : (s.peer p).totalrx = bytesRead sha1 p s₀ es₁ := by
      rw [((Boot.session_counted hboot p).run hrun).listed hp,hzero,Nat.add_zero]
    refine ⟨htotal,?_⟩
    intro env
    rw [networkPeerRxrate_eq,htotal]

end Steps

section Small

def oneBlockRun : List (Env × Event) :=
  oneRequestRun ++ inputs 1002 0 (messagePortions [msgPieceId,0,0,0,0,0,0,0,0,0])

/-- Before that the count is right. -/
theorem counts_reads_requested : ∃ s₀ s, (Boot.oneByte zeroByteDigest 1).session sha1ZeroByte = .ok s₀ ∧
    run sha1ZeroByte s₀ oneRequestRun = .ok s ∧ (s.peer 0).totalrx = 79 ∧
      CountsReads sha1ZeroByte s₀ oneRequestRun := by
  have hcheck : ((Boot.oneByte zeroByteDigest 1).session sha1ZeroByte).toOption.map (fun s₀ =>
      runMeets sha1ZeroByte (fun s e => e.2.bringsBlock e.1 s = false) s₀ oneRequestRun &&
        decide ((run sha1ZeroByte s₀ oneRequestRun).toOption.map (fun s => decide ((s.peer 0).totalrx = 79)) =
          some true)) = some true := by decide +kernel
  obtain ⟨s₀,h₀,hP⟩ := exists_ok hcheck
  obtain ⟨hmeets,hend⟩ := Bool.and_eq_true_iff.mp hP
  obtain ⟨s,hrun,htotal⟩ := exists_ok (of_decide_eq_true hend)
  have hshows : RunShows sha1ZeroByte (fun s e _ => e.2.bringsBlock e.1 s = false) s₀ oneRequestRun :=
    (runMeets_iff.mp hmeets).shows (I := fun _ => True) (fun s e s' _ hnone _ => ⟨hnone,trivial⟩) trivial
  exact ⟨s₀,s,h₀,hrun,of_decide_eq_true htotal,(counts_reads_iff sha1ZeroByte _ s₀ h₀ oneRequestRun).mpr hshows⟩

/-- The byte is counted twice. -/
theorem block_counted_twice : ∃ s₀ s, (Boot.oneByte zeroByteDigest 1).session sha1ZeroByte = .ok s₀ ∧
    run sha1ZeroByte s₀ oneBlockRun = .ok s ∧ 0 ∈ s.peers ∧ (s.peer 0).totalrx = 94 ∧
    bytesRead sha1ZeroByte 0 s₀ oneBlockRun = 93 ∧ ¬ CountsReads sha1ZeroByte s₀ oneBlockRun := by
  have hcheck : ((Boot.oneByte zeroByteDigest 1).session sha1ZeroByte).toOption.map (fun s₀ =>
      decide (bytesRead sha1ZeroByte 0 s₀ oneBlockRun = 93) &&
        decide ((run sha1ZeroByte s₀ oneBlockRun).toOption.map (fun s =>
          decide (0 ∈ s.peers ∧ (s.peer 0).totalrx = 94)) = some true)) = some true := by decide +kernel
  obtain ⟨s₀,h₀,hP⟩ := exists_ok hcheck
  obtain ⟨hread,hend⟩ := Bool.and_eq_true_iff.mp hP
  obtain ⟨s,hrun,htotal⟩ := exists_ok (of_decide_eq_true hend)
  obtain ⟨hmem,htotal⟩ := of_decide_eq_true htotal
  have hread := of_decide_eq_true hread
  refine ⟨s₀,s,h₀,hrun,hmem,htotal,hread,?_⟩
  intro hcounts
  have heq := (hcounts oneBlockRun (List.prefix_refl _) s hrun 0 hmem).1
  rw [htotal,hread] at heq
  cases heq

end Small

end Unworkable
