import Unworkable.Session.Workload

/-! # When queue lengths count the outstanding requests

The messages that keep `dl_queue_len` right, and the runs made of them. CHOKE must not meet
a completed request on the list of its sender; REJECT and PIECE must be about an outstanding
request of their sender; the cleanup after a hash check must not free an outstanding request
of anybody; and a tick must not bring a queue to the end of its 32 bits.
-/
namespace Unworkable
open Library

section Orderly

/-- The length of a piece once it is mapped. -/
def mappedLen (tp : Torrent) (idx : ℕ) : ℕ :=
  match ensureMapped tp idx with
  | .ok tp => (tp.piece idx).len
  | .error _ => 0

/-- An outstanding request of `p` itself. -/
def Own {ι : Type} (st : DlStore ι) (p : PeerId) (d : DlId) : Prop := d ∈ st.lists p ∧ (st.get d).outstanding = true

/-- With `d` complete, every block of the piece is complete as the lookup of `p` sees it. -/
def Completes (st : DlStore) (p : PeerId) (idx plen : ℕ) (d : DlId) : Prop :=
  ∀ off ∈ blockOffs plen, ∃ e, networkPieceDlFind st (some p) idx off = some e ∧
    (e = d ∨ (st.get e).outstanding = false)

/-- The first request of no block, `d` apart, is outstanding and has a peer. -/
def Unshared (st : DlStore) (idx plen : ℕ) (d : DlId) : Prop :=
  ∀ off ∈ blockOffs plen, ∀ e, networkPieceDlFind st none idx off = some e → e ≠ d →
    (st.get e).outstanding = true → (st.get e).pc = none

/-- What the accounts ask of a PIECE message that is taken for request `d`. -/
def OrderlyBlock (s : Session) (p : PeerId) (idx : ℕ) (d : DlId) : Prop :=
  Own s.store p d ∧ (Completes s.store p idx (mappedLen s.tp idx) d → Unshared s.store idx (mappedLen s.tp idx) d)

structure OrderlyMessage (env : Env) (s : Session) (p : PeerId) (msg : Bytes) : Prop where
  choke : msg.headD 0 = msgChokeId → (s.peer p).state.fast = false →
    ∀ d ∈ s.store.lists p, (s.store.get d).outstanding = true
  reject : msg.headD 0 = msgRejectId → (s.peer p).state.fast = true → indexRefused s (msgField env msg 1) = false →
    ∀ d, networkPieceDlFind s.store (some p) (msgField env msg 1) (msgField env msg 5) = some d → Own s.store p d
  piece : msg.headD 0 = msgPieceId → ∀ d, Accepts env s p msg d → OrderlyBlock s p (msgField env msg 1) d

def Orderly (s : Session) : Env × Event → Prop
  | (env,.response p avail) =>
    p ∈ s.peers → ∀ msg, completed env (s.peer p) avail = some msg → OrderlyMessage env s p msg
  | (_,.scheduler) => ∀ p ∈ s.peers, s.tickBound p < 4294967296
  | _ => True

def OrderlyRun (sha1 : Bytes → Bytes) : Session → List (Env × Event) → Prop
  | _,[] => True
  | s,e :: es => Orderly s e ∧ ∀ s', step sha1 s e = .ok s' → OrderlyRun sha1 s' es

end Orderly

section Decidable
variable (env : Env) (s : Session) (st : DlStore) (p : PeerId) (idx off plen : ℕ) (msg : Bytes) (d : DlId)

instance : Decidable (Own st p d) := inferInstanceAs (Decidable (_ ∧ _))

instance : Decidable (Completes st p idx plen d) :=
  inferInstanceAs (Decidable (∀ off ∈ blockOffs plen, ∃ e, networkPieceDlFind st (some p) idx off = some e ∧
    (e = d ∨ (st.get e).outstanding = false)))

instance : Decidable (Unshared st idx plen d) :=
  inferInstanceAs (Decidable (∀ off ∈ blockOffs plen, ∀ e, networkPieceDlFind st none idx off = some e → e ≠ d →
    (st.get e).outstanding = true → (st.get e).pc = none))

instance : Decidable (OrderlyBlock s p idx d) := inferInstanceAs (Decidable (_ ∧ (_ → _)))

instance {ι : Type} [RbIndex ι] (s : Session ι) : Decidable (AcceptsAt s p idx off msg d) :=
  decidable_of_iff (idx < s.tp.numPieces ∧ off ≤ (s.tp.piece idx).len ∧ (s.tp.piece idx).cksumok = false ∧
    networkPieceDlFind s.store (some p) idx off = some d ∧ 9 ≤ msg.length ∧
    (msg.drop 9).length = (s.store.get d).len)
    ⟨fun ⟨h₁,h₂,h₃,h₄,h₅,h₆⟩ => ⟨h₁,h₂,h₃,h₄,h₅,h₆⟩,fun h => ⟨h.1,h.2,h.3,h.4,h.5,h.6⟩⟩

instance {ι : Type} [RbIndex ι] (s : Session ι) : Decidable (Accepts env s p msg d) :=
  inferInstanceAs (Decidable (AcceptsAt _ _ _ _ _ _))

instance : Decidable (OrderlyMessage env s p msg) :=
  decidable_of_iff
    ((msg.headD 0 = msgChokeId → (s.peer p).state.fast = false →
        ∀ d ∈ s.store.lists p, (s.store.get d).outstanding = true) ∧
      (msg.headD 0 = msgRejectId → (s.peer p).state.fast = true → indexRefused s (msgField env msg 1) = false →
        ∀ d, networkPieceDlFind s.store (some p) (msgField env msg 1) (msgField env msg 5) = some d →
          Own s.store p d) ∧
      (msg.headD 0 = msgPieceId →
        ∀ d, networkPieceDlFind s.store (some p) (msgField env msg 1) (msgField env msg 5) = some d →
          Accepts env s p msg d → OrderlyBlock s p (msgField env msg 1) d))
    ⟨fun h => ⟨h.1,h.2.1,fun hid d hacc => h.2.2 hid d hacc.found hacc⟩,
      fun h => ⟨h.choke,h.reject,fun hid d _ hacc => h.piece hid d hacc⟩⟩

instance : (e : Env × Event) → Decidable (Orderly s e)
  | (env,.response p avail) =>
    inferInstanceAs (Decidable (p ∈ s.peers →
      ∀ msg, completed env (s.peer p) avail = some msg → OrderlyMessage env s p msg))
  | (_,.scheduler) => inferInstanceAs (Decidable (∀ p ∈ s.peers, s.tickBound p < 4294967296))
  | (_,.error _) | (_,.keepalive _) | (_,.accept _) | (_,.tracker _) | (_,.announceTimer) => isTrue trivial

def orderlyRun (sha1 : Bytes → Bytes) : Session → List (Env × Event) → Bool
  | _,[] => true
  | s,e :: es => decide (Orderly s e) && match step sha1 s e with
    | .ok s' => orderlyRun sha1 s' es
    | .error _ => true

theorem orderlyRun_iff {sha1 : Bytes → Bytes} {s : Session} {es : List (Env × Event)} :
    orderlyRun sha1 s es = true ↔ OrderlyRun sha1 s es := by
  induction es generalizing s with
  | nil => simp [orderlyRun,OrderlyRun]
  | cons e es ih =>
    simp only [orderlyRun,OrderlyRun,Bool.and_eq_true,decide_eq_true_eq]
    refine and_congr_right' ?_
    cases step sha1 s e with
    | ok s' => simpa using ih
    | error e => simp

end Decidable

section Lookup
variable {st : DlStore} {d : DlId} {f : PieceDl → PieceDl}

theorem get_set_key (hf : ∀ pd, (f pd).key = pd.key) (e : DlId) :
    ((st.set d f).get e).idx = (st.get e).idx ∧ ((st.set d f).get e).off = (st.get e).off := by
  by_cases he : e = d
  · subst he
    cases hd : st.dl e with
    | none => simp [DlStore.get,DlStore.set,hd]
    | some pd => simpa [DlStore.get,DlStore.set,hd,PieceDl.key] using hf pd
  · simp [DlStore.get,DlStore.set,he]

/-- The lookup sees keys only. -/
theorem find_set (hf : ∀ pd, (f pd).key = pd.key) (p : Option PeerId) (idx off : ℕ) :
    networkPieceDlFind (st.set d f) p idx off = networkPieceDlFind st p idx off := by
  cases p with
  | none => rfl
  | some p =>
    have hpred : (fun e => decide (((st.set d f).get e).off = off ∧ ((st.set d f).get e).idx = idx)) =
        fun e => decide ((st.get e).off = off ∧ (st.get e).idx = idx) := by
      funext e
      rw [(get_set_key hf e).1,(get_set_key hf e).2]
    simp only [networkPieceDlFind,hpred]
    rfl

end Lookup

section Messages
variable {sha1 : Bytes → Bytes} {env : Env} {s s' : Session} {p : PeerId} {msg : Bytes}

theorem AcceptsAt.setPeer {f : Peer → Peer} {idx off : ℕ} {d : DlId} (h : AcceptsAt (s.setPeer p f) p idx off msg d) :
    AcceptsAt s p idx off msg d :=
  ⟨h.idx_lt,h.off_le,h.unverified,h.found,h.header,h.length⟩

theorem OrderlyMessage.setPeer (h : OrderlyMessage env s p msg) {f : Peer → Peer}
    (hf : (f (s.peer p)).state.fast = (s.peer p).state.fast) : OrderlyMessage env (s.setPeer p f) p msg where
  choke hid hfast := h.choke hid (by rwa [Session.setPeer_self,hf] at hfast)
  reject hid hfast := h.reject hid (by rwa [Session.setPeer_self,hf] at hfast)
  piece hid d hacc := h.piece hid d hacc.setPeer

/-- The loop over the blocks found them all, so the delivered request completes its piece. -/
theorem completes_of_everyBlock {st : DlStore} {idx plen : ℕ} {d : DlId} {f : PieceDl → PieceDl}
    (hf : ∀ pd, (f pd).key = pd.key) (h : everyBlock (st.set d f) p idx plen = .ok true) :
    Completes st p idx plen d := by
  intro off hoff
  unfold everyBlock at h
  split at h
  · rename_i hall
    have hblock := List.all_eq_true.mp hall off hoff
    rw [find_set hf] at hblock
    cases hfind : networkPieceDlFind st (some p) idx off with
    | none => simp [hfind] at hblock
    | some e =>
      refine ⟨e,rfl,?_⟩
      by_cases he : e = d
      · exact .inl he
      · simp only [hfind] at hblock
        simpa [DlStore.get,DlStore.set,he] using hblock
  · cases h

/-- A block taken for an orderly request keeps the accounts. -/
theorem receiveBlock_booked {idx off : ℕ} {data : Bytes} {d : DlId} (hb : s.core.Booked)
    (hfind : networkPieceDlFind s.store (some p) idx off = some d) (hlen : data.length = (s.store.get d).len)
    (ho : OrderlyBlock s p idx d) (h : receiveBlock sha1 env s p idx off data = .ok s') :
    s'.core.Booked ∧ s'.peers = s.peers ∧ ∀ q, s'.store.outstandingOf q ≤ s.store.outstandingOf q := by
  have hwf : s.store.Wf := hb.wf
  obtain ⟨tp₁,tp₂,hmap,hmoves,hend⟩ := receiveBlock_cases hfind h
  have hplen : mappedLen s.tp idx = (tp₁.piece idx).len := by simp [mappedLen,hmap]
  have hb₁ : Core.Booked { s.core with tp := tp₁ } := hb.torrents (@ensureMapped_moves sha1 _ _ _ hmap)
  obtain ⟨hb₂,hle₂,hdone⟩ := @Core.Booked.deliver _ hb₁ p d idx off data ho.1.1 ho.1.2 hlen
  have hb₃ := hb₂.torrents hmoves
  rcases hend with hend | ⟨st,hevery,hst,hend⟩
  · have hstore := congrArg Core.store hend
    refine ⟨hend ▸ hb₃,congrArg Core.peers hend,?_⟩
    rw [show s'.store = _ from hstore]
    exact hle₂
  · have hkey : ∀ pd : PieceDl, ({ pd with bytes := add32 pd.bytes data.length } : PieceDl).key = pd.key := fun _ => rfl
    have hunshared := ho.2 (hplen ▸ completes_of_everyBlock hkey hevery)
    rw [hplen] at hunshared
    unfold cleanupDls at hst
    split at hst
    · cases hst
    · cases hst
      -- the delivered request is complete, and the first requests of the other blocks are as before
      obtain ⟨hb₄,hle₄⟩ := hb₃.cleanup (blockOffs_nodup (tp₁.piece idx).len) (by
        intro o hoff e he hout q hq
        have hed : e ≠ d := by
          rintro rfl
          rw [hdone] at hout
          cases hout
        have hget : (Core.deliver { s.core with tp := tp₁ } p d idx off data).store.get e = s.store.get e := by
          simp [Core.deliver,DlStore.get,DlStore.set,hed,Session.core]
        have hfirst : networkPieceDlFind s.store none idx o = some e := he
        have hnone := hunshared o hoff e hfirst hed (hget ▸ hout)
        obtain ⟨pd,hpd,hpc⟩ := hwf.dl_of_mem_lists (show e ∈ s.store.lists q from hq)
        rw [DlStore.get_of_dl hpd,hpc] at hnone
        cases hnone)
      have hstore := congrArg Core.store hend
      refine ⟨hend ▸ hb₄,congrArg Core.peers hend,?_⟩
      rw [show s'.store = _ from hstore]
      exact fun q => (hle₄ q).trans (hle₂ q)

/-- An orderly message keeps the accounts, and no count grows. -/
theorem networkPeerProcessMessage_booked (hb : s.core.Booked) (ho : OrderlyMessage env s p msg)
    (h : networkPeerProcessMessage sha1 env s p (msg.headD 0) msg = .ok s') :
    s'.core.Booked ∧ s'.peers = s.peers ∧ ∀ q, s'.store.outstandingOf q ≤ s.store.outstandingOf q := by
  have hsame : s'.core = s.core →
      s'.core.Booked ∧ s'.peers = s.peers ∧ ∀ q, s'.store.outstandingOf q ≤ s.store.outstandingOf q := by
    intro hcore
    have hstore : s'.store = s.store := congrArg Core.store hcore
    exact ⟨hcore ▸ hb,congrArg Core.peers hcore,fun q => hstore ▸ le_refl _⟩
  rcases networkPeerProcessMessage_cases h with hcore | ⟨hid,hfast,hcore⟩ | ⟨hid,hcore⟩ | ⟨hid,d,t,hacc,ht,hcore⟩
  · exact hsame hcore
  · rw [core_msgChoke_slow hfast] at hcore
    have hstore := congrArg Core.store hcore
    obtain ⟨hb',hle⟩ := hb.choke (ho.choke hid hfast)
    refine ⟨hcore ▸ hb',congrArg Core.peers hcore,?_⟩
    rw [show s'.store = _ from hstore]
    exact hle
  · rcases msgReject_cases env s p msg with hc | ⟨d,hfind,hfast,href,hc⟩
    · exact hsame (hcore.trans hc)
    · rw [hc] at hcore
      have hstore := congrArg Core.store hcore
      obtain ⟨hmem,hout⟩ := ho.reject hid hfast href d hfind
      obtain ⟨hb',hle⟩ := hb.reject hmem hout
      refine ⟨hcore ▸ hb',congrArg Core.peers hcore,?_⟩
      rw [show s'.store = _ from hstore]
      exact hle
  · have hstore : s'.store = t.store := congrArg Core.store hcore
    obtain ⟨hb',hpeers,hle⟩ := receiveBlock_booked hb hacc.found hacc.length (ho.piece hid d hacc) ht
    have hpeers' : s'.peers = t.peers := congrArg Core.peers hcore
    rw [hcore,hpeers',hstore]
    exact ⟨hb',hpeers,hle⟩

end Messages

section Runs
variable {sha1 : Bytes → Bytes} {s s' : Session}

/-- The accounts are right, and no queue is at the end of its 32 bits. -/
structure Session.Exact (s : Session) : Prop where
  booked : s.core.Booked
  bounded : ∀ p ∈ s.peers, s.store.outstandingOf p < 4294967296

theorem Session.Exact.queue (h : s.Exact) {p : PeerId} (hp : p ∈ s.peers) :
    (s.peer p).dlQueueLen = s.store.outstandingOf p :=
  (h.booked.balanced p hp).trans (wrap32_of_lt (h.bounded p hp))

/-- Where no count grows and whoever is new has nothing outstanding, no queue comes to the end of its bits. -/
theorem Session.Exact.of_le (h : s.Exact) (hb : s'.core.Booked)
    (hle : ∀ q, s'.store.outstandingOf q ≤ s.store.outstandingOf q)
    (hp : ∀ p ∈ s'.peers, p ∈ s.peers ∨ s.nextPeer ≤ p) :
    s'.Exact := by
  refine ⟨hb,?_⟩
  intro p hmem
  refine lt_of_le_of_lt (hle p) ?_
  rcases hp p hmem with hold | hnew
  · exact h.bounded p hold
  · rw [DlStore.outstandingOf,show s.store.lists p = [] from h.booked.fresh p hnew,List.countP_nil]
    decide

theorem Attends.mem_peers {c c' : Core} (h : Attends c c') {p : PeerId} (hp : p ∈ c'.peers) :
    p ∈ c.peers ∨ c.nextPeer ≤ p := by
  induction h with
  | refl => exact .inl hp
  | @tail a b hprev hmove ih =>
    cases hmove with
    | drop q => exact ih (List.mem_of_mem_erase hp)
    | join =>
      rcases List.mem_append.mp hp with hp | hp
      · exact ih hp
      · rw [List.mem_singleton.mp hp]
        exact .inr (@Attends.routines (fun _ => []) _ _ hprev).nextPeer_le

/-- An orderly event keeps the queue lengths exact. -/
theorem Session.Exact.step (h : s.Exact) {e : Env × Event} (ho : Orderly s e) (hstep : step sha1 s e = .ok s') :
    s'.Exact := by
  obtain ⟨env,e⟩ := e
  have hattends : ∀ hb : Attends s.core s'.core, s'.Exact := by
    intro hmoves
    obtain ⟨hb,hle⟩ := h.booked.attends hmoves
    exact h.of_le hb hle (fun p hp => hmoves.mem_peers hp)
  cases e with
  | response p avail =>
    simp only [Unworkable.step] at hstep
    split at hstep
    · rename_i hp
      rcases peerResponse_cases hstep with ⟨-,hcore⟩ | ⟨msg,t,hmsg,hcore,ht⟩
      · exact hattends (hcore ▸ .refl)
      · have horder := (ho hp msg hmsg).setPeer (f := (afterRead env · avail)) (afterRead_fast _ _)
        have hb : (s.setPeer p (afterRead env · avail)).core.Booked := (core_afterRead avail).symm ▸ h.booked
        obtain ⟨hb',hpeers,hle⟩ := networkPeerProcessMessage_booked hb horder ht
        have hstore : s'.store = t.store := congrArg Core.store hcore
        have hpeers' : s'.peers = t.peers := congrArg Core.peers hcore
        refine h.of_le (hcore ▸ hb') ?_ ?_
        · rw [hstore]
          exact hle
        · intro q hq
          rw [hpeers',hpeers] at hq
          exact .inl hq
    · cases hstep
      exact h
  | scheduler =>
    obtain ⟨hb,hpeers,hle⟩ := scheduler_grows h.booked hstep
    exact ⟨hb,fun p hp => lt_of_le_of_lt (hle p) (ho p (hpeers hp))⟩
  | _ => exact hattends (step_attends (by simp) (by simp) hstep)

/-- An orderly run keeps the queue lengths exact. -/
theorem Session.Exact.run (h : s.Exact) {es : List (Env × Event)} (ho : OrderlyRun sha1 s es)
    (hrun : run sha1 s es = .ok s') : s'.Exact := by
  induction es generalizing s with
  | nil =>
    cases hrun
    exact h
  | cons e es ih =>
    rw [Unworkable.run,List.foldlM_cons,bind_ok] at hrun
    obtain ⟨t,ht,hrun⟩ := hrun
    exact ih (h.step ho.1 ht) (ho.2 t ht) hrun

/-- Both ways of starting give pieces whose lengths are 32-bit words. -/
theorem Boot.torrent_short {b : Boot} {tp : Torrent} (h : b.torrent sha1 = .ok tp) (i : ℕ) :
    (tp.piece i).len < 4294967296 := by
  unfold Boot.torrent at h
  cases hr : b.resume with
  | none =>
    simp only [hr] at h
    have hall : ∀ tp', TorrentMoves sha1 (torrentPiecesCreate b.pagesize b.mi b.disk) tp' →
        ∀ i, (tp'.piece i).len < 4294967296 := by
      intro tp' hmoves
      induction hmoves with
      | refl => exact pieceLen_lt b.mi
      | tail _ hmove ih => exact hmove.short ih
    exact hall tp (startup_moves h) i
  | some contents =>
    simp only [hr] at h
    have hlen := foldlM_rel (R := fun t t' : Torrent => ∀ i, (t'.piece i).len = (t.piece i).len) (fun _ _ => rfl)
      (fun hab hbc i => (hbc i).trans (hab i)) _ (fun _ _ _ _ h => (fastresumeTurn_frame h).2) h
    rw [hlen i]
    exact pieceLen_lt b.mi i

theorem Boot.session_exact {b : Boot} (h : b.session sha1 = .ok s) : s.Exact := by
  obtain ⟨tp,htp,rfl⟩ := Boot.session_ok h
  have hshort := Boot.torrent_short htp
  refine ⟨⟨DlStore.wf_empty,initial_peered tp b.maxfds b.peerid b.seed b.now,?_,fun _ _ => rfl,?_,?_⟩,?_⟩
  · exact hshort
  · intro d pd hd
    cases hd
  · intro p hp
    cases hp
  · intro p hp
    cases hp

end Runs

/-- In every state of a run of orderly events the queue length of each peer is the number
of its outstanding requests. -/
theorem queue_length_outstanding (sha1 : Bytes → Bytes) (b : Boot) (s₀ s : Session) (es : List (Env × Event))
    (hboot : b.session sha1 = .ok s₀) (ho : OrderlyRun sha1 s₀ es) (hrun : run sha1 s₀ es = .ok s) (p : PeerId)
    (hp : p ∈ s.peers) : (s.peer p).dlQueueLen = s.store.outstandingOf p :=
  ((Boot.session_exact hboot).run ho hrun).queue hp

/-- A run in which the peer that was asked for a block delivers it. -/
def answeredRun : List (Env × Event) := oneRequestRun ++ inputs 1001 0 (messagePortions pieceZeroMessage)

theorem queue_length_outstanding_answered : ∃ s₀ s, (Boot.oneByte (List.replicate 20 0) 1).session sha1ZeroByte =
    .ok s₀ ∧
    run sha1ZeroByte s₀ answeredRun = .ok s ∧ s.tp.downloaded = 1 ∧ s.peers = [0,1] ∧
    (s.peer 0).dlQueueLen = s.store.outstandingOf 0 := by
  have hcheck : ((Boot.oneByte (List.replicate 20 0) 1).session sha1ZeroByte).toOption.map (fun s₀ =>
      orderlyRun sha1ZeroByte s₀ answeredRun && decide ((run sha1ZeroByte s₀ answeredRun).toOption.map
        (fun s => (s.tp.downloaded,s.peers)) = some (1,[0,1]))) = some true := by decide +kernel
  cases h₀ : (Boot.oneByte (List.replicate 20 0) 1).session sha1ZeroByte with
  | error e =>
    rw [h₀] at hcheck
    cases hcheck
  | ok s₀ =>
    rw [h₀] at hcheck
    obtain ⟨ho,hend⟩ := Bool.and_eq_true_iff.mp (Option.some.inj hcheck)
    have hend := of_decide_eq_true hend
    cases hrun : run sha1ZeroByte s₀ answeredRun with
    | error e =>
      rw [hrun] at hend
      cases hend
    | ok s =>
      rw [hrun] at hend
      obtain ⟨hdown,hpeers⟩ := Prod.mk.inj (Option.some.inj hend)
      exact ⟨s₀,s,rfl,hrun,hdown,hpeers,queue_length_outstanding sha1ZeroByte _ s₀ s answeredRun h₀
        (orderlyRun_iff.mp ho) hrun 0 (by rw [hpeers]; decide)⟩

/-- The block asked of the first peer comes from the second: the queue length of the first
still counts a request that is gone, and the one of the second wraps. -/
theorem queue_length_wraps : ∃ s, Reachable sha1ZeroByte (.oneByte (List.replicate 20 0) 1) s ∧ s.peers = [0,1] ∧
    (s.peer 0).dlQueueLen = 1 ∧ s.store.outstandingOf 0 = 0 ∧
    (s.peer 1).dlQueueLen = 4294967295 ∧ s.store.outstandingOf 1 = 0 := by
  have hrun : ((Boot.oneByte (List.replicate 20 0) 1).run sha1ZeroByte
      (oneRequestRun ++ inputs 1001 1 (messagePortions pieceZeroMessage))).toOption.map
      (fun s => decide (s.peers = [0,1] ∧ (s.peer 0).dlQueueLen = 1 ∧ s.store.outstandingOf 0 = 0 ∧
        (s.peer 1).dlQueueLen = 4294967295 ∧ s.store.outstandingOf 1 = 0)) = some true := by decide +kernel
  obtain ⟨s,hs,hP⟩ := exists_reachable hrun
  exact ⟨s,hs,of_decide_eq_true hP⟩

end Unworkable
