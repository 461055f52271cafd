import Unworkable.Wire.Response

/-! # The session as a transition system

One step is one callback of the event loop: an entry of the read callback of a peer, an
error on its socket, its keep-alive timer, an incoming connection, an answer of the
tracker, or the scheduler timer. Peers that are not on the session's list have no
callbacks. A read callback that enters itself again is several steps, each with what is
left in the input buffer.
-/
namespace Unworkable
open Library

section Connections
variable {ι : Type} (env : Env)

/-- `network_peerlist_add_peer`, for a peer created with the given address. -/
def networkPeerlistAddPeer (s : Session ι) (addr : ℕ) : Session ι :=
  if s.peers.any (fun p => (s.peer p).addr = addr) then s
  else { s with
    peers := s.peers ++ [s.nextPeer]
    peer := Function.update s.peer s.nextPeer (networkPeerCreate addr)
    nextPeer := s.nextPeer + 1
    numPeers := add32 s.numPeers 1 }

def AtLimit (s : Session ι) : Prop := (s.numPeers : ℤ) ≥ (s.maxfds : ℤ) - 5 ∧ 5 ≤ s.maxfds

instance (s : Session ι) : Decidable (AtLimit s) := inferInstanceAs (Decidable (_ ∧ _))

section Connect
variable [RbIndex ι]

/-- A turn of `network_peerlist_connect` below the limit: connect what is new, and drop what cannot be connected. -/
def connectNew (s : Session ι) (p : PeerId) : Session ι :=
  if (s.peer p).connfd then s
  else
    let s := s.setState p (fun b => { b with handshake1 := true })
    if env.connectFails p then dropPeer s p
    else networkPeerHandshake env (s.setPeer p (fun q => { q with connfd := true })) p

/-- A turn of `network_peerlist_connect`. At the limit the peer is evicted: it is freed first, and
`TAILQ_REMOVE` then goes by the links in the freed memory. -/
def connectPeer (s : Session ι) (p : PeerId) : Except Halt (Session ι) :=
  if AtLimit s then .error .wild else .ok (connectNew env s p)

/-- `network_peerlist_update`, once the peer list is decoded to addresses. -/
def networkPeerlistUpdate (s : Session ι) (addrs : List ℕ) : Except Halt (Session ι) :=
  let s := addrs.foldl networkPeerlistAddPeer s
  s.peers.foldlM (connectPeer env) s

end Connect

/-- `network_handle_peer_connect`, once the connection is accepted. -/
def networkHandlePeerConnect (s : Session ι) (addr : ℕ) : Session ι :=
  let p := s.nextPeer
  let q := networkPeerCreate addr
  let s := { s with
    peers := s.peers ++ [p]
    peer := Function.update s.peer p { q with connfd := true, state := { q.state with handshake1 := true } }
    nextPeer := p + 1
    numPeers := add32 s.numPeers 1 }
  networkPeerHandshake env s p

end Connections

/-- The callbacks of the event loop. -/
inductive Event where
  /-- An entry of the read callback of `p`, with the bytes in its input buffer. -/
  | response (p : PeerId) (avail : Bytes)
  /-- `network_handle_peer_error`. -/
  | error (p : PeerId)
  /-- `network_peer_keepalive`. -/
  | keepalive (p : PeerId)
  /-- `network_handle_peer_connect`. -/
  | accept (addr : ℕ)
  /-- `handle_announce_error`, with the addresses of the peer list if there was one. -/
  | tracker (addrs : Option (List ℕ))
  /-- `announce_update`. -/
  | announceTimer
  /-- `scheduler`. -/
  | scheduler

section Step
variable {ι : Type} [RbIndex ι] (sha1 : Bytes → Bytes)

def step (s : Session ι) : Env × Event → Except Halt (Session ι)
  | (env,.response p avail) => if p ∈ s.peers then (peerResponse sha1 env p s avail).result else .ok s
  | (_,.error p) => .ok (if p ∈ s.peers then killPeer s p else s)
  | (env,.keepalive p) =>
    .ok (if p ∈ s.peers ∧ (env.now : ℤ) - (s.peer p).lastsend ≥ 60 then networkPeerWriteKeepalive env s p else s)
  | (env,.accept addr) => .ok (networkHandlePeerConnect env s addr)
  | (env,.tracker addrs) => do
    let s ← (match addrs with
      | some as => networkPeerlistUpdate env s as
      | none => .ok s)
    .ok { s with announceUnderway := false }
  | (env,.announceTimer) => if s.announceUnderway then .ok s else announce env s
  | (env,.scheduler) => scheduler env s

def run (s : Session ι) (es : List (Env × Event)) : Except Halt (Session ι) := es.foldlM (step sha1) s

end Step

/-- A peer list that is taken over: what is new is connected, one peer after the other. -/
theorem networkPeerlistUpdate_ok {ι : Type} [RbIndex ι] {env : Env} {s t : Session ι} {addrs : List ℕ}
    (h : networkPeerlistUpdate env s addrs = .ok t) :
    t = (addrs.foldl networkPeerlistAddPeer s).peers.foldl (connectNew env) (addrs.foldl networkPeerlistAddPeer s) := by
  refine foldlM_eq_foldl ?_ h
  intro s p t h
  unfold connectPeer at h
  split at h
  · cases h
  · cases h
    rfl

section Runs
variable {ι : Type} [RbIndex ι] (sha1 : Bytes → Bytes)

/-- A run each event of which meets a condition on the state before it. -/
def RunMeets (C : Session ι → Env × Event → Prop) : Session ι → List (Env × Event) → Prop
  | _,[] => True
  | s,e :: es => C s e ∧ ∀ s', step sha1 s e = .ok s' → RunMeets C s' es

/-- A run each step of which has a property. -/
def RunShows (P : Session ι → Env × Event → Session ι → Prop) : Session ι → List (Env × Event) → Prop
  | _,[] => True
  | s,e :: es => ∀ s', step sha1 s e = .ok s' → P s e s' ∧ RunShows P s' es

def runMeets (C : Session ι → Env × Event → Prop) [∀ s e, Decidable (C s e)] : Session ι → List (Env × Event) → Bool
  | _,[] => true
  | s,e :: es => decide (C s e) && match step sha1 s e with
    | .ok s' => runMeets C s' es
    | .error _ => true

variable {sha1} {C : Session ι → Env × Event → Prop} {P : Session ι → Env × Event → Session ι →
  Prop} {I : Session ι → Prop}
  {s s' : Session ι} {es : List (Env × Event)}

theorem runMeets_iff [∀ s e, Decidable (C s e)] : runMeets sha1 C s es = true ↔ RunMeets sha1 C s es := by
  induction es generalizing s with
  | nil => simp [runMeets,RunMeets]
  | cons e es ih =>
    simp only [runMeets,RunMeets,Bool.and_eq_true,decide_eq_true_eq]
    cases step sha1 s e with
    | error h => simp
    | ok t => simp [ih]

theorem RunMeets.of_forall (h : ∀ e ∈ es, ∀ s, C s e) : RunMeets sha1 C s es := by
  induction es generalizing s with
  | nil => trivial
  | cons e es ih =>
    obtain ⟨he,hes⟩ := List.forall_mem_cons.mp h
    exact ⟨he s,fun _ _ => ih hes⟩

theorem RunMeets.append {es' : List (Env × Event)} (h : RunMeets sha1 C s es)
    (h' : ∀ t, run sha1 s es = .ok t → RunMeets sha1 C t es') : RunMeets sha1 C s (es ++ es') := by
  induction es generalizing s with
  | nil => exact h' s rfl
  | cons e es ih =>
    refine ⟨h.1,fun t ht => ih (h.2 t ht) fun u hu => h' u ?_⟩
    rw [run,List.foldlM_cons,ht,ok_bind]
    exact hu

/-- A run whose events meet the condition under which a step keeps an invariant. -/
theorem RunMeets.invariant (h : RunMeets sha1 C s es)
    (hstep : ∀ s e s', I s → C s e → step sha1 s e = .ok s' → I s') (hs : I s) (hrun : run sha1 s es = .ok s') :
    I s' := by
  induction es generalizing s with
  | nil =>
    cases hrun
    exact hs
  | cons e es ih =>
    rw [run,List.foldlM_cons,bind_ok] at hrun
    obtain ⟨t,ht,hrun⟩ := hrun
    exact ih (h.2 t ht) (hstep s e t hs h.1 ht) hrun

/-- The same for a property of the steps themselves. -/
theorem RunMeets.shows (h : RunMeets sha1 C s es)
    (hstep : ∀ s e s', I s → C s e → step sha1 s e = .ok s' → P s e s' ∧ I s') (hs : I s) : RunShows sha1 P s es := by
  induction es generalizing s with
  | nil => trivial
  | cons e es ih =>
    intro t ht
    obtain ⟨hP,hI⟩ := hstep s e t hs h.1 ht
    exact ⟨hP,ih (h.2 t ht) hI⟩

/-- A property of all steps of a run, the step singled out. -/
theorem runShows_iff : RunShows sha1 P s es ↔ ∀ es₁ e es₂, es = es₁ ++ e :: es₂ → ∀ t t', run sha1 s es₁ = .ok t →
    step sha1 t e = .ok t' → P t e t' := by
  induction es generalizing s with
  | nil => simp [RunShows]
  | cons e es ih =>
    constructor
    · intro h es₁ e' es₂ hsplit t t' hrun hstep
      cases es₁ with
      | nil =>
        obtain ⟨rfl,rfl⟩ := List.cons.inj hsplit
        cases hrun
        exact (h t' hstep).1
      | cons e₁ es₁ =>
        obtain ⟨rfl,rfl⟩ := List.cons.inj hsplit
        rw [run,List.foldlM_cons,bind_ok] at hrun
        obtain ⟨u,hu,hrun⟩ := hrun
        exact ih.mp (h u hu).2 es₁ e' es₂ rfl t t' hrun hstep
    · intro h u hu
      refine ⟨h [] e es rfl s u rfl hu,ih.mpr ?_⟩
      intro es₁ e' es₂ hsplit t t' hrun hstep
      apply h (e :: es₁) e' es₂ (by rw [hsplit]; rfl) t t' _ hstep
      rw [run,List.foldlM_cons,hu]
      exact hrun

end Runs

/-- What a process starts from: the parsed torrent, the files and the resume file it finds,
its options, the page size and the time. -/
structure Boot where
  mi : Metainfo
  disk : ℕ → FileState
  resume : Option Bytes
  stale : ℕ → UInt8
  seed : Bool
  maxfds : ℕ
  peerid : Bytes
  pagesize : ℕ
  now : ℕ

section Boot
variable (sha1 : Bytes → Bytes)

/-- `main`, from the resume file or else the hash check of all pieces. -/
def Boot.torrent (b : Boot) : Except Halt Torrent :=
  match b.resume with
  | some contents => torrentFastresumeLoad (torrentPiecesCreate b.pagesize b.mi b.disk) contents
  | none => startup sha1 b.stale (torrentPiecesCreate b.pagesize b.mi b.disk)

/-- `main` up to the event loop of `network_start_torrent`. -/
def Boot.start (ι : Type) [RbIndex ι] (b : Boot) : Except Halt (Session ι) := do
  let tp ← b.torrent sha1
  if !b.seed ∧ tp.goodPieces = tp.numPieces then .error .exit
  else .ok (.initial tp b.maxfds b.peerid b.seed b.now)

/-- The same on the finite map, as all that follows unless it names the tree. -/
def Boot.session (b : Boot) : Except Halt Session := b.start sha1 _

/-- A process from its start through the given events. -/
def Boot.run (b : Boot) (es : List (Env × Event)) : Except Halt Session := b.session sha1 >>= (Unworkable.run sha1 · es)

/-- States that some run of the event loop reaches. -/
def Reachable (b : Boot) (s : Session) : Prop := ∃ es, b.run sha1 es = .ok s

/-- A process whose requests are indexed by the tree of the source. -/
def Boot.treeRun (b : Boot) (es : List (Env × Event)) : Except Halt (Session NodeTree) :=
  b.start sha1 NodeTree >>= (Unworkable.run sha1 · es)

def TreeReachable (b : Boot) (t : Session NodeTree) : Prop := ∃ es, b.treeRun sha1 es = .ok t

variable {sha1}

/-- A run that computes to a state with some property reaches a state with the property. -/
theorem exists_reachable {b : Boot} {es : List (Env × Event)} {P : Session → Bool}
    (h : (b.run sha1 es).toOption.map P = some true) : ∃ s, Reachable sha1 b s ∧ P s = true := by
  cases hr : b.run sha1 es with
  | error e => simp [hr,Except.toOption] at h
  | ok s => exact ⟨s,⟨es,hr⟩,by simpa [hr,Except.toOption] using h⟩

end Boot

section Small

/-- A single-file torrent whose pieces have one byte each. -/
def Metainfo.oneByte (pieces : Bytes) (fileLength : ℤ) : Metainfo where
  type := .singlefile
  name := []
  files := [⟨fileLength,[]⟩]
  pieces := pieces
  pieceLength := 1
  infoHash := List.replicate 20 0
  pieceLength_lt := one_lt_word
  infoHash_length := length_zeroHash
  single_file _ := rfl

/-- A first start of such a torrent: no file and no resume file is there. -/
def Boot.oneByte (pieces : Bytes) (fileLength : ℤ) : Boot where
  mi := .oneByte pieces fileLength
  disk _ := ⟨false,0,none,false⟩
  resume := none
  stale _ := 0
  seed := true
  maxfds := 128
  peerid := List.replicate 20 1
  pagesize := 4096
  now := 1000

/-- An environment at the given time in which nothing fails. -/
def Env.plain (now : ℕ) : Env := ⟨now,fun _ => 0,.sent,fun _ => false,fun _ => 0,.insertion,.insertion⟩

def inputs (now : ℕ) (p : PeerId) (portions : List Bytes) : List (Env × Event) :=
  portions.map (fun bs => (.plain now,.response p bs))

def handshakePortions : List Bytes := [19 :: btProtocol,List.replicate 48 0]

def messagePortions (body : Bytes) : List Bytes := [be32 body.length,body]

/-- Two peers connect and shake hands; the first announces piece 0 and unchokes, and a tick
of the scheduler asks it for the piece. -/
def oneRequestRun : List (Env × Event) :=
  [(.plain 1000,.accept 1),(.plain 1000,.accept 2)] ++ inputs 1000 0 handshakePortions ++
    inputs 1000 1 handshakePortions ++ inputs 1000 0 (messagePortions [msgBitfieldId,0x80]) ++
    inputs 1000 0 (messagePortions [msgUnchokeId]) ++ [(.plain 1001,.scheduler)]

end Small

end Unworkable
