import Unworkable.Bencode.Globals
import Unworkable.Torrent.Strstr
import Unworkable.Session.Refinement

/-! # The announce loop

A client asks the tracker for peers again when its announce timer fires, or when its scheduler finds
that it has too few. Both timers are armed for the first time when a response has been read to its end.
The delays of the timers are not modelled.
-/
namespace Unworkable
open Library

/-- What `handle_announce_error` takes a response for. -/
inductive TrackerReply where
  /-- The connection was closed and nothing had come. -/
  | silent
  /-- "server did not send a valid HTTP/1.0 response" -/
  | invalid
  /-- "HTTP response indicates error" -/
  | refused
  /-- "HTTP response had no content" -/
  | empty
  /-- There is a "failure reason". -/
  | failed
  /-- "no peers field" -/
  | peerless
  | peers (node : Node)

def TrackerReply.hasPeers : TrackerReply → Bool
  | .peers _ => true
  | _ => false

section Reply

/-- The tree of a buffer, from `benc_parse_buf` in a process whose parses have all succeeded. -/
def bencTree (buf : Bytes) : Except Halt Node :=
  match bencParseBuf {} [] buf with
  | some (.accept root _ _) => .ok root
  | some (.halt h) => .error h
  | _ => .error (.errx "handle_announce_error: HTTP response parsing failed (no peers?)")

/-- Where there is a node under the key it has to be a number. -/
def checkNumber (root : Node) (key : String) (msg : String) : Except Halt Unit :=
  match bencNodeFind (ascii key) root with
  | none => .ok ()
  | some (.int _) => .ok ()
  | some _ => .error (.errx msg)

def contentReply (root : Node) : Except Halt TrackerReply :=
  if (bencNodeFind (ascii "failure reason") root).isSome then .ok .failed
  else do
    checkNumber root "interval" "interval is not a number"
    checkNumber root "complete" "complete is not a number"
    checkNumber root "incomplete" "incomplete is not a number"
    match bencNodeFind (ascii "peers") root with
    | none => .ok .peerless
    | some node => .ok (.peers node)

/-- `handle_announce_error` up to the peers, for the bytes read and what the allocation holds behind
them. The length of the content is a `size_t` difference. -/
def announceReply (rx memory : Bytes) : Except Halt TrackerReply :=
  let c := rx ++ memory
  if rx = [] then .ok .silent
  else if c.take 8 ≠ ascii "HTTP/1.0" ∧ c.take 8 ≠ ascii "HTTP/1.1" then .ok .invalid
  else if (c.drop 9).take 3 ≠ ascii "200" then .ok .refused
  else do
    match ← strstr [13,10,13,10] (c.drop 9) with
    | none => .ok .empty
    | some found =>
      let content := found.drop 4
      if content.length < memory.length then .error .wild
      else
        let root ← bencTree (content.take (content.length - memory.length))
        contentReply root

end Reply

section Peerlist

/-- `network_peerlist_update_string`, up to the addresses: six bytes each. -/
def networkPeerlistUpdateString (len : ℕ) (peerlist : CharBuf) : Except Halt (List ℕ) :=
  (List.range ((len + 5) / 6)).mapM fun k =>
    if peerlist.size < 6 * k + 6 then .error .wild
    else .ok ((window (peerlist.text ++ List.replicate (peerlist.size - peerlist.text.length) 0) (6 * k) 6).foldl
      (fun addr b => 256 * addr + b.toNat) 0)

/-- One turn of `network_peerlist_update_dict`, up to the address. `getaddrinfo` gives it, or the process ends. -/
def dictPeer (resolve : Bytes → ℤ → Except Halt ℕ) (dict : Node) : Except Halt ℕ := do
  let ip ← match bencNodeFind (ascii "ip") dict with
    | none => .error .wild
    | some (.string _ value) => .ok value
    | some _ => .error (.errx "node is not a string")
  let port ← match bencNodeFind (ascii "port") dict with
    | none => .error .wild
    | some (.int n) => .ok (toInt32 (wrapInt32 n))
    | some _ => .error (.errx "node is not an integer")
  if 6 ≤ (decimalInt port).length then .error (.errx "network_peerlist_update_dict() string truncations")
  else match bencNodeFind (ascii "peer id") dict with
    | none => .error (.errx "couldn't find peer id field")
    | some (.string _ id) => if id.size < 20 then .error .wild else do
      let ip ← ip.cString
      resolve ip port
    | some _ => .error (.errx "node is not a string")

def networkPeerlistUpdateDict (resolve : Bytes → ℤ → Except Halt ℕ) (peers : List Node) : Except Halt (List ℕ) :=
  peers.mapM (dictPeer resolve)

/-- The addresses that `network_peerlist_update` adds. -/
def peerlistAddrs (resolve : Bytes → ℤ → Except Halt ℕ) : Node → Except Halt (List ℕ)
  | .string len value => networkPeerlistUpdateString len value
  | .list peers => networkPeerlistUpdateDict resolve peers
  | _ => .error (.errx "peers object is not a list")

end Peerlist

/-- The session with what belongs to its announces: `sc->res` with the bytes read into it, the server
socket, and which of the two timers are pending. -/
structure Client where
  session : Session
  res : Option Bytes
  servfd : Bool
  announceEvent : Bool
  schedulerEvent : Bool

inductive ClientEvent where
  /-- `handle_announce_response`, with the bytes that have come. -/
  | data (bs : Bytes)
  /-- `handle_announce_error`, with the bytes still to be read and what is behind them in memory. -/
  | closed (bs memory : Bytes)
  /-- A callback of the session. -/
  | session (e : Event)

/-- A client whose first announce is on its way. -/
def Client.initial (s : Session) : Client := ⟨s,some [],false,false,false⟩

/-- The session after a callback: if `announce` has sent a request, there is a new response to read. -/
def Client.withSession (c : Client) (s : Session) : Client :=
  { c with session := s, res := if s.announceUnderway && !c.session.announceUnderway then some [] else c.res }

def Client.idle (c : Client) : Client := { c with session := { c.session with announceUnderway := false } }

section Step
variable (sha1 : Bytes → Bytes) (resolve : Bytes → ℤ → Except Halt ℕ) (env : Env) (c : Client)

def handleAnnounceError (bs memory : Bytes) : Except Halt Client :=
  match c.res with
  | none => .ok c.idle
  | some rx => do
    match ← announceReply (rx ++ bs) memory with
    | .silent => .ok c.idle
    | .peers node => do
      let addrs ← peerlistAddrs resolve node
      let session ← networkPeerlistUpdate env c.session addrs
      let c := { c with session := session, announceEvent := true, res := none }
      .ok (if c.servfd then c else { c with servfd := true, schedulerEvent := true }).idle
    | _ => .ok { c with res := none }.idle

/-- `announce_update`: the timer that has fired is armed again. -/
def announceUpdate : Except Halt Client := do
  let c := { c with announceEvent := false }
  let s ← step sha1 c.session (env,.announceTimer)
  .ok { c.withSession s with announceEvent := true }

/-- `scheduler`, with its timer. -/
def schedulerTimer : Except Halt Client := do
  let c := { c with schedulerEvent := true }
  let s ← scheduler env c.session
  .ok (c.withSession s)

/-- One callback of the event loop. A timer that is not pending does not fire, nobody connects before
there is a server socket, and the tracker's callbacks are the two of the announce connection. -/
def clientStep : Env × ClientEvent → Except Halt Client
  | (_,.data bs) => .ok (if c.session.announceUnderway then { c with res := c.res.map (· ++ bs) } else c)
  | (env,.closed bs memory) => if c.session.announceUnderway then handleAnnounceError resolve env c bs memory else .ok c
  | (env,.session .announceTimer) => if c.announceEvent then announceUpdate sha1 env c else .ok c
  | (env,.session .scheduler) => if c.schedulerEvent then schedulerTimer env c else .ok c
  | (env,.session (.accept addr)) =>
    if c.servfd then .ok (c.withSession (networkHandlePeerConnect env c.session addr)) else .ok c
  | (_,.session (.tracker _)) => .ok c
  | (env,.session e) => (step sha1 c.session (env,e)).map c.withSession

/-- All states of a run have a property, to the end of the process if it ends. -/
def Throughout (P : Client → Prop) : Client → List (Env × ClientEvent) → Prop
  | c,[] => P c
  | c,e :: es => P c ∧ ∀ c', clientStep sha1 resolve c e = .ok c' → Throughout P c' es

theorem throughout_head {P : Client → Prop} {c : Client} {es : List (Env × ClientEvent)}
    (h : Throughout sha1 resolve P c es) : P c := by
  cases es with
  | nil => exact h
  | cons e es => exact h.1

end Step

section Refines
variable {sha1 : Bytes → Bytes} {resolve : Bytes → ℤ → Except Halt ℕ} {env : Env} {c c' : Client} {e : ClientEvent}

/-- What a callback of the client does: nothing to the session or what one of the session's callbacks
does, and a scheduler's timer that is pending is pending again afterwards. -/
structure Client.Moves (sha1 : Bytes → Bytes) (env : Env) (c c' : Client) : Prop where
  session : c'.session = c.session ∨ ∃ e, step sha1 c.session (env,e) = .ok c'.session
  scheduled : c.schedulerEvent = true → c'.schedulerEvent = true

theorem Client.Moves.refl (env : Env) (c : Client) : Client.Moves sha1 env c c := ⟨.inl rfl,id⟩

theorem moves_session {s : Session} {e : Event} (hs : step sha1 c.session (env,e) = .ok s) :
    Client.Moves sha1 env c (c.withSession s) := ⟨.inr ⟨e,hs⟩,id⟩

theorem moves_handleAnnounceError {bs memory : Bytes} (h : handleAnnounceError resolve env c bs memory = .ok c') :
    Client.Moves sha1 env c c' := by
  have hidle : ∀ res, Client.Moves sha1 env c { c with res := res }.idle := fun res => ⟨.inr ⟨.tracker none,rfl⟩,id⟩
  unfold handleAnnounceError at h
  cases hres : c.res with
  | none =>
    simp only [hres] at h
    cases h
    exact hidle c.res
  | some rx =>
    simp only [hres] at h
    obtain ⟨reply,-,h⟩ := bind_ok.mp h
    cases reply with
    | peers node =>
      obtain ⟨addrs,-,h⟩ := bind_ok.mp h
      obtain ⟨t,ht,h⟩ := bind_ok.mp h
      cases h
      constructor
      · refine .inr ⟨.tracker (some addrs),bind_ok.mpr ⟨t,ht,?_⟩⟩
        cases c.servfd <;> rfl
      · intro hc
        cases c.servfd
        · rfl
        · exact hc
    | silent =>
      cases h
      exact hidle c.res
    | _ =>
      cases h
      exact hidle none

theorem clientStep_moves (h : clientStep sha1 resolve c (env,e) = .ok c') : Client.Moves sha1 env c c' := by
  have hplain : ∀ e', (step sha1 c.session (env,e')).map c.withSession = .ok c' → Client.Moves sha1 env c c' := by
    intro e' h
    obtain ⟨s,hs,rfl⟩ := map_ok.mp h
    exact moves_session hs
  cases e with
  | data bs =>
    unfold clientStep at h
    cases h
    split
    · exact ⟨.inl rfl,id⟩
    · exact .refl env c
  | closed bs memory =>
    simp only [clientStep] at h
    split at h
    · exact moves_handleAnnounceError h
    · cases h
      exact .refl env c
  | session e =>
    cases e with
    | announceTimer =>
      simp only [clientStep] at h
      split at h
      · obtain ⟨s,hs,h⟩ := bind_ok.mp h
        cases h
        exact ⟨.inr ⟨.announceTimer,hs⟩,id⟩
      · cases h
        exact .refl env c
    | scheduler =>
      simp only [clientStep] at h
      split at h
      · obtain ⟨s,hs,h⟩ := bind_ok.mp h
        cases h
        exact ⟨.inr ⟨.scheduler,hs⟩,fun _ => rfl⟩
      · cases h
        exact .refl env c
    | accept addr =>
      simp only [clientStep] at h
      split at h
      · cases h
        exact @moves_session sha1 env c _ (.accept addr) rfl
      · cases h
        exact .refl env c
    | tracker addrs =>
      cases h
      exact .refl env c
    | response p avail => exact hplain (.response p avail) h
    | error p => exact hplain (.error p) h
    | keepalive p => exact hplain (.keepalive p) h

/-- The sessions along a run of the client are those of the event loop. -/
theorem client_reachable {b : Boot} (h : Reachable sha1 b c.session) (es : List (Env × ClientEvent)) :
    Throughout sha1 resolve (fun c => Reachable sha1 b c.session) c es := by
  induction es generalizing c with
  | nil => exact h
  | cons e es ih =>
    refine ⟨h,?_⟩
    intro c' hc'
    apply ih
    rcases (clientStep_moves hc').session with hs | ⟨e',hs⟩
    · rwa [hs]
    · obtain ⟨es,hes⟩ := h
      obtain ⟨s₀,hs₀,hrun⟩ := bind_ok.mp hes
      refine ⟨es ++ [(e.1,e')],bind_ok.mpr ⟨s₀,hs₀,?_⟩⟩
      rw [run,List.foldlM_append,bind_ok]
      exact ⟨c.session,hrun,by rw [List.foldlM_cons,hs]; rfl⟩

end Refines

/-- While no announce is under way, a timer is pending that can lead to one. -/
def Client.Awake (c : Client) : Prop :=
  c.session.announceUnderway = false → c.announceEvent = true ∨ c.schedulerEvent = true

/-- The first response that the tracker finishes, behind the bytes that have come already, with what
the allocation holds behind it. -/
def firstReply (rx : Bytes) : List (Env × ClientEvent) → Option (Bytes × Bytes)
  | [] => none
  | (_,.data bs) :: es => firstReply (rx ++ bs) es
  | (_,.closed bs memory) :: _ => some (rx ++ bs,memory)
  | (_,.session _) :: es => firstReply rx es

/-- The first response ends the process or gives peers. -/
def FirstSucceeds (rx : Bytes) (es : List (Env × ClientEvent)) : Prop :=
  ∀ x reply, firstReply rx es = some x → announceReply x.1 x.2 = .ok reply → reply.hasPeers = true

section Awake
variable {sha1 : Bytes → Bytes} {resolve : Bytes → ℤ → Except Halt ℕ} {c c' : Client}

/-- Once the scheduler's timer is pending it stays so. -/
theorem awake_of_scheduled (hc : c.schedulerEvent = true) (es : List (Env × ClientEvent)) :
    Throughout sha1 resolve Client.Awake c es := by
  induction es generalizing c with
  | nil => exact fun _ => .inr hc
  | cons e es ih => exact ⟨fun _ => .inr hc,fun c' hc' => ih ((clientStep_moves hc').scheduled hc)⟩

/-- The client waits for its first response, of which `rx` has come. -/
structure Client.Waits (c : Client) (rx : Bytes) : Prop where
  peers : c.session.peers = []
  underway : c.session.announceUnderway = true
  res : c.res = some rx
  servfd : c.servfd = false
  announceEvent : c.announceEvent = false
  schedulerEvent : c.schedulerEvent = false

/-- Until the response comes there is nobody else to hear from. -/
theorem Client.Waits.session_step {rx : Bytes} (h : c.Waits rx) (env : Env) (e : Event) :
    clientStep sha1 resolve c (env,.session e) = .ok c := by
  have hsame : c.withSession c.session = c := by simp [withSession]
  cases e with
  | announceTimer => simp [clientStep,h.announceEvent]
  | scheduler => simp [clientStep,h.schedulerEvent]
  | accept addr => simp [clientStep,h.servfd]
  | tracker addrs => rfl
  | response p avail => simp [clientStep,step,h.peers,Except.map,hsame]
  | error p => simp [clientStep,step,h.peers,Except.map,hsame]
  | keepalive p => simp [clientStep,step,h.peers,Except.map,hsame]

theorem Client.Waits.data_step {rx : Bytes} (h : c.Waits rx) (env : Env) (bs : Bytes) :
    ∃ c' : Client, clientStep sha1 resolve c (env,.data bs) = .ok c' ∧ c'.Waits (rx ++ bs) := by
  refine ⟨{ c with res := some (rx ++ bs) },?_,⟨h.peers,h.underway,rfl,h.servfd,h.announceEvent,h.schedulerEvent⟩⟩
  simp [clientStep,h.underway,h.res]

/-- A first response with peers arms the scheduler's timer. -/
theorem Client.Waits.succeeds {rx : Bytes} (h : c.Waits rx) {env : Env} {bs memory : Bytes} {reply : TrackerReply}
    (hreply : announceReply (rx ++ bs) memory = .ok reply) (hpeers : reply.hasPeers = true)
    (hc : clientStep sha1 resolve c (env,.closed bs memory) = .ok c') : c'.schedulerEvent = true := by
  simp only [clientStep,h.underway,if_true,handleAnnounceError,h.res,hreply] at hc
  rw [ok_bind] at hc
  cases reply with
  | peers node =>
    obtain ⟨addrs,-,hc⟩ := bind_ok.mp hc
    obtain ⟨t,-,hc⟩ := bind_ok.mp hc
    cases hc
    rw [if_neg (by simp [h.servfd])]
    rfl
  | _ => cases hpeers

/-- After any other first response no timer is pending. -/
theorem Client.Waits.fails {rx : Bytes} (h : c.Waits rx) (env : Env) {bs memory : Bytes} {reply : TrackerReply}
    (hreply : announceReply (rx ++ bs) memory = .ok reply) (hne : ¬ reply.hasPeers = true) :
    ∃ c', clientStep sha1 resolve c (env,.closed bs memory) = .ok c' ∧ ¬ c'.Awake := by
  have hasleep : ∀ res, ¬ { c with res := res }.idle.Awake := by
    intro res hawake
    rcases hawake rfl with ha | hs
    · exact Bool.false_ne_true (h.announceEvent.symm.trans ha)
    · exact Bool.false_ne_true (h.schedulerEvent.symm.trans hs)
  simp only [clientStep,h.underway,if_true,handleAnnounceError,h.res,hreply]
  cases reply with
  | peers node => exact (hne rfl).elim
  | silent => exact ⟨_,rfl,hasleep c.res⟩
  | _ => exact ⟨_,rfl,hasleep none⟩

theorem Client.Waits.awake_iff {rx : Bytes} (h : c.Waits rx) (es : List (Env × ClientEvent)) :
    Throughout sha1 resolve Client.Awake c es ↔ FirstSucceeds rx es := by
  have hawake : c.Awake := fun hidle => absurd (h.underway.symm.trans hidle) (by decide)
  induction es generalizing c rx with
  | nil => exact iff_of_true hawake nofun
  | cons e es ih =>
    obtain ⟨env,e⟩ := e
    have hgo : ∀ {c' rx'}, clientStep sha1 resolve c (env,e) = .ok c' → c'.Waits rx' →
        firstReply rx ((env,e) :: es) = firstReply rx' es →
        (Throughout sha1 resolve Client.Awake c ((env,e) :: es) ↔ FirstSucceeds rx ((env,e) :: es)) := by
      intro c' rx' hc' hw hfirst
      have hrest := ih hw (fun hidle => absurd (hw.underway.symm.trans hidle) (by decide))
      rw [FirstSucceeds,hfirst]
      refine Iff.trans ?_ hrest
      constructor
      · exact fun hall => hall.2 c' hc'
      · intro hall
        refine ⟨hawake,?_⟩
        intro c'' hc''
        cases hc'.symm.trans hc''
        exact hall
    cases e with
    | data bs =>
      obtain ⟨c',hc',hw⟩ := @Client.Waits.data_step sha1 resolve c rx h env bs
      exact hgo hc' hw rfl
    | session e => exact hgo (h.session_step env e) h rfl
    | closed bs memory =>
      constructor
      · rintro ⟨-,hall⟩ x reply hx hreply
        cases hx
        by_contra hfails
        obtain ⟨c',hc',hasleep⟩ := @Client.Waits.fails sha1 resolve c rx h env bs memory reply hreply hfails
        exact hasleep (throughout_head _ _ (hall c' hc'))
      · intro hsucc
        refine ⟨hawake,?_⟩
        intro c' hc'
        obtain ⟨reply,hreply⟩ : ∃ reply, announceReply (rx ++ bs) memory = .ok reply := by
          simp only [clientStep,h.underway,if_true,handleAnnounceError,h.res] at hc'
          obtain ⟨reply,hreply,-⟩ := bind_ok.mp hc'
          exact ⟨reply,hreply⟩
        have hpeers := hsucc (rx ++ bs,memory) reply rfl hreply
        exact awake_of_scheduled (h.succeeds hreply hpeers hc') es

end Awake

theorem waits_initial {sha1 : Bytes → Bytes} {b : Boot} {s : Session} (hboot : b.session sha1 = .ok s) :
    (Client.initial s).Waits [] := by
  obtain ⟨tp,-,rfl⟩ := Boot.session_ok hboot
  exact ⟨rfl,rfl,rfl,rfl,rfl,rfl⟩

/-- In all states of a run an announce is under way or a timer is pending, if and only if the first
response of the tracker gives peers, unless it ends the process. -/
theorem never_silent_iff (sha1 : Bytes → Bytes) (resolve : Bytes → ℤ → Except Halt ℕ) (b : Boot) (s : Session)
    (hboot : b.session sha1 = .ok s) (es : List (Env × ClientEvent)) :
    Throughout sha1 resolve Client.Awake (.initial s) es ↔ FirstSucceeds [] es :=
  (waits_initial hboot).awake_iff es

section Test

/-- The tracker answers with an error and closes the connection. -/
def refusedRun : List (Env × ClientEvent) :=
  [(.plain 1000,.data (ascii "HTTP/1.0 404 Not Found")),(.plain 1001,.closed [] [])]

/-- Then no timer is pending. -/
theorem silent_after_refusal : ∃ s, (Boot.oneByte (List.replicate 20 0) 1).session sha1ZeroByte = .ok s ∧
    ¬ Throughout sha1ZeroByte (fun _ _ => .ok 0) Client.Awake (.initial s) refusedRun := by
  obtain ⟨s,hs,-⟩ : ∃ s, (Boot.oneByte (List.replicate 20 0) 1).session sha1ZeroByte = .ok s ∧ true = true :=
    exists_ok (P := fun _ => true) (by decide +kernel)
  refine ⟨s,hs,?_⟩
  rw [(waits_initial hs).awake_iff]
  intro hsucc
  have hreply : (announceReply (ascii "HTTP/1.0 404 Not Found") []).toOption.map (fun r => !r.hasPeers) =
      some true := by
    decide +kernel
  obtain ⟨reply,hreply,hno⟩ := exists_ok hreply
  rw [hsucc (ascii "HTTP/1.0 404 Not Found",[]) reply rfl hreply] at hno
  cases hno

/-- The tracker answers with an empty list of peers; later its timer fires, and it does not answer at all. -/
def trackerRun : List (Env × ClientEvent) :=
  [(.plain 1000,.data (ascii "HTTP/1.0 200 OK")),
    (.plain 1001,.closed ([13,10,13,10] ++ ascii "d5:peers0:e") []),
    (.plain 1002,.session .announceTimer),(.plain 1003,.closed [] [])]

theorem never_silent_answered : ∃ s, (Boot.oneByte (List.replicate 20 0) 1).session sha1ZeroByte = .ok s ∧
    Throughout sha1ZeroByte (fun _ _ => .ok 0) Client.Awake (.initial s) trackerRun := by
  obtain ⟨s,hs,-⟩ : ∃ s, (Boot.oneByte (List.replicate 20 0) 1).session sha1ZeroByte = .ok s ∧ true = true :=
    exists_ok (P := fun _ => true) (by decide +kernel)
  refine ⟨s,hs,(never_silent_iff sha1ZeroByte _ _ s hs trackerRun).mpr ?_⟩
  intro x reply hx hreply
  have hpeers : (announceReply (ascii "HTTP/1.0 200 OK" ++ ([13,10,13,10] ++ ascii "d5:peers0:e")) []).toOption.map
      TrackerReply.hasPeers = some true := by decide +kernel
  obtain ⟨reply',hreply',hpeers⟩ := exists_ok hpeers
  obtain rfl : _ = x := Option.some.inj hx
  cases hreply'.symm.trans hreply
  exact hpeers

end Test

end Unworkable
