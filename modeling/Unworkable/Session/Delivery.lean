import Unworkable.Session.Bystander

/-! # Delivery of a message

A message that is delivered whole makes the receiver know what it says about pieces, or it gets its sender
killed. A handshake makes the receiver answer with what it has.
-/
namespace Unworkable
open Library

/-- What is known of the pieces of a peer after one more message of it; nothing is known before the first
message that is accepted. -/
def WireMsg.tell (n : ℕ) (a : Option (ℕ → Bool)) : WireMsg → Option (ℕ → Bool)
  | haves idx => if idx < n then some (fun i => decide (i = idx) || a.elim false (· i)) else a
  | bitfield bits => if a.isSome then a else if bits.length = (n + 7) / 8 then some (bitAt bits) else none
  | haveall => if a.isSome then a else some (fun _ => true)
  | havenone => if a.isSome then a else some (fun _ => false)
  | _ => a

def told (n : ℕ) (msgs : List WireMsg) : Option (ℕ → Bool) := msgs.foldl (WireMsg.tell n) none

/-- The pieces below `n` that are known of are those of the set. -/
def Accounts (n : ℕ) (V : Finset ℕ) (a : Option (ℕ → Bool)) : Prop := ∀ i < n, a.elim false (· i) = true ↔ i ∈ V

section Knowledge
variable {n : ℕ} {V V' : Finset ℕ} {a : Option (ℕ → Bool)} {m : WireMsg} {msgs more : List WireMsg}

theorem told_append : told n (msgs ++ more) = more.foldl (WireMsg.tell n) (told n msgs) := List.foldl_append

theorem tell_silent (h : m.silent = true) : m.tell n a = a := by
  cases m <;> first | rfl | cases h

theorem tell_silents (h : ∀ m ∈ msgs, m.silent = true) : msgs.foldl (WireMsg.tell n) a = a := by
  induction msgs with
  | nil => rfl
  | cons m msgs ih =>
    rw [List.foldl_cons,tell_silent (h m List.mem_cons_self)]
    exact ih (fun m' hm' => h m' (List.mem_cons_of_mem m hm'))

/-- Who knows the verified pieces knows them still after hearing of one more. -/
theorem Hears.accounts (h : Hears n V V' more) (ha : Accounts n V a) :
    Accounts n V' (more.foldl (WireMsg.tell n) a) := by
  cases h with
  | nothing hmore =>
    rw [tell_silents hmore]
    exact ha
  | @piece idx more hlt hnew hmore =>
    rw [List.foldl_cons,tell_silents hmore,WireMsg.tell,if_pos hlt]
    intro i hi
    rw [Finset.mem_insert,← ha i hi]
    simp

theorem Hears.index_lt (h : Hears n V V' more) {idx : ℕ} (hm : .haves idx ∈ more) : idx < n := by
  have hsilent : ∀ {l : List WireMsg}, (∀ m ∈ l, m.silent = true) → WireMsg.haves idx ∉ l := by
    intro l hl hmem
    cases hl _ hmem
  cases h with
  | nothing hmore => exact absurd hm (hsilent hmore)
  | piece hlt hnew hmore =>
    rcases List.mem_cons.mp hm with heq | hm
    · cases heq
      exact hlt
    · exact absurd hm (hsilent hmore)

/-- The body of a message tells what the message does. -/
theorem announcedStep_body (env : Env) {id : UInt8} {fields : Bytes} (hb : m.body = some (id,fields))
    (hm : m.silent = false)
    (hidx : ∀ idx, m = .haves idx → idx < 4294967296) : TellsPieces (id :: fields) ∧
      announcedStep n a (env,id :: fields) = m.tell n a := by
  cases m with
  | haves idx =>
    cases hb
    have hfield : msgField env (msgHaveId :: be32 idx) 1 = idx := by
      rw [← List.append_nil (be32 idx)]
      exact msgField_first msgHaveId [] (hidx idx rfl)
    refine ⟨.inl rfl,?_⟩
    unfold announcedStep
    simp only [List.headD_cons,if_pos,hfield]
    rfl
  | bitfield bits =>
    cases hb
    exact ⟨.inr (.inl rfl),rfl⟩
  | haveall =>
    cases hb
    exact ⟨.inr (.inr (.inl rfl)),rfl⟩
  | havenone =>
    cases hb
    exact ⟨.inr (.inr (.inr rfl)),rfl⟩
  | _ => cases hm

theorem not_tellsPieces_of_silent {id : UInt8} {fields : Bytes} (hb : m.body = some (id,fields))
    (hm : m.silent = true) :
    ¬ TellsPieces (id :: fields) := by
  have hid : ∀ {x : UInt8}, x = id →
      decide (x = msgHaveId ∨ x = msgBitfieldId ∨ x = msgHaveallId ∨ x = msgHavenoneId) = false →
      ¬ TellsPieces (id :: fields) := by
    rintro x rfl h
    show ¬ (x = msgHaveId ∨ x = msgBitfieldId ∨ x = msgHaveallId ∨ x = msgHavenoneId)
    exact of_decide_eq_false h
  cases m with
  | haves idx => cases hm
  | bitfield bits => cases hm
  | haveall => cases hm
  | havenone => cases hm
  | keepalive => cases hb
  | _ => exact hid (congrArg Prod.fst (Option.some.inj hb)) rfl

theorem accounts_verified {tp : Torrent} {on : ℕ → Bool} (h : ∀ i < tp.numPieces, on i = (tp.piece i).cksumok) :
    Accounts tp.numPieces tp.verified (some on) := by
  intro i hi
  rw [Torrent.mem_verified,Option.elim_some,h i hi]
  exact (and_iff_right hi).symm

/-- A description is not taken from who has said something about pieces before. -/
theorem Describes.tell_some {tp : Torrent} (h : Describes tp m) (S : ℕ → Bool) : m.tell n (some S) = some S := by
  cases h <;> rfl

/-- A description of the pieces says as much as is known, or all that there is to know. -/
theorem Describes.accounts {tp : Torrent} (h : Describes tp m) (ht : tp.Tallied)
    (ha : a = none ∨ Accounts tp.numPieces tp.verified a) : Accounts tp.numPieces tp.verified
    (m.tell tp.numPieces a) := by
  cases hsome : a with
  | some S =>
    rw [h.tell_some,← hsome]
    exact ha.resolve_left (by rw [hsome]; exact Option.some_ne_none S)
  | none =>
    cases h with
    | havenone hempty =>
      refine accounts_verified (fun i hi => ?_)
      have hnot := List.all_eq_true.mp hempty i (List.mem_range.mpr hi)
      simpa using hnot
    | haveall hgood =>
      refine accounts_verified (fun i hi => ?_)
      exact (tp.card_verified_eq.mp (ht.symm.trans hgood) i hi).symm
    | bitfield hne hbits =>
      have hsmall : tp.numPieces < 4294967289 := by
        by_contra hlarge
        exact torrentBitfieldGet_wraps (Nat.le_of_not_lt hlarge) hne hbits
      obtain ⟨bits,hget,hpacked⟩ := torrentBitfieldGet_packed hsmall
      obtain rfl : bits = _ := Except.ok.inj (hget.symm.trans hbits)
      rw [WireMsg.tell,if_neg (by simp),if_pos hpacked.size]
      refine accounts_verified (fun i hi => ?_)
      rw [hpacked.bits,decide_eq_true hi,Bool.true_and]

theorem accounts_empty {tp : Torrent} (h : torrentEmpty tp = true) : Accounts tp.numPieces tp.verified none := by
  intro i hi
  have hnot := List.all_eq_true.mp h i (List.mem_range.mpr hi)
  rw [Torrent.mem_verified]
  simp at hnot
  simp [hnot]

end Knowledge

section Processing
variable {sha1 : Bytes → Bytes} {env : Env} {s s' : Session} {p : PeerId} {msg : Bytes}

theorem track_of_roster (h : s'.roster = s.roster) : (s'.peer p).track = (s.peer p).track :=
  (mask_state (congrFun (congrArg Roster.peer h) p)).2.2.2.2.2

/-- A message of another kind leaves what is known of its sender alone, or kills it. -/
theorem track_message (hkind : ¬ TellsPieces msg)
    (h : networkPeerProcessMessage sha1 env s p (msg.headD 0) msg = .ok s') :
    s' = killPeer s p ∨ (s'.peer p).track = (s.peer p).track := by
  have hh := networkPeerProcessMessage_handled h
  generalize hid : msg.headD 0 = id at hh
  cases hh with
  | choke => exact .inr (track_of_roster (roster_msgChoke s p))
  | unchoke => exact .inr (track_of_roster (roster_setPeer s p rfl))
  | interested => exact .inr (track_of_roster (roster_setPeer s p rfl))
  | notinterested => exact .inr (track_of_roster (roster_setPeer s p rfl))
  | haves h => exact (hkind (.inl hid)).elim
  | bitfield h => exact (hkind (.inr (.inl hid))).elim
  | request h => exact .inr (track_of_roster (roster_msgRequest h))
  | piece h =>
    rcases pieceAt_result h with ⟨-,rfl | rfl⟩ | ⟨-,-,rfl⟩ | ⟨d,t,-,-,hd,ht,rfl⟩
    · exact .inr rfl
    · exact .inl rfl
    · right
      rw [Session.setPeer_self]
      rfl
    · right
      rw [Session.setPeer_self]
      have hmask := (roster_of_chart (chart_receiveBlock hd ht)).trans (roster_setPeer s p rfl)
      exact track_of_roster (p := p) hmask
  | cancel => exact .inr (track_of_roster (roster_msgCancel env s p msg))
  | reject => exact (roster_msgReject env s p msg).imp_right track_of_roster
  | havenone h => exact (hkind (.inr (.inr (.inr hid)))).elim
  | haveall h => exact (hkind (.inr (.inr (.inl hid)))).elim
  | other => exact .inr rfl

/-- One more message of a peer, read whole: the peer is dead, or the session waits for the next one. -/
theorem Waiting.feed_bytes {m : WireMsg} (hp : p < s.nextPeer) (h : Waiting (s.peer p)) (hsized : m.Sized)
    (hidx : ∀ idx, m = .haves idx → idx < 4294967296) (hs : (feedPeer sha1 env p s m.bytes).result = .ok s') :
    DeadPeer (s'.peer p) ∨ Says p s s' ∧ Waiting (s'.peer p) ∧ ∀ a, 0 < s.tp.numPieces →
      Tracks s.tp.numPieces (s.peer p) a → Tracks s.tp.numPieces (s'.peer p) (m.tell s.tp.numPieces a) := by
  cases hb : m.body with
  | none =>
    have hm : m = .keepalive := by
      cases m <;> first | rfl | cases hb
    subst hm
    obtain ⟨q,hq,hwait,htrack⟩ := h.feed_keepalive sha1 env
    rw [show WireMsg.bytes .keepalive = [0,0,0,0] from rfl,hq] at hs
    cases hs
    rw [Session.setPeer_self]
    exact .inr ⟨.nothing (.setPeer s p _),hwait,fun a _ ha => ha.congr htrack⟩
  | some body =>
    obtain ⟨id,fields⟩ := body
    rw [show m.bytes = message id fields by simp [WireMsg.bytes,hb]] at hs
    by_cases hlen : fields.length + 1 ≤ maxMessageLen
    · obtain ⟨-,-,-,-,hres⟩ := h.feed_message sha1 env id hlen
      obtain ⟨hwait,q,u,htrack,hu,rfl⟩ := hres s' hs
      have hp' : p < (s.setPeer p (fun _ => q)).nextPeer := hp
      have hspeech : Says p s u := (networkPeerProcessMessage_speech hp' hu).of_setPeer
      have hpeer : ((s.setPeer p (fun _ => q)).peer p).track = (s.peer p).track := by rw [Session.setPeer_self,htrack]
      have hlast : ((u.setPeer p (fun q => { q with rxmsg := [] })).peer p).track = (u.peer p).track := by
        rw [Session.setPeer_self]
        rfl
      by_cases hkill : u = killPeer (s.setPeer p (fun _ => q)) p
      · have hdead := deadPeer_killPeer (s.setPeer p (fun _ => q)) p
        left
        rw [Session.setPeer_self,hkill]
        exact ⟨hdead.dead,hdead.handshake1,hdead.handshake2,hdead.sendbitfield⟩
      · refine .inr ⟨hspeech.mute (.setPeer u p _),hwait,?_⟩
        intro a hn ha
        refine Tracks.congr ?_ hlast
        cases hm : m.silent with
        | true =>
          rw [tell_silent hm]
          exact ha.congr (((track_message (not_tellsPieces_of_silent hb hm) hu).resolve_left hkill).trans hpeer)
        | false =>
          obtain ⟨hkind,hstep⟩ := announcedStep_body (n := s.tp.numPieces) (a := a) env hb hm hidx
          have htracks := tracks_message (s := s.setPeer p (fun _ => q)) hn hkind (ha.congr hpeer) hu
          rw [← hstep]
          exact htracks.2.resolve_left hkill
    · obtain ⟨q,hq,hdead⟩ := h.feed_refused sha1 env (hsized id fields hb) (by omega)
      rw [message,feedPeer_append,hq,Traced.pure_bind] at hs
      have hdead' : DeadPeer ((s.setPeer p (fun _ => q)).peer p) := by rwa [Session.setPeer_self]
      exact .inl (hdead'.feed hs)

/-- The handshake of the other side, read whole by a session that has sent its own: nothing is known of the
other side yet, and it is told of the pieces, unless there are none. -/
theorem Fresh.feed_answer {peerid : Bytes} (h : Fresh (s.peer p)) (hquiet : (s.peer p).track = (none,false,false,false))
    (hid : peerid.length = 20)
    (hs : (feedPeer sha1 env p s (handshakeBytes s.tp.mi.infoHash peerid)).result = .ok s') :
    Waiting (s'.peer p) ∧ Tracks s.tp.numPieces (s'.peer p) none ∧ s'.tp = s.tp ∧ s'.peerid = s.peerid ∧
      ∃ more : List WireMsg, s'.stream p = s.stream p ++ more.map WireMsg.bytes ∧
        (more = [] ∧ torrentEmpty s.tp = true ∨ ∃ m, more = [m] ∧ Describes s.tp m) := by
  have hwait := (h.feed_handshake sha1 env hid).2 s' hs
  obtain ⟨q,-,-,hsb,-,htrack,hfeed⟩ := h.feed_handshake_eq sha1 env hid
  rw [hfeed] at hs
  have hbit : ((s.setPeer p (fun _ => q)).peer p).state.sendbitfield = true := by rw [Session.setPeer_self,hsb]
  simp only [sendBitfield,hbit,if_true] at hs
  obtain ⟨t,ht,hs⟩ := bind_ok.mp hs
  cases hs
  have hsame : ((t.setState p (fun b => { b with sendbitfield := false })).peer p).track = q.track := by
    have hroster := track_of_roster (p := p) (roster_of_chart (chart_writePieces ht))
    rw [Session.setPeer_self] at hroster
    rw [← hroster,Session.setState,Session.setPeer_self]
    rfl
  simp only [Peer.track,Prod.mk.injEq] at hquiet htrack hsame
  refine ⟨hwait,.unknown ?_ ?_ ?_,?_⟩
  · rw [hsame.1,htrack.1,hquiet.1]
  · rw [hsame.2.1,htrack.2.1]
  · rw [hsame.2.2.1,htrack.2.2.1,hquiet.2.2.1]
  rcases writePieces_describes ht with ⟨hempty,rfl⟩ | ⟨m,hm,rfl⟩
  · exact ⟨rfl,rfl,[],(List.append_nil _).symm,.inl ⟨rfl,hempty⟩⟩
  · refine ⟨rfl,rfl,[m],?_,.inr ⟨m,rfl,hm⟩⟩
    exact (stream_networkPeerWrite env _ p p m.bytes).trans (by rw [if_pos rfl]; rfl)

/-- Bytes fed to a peer on the list are read events of it. -/
theorem run_of_feed {bs : Bytes} (hp : p ∈ s.peers) (hs : (feedPeer sha1 env p s bs).result = .ok s') :
    run sha1 s (bs.map (fun b => (env,.response p [b]))) = .ok s' ∧ s'.peers = s.peers ∧ s'.nextPeer = s.nextPeer := by
  induction bs generalizing s with
  | nil =>
    cases hs
    exact ⟨rfl,rfl,rfl⟩
  | cons b bs ih =>
    obtain ⟨t,ht,hs⟩ := Traced.bind_result_ok.mp (show ((peerResponse sha1 env p s [b]).bind
      (fun s => feedPeer sha1 env p s bs)).result = .ok s' from hs)
    obtain ⟨q,hq⟩ := (touches_peerResponse ht).rest
    have hpeers : t.peers = s.peers := congrArg Roster.peers hq
    have hnext : t.nextPeer = s.nextPeer := congrArg Roster.nextPeer hq
    obtain ⟨hrun,hpeers',hnext'⟩ := ih (hpeers ▸ hp) hs
    refine ⟨?_,hpeers'.trans hpeers,hnext'.trans hnext⟩
    rw [List.map_cons,run,List.foldlM_cons,step,if_pos hp,ht]
    exact hrun

end Processing

/-- The read callback of `p` on a message that has arrived whole. -/
def deliver (sha1 : Bytes → Bytes) (env : Env) (s : Session) (p : PeerId) (msg : Bytes) : Except Halt Session :=
  match networkHandlePeerResponse sha1 env p s msg with
  | some t => t.result.map Prod.fst
  | none => .error .hang

theorem deliver_ok {sha1 : Bytes → Bytes} {env : Env} {s s' : Session} {p : PeerId} {msg : Bytes} (hq : Quiet p s)
    (h : deliver sha1 env s p msg = .ok s') : (feedPeer sha1 env p s msg).result = .ok s' := by
  unfold deliver networkHandlePeerResponse at h
  by_cases hne : msg = []
  · subst hne
    cases h
  · rw [(peerReader_lawful sha1 env p).handle_eq_feed hq hne (le_refl _)] at h
    obtain ⟨⟨u,left⟩,hu,rfl⟩ := map_ok.mp h
    obtain ⟨v,hv,hu⟩ := Traced.bind_result_ok.mp hu
    cases hu
    exact hv

theorem Reachable.deliver {sha1 : Bytes → Bytes} {b : Boot} {env : Env} {s s' : Session} {p : PeerId} {bs : Bytes}
    (h : Reachable sha1 b s) (hp : p ∈ s.peers) (hs : (feedPeer sha1 env p s bs).result = .ok s') :
    Reachable sha1 b s' := by
  obtain ⟨es,hes⟩ := h
  obtain ⟨s₀,hs₀,hes⟩ := bind_ok.mp hes
  refine ⟨es ++ bs.map (fun b => (env,.response p [b])),bind_ok.mpr ⟨s₀,hs₀,?_⟩⟩
  rw [run,List.foldlM_append]
  exact bind_ok.mpr ⟨s,hes,(run_of_feed hp hs).1⟩

end Unworkable
