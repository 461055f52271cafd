import Unworkable.Session.Delivery

/-! # One side of a connection

A session that is connected to a peer has written its handshake and some messages to it, and has been
delivered some messages of the other side, the first of which is a handshake too. Callbacks that do not
read from the peer may write to it, or end the connection; so may the delivery of a message.
-/
namespace Unworkable
open Library

def Gone (s : Session) (r : PeerId) : Prop := r < s.nextPeer ∧ (r ∉ s.peers ∨ DeadPeer (s.peer r))

def Sendable (m : WireMsg) : Prop := m.Sized ∧ ∀ idx, m = .haves idx → idx < 4294967296

/-- The session is connected to `r`. It has written its handshake and the messages `msgs`, and has been
delivered `heard` messages. -/
structure Line (s : Session) (r : PeerId) (heard : ℕ) (msgs : List WireMsg) : Prop where
  mem : r ∈ s.peers
  stream : ∃ peerid, peerid.length = 20 ∧ s.stream r = handshakeBytes s.tp.mi.infoHash peerid :: msgs.map WireMsg.bytes
  sendable : ∀ m ∈ msgs, Sendable m
  fresh : heard = 0 → Fresh (s.peer r) ∧ (s.peer r).track = (none,false,false,false)
  waiting : 0 < heard → Waiting (s.peer r)

/-- A peer that is not gone has been told the messages, or has no number yet. -/
inductive Side (s : Session) (r : PeerId) (heard : ℕ) : Option (List WireMsg) → Prop
  | unborn (hnext : s.nextPeer ≤ r) (hstream : s.stream r = []) (hheard : heard = 0) : Side s r heard none
  | line {msgs : List WireMsg} (h : Line s r heard msgs) : Side s r heard (some msgs)

/-- How the messages and the set of verified pieces grow together. -/
inductive Grows (n : ℕ) (V V' : Finset ℕ) : Option (List WireMsg) → Option (List WireMsg) → Prop
  | still : Grows n V V' none none
  | starts : Grows n V V' none (some [])
  | hears {msgs more : List WireMsg} (h : Hears n V V' more) : Grows n V V' (some msgs) (some (msgs ++ more))

section Sides
variable {sha1 : Bytes → Bytes} {env : Env} {s s' : Session} {r : PeerId} {heard : ℕ} {msgs more : List WireMsg}
  {said : Option (List WireMsg)}

theorem Gone.passes (h : Gone s r) (hp : Passes r s s') : Gone s' r := by
  have hstays := hp.stays h.1
  refine ⟨h.1.trans_le hstays.next,?_⟩
  by_cases hr : r ∈ s'.peers
  · obtain ⟨hr',hsame | hdead⟩ := hstays.peer hr
    · exact .inr ((h.2.resolve_left (not_not.mpr hr')).of_mask hsame)
    · exact .inr hdead
  · exact .inl hr

theorem Line.passes (h : Line s r heard msgs) (hs : s.roster.Census) (hp : Passes r s s') :
    Gone s' r ∨ ∃ more, Line s' r heard (msgs ++ more) ∧ Hears s.tp.numPieces s.tp.verified s'.tp.verified more := by
  have hlt : r < s.nextPeer := hs.lt r h.mem
  have hstays := hp.stays hlt
  have hlt' : r < s'.nextPeer := hlt.trans_le hstays.next
  by_cases hr : r ∈ s'.peers
  · obtain ⟨-,hsame | hdead⟩ := hstays.peer hr
    · obtain ⟨more,hstream,hsized,hhears⟩ := hp.hears hlt hr
      obtain ⟨peerid,hid,hold⟩ := h.stream
      refine .inr ⟨more,⟨hr,⟨peerid,hid,?_⟩,?_,?_,?_⟩,hhears⟩
      · rw [hstream,hold,hp.mi,List.map_append]
        rfl
      · intro m hm
        rcases List.mem_append.mp hm with hm | hm
        · exact h.sendable m hm
        · refine ⟨hsized m hm,?_⟩
          rintro idx rfl
          exact (hhears.index_lt hm).trans s.tp.numPieces_lt
      · intro hzero
        obtain ⟨hfresh,htrack⟩ := h.fresh hzero
        exact ⟨hfresh.of_mask hsame,(mask_state hsame).2.2.2.2.2.trans htrack⟩
      · exact fun hpos => (h.waiting hpos).of_mask hsame
    · exact .inl ⟨hlt',.inr hdead⟩
  · exact .inl ⟨hlt',.inl hr⟩

/-- A callback that does not read from the peer. -/
theorem Side.passes (h : Side s r heard said) (hs : s.roster.Census) (hid : s.peerid.length = 20) (hp : Passes r s s') :
    Gone s' r ∨ ∃ said', Side s' r heard said' ∧ Grows s.tp.numPieces s.tp.verified s'.tp.verified said said' := by
  cases h with
  | unborn hnext hstream hheard =>
    rcases hp.joins hnext hstream with ⟨hnext',hstream'⟩ | ⟨hlt,hgreet⟩
    · exact .inr ⟨none,.unborn hnext' hstream' hheard,.still⟩
    · by_cases hr : r ∈ s'.peers
      · have hgreet := hgreet.resolve_left (not_not.mpr hr)
        refine .inr ⟨some [],.line ⟨hr,⟨s'.peerid.take 20,?_,hgreet.stream⟩,nofun,?_,?_⟩,.starts⟩
        · simp [hp.peerid,hid]
        · exact fun _ => ⟨hgreet.fresh,hgreet.unheard⟩
        · intro hpos
          rw [hheard] at hpos
          exact absurd hpos (lt_irrefl 0)
      · exact .inl ⟨hlt,.inl hr⟩
  | @line msgs h =>
    rcases h.passes hs hp with hgone | ⟨more,hline,hhears⟩
    · exact .inl hgone
    · exact .inr ⟨some (msgs ++ more),.line hline,.hears hhears⟩

theorem Gone.quiet (h : Gone s r) (hr : r ∈ s.peers) : Quiet r s := (h.2.resolve_left (not_not.mpr hr)).quiet

theorem Gone.feed {bs : Bytes} (h : Gone s r) (hr : r ∈ s.peers) (hs : (feedPeer sha1 env r s bs).result = .ok s') :
    Gone s' r := by
  refine ⟨?_,.inr ((h.2.resolve_left (not_not.mpr hr)).feed hs)⟩
  rw [(run_of_feed hr hs).2.2]
  exact h.1

theorem Side.mem (h : Side s r heard said) (hpos : 0 < heard) : r ∈ s.peers := by
  cases h with
  | unborn _ _ hheard => exact absurd hheard (Nat.pos_iff_ne_zero.mp hpos)
  | line h => exact h.mem

theorem Line.quiet (h : Line s r heard msgs) : Quiet r s := by
  rcases Nat.eq_zero_or_pos heard with hzero | hpos
  · exact (h.fresh hzero).1.sendbitfield
  · exact (h.waiting hpos).sendbitfield

/-- What a session writes to the peer whose message it is given: after the handshake what it has, and later
what it has verified meanwhile. -/
inductive Replies (s s' : Session) (heard : ℕ) : List WireMsg → Prop
  | silent (hzero : heard = 0) (htp : s'.tp = s.tp) (hempty : torrentEmpty s.tp = true) : Replies s s' heard []
  | describes (hzero : heard = 0) (htp : s'.tp = s.tp) {m : WireMsg} (hm : Describes s.tp m) : Replies s s' heard [m]
  | hears (hpos : 0 < heard) {more : List WireMsg} (h : Hears s.tp.numPieces s.tp.verified s'.tp.verified more) :
    Replies s s' heard more

/-- The next message of the other side, which has written its handshake and `said`. -/
theorem Line.receives {said : List WireMsg} {peerid msg : Bytes} (h : Line s r heard msgs) (hs : s.roster.Census)
    (hsaid : ∀ m ∈ said, Sendable m) (hid : peerid.length = 20)
    (hmsg : (handshakeBytes s.tp.mi.infoHash peerid :: said.map WireMsg.bytes)[heard]? = some msg)
    (hfeed : (feedPeer sha1 env r s msg).result = .ok s') :
    Gone s' r ∨ s'.peerid = s.peerid ∧ heard ≤ said.length ∧ ∃ more, Line s' r (heard + 1) (msgs ++ more) ∧
      Replies s s' heard more ∧ (0 < s.tp.numPieces →
        (0 < heard → Tracks s.tp.numPieces (s.peer r) (told s.tp.numPieces (said.take (heard - 1)))) →
        Tracks s.tp.numPieces (s'.peer r) (told s.tp.numPieces (said.take heard))) := by
  obtain ⟨-,hpeers,hnext⟩ := run_of_feed h.mem hfeed
  obtain ⟨peerid',hid',hstream⟩ := h.stream
  have hlt : r < s.nextPeer := hs.lt r h.mem
  cases heard with
  | zero =>
    obtain rfl : handshakeBytes s.tp.mi.infoHash peerid = msg := Option.some.inj hmsg
    obtain ⟨hfresh,htrack⟩ := h.fresh rfl
    obtain ⟨hwait,htracks,htp,hpid,more,hmore,hanswer⟩ := hfresh.feed_answer htrack hid hfeed
    refine .inr ⟨hpid,Nat.zero_le _,more,⟨hpeers ▸ h.mem,⟨peerid',hid',?_⟩,?_,nofun,fun _ => hwait⟩,
      ?_,fun _ _ => htracks⟩
    · rw [hmore,hstream,htp,List.map_append]
      rfl
    · intro m hm
      rcases List.mem_append.mp hm with hm | hm
      · exact h.sendable m hm
      · rcases hanswer with ⟨rfl,-⟩ | ⟨m',rfl,hdesc⟩
        · cases hm
        · obtain rfl := List.mem_singleton.mp hm
          refine ⟨hdesc.sized,?_⟩
          rintro idx rfl
          cases hdesc
    · rcases hanswer with ⟨rfl,hempty⟩ | ⟨m,rfl,hdesc⟩
      · exact .silent rfl htp hempty
      · exact .describes rfl htp hdesc
  | succ k =>
    rw [List.getElem?_cons_succ,List.getElem?_map,Option.map_eq_some_iff] at hmsg
    obtain ⟨m,hm,rfl⟩ := hmsg
    obtain ⟨hk,hget⟩ := List.getElem?_eq_some_iff.mp hm
    obtain ⟨hsized,hidx⟩ := hsaid m (hget ▸ List.getElem_mem hk)
    rcases (h.waiting (Nat.succ_pos k)).feed_bytes hlt hsized hidx hfeed with hdead | ⟨hspeech,hwait,htracks⟩
    · exact .inl ⟨hnext ▸ hlt,.inr hdead⟩
    · obtain ⟨hmi,hpid,more,hmore,hsizes,hhears⟩ := hspeech.hears hs h.mem
      refine .inr ⟨hpid,hk,more,⟨hpeers ▸ h.mem,⟨peerid',hid',?_⟩,?_,nofun,fun _ => hwait⟩,
        .hears (Nat.succ_pos k) hhears,?_⟩
      · rw [hmore,hstream,hmi,List.map_append]
        rfl
      · intro m' hm'
        rcases List.mem_append.mp hm' with hm' | hm'
        · exact h.sendable m' hm'
        · refine ⟨hsizes m' hm',?_⟩
          rintro idx rfl
          exact (hhears.index_lt hm').trans s.tp.numPieces_lt
      · intro hn hbefore
        have hstep := htracks _ hn (hbefore (Nat.succ_pos k))
        rw [List.take_add_one,hm,Option.toList_some,told_append]
        exact hstep

end Sides

end Unworkable
