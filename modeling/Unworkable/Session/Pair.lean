import Unworkable.Session.Line
import Unworkable.Session.Rarest

/-! # Two instances connected to each other

Each instance keeps serving its other peers while messages go back and forth between the two.
What one has announced to the other is the set of its verified pieces, unless a piece is verified while
the handshake of the other is still awaited: HAVE is then the first message about pieces, and the bit
field that follows the handshake comes too late.
-/
namespace Unworkable
open Library

/-- Two instances with a connection between them, which is the peer `pa` of `a` and the peer `pb` of `b`.
Of the messages each has written to the other, `toB` and `toA` have been delivered. -/
structure Pair where
  a : Session
  b : Session
  toB : ℕ
  toA : ℕ

/-- A callback of one of the instances, or the delivery of the next message to one of them. -/
inductive PairEvent where
  | atA (env : Env) (e : Event)
  | atB (env : Env) (e : Event)
  | toB (env : Env)
  | toA (env : Env)

def Event.inputOf (p : PeerId) : Event → Bool
  | .response q _ => q = p
  | _ => false

namespace Pair

section Step
variable (sha1 : Bytes → Bytes) (pa pb : PeerId)

/-- What one event does. The two read from each other in deliveries only, and there is none to a peer that is
off the list or has all messages. -/
def step (x : Pair) : PairEvent → Except Halt Pair
  | .atA env e =>
    if e.inputOf pa then .ok x else (Unworkable.step sha1 x.a (env,e)).map (fun a => { x with a := a })
  | .atB env e =>
    if e.inputOf pb then .ok x else (Unworkable.step sha1 x.b (env,e)).map (fun b => { x with b := b })
  | .toB env =>
    match (x.a.stream pa)[x.toB]? with
    | some msg =>
      if pb ∈ x.b.peers then (deliver sha1 env x.b pb msg).map (fun b => { x with b := b, toB := x.toB + 1 }) else .ok x
    | none => .ok x
  | .toA env =>
    match (x.b.stream pb)[x.toA]? with
    | some msg =>
      if pa ∈ x.a.peers then (deliver sha1 env x.a pa msg).map (fun a => { x with a := a, toA := x.toA + 1 }) else .ok x
    | none => .ok x

def run (x : Pair) (es : List PairEvent) : Except Halt Pair := es.foldlM (step sha1 pa pb) x

/-- Both instances after their start, with no connection between them. -/
def start (bA bB : Boot) : Except Halt Pair := do
  let a ← bA.session sha1
  let b ← bB.session sha1
  .ok ⟨a,b,0,0⟩

/-- A run each step of which meets a condition. -/
def Meets (C : Pair → Pair → Prop) : Pair → List PairEvent → Prop
  | _,[] => True
  | x,e :: es => ∀ x', step sha1 pa pb x e = .ok x' → C x x' ∧ Meets C x' es

end Step

def ShakenHands (q : Peer) : Prop := q.state.dead = false ∧ q.state.handshake1 = false ∧ q.state.handshake2 = false

/-- The two are connected, both handshakes are complete, and what the first has written has been delivered. -/
structure Settled (pa pb : PeerId) (x : Pair) : Prop where
  memA : pa ∈ x.a.peers
  memB : pb ∈ x.b.peers
  handsA : ShakenHands (x.a.peer pa)
  handsB : ShakenHands (x.b.peer pb)
  delivered : x.toB = (x.a.stream pa).length

/-- What the second records for the first is the set of verified pieces of the first. -/
def Agrees (pb : PeerId) (x : Pair) : Prop :=
  ∀ i < x.a.tp.numPieces, Announces (x.b.peer pb).bitfield i ↔ (x.a.tp.piece i).cksumok = true

/-- A piece that the first verifies while it awaits the handshake of the second is not the first thing that the
second hears about pieces, unless there are none so far. -/
def InTurn (pa : PeerId) (x x' : Pair) : Prop :=
  x'.a.tp.verified = x.a.tp.verified ∨ pa ∉ x.a.peers ∨ (x.a.peer pa).state.handshake1 = false ∨
    x.a.tp.verified = ∅ ∨ ∃ idx < x.a.tp.numPieces, (WireMsg.haves idx).bytes ∈ x.a.stream pa

instance (pa : PeerId) (x x' : Pair) : Decidable (x.InTurn pa x') := inferInstanceAs (Decidable (_ ∨ _))

end Pair

section Talking
variable {n heard : ℕ} {V V' : Finset ℕ} {m : WireMsg} {msgs more : List WireMsg}

/-- What has been said about pieces: everything, or nothing while the handshake is awaited. Until then there
is only HAVE. -/
structure Reported (n : ℕ) (V : Finset ℕ) (heard : ℕ) (msgs : List WireMsg) : Prop where
  early : heard = 0 → ∀ m ∈ msgs, m.silent = true ∨ ∃ idx < n, m = .haves idx
  all : heard = 0 ∧ (∀ m ∈ msgs, m.silent = true) ∨ Accounts n V (told n msgs)

/-- Something has been said about pieces, and a verified piece is missing in it. -/
def Missed (n : ℕ) (V : Finset ℕ) (msgs : List WireMsg) : Prop :=
  ∃ i ∈ V, i < n ∧ ∃ S, told n msgs = some S ∧ S i = false

theorem Reported.hears (h : Reported n V heard msgs) (hh : Hears n V V' more)
    (hfirst : heard = 0 → (∀ m ∈ msgs, m.silent = true) → V' ≠ V → V = ∅) : Reported n V' heard (msgs ++ more) where
  early hzero m hm := by
    rcases List.mem_append.mp hm with hm | hm
    · exact h.early hzero m hm
    · cases hh with
      | nothing hmore => exact .inl (hmore m hm)
      | piece hlt hnew hmore =>
        rcases List.mem_cons.mp hm with rfl | hm
        · exact .inr ⟨_,hlt,rfl⟩
        · exact .inl (hmore m hm)
  all := by
    rcases h.all with ⟨hzero,hsilent⟩ | hall
    · cases hh with
      | nothing hmore =>
        refine .inl ⟨hzero,?_⟩
        intro m hm
        exact (List.mem_append.mp hm).elim (hsilent m) (hmore m)
      | piece hlt hnew hmore =>
        right
        have hempty : V = ∅ := hfirst hzero hsilent (Finset.insert_ne_self.mpr hnew)
        have hnone : Accounts n V (told n msgs) := by
          rw [hempty,told,tell_silents hsilent]
          intro i _
          simp
        rw [told_append]
        exact (Hears.piece hlt hnew hmore).accounts hnone
    · right
      rw [told_append]
      exact hh.accounts hall

theorem Missed.hears (h : Missed n V msgs) (hh : Hears n V V' more) : Missed n V' (msgs ++ more) := by
  obtain ⟨i,hi,hlt,S,hS,hmiss⟩ := h
  cases hh with
  | nothing hmore => exact ⟨i,hi,hlt,S,by rw [told_append,tell_silents hmore,hS],hmiss⟩
  | @piece idx more hidx hnew hmore =>
    have hne : i ≠ idx := by
      rintro rfl
      exact hnew hi
    refine ⟨i,Finset.mem_insert_of_mem hi,hlt,fun k => decide (k = idx) || S k,?_,by simp [hne,hmiss]⟩
    rw [told_append,List.foldl_cons,tell_silents hmore,hS,WireMsg.tell,if_pos hidx]
    rfl

/-- The first HAVE, while there are pieces that have not been described. -/
theorem missed_of_silent (hsilent : ∀ m ∈ msgs, m.silent = true) (hV : V ⊆ Finset.range n) (hsome : V ≠ ∅)
    (hh : Hears n V V' more) (hne : V' ≠ V) : Missed n V' (msgs ++ more) := by
  obtain ⟨i,hi⟩ := Finset.nonempty_iff_ne_empty.mpr hsome
  cases hh with
  | nothing hmore => exact absurd rfl hne
  | @piece idx more hidx hnew hmore =>
    have hne : i ≠ idx := by
      rintro rfl
      exact hnew hi
    refine ⟨i,Finset.mem_insert_of_mem hi,Finset.mem_range.mp (hV hi),fun k => decide (k = idx) ||
      false,?_,by simp [hne]⟩
    rw [told_append,told,tell_silents hsilent,List.foldl_cons,tell_silents hmore,WireMsg.tell,if_pos hidx]
    rfl

/-- How the messages of a session to a peer stand to its pieces, given whether all pieces were verified in turn. -/
inductive Standing (n : ℕ) (V : Finset ℕ) (heard : ℕ) : Option (List WireMsg) → Bool → Prop
  | unborn (hheard : heard = 0) : Standing n V heard none true
  | reported {msgs : List WireMsg} (h : Reported n V heard msgs) : Standing n V heard (some msgs) true
  | missed {msgs : List WireMsg} (h : Missed n V msgs) : Standing n V heard (some msgs) false

theorem getElem_bytes {id : UInt8} {fields : Bytes} (hb : m.body = some (id,fields)) : m.bytes[4]? = some id := by
  rw [WireMsg.bytes,hb]
  rfl

/-- HAVE does not look like anything that is silent. -/
theorem bytes_ne_have (hm : m.silent = true) (idx : ℕ) : m.bytes ≠ (WireMsg.haves idx).bytes := by
  intro heq
  have hhave : m.bytes[4]? = some msgHaveId := by
    rw [heq]
    exact getElem_bytes rfl
  cases hb : m.body with
  | none =>
    rw [WireMsg.bytes,hb] at hhave
    cases hhave
  | some body =>
    obtain ⟨id,fields⟩ := body
    rw [getElem_bytes hb] at hhave
    exact not_tellsPieces_of_silent hb hm (.inl (Option.some.inj hhave))

theorem handshakeBytes_ne_have (infoHash peerid : Bytes) (idx : ℕ) :
    handshakeBytes infoHash peerid ≠ (WireMsg.haves idx).bytes := by
  intro heq
  have hhave : (handshakeBytes infoHash peerid)[4]? = some msgHaveId := by
    rw [heq]
    exact getElem_bytes rfl
  have hproto : (handshakeBytes infoHash peerid)[4]? = some 0x54 := rfl
  rw [hproto] at hhave
  cases hhave

/-- The description that answers a handshake. -/
theorem Reported.replies {s s' : Session} (ht : s.tp.Tallied) (h : Reported s.tp.numPieces s.tp.verified heard msgs)
    (hr : Replies s s' heard more) : Reported s.tp.numPieces s'.tp.verified (heard + 1) (msgs ++ more) := by
  have hsilent : (∀ m ∈ msgs, m.silent = true) → told s.tp.numPieces msgs = none := tell_silents
  refine ⟨nofun,.inr ?_⟩
  rw [told_append]
  cases hr with
  | silent hzero htp hempty =>
    rw [htp]
    rcases h.all with ⟨-,hnone⟩ | hall
    · rw [hsilent hnone]
      exact accounts_empty hempty
    · exact hall
  | describes hzero htp hm =>
    rw [htp]
    exact hm.accounts ht (h.all.imp (fun h => hsilent h.2) id)
  | hears hpos hh =>
    refine hh.accounts (h.all.resolve_left ?_)
    rintro ⟨hzero,-⟩
    exact absurd hzero (Nat.pos_iff_ne_zero.mp hpos)

/-- It comes too late where something has been said. -/
theorem Missed.replies {s s' : Session} (h : Missed s.tp.numPieces s.tp.verified msgs) (hr : Replies s s' heard more) :
    Missed s.tp.numPieces s'.tp.verified (msgs ++ more) := by
  cases hr with
  | silent hzero htp hempty =>
    rw [htp,List.append_nil]
    exact h
  | @describes hzero htp m hm =>
    obtain ⟨i,hi,hlt,S,hS,hmiss⟩ := h
    rw [htp]
    refine ⟨i,hi,hlt,S,?_,hmiss⟩
    rw [told_append,hS,List.foldl_cons,List.foldl_nil,hm.tell_some]
  | hears hpos hh => exact h.hears hh

theorem Standing.replies {s s' : Session} {kept : Bool} (ht : s.tp.Tallied)
    (h : Standing s.tp.numPieces s.tp.verified heard (some msgs) kept) (hr : Replies s s' heard more) :
    Standing s.tp.numPieces s'.tp.verified (heard + 1) (some (msgs ++ more)) kept := by
  cases h with
  | reported h => exact .reported (h.replies ht hr)
  | missed h => exact .missed (h.replies hr)

end Talking

/-- What `s` knows of the pieces of `r` comes from the messages delivered to it, the first of which is a handshake. -/
def Known (s : Session) (r : PeerId) (heard : ℕ) (said : Option (List WireMsg)) : Prop :=
  0 < heard → ∃ msgs, said = some msgs ∧ heard ≤ msgs.length + 1 ∧ (0 < s.tp.numPieces →
    Tracks s.tp.numPieces (s.peer r) (told s.tp.numPieces (msgs.take (heard - 1))))

theorem Known.append {s : Session} {r : PeerId} {heard : ℕ} {msgs : List WireMsg} (h : Known s r heard (some msgs))
    (more : List WireMsg) : Known s r heard (some (msgs ++ more)) := by
  intro hpos
  obtain ⟨msgs',heq,hle,htracks⟩ := h hpos
  cases heq
  refine ⟨msgs ++ more,rfl,hle.trans (by simp),?_⟩
  rw [List.take_append_of_le_length (by omega)]
  exact htracks

/-- Both sides of a connection that is not gone, with the messages each has written. -/
structure Talk (pa pb : PeerId) (x : Pair) (ma mb : Option (List WireMsg)) (kept : Bool) : Prop where
  a : Side x.a pa x.toA ma
  b : Side x.b pb x.toB mb
  idA : x.a.peerid.length = 20
  idB : x.b.peerid.length = 20
  standing : Standing x.a.tp.numPieces x.a.tp.verified x.toA ma kept
  known : Known x.b pb x.toB ma

/-- Either peer is gone, or the two are talking. -/
inductive Sound (sha1 : Bytes → Bytes) (bA bB : Boot) (pa pb : PeerId) (x : Pair) (kept : Bool) : Prop
  | lostA (ha : Reachable sha1 bA x.a) (h : Gone x.a pa) : Sound sha1 bA bB pa pb x kept
  | lostB (hb : Reachable sha1 bB x.b) (h : Gone x.b pb) : Sound sha1 bA bB pa pb x kept
  | talking {ma mb : Option (List WireMsg)} (ha : Reachable sha1 bA x.a) (hb : Reachable sha1 bB x.b)
    (h : Talk pa pb x ma mb kept) : Sound sha1 bA bB pa pb x kept

section Steps
variable {sha1 : Bytes → Bytes} {bA bB : Boot} {pa pb : PeerId} {x x' : Pair} {a' b' : Session} {env : Env} {e : Event}
  {ma mb : Option (List WireMsg)} {kept : Bool}

theorem not_response (he : e.inputOf pa = false) (avail : Bytes) : e ≠ .response pa avail := by
  rintro rfl
  simp [Event.inputOf] at he

theorem Reachable.passes {b : Boot} {s s' : Session} {r : PeerId} (h : Reachable sha1 b s) (he : e.inputOf r = false)
    (hs : Unworkable.step sha1 s (env,e) = .ok s') : Passes r s s' :=
  step_passes h.census.1 h.census.2 (not_response he) hs

/-- Pieces are verified in turn exactly if none but a first piece is verified while the handshake is awaited and
nothing has been said about pieces. -/
theorem Line.inTurn_iff {msgs : List WireMsg} (h : Line x.a pa x.toA msgs)
    (hearly : x.toA = 0 → ∀ m ∈ msgs, m.silent = true ∨ ∃ idx < x.a.tp.numPieces, m = .haves idx) (x' : Pair) :
    x.InTurn pa x' ↔
      (x.toA = 0 → (∀ m ∈ msgs, m.silent = true) → x'.a.tp.verified ≠ x.a.tp.verified → x.a.tp.verified = ∅) := by
  obtain ⟨peerid,-,hstream⟩ := h.stream
  constructor
  · rintro (hsame | hout | hhands | hempty | ⟨idx,-,hmem⟩) hzero hsilent hne
    · exact absurd hsame hne
    · exact absurd h.mem hout
    · rw [(h.fresh hzero).1.handshake1] at hhands
      cases hhands
    · exact hempty
    · rw [hstream] at hmem
      rcases List.mem_cons.mp hmem with heq | hmem
      · exact absurd heq.symm (handshakeBytes_ne_have _ _ idx)
      · obtain ⟨m,hm,heq⟩ := List.mem_map.mp hmem
        exact absurd heq (bytes_ne_have (hsilent m hm) idx)
  · intro hfirst
    by_contra hnot
    simp only [Pair.InTurn,not_or,not_exists,not_and,not_not] at hnot
    obtain ⟨hne,-,hhands,hsome,hnone⟩ := hnot
    have hzero : x.toA = 0 := by
      by_contra hpos
      exact hhands (h.waiting (Nat.pos_of_ne_zero hpos)).handshake1
    refine hsome (hfirst hzero (fun m hm => ?_) hne)
    refine (hearly hzero m hm).resolve_right ?_
    rintro ⟨idx,hidx,rfl⟩
    apply hnone idx hidx
    rw [hstream]
    exact List.mem_cons_of_mem _ (List.mem_map_of_mem hm)

/-- The messages that a step adds keep the standing, if the step is in turn. -/
theorem Talk.grows {ma' : Option (List WireMsg)} (h : Talk pa pb x ma mb kept) (hs : x.a.roster.Census)
    (hg : Grows x.a.tp.numPieces x.a.tp.verified x'.a.tp.verified ma ma') :
    Standing x.a.tp.numPieces x'.a.tp.verified x.toA ma' (kept && decide (x.InTurn pa x')) := by
  obtain ⟨hA,-,-,-,hst,-⟩ := h
  cases hg with
  | still =>
    cases hA with
    | unborn hnext _ hheard =>
      have hturn : x.InTurn pa x' := .inr (.inl (fun hr => absurd (hs.lt pa hr) (Nat.not_lt.mpr hnext)))
      cases hst with
      | unborn _ =>
        rw [decide_eq_true hturn]
        exact .unborn hheard
  | starts =>
    cases hA with
    | unborn hnext _ hheard =>
      have hturn : x.InTurn pa x' := .inr (.inl (fun hr => absurd (hs.lt pa hr) (Nat.not_lt.mpr hnext)))
      cases hst with
      | unborn _ =>
        rw [decide_eq_true hturn]
        exact .reported ⟨fun _ => nofun,.inl ⟨hheard,nofun⟩⟩
  | @hears msgs more hh =>
    cases hst with
    | missed h => exact .missed (h.hears hh)
    | reported h =>
      cases hA with
      | line hline =>
        have hiff := hline.inTurn_iff h.early x'
        by_cases hturn : x.InTurn pa x'
        · rw [decide_eq_true hturn]
          exact .reported (h.hears hh (hiff.mp hturn))
        · rw [decide_eq_false hturn]
          rw [hiff] at hturn
          simp only [Classical.not_imp] at hturn
          obtain ⟨-,hsilent,hne,hsome⟩ := hturn
          exact .missed (missed_of_silent hsilent x.a.tp.verified_subset hsome hh hne)

theorem Talk.atA (h : Talk pa pb x ma mb kept) (ha : Reachable sha1 bA x.a) (he : e.inputOf pa = false)
    (hs : Unworkable.step sha1 x.a (env,e) = .ok a') :
    Gone a' pa ∨ ∃ ma', Talk pa pb { x with a := a' } ma' mb (kept && decide (x.InTurn pa { x with a := a' })) := by
  have hp := ha.passes he hs
  rcases h.a.passes ha.census.1 h.idA hp with hgone | ⟨ma',hside,hgrows⟩
  · exact .inl hgone
  have hnum : a'.tp.numPieces = x.a.tp.numPieces := by rw [Torrent.numPieces,hp.mi]; rfl
  refine .inr ⟨ma',hside,h.b,by rw [hp.peerid]; exact h.idA,h.idB,?_,?_⟩
  · rw [hnum]
    exact h.grows ha.census.1 hgrows
  · cases hgrows with
    | still => exact h.known
    | starts => exact fun hpos => absurd (h.known hpos) (by simp)
    | hears hh => exact h.known.append _

theorem Talk.atB (h : Talk pa pb x ma mb kept) (hb : Reachable sha1 bB x.b) (he : e.inputOf pb = false)
    (hs : Unworkable.step sha1 x.b (env,e) = .ok b') :
    Gone b' pb ∨ ∃ mb', Talk pa pb { x with b := b' } ma mb' kept := by
  have hp := hb.passes he hs
  rcases h.b.passes hb.census.1 h.idB hp with hgone | ⟨mb',hside,hgrows⟩
  · exact .inl hgone
  have hnum : b'.tp.numPieces = x.b.tp.numPieces := by rw [Torrent.numPieces,hp.mi]; rfl
  by_cases hpos : 0 < x.toB
  · have hlt : pb < x.b.nextPeer := hb.census.1.lt pb (h.b.mem hpos)
    have hstays := hp.stays hlt
    obtain ⟨-,hsame | hdead⟩ := hstays.peer (hside.mem hpos)
    · refine .inr ⟨mb',h.a,hside,h.idA,by rw [hp.peerid]; exact h.idB,h.standing,fun _ => ?_⟩
      obtain ⟨msgs,hma,hle,htracks⟩ := h.known hpos
      refine ⟨msgs,hma,hle,?_⟩
      rw [hnum]
      exact fun hn => (htracks hn).congr (mask_state hsame).2.2.2.2.2
    · exact .inl ⟨hlt.trans_le hstays.next,.inr hdead⟩
  · exact .inr ⟨mb',h.a,hside,h.idA,by rw [hp.peerid]; exact h.idB,h.standing,fun hpos' => absurd hpos' hpos⟩

/-- The first message that has not been delivered yet to one side is the handshake or one of those that follow. -/
theorem Side.next {s : Session} {r : PeerId} {k : ℕ} {said : Option (List WireMsg)} {i : ℕ} {msg : Bytes}
    (h : Side s r k said) (hmsg : (s.stream r)[i]? = some msg) : ∃ msgs, said = some msgs ∧ (∀ m ∈ msgs, Sendable m) ∧
      ∃ peerid, peerid.length = 20 ∧ (handshakeBytes s.tp.mi.infoHash peerid :: msgs.map WireMsg.bytes)[i]? =
        some msg := by
  cases h with
  | unborn hnext hstream hheard =>
    rw [hstream] at hmsg
    cases hmsg
  | @line msgs h =>
    obtain ⟨peerid,hid,hstream⟩ := h.stream
    rw [hstream] at hmsg
    exact ⟨msgs,rfl,h.sendable,peerid,hid,hmsg⟩

theorem Side.line_of_mem {s : Session} {r : PeerId} {k : ℕ} {said : Option (List WireMsg)} (h : Side s r k said)
    (hs : s.roster.Census) (hr : r ∈ s.peers) : ∃ msgs, said = some msgs ∧ Line s r k msgs := by
  cases h with
  | unborn hnext _ _ => exact absurd (hs.lt r hr) (Nat.not_lt.mpr hnext)
  | @line msgs h => exact ⟨msgs,rfl,h⟩

theorem Talk.toB (h : Talk pa pb x ma mb kept) (hb : Reachable sha1 bB x.b) (hmi : x.a.tp.mi = x.b.tp.mi) {msg : Bytes}
    (hmsg : (x.a.stream pa)[x.toB]? = some msg) (hr : pb ∈ x.b.peers) (hd : deliver sha1 env x.b pb msg = .ok b') :
    Reachable sha1 bB b' ∧ (Gone b' pb ∨ ∃ mb', Talk pa pb { x with b := b', toB := x.toB + 1 } ma mb' kept) := by
  obtain ⟨msgs,rfl,hline⟩ := h.b.line_of_mem hb.census.1 hr
  have hfeed := deliver_ok hline.quiet hd
  refine ⟨hb.deliver hr hfeed,?_⟩
  obtain ⟨said,rfl,hsaid,peerid,hid,hnext⟩ := h.a.next hmsg
  rw [hmi] at hnext
  rcases hline.receives hb.census.1 hsaid hid hnext hfeed with hgone | ⟨hpid,hle,more,hline',-,htracks⟩
  · exact .inl hgone
  · have hnum : b'.tp.numPieces = x.b.tp.numPieces := by
      rw [Torrent.numPieces,(hb.deliver hr hfeed).sound.2,← hb.sound.2]
      rfl
    refine .inr ⟨some (msgs ++ more),h.a,.line hline',h.idA,by rw [hpid]; exact h.idB,h.standing,fun _ => ?_⟩
    refine ⟨said,rfl,Nat.succ_le_succ hle,?_⟩
    rw [hnum]
    intro hn
    refine htracks hn (fun hpos => ?_)
    obtain ⟨said',heq,-,hbefore⟩ := h.known hpos
    cases heq
    exact hbefore hn

theorem Talk.toA (h : Talk pa pb x ma mb kept) (ha : Reachable sha1 bA x.a) (hmi : x.a.tp.mi = x.b.tp.mi) {msg : Bytes}
    (hmsg : (x.b.stream pb)[x.toA]? = some msg) (hr : pa ∈ x.a.peers) (hd : deliver sha1 env x.a pa msg = .ok a') :
    Reachable sha1 bA a' ∧ (Gone a' pa ∨ x.InTurn pa { x with a := a', toA := x.toA + 1 } ∧
      ∃ ma', Talk pa pb { x with a := a', toA := x.toA + 1 } ma' mb kept) := by
  obtain ⟨msgs,rfl,hline⟩ := h.a.line_of_mem ha.census.1 hr
  have hfeed := deliver_ok hline.quiet hd
  refine ⟨ha.deliver hr hfeed,?_⟩
  obtain ⟨said,rfl,hsaid,peerid,hid,hnext⟩ := h.b.next hmsg
  rw [← hmi] at hnext
  rcases hline.receives ha.census.1 hsaid hid hnext hfeed with hgone | ⟨hpid,-,more,hline',hreplies,-⟩
  · exact .inl hgone
  · have hnum : a'.tp.numPieces = x.a.tp.numPieces := by
      rw [Torrent.numPieces,(ha.deliver hr hfeed).sound.2,← ha.sound.2]
      rfl
    refine .inr ⟨?_,some (msgs ++ more),.line hline',h.b,by rw [hpid]; exact h.idA,h.idB,?_,h.known.append more⟩
    · cases hreplies with
      | silent _ htp _ => exact .inl (congrArg Torrent.verified htp)
      | describes _ htp _ => exact .inl (congrArg Torrent.verified htp)
      | hears hpos _ => exact .inr (.inr (.inl (hline.waiting hpos).handshake1))
    · rw [hnum]
      exact h.standing.replies ha.tallied hreplies

/-- One event keeps the invariant, and notes whether a piece was verified out of turn. -/
theorem Sound.step {e : PairEvent} (h : Sound sha1 bA bB pa pb x kept) (hmi : bA.mi = bB.mi)
    (hs : x.step sha1 pa pb e = .ok x') : Sound sha1 bA bB pa pb x' (kept && decide (x.InTurn pa x')) := by
  have hkeep : x.InTurn pa x' → Sound sha1 bA bB pa pb x' kept →
      Sound sha1 bA bB pa pb x' (kept && decide (x.InTurn pa x')) := by
    intro hturn hsound
    rwa [decide_eq_true hturn,Bool.and_true]
  cases e with
  | atA env e =>
    simp only [Pair.step] at hs
    cases he : e.inputOf pa with
    | true =>
      rw [he,if_pos rfl] at hs
      cases hs
      exact hkeep (.inl rfl) h
    | false =>
      rw [he,if_neg Bool.false_ne_true] at hs
      obtain ⟨a',ha',rfl⟩ := map_ok.mp hs
      cases h with
      | lostA ha h => exact .lostA (ha.step ha') (h.passes (ha.passes he ha'))
      | lostB hb h => exact .lostB hb h
      | talking ha hb h =>
        rcases h.atA ha he ha' with hgone | ⟨ma',htalk⟩
        · exact .lostA (ha.step ha') hgone
        · exact .talking (ha.step ha') hb htalk
  | atB env e =>
    simp only [Pair.step] at hs
    cases he : e.inputOf pb with
    | true =>
      rw [he,if_pos rfl] at hs
      cases hs
      exact hkeep (.inl rfl) h
    | false =>
      rw [he,if_neg Bool.false_ne_true] at hs
      obtain ⟨b',hb',rfl⟩ := map_ok.mp hs
      refine hkeep (.inl rfl) ?_
      cases h with
      | lostA ha h => exact .lostA ha h
      | lostB hb h => exact .lostB (hb.step hb') (h.passes (hb.passes he hb'))
      | talking ha hb h =>
        rcases h.atB hb he hb' with hgone | ⟨mb',htalk⟩
        · exact .lostB (hb.step hb') hgone
        · exact .talking ha (hb.step hb') htalk
  | toB env =>
    simp only [Pair.step] at hs
    cases hmsg : (x.a.stream pa)[x.toB]? with
    | none =>
      rw [hmsg] at hs
      cases hs
      exact hkeep (.inl rfl) h
    | some msg =>
      rw [hmsg] at hs
      dsimp only at hs
      split at hs
      · rename_i hr
        obtain ⟨b',hb',rfl⟩ := map_ok.mp hs
        refine hkeep (.inl rfl) ?_
        cases h with
        | lostA ha h => exact .lostA ha h
        | lostB hb h =>
          have hfeed := deliver_ok (h.quiet hr) hb'
          exact .lostB (hb.deliver hr hfeed) (h.feed hr hfeed)
        | talking ha hb h =>
          obtain ⟨hreach,hgone | ⟨mb',htalk⟩⟩ := h.toB hb (by rw [ha.sound.2,hmi,hb.sound.2]) hmsg hr hb'
          · exact .lostB hreach hgone
          · exact .talking ha hreach htalk
      · cases hs
        exact hkeep (.inl rfl) h
  | toA env =>
    simp only [Pair.step] at hs
    cases hmsg : (x.b.stream pb)[x.toA]? with
    | none =>
      rw [hmsg] at hs
      cases hs
      exact hkeep (.inl rfl) h
    | some msg =>
      rw [hmsg] at hs
      dsimp only at hs
      split at hs
      · rename_i hr
        obtain ⟨a',ha',rfl⟩ := map_ok.mp hs
        cases h with
        | lostA ha h =>
          have hfeed := deliver_ok (h.quiet hr) ha'
          exact .lostA (ha.deliver hr hfeed) (h.feed hr hfeed)
        | lostB hb h => exact .lostB hb h
        | talking ha hb h =>
          obtain ⟨hreach,hgone | ⟨hturn,ma',htalk⟩⟩ := h.toA ha (by rw [ha.sound.2,hmi,hb.sound.2]) hmsg hr ha'
          · exact .lostA hreach hgone
          · exact hkeep hturn (.talking hreach hb htalk)
      · cases hs
        exact hkeep (.inl rfl) h

end Steps

section Runs
variable {sha1 : Bytes → Bytes} {bA bB : Boot} {pa pb : PeerId} {x x₀ : Pair} {es : List PairEvent}
  {C : Pair → Pair → Prop}

theorem pair_start_sound (hidA : bA.peerid.length = 20) (hidB : bB.peerid.length = 20)
    (h : Pair.start sha1 bA bB = .ok x) : Sound sha1 bA bB pa pb x true := by
  obtain ⟨a,ha,h⟩ := bind_ok.mp h
  obtain ⟨b,hb,h⟩ := bind_ok.mp h
  cases h
  have hreach : ∀ {c : Boot} {s : Session}, c.session sha1 = .ok s → Reachable sha1 c s :=
    fun hs => ⟨[],bind_ok.mpr ⟨_,hs,rfl⟩⟩
  obtain ⟨tpA,-,hA⟩ := Boot.session_ok ha
  obtain ⟨tpB,-,hB⟩ := Boot.session_ok hb
  have htalk : Talk pa pb ⟨a,b,0,0⟩ none none true := by
    refine ⟨?_,?_,?_,?_,.unborn rfl,fun hpos => absurd hpos (lt_irrefl 0)⟩
    · subst hA
      exact .unborn (Nat.zero_le pa) rfl rfl
    · subst hB
      exact .unborn (Nat.zero_le pb) rfl rfl
    · rw [hA]
      exact hidA
    · rw [hB]
      exact hidB
  exact .talking (hreach ha) (hreach hb) htalk

/-- A run keeps the invariant, and notes whether all its steps were in turn. -/
theorem Sound.run {kept : Bool} (h : Sound sha1 bA bB pa pb x₀ kept) (hmi : bA.mi = bB.mi)
    (hrun : x₀.run sha1 pa pb es = .ok x) : ∃ kept', Sound sha1 bA bB pa pb x kept' ∧
      (kept' = true ↔ kept = true ∧ Pair.Meets sha1 pa pb (Pair.InTurn pa) x₀ es) := by
  induction es generalizing x₀ kept with
  | nil =>
    cases hrun
    exact ⟨kept,h,by simp [Pair.Meets]⟩
  | cons e es ih =>
    rw [Pair.run,List.foldlM_cons,bind_ok] at hrun
    obtain ⟨y,hy,hrun⟩ := hrun
    obtain ⟨kept',hsound,hiff⟩ := ih (h.step hmi hy) hrun
    refine ⟨kept',hsound,?_⟩
    rw [hiff,Bool.and_eq_true,decide_eq_true_eq,and_assoc,Pair.Meets]
    simp [hy]

/-- Where both handshakes are complete and everything has been delivered, the second knows what has been said. -/
theorem Talk.settled {ma mb : Option (List WireMsg)} {kept : Bool} (h : Talk pa pb x ma mb kept)
    (ha : x.a.roster.Census) (hb : x.b.roster.Census) (hs : x.Settled pa pb) : 0 < x.toA ∧ ∃ msgs, ma = some msgs ∧
      (0 < x.b.tp.numPieces → Tracks x.b.tp.numPieces (x.b.peer pb) (told x.b.tp.numPieces msgs)) := by
  have heard : ∀ {s : Session} {r : PeerId} {k : ℕ} {msgs : List WireMsg}, Line s r k msgs →
      Pair.ShakenHands (s.peer r) → 0 < k := by
    intro s r k msgs hline hhands
    refine Nat.pos_of_ne_zero (fun hzero => ?_)
    have hfresh := (hline.fresh hzero).1.handshake1
    rw [hhands.2.1] at hfresh
    cases hfresh
  obtain ⟨msgs,rfl,hlineA⟩ := h.a.line_of_mem ha hs.memA
  obtain ⟨_,rfl,hlineB⟩ := h.b.line_of_mem hb hs.memB
  obtain ⟨msgs',heq,-,htracks⟩ := h.known (heard hlineB hs.handsB)
  cases heq
  have htake : msgs.take (x.toB - 1) = msgs := by
    obtain ⟨peerid,-,hstream⟩ := hlineA.stream
    refine List.take_of_length_le ?_
    rw [hs.delivered,hstream]
    simp
  rw [htake] at htracks
  exact ⟨heard hlineA hs.handsA,msgs,rfl,htracks⟩

/-- A peer whose messages have told `a` announces the pieces of `a`. -/
theorem Tracks.announces {n i : ℕ} {q : Peer} {a : Option (ℕ → Bool)} (h : Tracks n q a) (hi : i < n) :
    Announces q.bitfield i ↔ a.elim false (· i) = true := by
  cases h with
  | unknown hbf _ _ => simp [Announces,hbf]
  | known hbf _ hbits _ _ => simp [Announces,hbf,hbits i hi]

/-- It agrees with what there is exactly if all pieces were verified in turn. -/
theorem Sound.agrees_iff {kept : Bool} (h : Sound sha1 bA bB pa pb x kept) (hmi : bA.mi = bB.mi)
    (hs : x.Settled pa pb) :
    x.Agrees pb ↔ kept = true := by
  have hlive : ∀ {s : Session} {r : PeerId}, Gone s r → r ∈ s.peers → ¬ Pair.ShakenHands (s.peer r) := by
    intro s r hgone hr hhands
    have hdead := (hgone.2.resolve_left (not_not.mpr hr)).dead
    rw [hhands.1] at hdead
    cases hdead
  cases h with
  | lostA _ hgone => exact absurd hs.handsA (hlive hgone hs.memA)
  | lostB _ hgone => exact absurd hs.handsB (hlive hgone hs.memB)
  | talking ha hb h =>
    obtain ⟨hpos,msgs,rfl,htracks⟩ := h.settled ha.census.1 hb.census.1 hs
    have hnum : x.b.tp.numPieces = x.a.tp.numPieces := by
      rw [Torrent.numPieces,hb.sound.2,← hmi,← ha.sound.2]
      rfl
    rw [hnum] at htracks
    have hannounces : ∀ i < x.a.tp.numPieces, Announces (x.b.peer pb).bitfield i ↔
        (told x.a.tp.numPieces msgs).elim false (· i) = true :=
      fun i hi => (htracks (Nat.zero_lt_of_lt hi)).announces hi
    have hst := h.standing
    cases hst with
    | reported hrep =>
      refine iff_of_true ?_ rfl
      intro i hi
      rcases hrep.all with ⟨hzero,-⟩ | hall
      · exact absurd hzero (Nat.pos_iff_ne_zero.mp hpos)
      · rw [hannounces i hi,hall i hi,Torrent.mem_verified,and_iff_right hi]
    | missed hmiss =>
      refine iff_of_false ?_ Bool.false_ne_true
      intro hagrees
      obtain ⟨i,hi,hlt,S,hS,hout⟩ := hmiss
      have hin := (hannounces i hlt).mp ((hagrees i hlt).mpr (Torrent.mem_verified.mp hi).2)
      rw [hS,Option.elim_some,hout] at hin
      cases hin

/-- Two instances of one torrent are connected to each other, whatever else each of them does. When both handshakes are
complete and all messages of the first have been delivered, the second records for the first the pieces that the first
has verified, exactly if each of these was verified in turn. -/
theorem bitfield_agrees_iff (sha1 : Bytes → Bytes) (bA bB : Boot) (pa pb : PeerId) (x₀ x : Pair) (es : List PairEvent)
    (hmi : bA.mi = bB.mi) (hidA : bA.peerid.length = 20) (hidB : bB.peerid.length = 20)
    (hstart : Pair.start sha1 bA bB = .ok x₀) (hrun : x₀.run sha1 pa pb es = .ok x) (hs : x.Settled pa pb) :
    x.Agrees pb ↔ Pair.Meets sha1 pa pb (Pair.InTurn pa) x₀ es := by
  obtain ⟨kept,hsound,hkept⟩ := (pair_start_sound hidA hidB hstart).run hmi hrun
  rw [hsound.agrees_iff hmi hs,hkept]
  simp

instance (q : Peer) : Decidable (Pair.ShakenHands q) := inferInstanceAs (Decidable (_ ∧ _))

instance (pa pb : PeerId) (x : Pair) : Decidable (x.Settled pa pb) :=
  decidable_of_iff (pa ∈ x.a.peers ∧ pb ∈ x.b.peers ∧ Pair.ShakenHands (x.a.peer pa) ∧ Pair.ShakenHands (x.b.peer pb) ∧
    x.toB = (x.a.stream pa).length)
    ⟨fun ⟨h₁,h₂,h₃,h₄,h₅⟩ => ⟨h₁,h₂,h₃,h₄,h₅⟩,fun h => ⟨h.memA,h.memB,h.handsA,h.handsB,h.delivered⟩⟩

def Pair.meets (sha1 : Bytes → Bytes) (pa pb : PeerId) (C : Pair → Pair → Prop) [∀ x x', Decidable (C x x')] :
    Pair → List PairEvent → Bool
  | _,[] => true
  | x,e :: es => match x.step sha1 pa pb e with
    | .ok x' => decide (C x x') && meets sha1 pa pb C x' es
    | .error _ => true

theorem Pair.meets_of_check [∀ x x', Decidable (C x x')] (h : Pair.meets sha1 pa pb C x es = true) :
    Pair.Meets sha1 pa pb C x es := by
  induction es generalizing x with
  | nil => trivial
  | cons e es ih =>
    intro x' hx'
    simp only [Pair.meets,hx',Bool.and_eq_true,decide_eq_true_eq] at h
    exact ⟨h.1,ih h.2⟩

/-- A run that computes to a pair with some property. -/
theorem exists_run (sha1 : Bytes → Bytes) (bA bB : Boot) (pa pb : PeerId) (es : List PairEvent) (P : Pair → Pair → Bool)
    (h : ((Pair.start sha1 bA bB).bind fun x₀ =>
    (x₀.run sha1 pa pb es).map (fun x => P x₀ x)).toOption = some true) :
    ∃ x₀ x, Pair.start sha1 bA bB = .ok x₀ ∧ x₀.run sha1 pa pb es = .ok x ∧ P x₀ x = true := by
  obtain ⟨x₀,hx₀,h⟩ := bind_ok.mp (ok_of_toOption h)
  obtain ⟨x,hx,hP⟩ := map_ok.mp h
  exact ⟨x₀,x,hx₀,hx,hP⟩

/-- A client that has the first of two pieces. -/
def Boot.oneOfTwo : Boot := { Boot.oneByte (zeroByteDigest ++ zeroByteDigest) 2 with
  resume := some [0x80], disk := fun _ => ⟨false,0,some [0],false⟩ }

/-- A client of the same torrent that has none. -/
def Boot.noneOfTwo : Boot := Boot.oneByte (zeroByteDigest ++ zeroByteDigest) 2

def offerInputs : List (Env × Event) :=
  [(.plain 1000,.accept 1)] ++ inputs 1000 0 handshakePortions ++
    inputs 1000 0 (messagePortions [msgBitfieldId,0xC0]) ++
    inputs 1000 0 (messagePortions [msgUnchokeId]) ++ [(.plain 1001,.scheduler)]

/-- A third peer offers both pieces to the first client, which then asks it for the second one. -/
def offerRun : List PairEvent := offerInputs.map (fun e => .atA e.1 e.2)

def connectRun : List PairEvent := [.atA (.plain 1002) (.accept 2),.atB (.plain 1002) (.tracker (some [7]))]

def pieceRun : List PairEvent :=
  (inputs 1003 0 (messagePortions [msgPieceId,0,0,0,1,0,0,0,0,0])).map (fun e => .atA e.1 e.2)

def greetRun : List PairEvent := [.toB (.plain 1004),.toA (.plain 1004)]

/-- Two more messages of the first client are delivered. -/
def tellRun : List PairEvent := [.toB (.plain 1005),.toB (.plain 1005)]

/-- The first client verifies its second piece before it reads the handshake of the other: the other hears of that
piece first and takes no bit field any more. -/
theorem bitfield_lost_before_handshake : ∃ x₀ x, Pair.start sha1ZeroByte .oneOfTwo .noneOfTwo = .ok x₀ ∧
    x₀.run sha1ZeroByte 1 0 (offerRun ++ connectRun ++ pieceRun ++ greetRun ++ tellRun) = .ok x ∧ x.Settled 1 0 ∧
    ¬ x.Agrees 0 := by
  obtain ⟨x₀,x,hstart,hrun,hP⟩ := exists_run sha1ZeroByte .oneOfTwo .noneOfTwo 1 0
    (offerRun ++ connectRun ++ pieceRun ++ greetRun ++ tellRun)
    (fun _ x => decide (x.Settled 1 0 ∧ 0 < x.a.tp.numPieces ∧ (x.b.peer 0).bitfield = some [0x40] ∧
      (x.a.tp.piece 0).cksumok = true)) (by decide +kernel)
  obtain ⟨hs,hn,hbf,hck⟩ := of_decide_eq_true hP
  refine ⟨x₀,x,hstart,hrun,hs,?_⟩
  intro hagrees
  obtain ⟨bf,hbf',hbit⟩ := (hagrees 0 hn).mpr hck
  rw [hbf] at hbf'
  cases hbf'
  cases hbit

/-- The same clients, when the handshakes come before the piece. -/
theorem bitfield_agrees_after_handshake : ∃ x₀ x, Pair.start sha1ZeroByte .oneOfTwo .noneOfTwo = .ok x₀ ∧
    x₀.run sha1ZeroByte 1 0 (offerRun ++ connectRun ++ greetRun ++ pieceRun ++ tellRun) = .ok x ∧ x.Settled 1 0 ∧
    x.a.tp.verified = {0,1} ∧ x.Agrees 0 := by
  obtain ⟨x₀,x,hstart,hrun,hP⟩ := exists_run sha1ZeroByte .oneOfTwo .noneOfTwo 1 0
    (offerRun ++ connectRun ++ greetRun ++ pieceRun ++ tellRun)
    (fun x₀ x => decide (x.Settled 1 0 ∧ x.a.tp.verified = {0,1}) &&
      Pair.meets sha1ZeroByte 1 0 (Pair.InTurn 1) x₀ (offerRun ++ connectRun ++ greetRun ++ pieceRun ++ tellRun))
    (by decide +kernel)
  obtain ⟨hP,hmeets⟩ := Bool.and_eq_true_iff.mp hP
  obtain ⟨hs,hV⟩ := of_decide_eq_true hP
  exact ⟨x₀,x,hstart,hrun,hs,hV,(bitfield_agrees_iff sha1ZeroByte .oneOfTwo .noneOfTwo 1 0 x₀ x _ rfl rfl rfl hstart
    hrun hs).mpr (Pair.meets_of_check hmeets)⟩

end Runs

end Unworkable
