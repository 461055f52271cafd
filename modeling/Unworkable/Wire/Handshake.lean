import Unworkable.Torrent.Resume
import Unworkable.Wire.Obedience

/-! # What a handshake decodes to

The writer lays the handshake out as 68 bytes and sets a bit of the last reserved byte, byte
27. The reader takes the first 20 bytes, and then 48 into a second buffer, where it tests byte
27 again: that is the last byte of the info hash.
-/
namespace Unworkable
open Library

/-- A peer that has been connected and has sent nothing yet. -/
structure Awaiting (q : Peer) : Prop where
  handshake1 : q.state.handshake1 = true
  dead : q.state.dead = false
  fast : q.state.fast = false
  sendbitfield : q.state.sendbitfield = false
  rxpending : q.rxpending = 0

theorem awaiting_connect (env : Env) (s : Session) (addr : ℕ) :
    Awaiting ((networkHandlePeerConnect env s addr).peer s.nextPeer) := by
  constructor <;> simp [networkHandlePeerConnect,networkPeerHandshake,networkPeerWrite,networkPeerCreate]

/-- Reads of a peer at different times, each on the bytes that have come by then. -/
def networkHandlePeerReads (sha1 : Bytes → Bytes) (p : PeerId) (s : Session) (left : Bytes) :
    List (Env × Bytes) → Option (Except Halt (Session × Bytes))
  | [] => some (.ok (s,left))
  | (env,c) :: rest => do
    let t ← networkHandlePeerResponse sha1 env p s (left ++ c)
    match t.result with
    | .error e => some (.error e)
    | .ok (s',left') => networkHandlePeerReads sha1 p s' left' rest

/-- Bit `0x04` of byte `i`. -/
def fastBit (hs : Bytes) (i : ℕ) : Bool := (hs.getD i 0).toNat.testBit 2

section Stages

/-- How many bytes of the present stage are missing after `k` bytes of a handshake. -/
def wanted (k : ℕ) : ℕ := if k < 20 then 20 - k else 68 - k

/-- What the buffer of the present stage holds after `k` bytes. -/
def received (hs : Bytes) (k : ℕ) : Bytes := if k < 20 then hs.take k else (hs.drop 20).take (k - 20)

/-- A peer of whose handshake `k` bytes have been read. -/
structure Receives (hs : Bytes) (k : ℕ) (q : Peer) : Prop where
  handshake1 : q.state.handshake1 = decide (k < 20)
  handshake2 : 20 ≤ k → q.state.handshake2 = true
  armed : k = 0 ∧ q.rxpending = 0 ∨ q.rxpending = wanted k ∧ q.rxmsg = received hs k
  dead : q.state.dead = false
  fast : q.state.fast = false
  sendbitfield : q.state.sendbitfield = false

variable {sha1 : Bytes → Bytes} {env : Env} {p : PeerId} {s : Session} {hs : Bytes} {k : ℕ} {b : UInt8} {q : Peer}

theorem Awaiting.receives (h : Awaiting q) (hs : Bytes) : Receives hs 0 q := by
  constructor
  · exact h.handshake1
  · intro hk
    omega
  · exact .inl ⟨rfl,h.rxpending⟩
  · exact h.dead
  · exact h.fast
  · exact h.sendbitfield

theorem wanted_pos (hk : k < 68) : 0 < wanted k := by
  unfold wanted
  split <;> omega

theorem Receives.arm (h : Receives hs k q) (hk : k < 68) (env : Env) : (armRead env q).rxpending = wanted k ∧
    (armRead env q).rxmsg = received hs k ∧ (armRead env q).state = q.state := by
  rcases h.armed with ⟨rfl,hzero⟩ | ⟨hpend,hbuf⟩
  · have h₁ : q.state.handshake1 = true := h.handshake1
    simp [armRead,hzero,h₁,wanted,received]
  · have hpos := wanted_pos hk
    rw [armRead_of_pending env (by omega)]
    exact ⟨hpend,hbuf,rfl⟩

theorem received_succ (hb : hs[k]? = some b) (hk : k + 1 ≠ 20) : received hs k ++ [b] = received hs (k + 1) := by
  have htake : ∀ (xs : Bytes) n, xs[n]? = some b → xs.take n ++ [b] = xs.take (n + 1) := by
    intro xs n hx
    rw [List.take_add_one,hx]
    rfl
  unfold received
  by_cases hstage : k < 20
  · rw [if_pos hstage,if_pos (by omega)]
    exact htake hs k hb
  · rw [if_neg hstage,if_neg (by omega),show k + 1 - 20 = k - 20 + 1 by omega]
    apply htake
    rw [List.getElem?_drop,show 20 + (k - 20) = k by omega,hb]

theorem afterRead_one (env : Env) (q : Peer) (b : UInt8) : afterRead env q [b] = pushRead [b] (armRead env q) := by
  have hpos := armRead_pending env q
  rw [afterRead,List.take_of_length_le]
  exact hpos

/-- One byte more, before the end of a stage. -/
theorem Receives.step_inside (h : Receives hs k (s.peer p)) (hk : k < 67) (hstage : k + 1 ≠ 20) (hb : hs[k]? = some b) :
    feedPeer sha1 env p s [b] = .pure (s.setPeer p (afterRead env · [b])) ∧ Receives hs (k + 1)
    (afterRead env (s.peer p) [b]) := by
  obtain ⟨hpend,hbuf,hstate⟩ := h.arm (by omega) env
  have hwanted : wanted k = wanted (k + 1) + 1 := by
    unfold wanted
    split <;> split <;> omega
  have hread : (afterRead env (s.peer p) [b]).rxpending = wanted (k + 1) := by
    rw [afterRead_one]
    show (armRead env (s.peer p)).rxpending - 1 = _
    omega
  have hnext : Receives hs (k + 1) (afterRead env (s.peer p) [b]) := by
    have hst : (afterRead env (s.peer p) [b]).state = (s.peer p).state := by
      rw [afterRead_one]
      exact hstate
    constructor
    · rw [hst,h.handshake1]
      exact decide_eq_decide.mpr (by omega)
    · intro hle
      rw [hst]
      exact h.handshake2 (by omega)
    · refine .inr ⟨hread,?_⟩
      rw [afterRead_one,← received_succ hb hstage,← hbuf]
      rfl
    · rw [hst,h.dead]
    · rw [hst,h.fast]
    · rw [hst,h.sendbitfield]
  refine ⟨?_,hnext⟩
  have hpos := wanted_pos (k := k + 1) (by omega)
  rw [feedPeer_eq_response h.sendbitfield (by simp) (by rw [hpend,List.length_singleton]; omega),peerResponse_eq,
    if_pos (by omega),Traced.pure_bind,sendBitfield_of_quiet]
  · rfl
  · show ((s.setPeer p _).peer p).state.sendbitfield = false
    rw [Session.setPeer_self]
    exact hnext.sendbitfield

/-- The byte that completes the protocol string. -/
theorem Receives.step_prefix (h : Receives hs 19 (s.peer p)) (hb : hs[19]? = some b)
    (hpstr : hs.take 20 = 19 :: btProtocol) :
    ∃ q', feedPeer sha1 env p s [b] = .pure (s.setPeer p (fun _ => q')) ∧ Receives hs 20 q' := by
  obtain ⟨hpend,hbuf,hstate⟩ := h.arm (by decide) env
  have hpend' : (armRead env (s.peer p)).rxpending = 1 := hpend
  have hread : (afterRead env (s.peer p) [b]).rxpending = 0 := by
    rw [afterRead_one]
    show (armRead env (s.peer p)).rxpending - 1 = _
    omega
  have hmsg : (afterRead env (s.peer p) [b]).rxmsg = 19 :: btProtocol := by
    rw [afterRead_one,← hpstr,List.take_add_one,hb]
    show (armRead env (s.peer p)).rxmsg ++ [b] = _
    rw [hbuf]
    rfl
  have hst : (afterRead env (s.peer p) [b]).state = (s.peer p).state := by
    rw [afterRead_one]
    exact hstate
  have hq : Receives hs 20 (finishHandshake1 (afterRead env (s.peer p) [b])) := by
    have hstring : (19 : UInt8).toNat = 19 ∧ btProtocol.take 19 = btProtocol := by decide
    simp only [finishHandshake1,hmsg,List.headD_cons,List.drop_succ_cons,List.drop_zero,hstring,and_self,if_true,hst]
    exact ⟨rfl,fun _ => rfl,.inr ⟨rfl,rfl⟩,h.dead,h.fast,h.sendbitfield⟩
  refine ⟨_,?_,hq⟩
  have h₁ : ((s.setPeer p (afterRead env · [b])).peer p).state.handshake1 = true := by
    rw [Session.setPeer_self,hst,h.handshake1]
    rfl
  rw [feedPeer_eq_response h.sendbitfield (by simp) (by rw [hpend',List.length_singleton]),peerResponse_eq,
    if_neg (by omega)]
  simp only [finishRead,h₁,if_true,Traced.pure_bind]
  rw [Session.setPeer_setPeer,Session.setPeer_const,sendBitfield_of_quiet]
  · rfl
  · show ((s.setPeer p _).peer p).state.sendbitfield = false
    rw [Session.setPeer_self]
    exact hq.sendbitfield

theorem Receives.step (h : Receives hs k (s.peer p)) (hk : k < 67) (hb : hs[k]? = some b)
    (hpstr : hs.take 20 = 19 :: btProtocol) :
    ∃ q', feedPeer sha1 env p s [b] = .pure (s.setPeer p (fun _ => q')) ∧ Receives hs (k + 1) q' := by
  by_cases hstage : k + 1 = 20
  · obtain rfl : k = 19 := by omega
    exact h.step_prefix hb hpstr
  · obtain ⟨hfeed,hnext⟩ := h.step_inside hk hstage hb
    rw [Session.setPeer_const] at hfeed
    exact ⟨_,hfeed,hnext⟩

/-- Any part of the handshake before its last byte. -/
theorem Receives.steps {bs : Bytes} (h : Receives hs k (s.peer p)) (hk : k + bs.length < 68)
    (hbs : window hs k bs.length = bs) (hpstr : hs.take 20 = 19 :: btProtocol) :
    ∃ q', feedPeer sha1 env p s bs = .pure (s.setPeer p (fun _ => q')) ∧ Receives hs (k + bs.length) q' := by
  induction bs generalizing s k with
  | nil =>
    refine ⟨s.peer p,?_,h⟩
    rw [Session.setPeer_eq_self s p _ rfl]
    rfl
  | cons b bs ih =>
    rw [List.length_cons] at hk hbs
    have hget : ∀ i < bs.length + 1, hs[k + i]? = (b :: bs)[i]? := by
      intro i hi
      rw [← hbs,getElem?_window,if_pos hi]
    obtain ⟨q,hfeed,hq⟩ := h.step (by omega) (hget 0 (by omega)) hpstr
    have hrest : window hs (k + 1) bs.length = bs := by
      apply List.ext_getElem?
      intro i
      rw [getElem?_window]
      split
      · rw [Nat.add_assoc,Nat.add_comm 1 i,hget (i + 1) (by omega),List.getElem?_cons_succ]
      · rw [List.getElem?_eq_none (by omega)]
    obtain ⟨q',hfeed',hq'⟩ := ih (s := s.setPeer p (fun _ => q)) (by rwa [Session.setPeer_self]) (by omega) hrest
    refine ⟨q',?_,?_⟩
    · rw [← List.singleton_append,feedPeer_append,hfeed,Traced.pure_bind,hfeed',Session.setPeer_setPeer]
    · rw [List.length_cons,← Nat.add_assoc,Nat.add_right_comm]
      exact hq'

/-- A peer whose handshake is complete, before the label `out`. -/
structure HandshakeRead (hs digest : Bytes) (q : Peer) : Prop where
  infoHash : q.infoHash = window hs 28 20
  id : q.id = window hs 48 20
  state : if window hs 28 20 = digest then
    q.state.dead = false ∧ q.state.fast = fastBit hs 47 ∧ q.state.sendbitfield = true else q.state = PeerState.deadOnly

/-- The last byte: what the second stage makes of the handshake. -/
theorem Receives.step_last (h : Receives hs 67 (s.peer p)) (hb : hs[67]? = some b) (hlen : hs.length = 68) :
    ∃ q', feedPeer sha1 env p s [b] = ⟨[],sendBitfield env p (s.setPeer p (fun _ => q'))⟩ ∧
      HandshakeRead hs s.tp.mi.infoHash q' := by
  obtain ⟨hpend,hbuf,hstate⟩ := h.arm (by decide) env
  have hpend' : (armRead env (s.peer p)).rxpending = 1 := hpend
  have hread : (afterRead env (s.peer p) [b]).rxpending = 0 := by
    rw [afterRead_one]
    show (armRead env (s.peer p)).rxpending - 1 = _
    omega
  have hmsg : (afterRead env (s.peer p) [b]).rxmsg = hs.drop 20 := by
    rw [afterRead_one]
    show (armRead env (s.peer p)).rxmsg ++ [b] = _
    rw [hbuf,received_succ hb (by decide)]
    show (hs.drop 20).take 48 = _
    apply List.take_of_length_le
    rw [List.length_drop,hlen]
  have hst : (afterRead env (s.peer p) [b]).state = (s.peer p).state := by
    rw [afterRead_one]
    exact hstate
  have hself : (s.setPeer p (afterRead env · [b])).peer p = afterRead env (s.peer p) [b] := Session.setPeer_self s p _
  have h₁ : (afterRead env (s.peer p) [b]).state.handshake1 = false := by
    rw [hst,h.handshake1]
    rfl
  have h₂ : (afterRead env (s.peer p) [b]).state.handshake2 = true := by
    rw [hst]
    exact h.handshake2 (by decide)
  refine ⟨finishHandshake2 s.tp.mi.infoHash (afterRead env (s.peer p) [b]),?_,?_⟩
  · rw [feedPeer_eq_response h.sendbitfield (by simp) (by rw [hpend',List.length_singleton]),peerResponse_eq,
      if_neg (by omega)]
    simp only [finishRead,hself,h₁,h₂,Bool.false_eq_true,if_false,if_true,Traced.pure_bind]
    rw [Session.setPeer_setPeer,Session.setPeer_const]
    rfl
  · have hinfo : (hs.drop 20).drop 8 = hs.drop 28 := List.drop_drop ..
    have hid : (hs.drop 20).drop 28 = hs.drop 48 := List.drop_drop ..
    have hbit : (hs.drop 20).getD 27 0 = hs.getD 47 0 := by
      rw [List.getD_eq_getElem?_getD,List.getElem?_drop,List.getD_eq_getElem?_getD]
    simp only [finishHandshake2,hmsg,hinfo,hid,hbit,hst,h.fast,Bool.false_or]
    split
    · rename_i hhash
      have hne : ¬ window hs 28 20 = s.tp.mi.infoHash := hhash
      refine ⟨rfl,rfl,?_⟩
      rw [if_neg hne]
    · rename_i hhash
      have heq : window hs 28 20 = s.tp.mi.infoHash := not_not.mp hhash
      refine ⟨rfl,rfl,?_⟩
      rw [if_pos heq]
      exact ⟨h.dead,rfl,rfl⟩

/-- However the handshake is cut, and whenever its parts come, it is read to its end. -/
theorem Receives.reads {reads : List (Env × Bytes)} (h : Receives hs k (s.peer p)) (hk : k < 68) (hlen : hs.length = 68)
    (hpstr : hs.take 20 = 19 :: btProtocol) (hne : ∀ r ∈ reads, r.2 ≠ [])
    (hflat : (reads.map Prod.snd).flatten = hs.drop k) :
    ∃ env q', networkHandlePeerReads sha1 p s [] reads =
      some ((sendBitfield env p (s.setPeer p (fun _ => q'))).map (·,[])) ∧ HandshakeRead hs s.tp.mi.infoHash q' := by
  induction reads generalizing s k with
  | nil =>
    have hnone := congrArg List.length hflat
    rw [List.map_nil,List.flatten_nil,List.length_nil,List.length_drop] at hnone
    omega
  | cons r rest ih =>
    obtain ⟨env,c⟩ := r
    have hc : c ≠ [] := hne (env,c) List.mem_cons_self
    have hcpos := List.length_pos_iff.mpr hc
    have hrest : ∀ r ∈ rest, r.2 ≠ [] := fun r hr => hne r (List.mem_cons_of_mem _ hr)
    rw [List.map_cons,List.flatten_cons] at hflat
    have hsize : c.length + (rest.map Prod.snd).flatten.length = 68 - k := by
      rw [← List.length_append,hflat,List.length_drop,hlen]
    have hhandle : networkHandlePeerResponse sha1 env p s c = some ((feedPeer sha1 env p s c).bind Reader.drained) :=
      (peerReader_lawful sha1 env p).handle_eq_feed h.sendbitfield hc (le_refl _)
    have hfirst : ∀ n ≤ c.length, window hs k n = c.take n := by
      intro n hn
      rw [window,← hflat,List.take_append_of_le_length hn]
    by_cases hlast : k + c.length < 68
    · have hwhole : window hs k c.length = c := by rw [hfirst _ (le_refl _),List.take_length]
      obtain ⟨q,hfeed,hq⟩ := @Receives.steps sha1 env p s hs k c h hlast hwhole hpstr
      have htail : (rest.map Prod.snd).flatten = hs.drop (k + c.length) := by
        rw [← List.drop_drop,← hflat,List.drop_left]
      obtain ⟨env',q',hreads,hdone⟩ := ih (s := s.setPeer p (fun _ => q)) (by rwa [Session.setPeer_self])
        hlast hrest htail
      refine ⟨env',q',?_,hdone⟩
      rw [Session.setPeer_setPeer] at hreads
      simp only [networkHandlePeerReads,List.nil_append,hhandle,hfeed,Traced.pure,Option.bind_eq_bind,Option.bind_some]
      exact hreads
    · have hnil : rest = [] := by
        cases rest with
        | nil => rfl
        | cons r' rest =>
          have hpos := List.length_pos_iff.mpr (hrest r' List.mem_cons_self)
          rw [List.map_cons,List.flatten_cons,List.length_append] at hsize
          omega
      obtain ⟨front,b,rfl⟩ : ∃ front b, c = front ++ [b] :=
        ⟨c.dropLast,c.getLast hc,(List.dropLast_append_getLast hc).symm⟩
      rw [List.length_append,List.length_singleton] at hsize hlast hfirst
      have hfront : window hs k front.length = front := by
        rw [hfirst _ (by omega),List.take_left]
      have hkf : k + front.length = 67 := by omega
      have hb : hs[67]? = some b := by
        have hdrop := congrArg (·[front.length]?) hflat
        simp only [List.append_assoc] at hdrop
        rw [List.getElem?_append_right (le_refl _),Nat.sub_self,List.getElem?_drop,hkf] at hdrop
        rw [← hdrop]
        rfl
      obtain ⟨q,hfeed,hq⟩ := h.steps (by omega) hfront hpstr
      rw [hkf] at hq
      obtain ⟨q',hfeed',hdone⟩ := Receives.step_last (s := s.setPeer p (fun _ => q))
        (by rwa [Session.setPeer_self]) hb hlen
      refine ⟨env,q',?_,hdone⟩
      rw [Session.setPeer_setPeer] at hfeed'
      rw [feedPeer_append,hfeed,Traced.pure_bind,hfeed'] at hhandle
      rw [hnil]
      simp only [networkHandlePeerReads,List.nil_append,hhandle,Option.bind_eq_bind,Option.bind_some]
      cases sendBitfield env p (s.setPeer p (fun _ => q')) with
      | error e => rfl
      | ok t => rfl

end Stages

section Out
variable {env : Env} {p : PeerId} {s s' : Session}

/-- Where the message about the pieces can be written: the bit field is needed, and can be made. -/
def PiecesWritable (tp : Torrent) (fast : Bool) : Prop :=
  torrentEmpty tp = true ∨ (fast = true ∧ tp.goodPieces = tp.numPieces) ∨ tp.numPieces < 4294967289

theorem sendBitfield_id (h : sendBitfield env p s = .ok s') : (s'.peer p).id = (s.peer p).id := by
  unfold sendBitfield at h
  cases hb : (s.peer p).state.sendbitfield with
  | false =>
    simp only [hb,Bool.false_eq_true,if_false] at h
    cases h
    rfl
  | true =>
    simp only [hb,if_true] at h
    obtain ⟨t,ht,h⟩ := bind_ok.mp h
    cases h
    have hbitfield : ∀ u, networkPeerWriteBitfield env s p = .ok u → (u.peer p).id = (s.peer p).id := by
      intro u hu
      unfold networkPeerWriteBitfield at hu
      obtain ⟨bf,-,hu⟩ := bind_ok.mp hu
      cases hu
      simp [networkPeerWrite]
    have hsame : (t.peer p).id = (s.peer p).id := by
      unfold writePieces at ht
      split_ifs at ht
      · cases ht; simp [networkPeerWriteHavenone,networkPeerWrite]
      · cases ht; simp [networkPeerWriteHaveall,networkPeerWrite]
      · exact hbitfield t ht
      · cases ht; rfl
      · exact hbitfield t ht
    simpa [Session.setState] using hsame

theorem networkPeerWriteBitfield_ok (hne : torrentEmpty s.tp = false) :
    (∃ s', networkPeerWriteBitfield env s p = .ok s') ↔ s.tp.numPieces < 4294967289 := by
  constructor
  · rintro ⟨s',h⟩
    obtain ⟨bits,hget,-⟩ := bind_ok.mp h
    by_contra hnum
    exact torrentBitfieldGet_wraps (by omega) hne hget
  · intro hnum
    obtain ⟨bits,hget,-⟩ := torrentBitfieldGet_packed hnum
    exact ⟨_,bind_ok.mpr ⟨bits,hget,rfl⟩⟩

theorem writePieces_ok : (∃ s', writePieces env p s = .ok s') ↔ PiecesWritable s.tp (s.peer p).state.fast := by
  unfold writePieces PiecesWritable
  cases hempty : torrentEmpty s.tp with
  | true => cases (s.peer p).state.fast <;> simp
  | false =>
    rw [← @networkPeerWriteBitfield_ok env p s hempty]
    cases hfast : (s.peer p).state.fast with
    | true => by_cases hall : s.tp.goodPieces = s.tp.numPieces <;> simp [hall]
    | false => simp

theorem sendBitfield_ok (hsend : (s.peer p).state.sendbitfield = true) :
    (∃ s', sendBitfield env p s = .ok s') ↔ PiecesWritable s.tp (s.peer p).state.fast := by
  rw [← writePieces_ok (p := p)]
  simp only [sendBitfield,hsend,if_true]
  constructor
  · rintro ⟨s',h⟩
    obtain ⟨t,ht,-⟩ := bind_ok.mp h
    exact ⟨t,ht⟩
  · rintro ⟨t,ht⟩
    exact ⟨_,bind_ok.mpr ⟨t,ht,rfl⟩⟩

end Out

/-- What a handshake is to be decoded to. -/
structure Decodes (hs digest : Bytes) (q : Peer) : Prop where
  infoHash : q.infoHash = window hs 28 20
  id : q.id = window hs 48 20
  dead : q.state.dead = true ↔ window hs 28 20 ≠ digest
  fast : window hs 28 20 = digest → q.state.fast = fastBit hs 27

/-- A handshake is read to its end and decoded as laid out if and only if its info hash is another
one, or the bit tested in the last byte of the info hash is as in the last reserved byte and the
message about the pieces can be written. -/
theorem handshake_decoded_iff (sha1 : Bytes → Bytes) (p : PeerId) (s : Session) (hs : Bytes)
    (reads : List (Env × Bytes))
    (hwait : Awaiting (s.peer p)) (hlen : hs.length = 68) (hpstr : hs.take 20 = 19 :: btProtocol)
    (hne : ∀ r ∈ reads, r.2 ≠ []) (hflat : (reads.map Prod.snd).flatten = hs) :
    (∃ s', networkHandlePeerReads sha1 p s [] reads = some (.ok (s',[])) ∧ Decodes hs s.tp.mi.infoHash (s'.peer p)) ↔
      window hs 28 20 ≠ s.tp.mi.infoHash ∨ (fastBit hs 47 = fastBit hs 27 ∧ PiecesWritable s.tp (fastBit hs 27)) := by
  obtain ⟨env,q,hreads,hdone⟩ := (hwait.receives hs).reads (by decide) hlen hpstr hne hflat
  have hrun : ∀ s', networkHandlePeerReads sha1 p s [] reads = some (.ok (s',[])) ↔
      sendBitfield env p (s.setPeer p (fun _ => q)) = .ok s' := by
    intro s'
    rw [hreads,Option.some_inj]
    cases sendBitfield env p (s.setPeer p (fun _ => q)) <;> simp [Except.map]
  have hq : (s.setPeer p (fun _ => q)).peer p = q := Session.setPeer_self s p _
  have hout : ∀ s', sendBitfield env p (s.setPeer p (fun _ => q)) = .ok s' →
      (s'.peer p).infoHash = window hs 28 20 ∧ (s'.peer p).id = window hs 48 20 ∧
        (s'.peer p).state = { q.state with sendbitfield := false } := by
    intro s' h
    obtain ⟨hstate,hinfo,-⟩ := sendBitfield_peer h
    have hid := sendBitfield_id h
    rw [hq] at hstate hinfo hid
    exact ⟨hinfo.trans hdone.infoHash,hid.trans hdone.id,hstate⟩
  simp only [hrun]
  by_cases hhash : window hs 28 20 = s.tp.mi.infoHash
  · have hstate := hdone.state
    rw [if_pos hhash] at hstate
    obtain ⟨hdead,hfast,hsend⟩ := hstate
    have hok : (∃ s', sendBitfield env p (s.setPeer p (fun _ => q)) = .ok s') ↔ _ := sendBitfield_ok (by rw [hq,hsend])
    rw [hq,hfast] at hok
    constructor
    · rintro ⟨s',h,hdec⟩
      right
      have hbit : fastBit hs 47 = fastBit hs 27 := by
        have := hdec.fast hhash
        rw [(hout s' h).2.2] at this
        exact hfast.symm.trans this
      refine ⟨hbit,?_⟩
      rw [← hbit]
      exact hok.mp ⟨s',h⟩
    · rintro (hother | ⟨hbit,hwrite⟩)
      · exact (hother hhash).elim
      · rw [← hbit] at hwrite
        obtain ⟨s',h⟩ := hok.mpr hwrite
        obtain ⟨hinfo,hid,hst⟩ := hout s' h
        refine ⟨s',h,hinfo,hid,?_,?_⟩
        · rw [hst]
          simp [hdead,hhash]
        · intro _
          rw [hst]
          exact hfast.trans hbit
  · have hstate := hdone.state
    rw [if_neg hhash] at hstate
    refine ⟨fun _ => .inl hhash,fun _ => ?_⟩
    have hquiet : Quiet p (s.setPeer p (fun _ => q)) := by
      show ((s.setPeer p (fun _ => q)).peer p).state.sendbitfield = false
      rw [hq,hstate]
      rfl
    have h := sendBitfield_of_quiet env p hquiet
    obtain ⟨hinfo,hid,hst⟩ := hout _ h
    refine ⟨_,h,hinfo,hid,?_,fun heq => (hhash heq).elim⟩
    rw [hst,hstate]
    simp [PeerState.deadOnly,hhash]

/-- A session with one peer that has just connected, of a torrent with an all-zero info hash. -/
def Session.oneAwaiting : Session :=
  networkHandlePeerConnect (.plain 1000)
    (.initial (torrentPiecesCreate 4096 (.oneByte zeroByteDigest 1) fun _ => ⟨false,0,none,false⟩) 128 [] true 1000) 1

theorem handshake_decoded_iff_slow : ∃ s', networkHandlePeerReads sha1ZeroByte 0 .oneAwaiting []
      [(.plain 1001,[19]),(.plain 1002,btProtocol ++ List.replicate 28 0),(.plain 1003,List.replicate 20 7)] =
        some (.ok (s',[])) ∧
    Decodes (19 :: btProtocol ++ List.replicate 28 0 ++ List.replicate 20 7) (List.replicate 20 0) (s'.peer 0) :=
  (handshake_decoded_iff sha1ZeroByte 0 .oneAwaiting (19 :: btProtocol ++ List.replicate 28 0 ++ List.replicate 20 7)
    [(.plain 1001,[19]),(.plain 1002,btProtocol ++ List.replicate 28 0),(.plain 1003,List.replicate 20 7)]
    (awaiting_connect _ _ _) (by decide) (by decide) (by decide) (by decide)).mpr
      (.inr ⟨by decide,.inr (.inr (by decide))⟩)

/-- The handshake of this client itself, for that torrent, is not taken for one of a fast peer. -/
theorem own_handshake_slow : fastBit (handshakeBytes (List.replicate 20 0) (List.replicate 20 1)) 27 = true ∧
    (∃ s', networkHandlePeerReads sha1ZeroByte 0 .oneAwaiting []
      [(.plain 1001,handshakeBytes (List.replicate 20 0) (List.replicate 20 1))] = some (.ok (s',[])) ∧
        (s'.peer 0).state.dead = false ∧ (s'.peer 0).state.fast = false) ∧
    ¬ ∃ s', networkHandlePeerReads sha1ZeroByte 0 .oneAwaiting []
      [(.plain 1001,handshakeBytes (List.replicate 20 0) (List.replicate 20 1))] = some (.ok (s',[])) ∧
        Decodes (handshakeBytes (List.replicate 20 0) (List.replicate 20 1)) (List.replicate 20 0) (s'.peer 0) := by
  have hbit : fastBit (handshakeBytes (List.replicate 20 0) (List.replicate 20 1)) 27 = true := by decide
  have hrun : (networkHandlePeerReads sha1ZeroByte 0 .oneAwaiting []
      [(.plain 1001,handshakeBytes (List.replicate 20 0) (List.replicate 20 1))]).map (fun r => r.toOption.map
        (fun u => (u.2,(u.1.peer 0).state.dead,(u.1.peer 0).state.fast))) = some (some ([],false,false)) := by
    decide +kernel
  obtain ⟨r,hr,hr'⟩ := Option.map_eq_some_iff.mp hrun
  cases r with
  | error e => cases hr'
  | ok u =>
    obtain ⟨s',left⟩ := u
    simp only [Except.toOption,Option.map_some,Option.some.injEq,Prod.mk.injEq] at hr'
    obtain ⟨rfl,hdead,hfast⟩ := hr'
    refine ⟨hbit,⟨s',hr,hdead,hfast⟩,?_⟩
    rintro ⟨t,ht,hdec⟩
    rw [hr] at ht
    cases ht
    have hset := hdec.fast (by decide)
    rw [hbit,hfast] at hset
    cases hset

end Unworkable
