import Unworkable.Session.LonePeer
import Unworkable.Wire.Steering

/-! # What a peer has announced

The bit field of a peer is the set of pieces its messages announce: the first BITFIELD,
HAVEALL, HAVENONE or HAVE that is accepted gives the set, and every later HAVE adds to it.
A bit field so large that its 32-bit size wraps to nothing is read outside its bounds as
soon as it is installed.
-/
namespace Unworkable
open Library

section Interest
variable {env : Env} {s s' : Session} {p : PeerId}

def Peer.track (q : Peer) : Option Bytes × Bool × Bool × Bool :=
  (q.bitfield,q.state.bitfield,q.state.established,q.state.dead)

theorem track_expressInterest (h : expressInterest env s p = .ok s') : (s'.peer p).track = (s.peer p).track := by
  obtain ⟨array,last,store,rfl | rfl⟩ := expressInterest_frame h
  · rfl
  · simp [networkPeerWriteInterested,networkPeerWrite,Peer.track]

theorem gimmeScan_nil {l : List PieceDlIdxnode} {r : Option ℕ} (h : gimmeScan s (some []) l = .ok r) : r = none := by
  induction l with
  | nil =>
    cases h
    rfl
  | cons n rest ih =>
    simp only [gimmeScan] at h
    obtain ⟨tpp,-,h⟩ := bind_ok.mp h
    split at h
    · exact ih h
    · obtain ⟨assigned,-,h⟩ := bind_ok.mp h
      split at h
      · exact ih h
      · obtain ⟨has,hhas,-⟩ := bind_ok.mp h
        simp [utilGetbit] at hhas

/-- With no byte in the bit field the search for a useful piece reads outside it. -/
theorem expressInterest_nil (hbf : (s.peer p).bitfield = some []) (hn : 0 < s.tp.numPieces) :
    expressInterest env s p ≠ .ok s' := by
  intro h
  unfold expressInterest schedulerPieceGimme at h
  obtain ⟨r,hr,-⟩ := bind_ok.mp h
  obtain ⟨⟨t,found⟩,ht,-⟩ := bind_ok.mp hr
  unfold gimmePiece at ht
  rw [hbf] at ht
  obtain ⟨begun,hscan,ht⟩ := bind_ok.mp ht
  rw [gimmeScan_nil hscan] at ht
  obtain ⟨n,hsucc⟩ : ∃ n, s.tp.numPieces = n + 1 := ⟨s.tp.numPieces - 1,by omega⟩
  dsimp only at ht
  split at ht
  · obtain ⟨pieces,hpieces,-⟩ := bind_ok.mp ht
    simp only [hsucc,List.range_succ_eq_map,usefulPieces] at hpieces
    obtain ⟨has,hhas,-⟩ := bind_ok.mp hpieces
    simp [utilGetbit] at hhas
  · unfold schedulerPieceFindRarest at ht
    obtain ⟨u,hu,ht⟩ := bind_ok.mp ht
    have hcore : u.tp = s.tp ∧ u.peer = s.peer := by
      split at hu
      · unfold schedulerPieceRarityarray at hu
        obtain ⟨pieces,-,hu⟩ := bind_ok.mp hu
        cases hu
        exact ⟨rfl,rfl⟩
      · cases hu
        exact ⟨rfl,rfl⟩
    split at ht
    · cases ht
    · rename_i hlen
      obtain ⟨x,hx,-⟩ := bind_ok.mp ht
      rw [hcore.1,hcore.2,hbf] at hx
      rw [hcore.1] at hlen
      cases harr : u.rarityArray with
      | nil =>
        rw [harr] at hlen
        exact hlen (by simpa using hn)
      | cons c rest =>
        simp only [harr,hsucc,List.range_succ_eq_map,List.zip_cons_cons,rarestFrom] at hx
        obtain ⟨has,hhas,-⟩ := bind_ok.mp hx
        simp [utilGetbit] at hhas

end Interest

/-- The set of announced pieces after one more message; there is none before the first
message that is accepted. -/
def announcedStep (n : ℕ) (a : Option (ℕ → Bool)) (m : Env × Bytes) : Option (ℕ → Bool) :=
  let id := m.2.headD 0
  if id = msgHaveId then
    if msgField m.1 m.2 1 < n then some (fun i => decide (i = msgField m.1 m.2 1) || a.elim false (· i)) else a
  else if a.isSome then a
  else if id = msgBitfieldId then if m.2.length - 1 = (n + 7) / 8 then some (bitAt (m.2.drop 1)) else none
  else if id = msgHaveallId then some (fun _ => true)
  else if id = msgHavenoneId then some (fun _ => false)
  else none

def announced (n : ℕ) (msgs : List (Env × Bytes)) : Option (ℕ → Bool) := msgs.foldl (announcedStep n) none

/-- Messages of one peer processed one after the other. -/
def processMessages (sha1 : Bytes → Bytes) (p : PeerId) (s : Session) (msgs : List (Env × Bytes)) :
    Except Halt Session :=
  msgs.foldlM (fun s m => networkPeerProcessMessage sha1 m.1 s p (m.2.headD 0) m.2) s

inductive Tracks (n : ℕ) (q : Peer) : Option (ℕ → Bool) → Prop
  | unknown (hbf : q.bitfield = none) (hb : q.state.bitfield = true) (he : q.state.established = false) :
    Tracks n q none
  | known {bf : Bytes} {S : ℕ → Bool} (hbf : q.bitfield = some bf) (hlen : bf.length = (n + 7) / 8)
      (hbits : ∀ i < n, bitAt bf i = S i) (hb : q.state.bitfield = false) (he : q.state.established = true) :
      Tracks n q (some S)

section Tracking
variable {sha1 : Bytes → Bytes} {env : Env} {s s' : Session} {p : PeerId} {msg : Bytes} {a : Option (ℕ → Bool)}

theorem Tracks.congr {n : ℕ} {q q' : Peer} (h : Tracks n q a) (ht : q'.track = q.track) : Tracks n q' a := by
  simp only [Peer.track,Prod.mk.injEq] at ht
  cases h with
  | unknown hbf hb he => exact .unknown (ht.1.trans hbf) (ht.2.1.trans hb) (ht.2.2.1.trans he)
  | known hbf hlen hbits hb he => exact .known (ht.1.trans hbf) hlen hbits (ht.2.1.trans hb) (ht.2.2.1.trans he)

def TellsPieces (msg : Bytes) : Prop :=
  msg.headD 0 = msgHaveId ∨ msg.headD 0 = msgBitfieldId ∨ msg.headD 0 = msgHaveallId ∨ msg.headD 0 = msgHavenoneId

/-- A HAVE with an index in range, or one of the other messages about pieces where the first bit
field is expected, a BITFIELD with the right size. -/
def AcceptsPieces (env : Env) (s : Session) (p : PeerId) (msg : Bytes) : Prop :=
  msg.headD 0 = msgHaveId ∧ indexRefused s (msgField env msg 1) = false ∨
  (s.peer p).state.bitfield = true ∧ (msg.headD 0 = msgBitfieldId ∧ msg.length - 1 = bitfieldLen s.tp.numPieces ∨
    msg.headD 0 = msgHaveallId ∨ msg.headD 0 = msgHavenoneId)

def notedField (env : Env) (s : Session) (p : PeerId) (msg : Bytes) : Bytes :=
  if msg.headD 0 = msgHaveId then
    setBitAt ((s.peer p).bitfield.getD (List.replicate (bitfieldLen s.tp.numPieces) 0)) (msgField env msg 1)
  else if msg.headD 0 = msgBitfieldId then msg.drop 1
  else List.replicate (bitfieldLen s.tp.numPieces) (if msg.headD 0 = msgHaveallId then 0xFF else 0)

/-- The state with the new bit field, in which the test for interest is made. -/
def noted (env : Env) (s : Session) (p : PeerId) (msg : Bytes) : Session :=
  if msg.headD 0 = msgHaveId ∧ (s.peer p).bitfield.isSome then
    s.setPeer p (fun q => { q with bitfield := some (notedField env s p msg) })
  else installBitfield s p (notedField env s p msg)

theorem noted_keeps (env : Env) (s : Session) (p : PeerId) (msg : Bytes) : (noted env s p msg).tp = s.tp ∧
    (noted env s p msg).peers = s.peers ∧ (noted env s p msg).out = s.out ∧
    ((noted env s p msg).peer p).bitfield = some (notedField env s p msg) ∧
    ((noted env s p msg).peer p).state.aminterested = (s.peer p).state.aminterested ∧
    ∀ q, q ≠ p → (noted env s p msg).peer q = s.peer q := by
  have hne : ∀ f : Peer → Peer, ∀ q, q ≠ p → (s.setPeer p f).peer q = s.peer q := fun f q hq => s.setPeer_ne p f hq
  unfold noted
  split
  · exact ⟨rfl,rfl,rfl,by simp,by simp,hne _⟩
  · exact ⟨rfl,rfl,rfl,by simp [installBitfield],by simp [installBitfield],hne _⟩

/-- An accepted message is noted, and then interest is tested. -/
theorem message_noted (hacc : AcceptsPieces env s p msg)
    (h : networkPeerProcessMessage sha1 env s p (msg.headD 0) msg = .ok s') :
    expressInterest env (noted env s p msg) p = .ok s' := by
  rcases hacc with ⟨hid,hidx⟩ | ⟨hbit,⟨hid,hlen⟩ | hid | hid⟩
  · rw [hid,networkPeerProcessMessage_have] at h
    simp only [msgHave,hidx,Bool.false_eq_true,if_false] at h
    obtain ⟨bf,hset,h⟩ := bind_ok.mp h
    obtain ⟨-,rfl⟩ := utilSetbit_ok.mp hset
    simp only [noted,notedField,hid,if_true,true_and]
    cases hbf : (s.peer p).bitfield with
    | none => simpa [hbf,installBitfield] using h
    | some bf => simpa [hbf] using h
  · rw [hid,networkPeerProcessMessage_bitfield] at h
    simp only [msgBitfield,hbit,Bool.not_true,Bool.false_eq_true,if_false,hlen,ne_eq,not_true_eq_false] at h
    have hne : msgBitfieldId ≠ msgHaveId := by decide
    simpa only [noted,notedField,hid,hne,false_and,if_false,if_true] using h
  · rw [hid,networkPeerProcessMessage_haveall] at h
    simp only [msgHaveFill,hbit,Bool.not_true,Bool.false_eq_true,if_false] at h
    have hne : msgHaveallId ≠ msgHaveId ∧ msgHaveallId ≠ msgBitfieldId := by decide
    simpa only [noted,notedField,hid,hne.1,hne.2,false_and,if_false,if_true] using h
  · rw [hid,networkPeerProcessMessage_havenone] at h
    simp only [msgHaveFill,hbit,Bool.not_true,Bool.false_eq_true,if_false] at h
    have hne : msgHavenoneId ≠ msgHaveId ∧ msgHavenoneId ≠ msgBitfieldId ∧ msgHavenoneId ≠ msgHaveallId := by decide
    simpa only [noted,notedField,hid,hne.1,hne.2.1,hne.2.2,false_and,if_false] using h

/-- The first bit field, in front of the test for interest. -/
theorem length_notedField (hacc : AcceptsPieces env s p msg) (hnone : (s.peer p).bitfield = none) :
    (notedField env s p msg).length = bitfieldLen s.tp.numPieces := by
  unfold notedField
  rcases hacc with ⟨hid,-⟩ | ⟨-,⟨hid,hlen⟩ | hid | hid⟩
  · rw [if_pos hid,length_setBitAt,hnone,Option.getD_none,List.length_replicate]
  · rw [hid,if_neg (by decide),if_pos rfl,List.length_drop]
    exact hlen
  · rw [hid,if_neg (by decide),if_neg (by decide),List.length_replicate]
  · rw [hid,if_neg (by decide),if_neg (by decide),List.length_replicate]

theorem indexRefused_eq (hn : 0 < s.tp.numPieces) (idx : ℕ) : indexRefused s idx = decide (¬ idx < s.tp.numPieces) := by
  simp only [indexRefused,decide_eq_decide,gt_sub32_one s.tp.numPieces_lt hn]
  omega

/-- What an accepted message leaves in the bit field is the set of the pieces announced. -/
theorem tracks_noted (hn : 0 < s.tp.numPieces) (h : Tracks s.tp.numPieces (s.peer p) a)
    (hacc : AcceptsPieces env s p msg)
    (hlen : (s.peer p).bitfield = none → bitfieldLen s.tp.numPieces = (s.tp.numPieces + 7) / 8) :
    Tracks s.tp.numPieces ((noted env s p msg).peer p) (announcedStep s.tp.numPieces a (env,msg)) := by
  have hinstall : ∀ {bf : Bytes} {S : ℕ → Bool}, bf.length = (s.tp.numPieces + 7) / 8 →
      (∀ i < s.tp.numPieces, bitAt bf i = S i) → Tracks s.tp.numPieces ((installBitfield s p bf).peer p) (some S) := by
    intro bf S hbf hbits
    exact .known (by simp [installBitfield]) hbf hbits (by simp [installBitfield]) (by simp [installBitfield])
  unfold announcedStep noted notedField
  dsimp only
  rcases hacc with ⟨hid,hidx⟩ | ⟨hbit,hacc⟩
  · rw [indexRefused_eq hn] at hidx
    have hidx : msgField env msg 1 < s.tp.numPieces := not_not.mp (of_decide_eq_false hidx)
    rw [if_pos hid,if_pos hid,if_pos hidx]
    cases h with
    | unknown hbf hb he =>
      rw [hbf,Option.getD_none,if_neg (by simp),hlen hbf]
      apply hinstall
      · rw [length_setBitAt,List.length_replicate]
      · intro i _
        rw [bitAt_setBitAt (by rw [List.length_replicate]; omega),bitAt_zeros]
        rfl
    | @known bf S hbf hfull hbits hb he =>
      rw [hbf,Option.getD_some,if_pos ⟨hid,rfl⟩]
      refine .known (?_ : _ = some (setBitAt bf (msgField env msg 1))) ?_ ?_ ?_ ?_
      · simp
      · rw [length_setBitAt,hfull]
      · intro i hi
        rw [bitAt_setBitAt (by omega),hbits i hi]
        rfl
      · simpa using hb
      · simpa using he
  · cases h with
    | known hbf hfull hbits hb he => exact absurd (hbit.symm.trans hb) (by decide)
    | unknown hbf hb he =>
      rw [hbf,hlen hbf]
      rcases hacc with ⟨hid,hsize⟩ | hid | hid
      · rw [hlen hbf] at hsize
        have hne : msgBitfieldId ≠ msgHaveId := by decide
        simp only [hid,hne,false_and,if_false,if_true,Option.isSome_none,Bool.false_eq_true,hsize]
        exact hinstall (by rw [List.length_drop,hsize]) (fun i _ => rfl)
      · have hne : msgHaveallId ≠ msgHaveId ∧ msgHaveallId ≠ msgBitfieldId := by decide
        simp only [hid,hne.1,hne.2,false_and,if_false,if_true,Option.isSome_none,Bool.false_eq_true]
        exact hinstall List.length_replicate (fun i hi => bitAt_ones (by omega))
      · have hne : msgHavenoneId ≠ msgHaveId ∧ msgHavenoneId ≠ msgBitfieldId ∧ msgHavenoneId ≠ msgHaveallId := by decide
        simp only [hid,hne.1,hne.2.1,hne.2.2,false_and,if_false,if_true,Option.isSome_none,Bool.false_eq_true]
        exact hinstall List.length_replicate (fun i _ => bitAt_zeros _ i)

/-- A message about pieces that is not accepted changes nothing, or kills its sender. -/
theorem message_refused (hn : 0 < s.tp.numPieces) (hkind : TellsPieces msg) (h : Tracks s.tp.numPieces (s.peer p) a)
    (hacc : ¬ AcceptsPieces env s p msg) :
    networkPeerProcessMessage sha1 env s p (msg.headD 0) msg = .ok s ∧ announcedStep s.tp.numPieces a (env,msg) = a ∨
      networkPeerProcessMessage sha1 env s p (msg.headD 0) msg = .ok (killPeer s p) := by
  rw [AcceptsPieces,not_or,not_and,not_and] at hacc
  unfold announcedStep
  dsimp only
  by_cases hid : msg.headD 0 = msgHaveId
  · have hidx := hacc.1 hid
    rw [Bool.not_eq_false] at hidx
    rw [if_pos hid,hid,networkPeerProcessMessage_have]
    simp only [msgHave,hidx,if_true]
    rw [indexRefused_eq hn] at hidx
    rw [if_neg (of_decide_eq_true hidx)]
    exact .inl ⟨trivial,rfl⟩
  have hkind := hkind.resolve_left hid
  rw [if_neg hid]
  cases h with
  | known hbf hfull hbits hb he =>
    refine .inl ⟨?_,if_pos rfl⟩
    rcases hkind with hid | hid | hid
    · rw [hid,networkPeerProcessMessage_bitfield]
      simp only [msgBitfield,hb,Bool.not_false,if_true]
    · rw [hid,networkPeerProcessMessage_haveall]
      simp only [msgHaveFill,hb,Bool.not_false,if_true]
    · rw [hid,networkPeerProcessMessage_havenone]
      simp only [msgHaveFill,hb,Bool.not_false,if_true]
  | unknown hbf hb he =>
    obtain ⟨hsize,hfill⟩ := not_or.mp (hacc.2 hb)
    have hid := hkind.resolve_right hfill
    rw [not_and] at hsize
    rw [hid,networkPeerProcessMessage_bitfield]
    simp only [msgBitfield,hb,Bool.not_true,Bool.false_eq_true,if_false,hsize hid,not_false_eq_true,if_true,ne_eq]
    exact .inr trivial

/-- A message about pieces keeps the bit field of its sender in step with what was announced,
or it kills its sender. -/
theorem tracks_message (hn : 0 < s.tp.numPieces) (hkind : TellsPieces msg) (h : Tracks s.tp.numPieces (s.peer p) a)
    (hs : networkPeerProcessMessage sha1 env s p (msg.headD 0) msg = .ok s') :
    s'.tp = s.tp ∧ (s' = killPeer s p ∨ Tracks s.tp.numPieces (s'.peer p)
      (announcedStep s.tp.numPieces a (env,msg))) := by
  by_cases hacc : AcceptsPieces env s p msg
  · have hmsg := message_noted hacc hs
    obtain ⟨htp,-,-,hself,-⟩ := noted_keeps env s p msg
    refine ⟨(congrArg Core.tp (core_expressInterest hmsg)).trans htp,.inr ?_⟩
    refine Tracks.congr (tracks_noted hn h hacc ?_) (track_expressInterest hmsg)
    intro hnone
    have hpos : 0 < bitfieldLen s.tp.numPieces := by
      rw [← length_notedField hacc hnone]
      refine List.length_pos_iff.mpr ?_
      intro hnil
      exact expressInterest_nil (hself.trans (congrArg some hnil)) (htp ▸ hn) hmsg
    exact bitfieldLen_eq s.tp.numPieces_lt hpos
  · rcases message_refused hn hkind h hacc with ⟨heq,hstep⟩ | heq
    · cases heq.symm.trans hs
      exact ⟨rfl,.inr (hstep.symm ▸ h)⟩
    · cases heq.symm.trans hs
      exact ⟨rfl,.inl rfl⟩

theorem dead_message (h : (s.peer p).state.dead = true)
    (hs : networkPeerProcessMessage sha1 env s p (msg.headD 0) msg = .ok s') : (s'.peer p).state.dead = true := by
  rcases calm_or_killed hs with hcalm | rfl
  · rw [hcalm.dead,h]
  · simp [killPeer,Session.setState,PeerState.deadOnly]

theorem dead_messages {msgs : List (Env × Bytes)} (h : (s.peer p).state.dead = true)
    (hs : processMessages sha1 p s msgs = .ok s') : (s'.peer p).state.dead = true := by
  induction msgs generalizing s with
  | nil =>
    cases hs
    exact h
  | cons m msgs ih =>
    rw [processMessages,List.foldlM_cons,bind_ok] at hs
    obtain ⟨t,ht,hs⟩ := hs
    exact ih (dead_message h ht) hs

/-- The fold of the handlers over a sequence of messages follows the fold of the sets. -/
theorem tracks_messages {msgs : List (Env × Bytes)} (hn : 0 < s.tp.numPieces) (hkinds : ∀ m ∈ msgs, TellsPieces m.2)
    (h : Tracks s.tp.numPieces (s.peer p) a) (hs : processMessages sha1 p s msgs = .ok s')
    (hlive : (s'.peer p).state.dead = false) :
    Tracks s.tp.numPieces (s'.peer p) (msgs.foldl (announcedStep s.tp.numPieces) a) := by
  induction msgs generalizing s a with
  | nil =>
    cases hs
    exact h
  | cons m msgs ih =>
    rw [processMessages,List.foldlM_cons,bind_ok] at hs
    obtain ⟨t,ht,hs⟩ := hs
    obtain ⟨htp,rfl | htracks⟩ := tracks_message hn (hkinds m List.mem_cons_self) h ht
    · have hdead := dead_messages (by simp [killPeer,Session.setState,PeerState.deadOnly]) hs
      rw [hlive] at hdead
      cases hdead
    · rw [← htp] at hn htracks ⊢
      exact ih hn (fun m' hm' => hkinds m' (List.mem_cons_of_mem _ hm')) htracks hs

end Tracking

/-- A peer right after its handshake. -/
structure PastHandshake (q : Peer) : Prop where
  bitfield : q.bitfield = none
  expects : q.state.bitfield = true
  notEstablished : q.state.established = false

/-- The bit field of a peer stands for what it has announced. -/
structure Reflects (n : ℕ) (a : Option (ℕ → Bool)) (q : Peer) : Prop where
  unknown : q.bitfield = none ↔ a = none
  established : q.state.established = true ↔ q.bitfield ≠ none
  field : ∀ bf, q.bitfield = some bf → bf.length = (n + 7) / 8 ∧
    ∃ S, a = some S ∧ ∀ i < n, utilGetbit bf i = .ok (S i)

theorem Tracks.reflects {n : ℕ} {q : Peer} {a : Option (ℕ → Bool)} (h : Tracks n q a) : Reflects n a q := by
  cases h with
  | unknown hbf hb he =>
    refine ⟨by simp [hbf],by simp [hbf,he],?_⟩
    intro bf h
    rw [hbf] at h
    cases h
  | @known bf S hbf hlen hbits hb he =>
    refine ⟨by simp [hbf],by simp [hbf,he],?_⟩
    intro bf' h
    rw [hbf] at h
    cases h
    refine ⟨hlen,S,rfl,?_⟩
    intro i hi
    rw [utilGetbit_eq (by omega),hbits i hi]

section Next
variable {sha1 : Bytes → Bytes} {env : Env} {s : Session} {p : PeerId} {msg : Bytes} {a : Option (ℕ → Bool)}

theorem tells_tp {s' : Session} (hkind : TellsPieces msg)
    (hs : networkPeerProcessMessage sha1 env s p (msg.headD 0) msg = .ok s') : s'.tp = s.tp := by
  rcases hkind with hid | hid | hid | hid
  · rw [hid,networkPeerProcessMessage_have] at hs
    exact congrArg Core.tp (core_msgHave hs)
  · rw [hid,networkPeerProcessMessage_bitfield] at hs
    exact congrArg Core.tp (core_msgBitfield hs)
  · rw [hid,networkPeerProcessMessage_haveall] at hs
    exact congrArg Core.tp (core_msgHaveFill hs)
  · rw [hid,networkPeerProcessMessage_havenone] at hs
    exact congrArg Core.tp (core_msgHaveFill hs)

theorem processMessages_tp {s' : Session} {msgs : List (Env × Bytes)} (hkinds : ∀ m ∈ msgs, TellsPieces m.2)
    (hs : processMessages sha1 p s msgs = .ok s') : s'.tp = s.tp := by
  induction msgs generalizing s with
  | nil =>
    cases hs
    rfl
  | cons m msgs ih =>
    rw [processMessages,List.foldlM_cons,bind_ok] at hs
    obtain ⟨t,ht,hs⟩ := hs
    have htp := ih (fun m' hm' => hkinds m' (List.mem_cons_of_mem _ hm')) hs
    exact htp.trans (tells_tp (hkinds m List.mem_cons_self) ht)

/-- Nothing halts the program before an accepted message is noted. -/
theorem message_accepted (hn : 0 < s.tp.numPieces) (h : Tracks s.tp.numPieces (s.peer p) a)
    (hacc : AcceptsPieces env s p msg)
    (hlen : bitfieldLen s.tp.numPieces = (s.tp.numPieces + 7) / 8) :
    networkPeerProcessMessage sha1 env s p (msg.headD 0) msg = expressInterest env (noted env s p msg) p := by
  rcases hacc with ⟨hid,hidx⟩ | ⟨hbit,⟨hid,hsize⟩ | hid | hid⟩
  · rw [hid,networkPeerProcessMessage_have]
    simp only [msgHave,hidx,Bool.false_eq_true,if_false,noted,notedField,hid,if_true,true_and]
    rw [indexRefused_eq hn] at hidx
    have hidx : msgField env msg 1 < s.tp.numPieces := not_not.mp (of_decide_eq_false hidx)
    cases h with
    | unknown hbf hb he =>
      have hset : utilSetbit (List.replicate (bitfieldLen s.tp.numPieces) 0) (msgField env msg 1) =
          .ok (setBitAt (List.replicate (bitfieldLen s.tp.numPieces) 0) (msgField env msg 1)) :=
        utilSetbit_ok.mpr ⟨by rw [List.length_replicate,hlen]; omega,rfl⟩
      simp [hbf,installBitfield,hset,ok_bind]
    | @known bf S hbf hfull hbits hb he =>
      have hset : utilSetbit bf (msgField env msg 1) = .ok (setBitAt bf (msgField env msg 1)) :=
        utilSetbit_ok.mpr ⟨by omega,rfl⟩
      simp [hbf,hset,ok_bind]
  · rw [hid,networkPeerProcessMessage_bitfield]
    have hne : msgBitfieldId ≠ msgHaveId := by decide
    simp only [msgBitfield,hbit,Bool.not_true,Bool.false_eq_true,if_false,hsize,ne_eq,not_true_eq_false,
      noted,notedField,
      hid,hne,false_and,if_true]
  · rw [hid,networkPeerProcessMessage_haveall]
    have hne : msgHaveallId ≠ msgHaveId ∧ msgHaveallId ≠ msgBitfieldId := by decide
    simp only [msgHaveFill,hbit,Bool.not_true,Bool.false_eq_true,if_false,noted,notedField,hid,hne.1,
      hne.2,false_and,if_true]
  · rw [hid,networkPeerProcessMessage_havenone]
    have hne : msgHavenoneId ≠ msgHaveId ∧ msgHavenoneId ≠ msgBitfieldId ∧ msgHavenoneId ≠ msgHaveallId := by decide
    simp only [msgHaveFill,hbit,Bool.not_true,Bool.false_eq_true,if_false,noted,notedField,hid,hne.1,hne.2.1,hne.2.2,
      false_and]

theorem message_ignored (hkind : TellsPieces msg) (hid : msg.headD 0 ≠ msgHaveId)
    (hb : (s.peer p).state.bitfield = false) :
    networkPeerProcessMessage sha1 env s p (msg.headD 0) msg = .ok s := by
  rcases hkind with h | h | h | h
  · exact (hid h).elim
  · rw [h,networkPeerProcessMessage_bitfield]
    simp only [msgBitfield,hb,Bool.not_false,if_true]
  · rw [h,networkPeerProcessMessage_haveall]
    simp only [msgHaveFill,hb,Bool.not_false,if_true]
  · rw [h,networkPeerProcessMessage_havenone]
    simp only [msgHaveFill,hb,Bool.not_false,if_true]

end Next

/-- After any messages about pieces a live peer's bit field stands for what they announce. The next one is
noted, if it is accepted, before interest is tested; once there is a bit field, none but HAVE changes anything. -/
def TracksAnnounced (sha1 : Bytes → Bytes) (p : PeerId) (s : Session) : Prop :=
  ∀ msgs, (∀ m ∈ msgs, TellsPieces m.2) → ∀ s', processMessages sha1 p s msgs = .ok s' →
    (s'.peer p).state.dead = false →
    Reflects s.tp.numPieces (announced s.tp.numPieces msgs) (s'.peer p) ∧ ∀ env msg, TellsPieces msg →
      (AcceptsPieces env s' p msg →
        networkPeerProcessMessage sha1 env s' p (msg.headD 0) msg = expressInterest env (noted env s' p msg) p ∧
        Reflects s.tp.numPieces (announced s.tp.numPieces (msgs ++ [(env,msg)])) ((noted env s' p msg).peer p)) ∧
      ((s'.peer p).bitfield ≠ none → msg.headD 0 ≠ msgHaveId →
        networkPeerProcessMessage sha1 env s' p (msg.headD 0) msg = .ok s')

/-- HAVEALL gets a bit field of the right size only if that size does not wrap. -/
theorem TracksAnnounced.few {sha1 : Bytes → Bytes} {p : PeerId} {s : Session} (h : TracksAnnounced sha1 p s)
    (hfresh : PastHandshake (s.peer p)) (hlive : (s.peer p).state.dead = false) : s.tp.numPieces < 4294967289 := by
  have hacc : AcceptsPieces (.plain 0) s p [msgHaveallId] := .inr ⟨hfresh.expects,.inr (.inl rfl)⟩
  obtain ⟨-,hnext⟩ := h [] (List.forall_mem_nil _) s rfl hlive
  obtain ⟨-,-,-,hself,-⟩ := noted_keeps (.plain 0) s p [msgHaveallId]
  have hlen := (((hnext (.plain 0) [msgHaveallId] (.inr (.inr (.inl rfl)))).1 hacc).2.field _ hself).1
  rw [length_notedField hacc hfresh.bitfield] at hlen
  exact (bitfieldLen_eq_iff s.tp.numPieces_lt).mp hlen

/-- This is so exactly if the size of a bit field does not wrap. -/
theorem bitfield_tracks_announced_iff (sha1 : Bytes → Bytes) (p : PeerId) (s : Session) (hn : 1 ≤ s.tp.numPieces)
    (hfresh : PastHandshake (s.peer p)) (hlive : (s.peer p).state.dead = false) :
    TracksAnnounced sha1 p s ↔ s.tp.numPieces < 4294967289 := by
  constructor
  · exact fun h => h.few hfresh hlive
  · intro hfew msgs hkinds s' hs' hlive'
    have htp := processMessages_tp hkinds hs'
    have htracks : Tracks s.tp.numPieces (s'.peer p) (announced s.tp.numPieces msgs) :=
      tracks_messages hn hkinds (.unknown hfresh.bitfield hfresh.expects hfresh.notEstablished) hs' hlive'
    refine ⟨htracks.reflects,?_⟩
    intro env msg hkind
    rw [← htp] at hn hfew htracks ⊢
    have hfull := (bitfieldLen_eq_iff s'.tp.numPieces_lt).mpr hfew
    constructor
    · intro hacc
      refine ⟨message_accepted hn htracks hacc hfull,?_⟩
      rw [announced,List.foldl_append,List.foldl_cons,List.foldl_nil]
      exact (tracks_noted hn htracks hacc fun _ => hfull).reflects
    · intro hsome hid
      refine message_ignored hkind hid ?_
      generalize announced s'.tp.numPieces msgs = a at htracks
      cases htracks with
      | unknown hbf hb he => exact absurd hbf hsome
      | known hbf hlen hbits hb he => exact hb

/-- Of the most pieces there can be, a peer cannot announce any: the bit field it would get has no bytes. -/
theorem most_pieces_untracked : ∃ s, Reachable sha1ZeroByte (.many 4294967295) s ∧ 1 ≤ s.tp.numPieces ∧
    PastHandshake (s.peer 0) ∧ (s.peer 0).state.dead = false ∧
    bitfieldLen s.tp.numPieces = 0 ∧ ¬ TracksAnnounced sha1ZeroByte 0 s := by
  obtain ⟨s,msg,hs,hblank,-,hshaken⟩ := @many_shaken (List PieceDlIdxnode) _ 4294967295 sha1ZeroByte (by decide)
  have hnum : (s.lone .empty (.shaken 1000) [(0,msg)]).tp.numPieces = 4294967295 := hblank.numPieces
  have hpeer := lone_peer s .empty (.shaken 1000) [(0,msg)]
  have hfresh : PastHandshake ((s.lone .empty (.shaken 1000) [(0,msg)]).peer 0) := by
    rw [hpeer]
    exact ⟨rfl,rfl,rfl⟩
  have hlive : ((s.lone .empty (.shaken 1000) [(0,msg)]).peer 0).state.dead = false := by rw [hpeer]; rfl
  refine ⟨s.lone .empty (.shaken 1000) [(0,msg)],⟨shakeRun,?_⟩,?_,hfresh,hlive,?_,?_⟩
  · rw [Boot.run,show (Boot.many 4294967295).session sha1ZeroByte = .ok s from hs,ok_bind,hshaken]
  · rw [hnum]
    decide
  · rw [hnum]
    decide
  · intro h
    have hfew := h.few hfresh hlive
    rw [hnum] at hfew
    exact absurd hfew (by decide)

def announcements : List (Env × Bytes) := [(.plain 1000,[msgBitfieldId,0x80]),(.plain 1000,[msgHaveId,0,0,0,0])]

theorem bitfield_tracks_announced_twice : ∃ s s', Reachable sha1ZeroByte (.oneByte (List.replicate 20 0) 1) s ∧
    TracksAnnounced sha1ZeroByte 0 s ∧ processMessages sha1ZeroByte 0 s announcements = .ok s' ∧
    (s'.peer 0).bitfield = some [0x80] ∧ Reflects 1 (announced 1 announcements) (s'.peer 0) := by
  have hrun : ((Boot.oneByte (List.replicate 20 0) 1).run sha1ZeroByte
      ((.plain 1000,.accept 1) :: inputs 1000 0 handshakePortions)).toOption.map
      (fun s => decide (s.tp.numPieces = 1 ∧ (s.peer 0).bitfield = none ∧ (s.peer 0).state.bitfield = true ∧
        (s.peer 0).state.established = false ∧ (s.peer 0).state.dead = false) &&
        ((processMessages sha1ZeroByte 0 s announcements).toOption.map
          (fun s => decide ((s.peer 0).bitfield = some [0x80] ∧ (s.peer 0).state.dead = false)) == some true)) =
              some true := by
    decide +kernel
  obtain ⟨s,hs,hP⟩ := exists_reachable hrun
  obtain ⟨hstate,hmsgs⟩ := Bool.and_eq_true_iff.mp hP
  obtain ⟨hn,hbf,hb,he,hlive⟩ := of_decide_eq_true hstate
  obtain ⟨s',hs',hafter⟩ := exists_ok (eq_of_beq hmsgs)
  obtain ⟨hbf',hlive'⟩ := of_decide_eq_true hafter
  have hkinds : ∀ m ∈ announcements, TellsPieces m.2 := by
    intro m hm
    simp only [announcements,List.mem_cons,List.not_mem_nil,or_false] at hm
    rcases hm with rfl | rfl
    · exact .inr (.inl rfl)
    · exact .inl rfl
  have htracks := (bitfield_tracks_announced_iff sha1ZeroByte 0 s (by omega) ⟨hbf,hb,he⟩ hlive).mpr (by omega)
  obtain ⟨hreflects,-⟩ := htracks announcements hkinds s' hs' hlive'
  rw [hn] at hreflects
  exact ⟨s,s',hs,htracks,hs',hbf',hreflects⟩

end Unworkable
