import Unworkable.Session.Truthful

/-! # What one instance records for another

A message about pieces stays true once it has been written, as pieces stay verified. So whatever the order in which two
connected instances write and read, neither ever records a piece for the other that the other has not verified, also
where it misses one that the other has.
-/
namespace Unworkable
open Library

/-- What the message says about pieces is so when those of `V` are verified. -/
def WireMsg.Holds (n : ℕ) (V : Finset ℕ) : WireMsg → Prop
  | haves idx => idx ∈ V
  | bitfield bits => ∀ i < n, bitAt bits i = true → i ∈ V
  | haveall => ∀ i < n, i ∈ V
  | _ => True

section Words
variable {n : ℕ} {V V' : Finset ℕ} {m m' : WireMsg} {msgs : List WireMsg}

theorem WireMsg.Holds.mono (h : m.Holds n V) (hV : V ⊆ V') : m.Holds n V' := by
  cases m with
  | haves idx => exact hV h
  | bitfield bits => exact fun i hi hbit => hV (h i hi hbit)
  | haveall => exact fun i hi => hV (h i hi)
  | _ => trivial

theorem holds_of_silent (h : m.silent = true) : m.Holds n V := by
  cases m with
  | haves idx => cases h
  | bitfield bits => cases h
  | haveall => cases h
  | _ => trivial

/-- Messages with the same bytes have the same id and fields. -/
theorem body_of_bytes (h : m.bytes = m'.bytes) : m.body = m'.body := by
  unfold WireMsg.bytes at h
  cases hb : m.body with
  | none =>
    cases hb' : m'.body with
    | none => rfl
    | some body =>
      have hlen := congrArg List.length h
      simp [hb,hb',message,length_be32] at hlen
  | some body =>
    cases hb' : m'.body with
    | none =>
      have hlen := congrArg List.length h
      simp [hb,hb',message,length_be32] at hlen
    | some body' =>
      simp only [hb,hb',message] at h
      obtain ⟨hid,hfields⟩ := List.cons.inj (List.append_inj h rfl).2
      rw [Prod.ext hid hfields]

theorem be32_inj {i j : ℕ} (hi : i < 4294967296) (hj : j < 4294967296) (h : be32 i = be32 j) : i = j := by
  have hread : ∀ {k : ℕ}, k < 4294967296 → msgField (.plain 0) (0 :: (be32 k ++ [])) 1 = k :=
    fun hk => msgField_first 0 [] hk
  rw [← hread hi,h,hread hj]

/-- A message about pieces has no silent one's bytes. -/
theorem silent_of_bytes (h : m.bytes = m'.bytes) (hm : ∀ idx, m = .haves idx → idx < 4294967296)
    (hm' : m'.silent = true) :
    m.silent = true := by
  by_contra hloud
  have hloud : m.silent = false := Bool.eq_false_iff.mpr hloud
  cases hb : m.body with
  | none =>
    obtain rfl : m = .keepalive := by
      cases m <;> first | rfl | cases hb
    cases hloud
  | some body =>
    have htells := (announcedStep_body (n := 0) (a := none) (.plain 0) hb hloud hm).1
    exact not_tellsPieces_of_silent ((body_of_bytes h).symm.trans hb) hm' htells

/-- A message about pieces is read off its bytes. -/
theorem eq_of_bytes (h : m.bytes = m'.bytes) (hm : ∀ idx, m = .haves idx → idx < 4294967296) (hloud : m.silent = false)
    (hm' : ∀ idx, m' = .haves idx → idx < 4294967296) (hloud' : m'.silent = false) : m = m' := by
  have hbody := body_of_bytes h
  cases m with
  | haves i =>
    cases m' with
    | haves j =>
      have hfields : be32 i = be32 j := congrArg Prod.snd (Option.some.inj hbody)
      rw [be32_inj (hm i rfl) (hm' j rfl) hfields]
    | bitfield _ => simp [WireMsg.body,msgHaveId,msgBitfieldId] at hbody
    | haveall => simp [WireMsg.body,msgHaveId,msgHaveallId] at hbody
    | havenone => simp [WireMsg.body,msgHaveId,msgHavenoneId] at hbody
    | _ => cases hloud'
  | bitfield bits =>
    cases m' with
    | haves _ => simp [WireMsg.body,msgHaveId,msgBitfieldId] at hbody
    | bitfield bits' => rw [show bits = bits' from congrArg Prod.snd (Option.some.inj hbody)]
    | haveall => simp [WireMsg.body,msgBitfieldId,msgHaveallId] at hbody
    | havenone => simp [WireMsg.body,msgBitfieldId,msgHavenoneId] at hbody
    | _ => cases hloud'
  | haveall =>
    cases m' with
    | haves _ => simp [WireMsg.body,msgHaveallId,msgHaveId] at hbody
    | bitfield _ => simp [WireMsg.body,msgHaveallId,msgBitfieldId] at hbody
    | haveall => rfl
    | havenone => simp [WireMsg.body,msgHaveallId,msgHavenoneId] at hbody
    | _ => cases hloud'
  | havenone =>
    cases m' with
    | haves _ => simp [WireMsg.body,msgHavenoneId,msgHaveId] at hbody
    | bitfield _ => simp [WireMsg.body,msgHavenoneId,msgBitfieldId] at hbody
    | haveall => simp [WireMsg.body,msgHavenoneId,msgHaveallId] at hbody
    | havenone => rfl
    | _ => cases hloud'
  | _ => cases hloud

/-- No message about pieces looks like a handshake. -/
theorem silent_of_handshake {infoHash peerid : Bytes} (h : handshakeBytes infoHash peerid = m.bytes)
    (hm : ∀ idx, m = .haves idx → idx < 4294967296) : m.silent = true := by
  by_contra hloud
  have hloud : m.silent = false := Bool.eq_false_iff.mpr hloud
  cases hb : m.body with
  | none =>
    obtain rfl : m = .keepalive := by
      cases m <;> first | rfl | cases hb
    cases hloud
  | some body =>
    obtain ⟨id,fields⟩ := body
    have hid : (handshakeBytes infoHash peerid)[4]? = some id := by
      rw [h]
      exact getElem_bytes hb
    obtain rfl : 0x54 = id := Option.some.inj hid
    have hnot : ¬ ((0x54 : UInt8) = msgHaveId ∨ (0x54 : UInt8) = msgBitfieldId ∨ (0x54 : UInt8) = msgHaveallId ∨
      (0x54 : UInt8) = msgHavenoneId) := by decide
    exact hnot (announcedStep_body (n := 0) (a := none) (.plain 0) hb hloud hm).1

/-- Whatever is known from messages that hold is so. -/
theorem told_holds (h : ∀ m ∈ msgs, m.Holds n V) {S : ℕ → Bool} (hS : told n msgs = some S) {i : ℕ} (hi : i < n)
    (hset : S i = true) : i ∈ V := by
  induction msgs using List.reverseRecOn generalizing S with
  | nil => cases hS
  | append_singleton msgs m ih =>
    have hall : ∀ m ∈ msgs, m.Holds n V := fun m' hm' => h m' (List.mem_append_left _ hm')
    have hm : m.Holds n V := h m (by simp)
    rw [told_append,List.foldl_cons,List.foldl_nil] at hS
    cases hbefore : told n msgs with
    | none =>
      rw [hbefore] at hS
      cases m with
      | haves idx =>
        simp only [WireMsg.tell] at hS
        split at hS
        · cases hS
          obtain rfl : i = idx := by simpa using hset
          exact hm
        · cases hS
      | bitfield bits =>
        simp only [WireMsg.tell,Option.isSome_none,Bool.false_eq_true,if_false] at hS
        split at hS
        · cases hS
          exact hm i hi hset
        · cases hS
      | haveall =>
        exact hm i hi
      | havenone =>
        cases hS
        cases hset
      | _ => cases hS
    | some T =>
      rw [hbefore] at hS
      cases m with
      | haves idx =>
        simp only [WireMsg.tell] at hS
        split at hS
        · cases hS
          rcases Bool.or_eq_true_iff.mp hset with heq | hold
          · obtain rfl : i = idx := of_decide_eq_true heq
            exact hm
          · exact ih hall hbefore hold
        · cases hS
          exact ih hall hbefore hset
      | _ =>
        cases hS
        exact ih hall hbefore hset

/-- What is true when it is written holds of the pieces that are verified then. -/
theorem Utterance.holds {mi : Metainfo} {peerid : Bytes} {W V : Finset ℕ} {U : PeerId → Prop} {q : PeerId} {msg : Bytes}
    (h : Utterance mi peerid W V U q msg) (hV : V ⊆ Finset.range mi.numPieces) (hm : Sendable m)
    (hmsg : msg = m.bytes) :
    m.Holds mi.numPieces V := by
  cases hsilent : m.silent with
  | true => exact holds_of_silent hsilent
  | false =>
    have hsame : ∀ {m' : WireMsg}, m'.bytes = m.bytes → (∀ idx, m' = .haves idx → idx < 4294967296) →
        m'.Holds mi.numPieces V → m.Holds mi.numPieces V := by
      intro m' heq hidx hholds
      cases hs : m'.silent with
      | true =>
        rw [silent_of_bytes heq.symm hm.2 hs] at hsilent
        cases hsilent
      | false =>
        rw [eq_of_bytes heq.symm hm.2 hsilent hidx hs]
        exact hholds
    cases h with
    | handshake =>
      rw [silent_of_handshake hmsg hm.2] at hsilent
      cases hsilent
    | keepalive => exact hsame hmsg nofun trivial
    | choke => exact hsame hmsg nofun trivial
    | unchoke => exact hsame hmsg nofun trivial
    | interested => exact hsame hmsg nofun trivial
    | request _ _ _ _ => exact hsame hmsg nofun trivial
    | reject _ _ => exact hsame hmsg nofun trivial
    | piece _ => exact hsame hmsg nofun trivial
    | @haves idx hidx hnew =>
      refine hsame hmsg ?_ hidx
      rintro i ⟨rfl⟩
      exact (Finset.mem_range.mp (hV hidx)).trans mi.numPieces_lt
    | bitfield hlen hbits => exact hsame hmsg nofun fun i hi hbit => (hbits i hi).mp hbit
    | haveall hall => exact hsame hmsg nofun hall
    | havenone hnone => exact hsame hmsg nofun trivial

end Words

section Runs
variable {sha1 : Bytes → Bytes} {b bA bB : Boot} {s : Session} {pa pb : PeerId} {x x₀ : Pair} {es : List PairEvent}

/-- What has ever been written about pieces is so. -/
theorem Reachable.holds (h : Reachable sha1 b s) : ∀ e ∈ s.out, ∀ m, Sendable m → e.2 = m.bytes →
    m.Holds s.tp.numPieces s.tp.verified := by
  refine h.rule (I := fun s => ∀ e ∈ s.out, ∀ m, Sendable m → e.2 = m.bytes → m.Holds s.tp.numPieces s.tp.verified)
    (fun tp _ => nofun) ?_
  intro s e s' hs hall hstep e' he' m hm hbytes
  have hspoken := step_spoken hs hstep
  obtain ⟨more,hout,htrue,-⟩ := hspoken.out
  have hnum : s'.tp.numPieces = s.tp.numPieces := by rw [Torrent.numPieces,hspoken.mi,Torrent.numPieces]
  rw [hout] at he'
  rcases List.mem_append.mp he' with hold | hnew
  · rw [hnum]
    exact (hall e' hold m hm hbytes).mono hspoken.grows
  · exact (htrue e' hnew).holds s'.tp.verified_subset hm hbytes

/-- Each of the two instances has the other on its list, alive. -/
structure Pair.Linked (pa pb : PeerId) (x : Pair) : Prop where
  memA : pa ∈ x.a.peers
  memB : pb ∈ x.b.peers
  aliveA : (x.a.peer pa).state.dead = false
  aliveB : (x.b.peer pb).state.dead = false

/-- Whatever two instances of a torrent do and however their messages are delivered, as long as both hold on to their
connection each piece that one records for the other is one that the other has verified. -/
theorem records_true (sha1 : Bytes → Bytes) (bA bB : Boot) (pa pb : PeerId) (x₀ x : Pair) (es : List PairEvent)
    (hmi : bA.mi = bB.mi) (hidA : bA.peerid.length = 20) (hidB : bB.peerid.length = 20)
    (hstart : Pair.start sha1 bA bB = .ok x₀) (hrun : x₀.run sha1 pa pb es = .ok x) (hx : x.Linked pa pb) :
    ∀ i < x.a.tp.numPieces, Announces (x.b.peer pb).bitfield i → (x.a.tp.piece i).cksumok = true := by
  obtain ⟨kept,hsound,-⟩ := (pair_start_sound hidA hidB hstart).run hmi hrun
  have hlive : ∀ {s : Session} {r : PeerId}, Gone s r → r ∈ s.peers → (s.peer r).state.dead = true :=
    fun hgone hr => (hgone.2.resolve_left (not_not.mpr hr)).dead
  intro i hi hannounced
  cases hsound with
  | lostA _ hgone =>
    have hdead := hlive hgone hx.memA
    rw [hx.aliveA] at hdead
    cases hdead
  | lostB _ hgone =>
    have hdead := hlive hgone hx.memB
    rw [hx.aliveB] at hdead
    cases hdead
  | talking ha hb h =>
    obtain ⟨msgs,rfl,hlineA⟩ := h.a.line_of_mem ha.census.1 hx.memA
    obtain ⟨_,rfl,hlineB⟩ := h.b.line_of_mem hb.census.1 hx.memB
    have hnum : x.b.tp.numPieces = x.a.tp.numPieces := by
      rw [Torrent.numPieces,hb.sound.2,← hmi,← ha.sound.2]
      rfl
    rcases Nat.eq_zero_or_pos x.toB with hzero | hpos
    · -- nothing has been read from the other instance yet
      obtain ⟨bf,hbf,-⟩ := hannounced
      have htrack : (x.b.peer pb).bitfield = none := congrArg Prod.fst (hlineB.fresh hzero).2
      rw [htrack] at hbf
      cases hbf
    · obtain ⟨msgs',heq,-,htracks⟩ := h.known hpos
      cases heq
      have htracks := htracks (by rw [hnum]; exact Nat.zero_lt_of_lt hi)
      rw [hnum] at htracks
      obtain ⟨peerid,-,hstream⟩ := hlineA.stream
      have hall : ∀ m ∈ msgs.take (x.toB - 1), m.Holds x.a.tp.numPieces x.a.tp.verified := by
        intro m hm
        have hmem : m ∈ msgs := List.mem_of_mem_take hm
        have hwritten : m.bytes ∈ x.a.stream pa := by
          rw [hstream]
          exact List.mem_cons_of_mem _ (List.mem_map_of_mem hmem)
        obtain ⟨e,he,hbytes⟩ := List.mem_map.mp hwritten
        exact ha.holds e (List.mem_filter.mp he).1 m (hlineA.sendable m hmem) hbytes
      have htold := (htracks.announces hi).mp hannounced
      cases hsaid : told x.a.tp.numPieces (msgs.take (x.toB - 1)) with
      | none =>
        rw [hsaid] at htold
        cases htold
      | some S =>
        rw [hsaid] at htold
        exact (Torrent.mem_verified.mp (told_holds hall hsaid hi htold)).2

/-- Of two pieces of the first instance the second knows of one, which it heard of before the bit field came. -/
theorem records_true_late : ∃ x₀ x, Pair.start sha1ZeroByte .oneOfTwo .noneOfTwo = .ok x₀ ∧
    x₀.run sha1ZeroByte 1 0 (offerRun ++ connectRun ++ pieceRun ++ greetRun ++ tellRun) = .ok x ∧
    (x.b.peer 0).bitfield = some [0x40] ∧ x.a.tp.verified = {0,1} ∧
    ∀ i < x.a.tp.numPieces, Announces (x.b.peer 0).bitfield i → (x.a.tp.piece i).cksumok = true := by
  obtain ⟨x₀,x,hstart,hrun,hP⟩ := exists_run sha1ZeroByte .oneOfTwo .noneOfTwo 1 0
    (offerRun ++ connectRun ++ pieceRun ++ greetRun ++ tellRun)
    (fun _ x => decide ((1 ∈ x.a.peers ∧ 0 ∈ x.b.peers ∧ (x.a.peer 1).state.dead = false ∧
      (x.b.peer 0).state.dead = false) ∧
      (x.b.peer 0).bitfield = some [0x40] ∧ x.a.tp.verified = {0,1})) (by decide +kernel)
  obtain ⟨⟨hmemA,hmemB,haliveA,haliveB⟩,hbf,hV⟩ := of_decide_eq_true hP
  exact ⟨x₀,x,hstart,hrun,hbf,hV,records_true sha1ZeroByte .oneOfTwo .noneOfTwo 1 0 x₀ x _ rfl rfl rfl hstart hrun
    ⟨hmemA,hmemB,haliveA,haliveB⟩⟩

end Runs

end Unworkable
