import Unworkable.Session.QueueLength

/-! # Received blocks and completed pieces

A block is received when one of its requests has as many bytes as it asked for. The bytes of
a delivery are added to those the request has, so that a second delivery undoes the first,
and the test whether a piece is complete looks at each block through the sender's lookup,
which may show the sender's own pending request in place of a completed one.
-/
namespace Unworkable
open Library

/-- The block at `(idx, off)` has a completed request. -/
def DlStore.Recorded (st : DlStore) (idx off : ℕ) : Prop :=
  ∃ d pd, st.dl d = some pd ∧ pd.key = (idx,off) ∧ pd.bytes = pd.len

def DlStore.Keeps (st st' : DlStore) : Prop := ∀ idx off, st.Recorded idx off → st'.Recorded idx off

namespace DlStore
variable {st st' st'' : DlStore} {p : PeerId} {d : DlId}

theorem Keeps.refl (st : DlStore) : st.Keeps st := fun _ _ h => h

theorem Keeps.trans (h : st.Keeps st') (h' : st'.Keeps st'') : st.Keeps st'' :=
  fun idx off hr => h' idx off (h idx off hr)

/-- A change under which completed requests stay, up to their peer. -/
theorem keeps_of (h : ∀ e pd, st.dl e = some pd → pd.bytes = pd.len →
    ∃ pc, st'.dl e = some { pd with pc := pc }) : st.Keeps st' := by
  rintro idx off ⟨e,pd,he,hk,hb⟩
  obtain ⟨pc,he'⟩ := h e pd he hb
  exact ⟨e,{ pd with pc := pc },he',hk,hb⟩

theorem Wf.keeps_create (h : st.Wf) (p : PeerId) (idx off len : ℕ) :
    st.Keeps (networkPieceDlCreate st p idx off len).1 := by
  refine keeps_of ?_
  intro e pd he _
  exact ⟨pd.pc,h.create_dl_old p idx off len he⟩

theorem keeps_orphan : st.Keeps (orphan p st d) := by
  refine keeps_of ?_
  intro e pd he _
  rw [orphan_dl]
  split
  · rename_i hed
    rw [← hed,he]
    exact ⟨none,rfl⟩
  · exact ⟨pd.pc,he⟩

theorem keeps_recycle : st.Keeps (recycle p st d) := by
  refine keeps_of ?_
  intro e pd he _
  rw [recycle_dl]
  split
  · rename_i hed
    rw [← hed,he]
    exact ⟨some p,rfl⟩
  · exact ⟨pd.pc,he⟩

/-- Freeing a request that is outstanding. -/
theorem keeps_free (h : (st.get d).bytes ≠ (st.get d).len) : st.Keeps (networkPieceDlFree st d) := by
  refine keeps_of ?_
  intro e pd he hb
  rw [free_dl]
  split
  · rename_i hed
    rw [← hed,get_of_dl he] at h
    exact (h hb).elim
  · exact ⟨pd.pc,he⟩

theorem keeps_peerFreeDls : st.Keeps (peerFreeDls st p) := by
  refine foldl_rel (R := Keeps) Keeps.refl Keeps.trans (st.lists p) ?_ st
  intro st d _
  unfold freeTurn
  dsimp only
  split
  · rename_i hne
    exact keeps_orphan.trans (keeps_free (Ne.symm hne))
  · exact keeps_orphan

theorem keeps_foldl_orphan (l : List DlId) : st.Keeps (l.foldl (orphan p) st) :=
  foldl_rel (R := Keeps) Keeps.refl Keeps.trans l (fun _ _ _ => keeps_orphan) st

/-- The cleanup after a hash check leaves the other pieces alone. -/
theorem Wf.cleanup_recorded (h : st.Wf) {i j off : ℕ} (hij : j ≠ i) (offs : List ℕ) (hr : st.Recorded j off) :
    (offs.foldl (cleanupTurn i) st).Recorded j off := by
  induction offs generalizing st with
  | nil => exact hr
  | cons o rest ih =>
    rw [List.foldl_cons]
    cases hf : networkPieceDlFind st none i o with
    | none =>
      rw [show cleanupTurn i st o = st by simp [cleanupTurn,hf]]
      exact ih h hr
    | some d =>
      obtain ⟨pd,hpd,hk⟩ := h.find_some hf
      rw [show cleanupTurn i st o = networkPieceDlFree st d by simp [cleanupTurn,hf]]
      refine ih (h.free d) ?_
      obtain ⟨e,pe,he,hke,hbe⟩ := hr
      refine ⟨e,pe,?_,hke,hbe⟩
      rw [free_dl,if_neg]
      · exact he
      · rintro rfl
        cases hpd.symm.trans he
        exact hij (Prod.mk.inj (hke.symm.trans hk)).1

end DlStore

def Sized (pd : PieceDl) : Prop := 0 < pd.len ∧ pd.len ≤ blockSize ∧ pd.bytes < 4294967296

/-- The invariant of the ledger that concerns the bytes of requests. -/
structure Core.Metered (c : Core) : Prop where
  wf : c.store.Wf
  short : ∀ i, (c.tp.piece i).len < 4294967296
  sized : c.store.All Sized

namespace Core.Metered
variable {sha1 : Bytes → Bytes} {c c' : Core}

theorem sized_pc (pd : PieceDl) (pc : Option PeerId) (h : Sized pd) : Sized { pd with pc := pc } := h

theorem ask (h : c.Metered) {p : PeerId} (ha : Ask p c c') : c'.Metered := by
  cases ha with
  | @request idx off hp hidx hoff =>
    obtain ⟨hpos,hle⟩ := blockLen_pos_le (h.short idx) hoff
    exact ⟨h.wf.create p idx off _,h.short,h.sized.create ⟨hpos,hle,show 0 < 4294967296 by decide⟩⟩
  | @recycle d idx off hp hfind hpc hout =>
    obtain ⟨pd,hpd,-⟩ := h.wf.find_some hfind
    rw [DlStore.get_of_dl hpd] at hpc
    exact ⟨h.wf.recycle hpd hpc p,h.short,h.sized.recycle sized_pc⟩

theorem routine (h : c.Metered) (hmove : Routine sha1 c c') : c'.Metered := by
  cases hmove with
  | torrent htm => exact ⟨h.wf,htm.short h.short,h.sized⟩
  | ask p ha => exact h.ask ha
  | attend ha =>
    cases ha with
    | drop p => exact ⟨(h.wf.peerFreeDls p).1,h.short,h.sized.peerFreeDls sized_pc⟩
    | join => exact ⟨h.wf,h.short,h.sized⟩

theorem move (h : c.Metered) (hmove : Move sha1 c c') : c'.Metered := by
  cases hmove with
  | routine hr => exact h.routine hr
  | choke p => exact ⟨(h.wf.foldl_orphan p).1,h.short,h.sized.foldl_orphan sized_pc _⟩
  | @reject p d idx off hfind => exact ⟨h.wf.free d,h.short,h.sized.free d⟩
  | @deliver p d idx off data hidx hck hmap hfind hlen =>
    refine ⟨h.wf.set d (fun pd => ⟨rfl,rfl⟩),?_,h.sized.set ?_⟩
    · intro i
      simp only [Core.deliver,torrentBlockWrite_piece]
      exact h.short i
    · intro pd hpd
      exact ⟨(h.sized d pd hpd).1,(h.sized d pd hpd).2.1,wrap32_lt _⟩
  | @free d idx off hfind => exact ⟨h.wf.free d,h.short,h.sized.free d⟩

theorem moves (h : c.Metered) (hmoves : Moves sha1 c c') : c'.Metered := by
  induction hmoves with
  | refl => exact h
  | tail _ hmove ih => exact ih.move hmove

/-- The session a process starts with. -/
theorem session {b : Boot} {s : Session} (h : b.session sha1 = .ok s) : s.core.Metered := by
  obtain ⟨tp,htp,rfl⟩ := Boot.session_ok h
  have hshort := Boot.torrent_short htp
  exact ⟨DlStore.wf_empty,hshort,nofun⟩

end Core.Metered

theorem Reachable.metered {sha1 : Bytes → Bytes} {b : Boot} {s : Session} (h : Reachable sha1 b s) :
    s.core.Metered := by
  obtain ⟨es,hes⟩ := h
  obtain ⟨s₀,hs₀,hes⟩ := bind_ok.mp hes
  have hpeered : s₀.core.Peered := by
    obtain ⟨tp,-,rfl⟩ := Boot.session_ok hs₀
    exact initial_peered _ _ _ _ _
  exact (Core.Metered.session hs₀).moves (run_moves hpeered hes)

section Recording
variable {sha1 : Bytes → Bytes} {env : Env} {s t : Session} {p : PeerId} {idx off : ℕ} {data : Bytes} {d : DlId}

/-- What PIECE does with a block up to its completion loop: the queue length drops, the piece is
mapped, and the block is written and counted. -/
def recordBlock {ι : Type} [RbIndex ι] (s : Session ι) (p : PeerId) (idx off : ℕ) (data : Bytes) :
    Except Halt (Session ι) := do
  let s := s.setPeer p (fun q => { q with dlQueueLen := sub32 q.dlQueueLen 1 })
  let tp ← ensureMapped s.tp idx
  networkPeerReadPiece { s with tp := tp } p idx off data

theorem receiveBlock_eq {ι : Type} [RbIndex ι] {s : Session ι} : receiveBlock sha1 env s p idx off data = (do
    let t ← recordBlock s p idx off data
    let found ← everyBlock t.store p idx (t.tp.piece idx).len
    if found then checkPiece sha1 env t idx else .ok t) := by
  simp only [receiveBlock,recordBlock,bind_assoc]

/-- The bytes of the block are counted on the request that the lookup gives. -/
def countBytes (n : ℕ) (pd : PieceDl) : PieceDl := { pd with bytes := add32 pd.bytes n }

theorem recordBlock_ok (hfind : networkPieceDlFind s.store (some p) idx off = some d)
    (h : recordBlock s p idx off data = .ok t) :
    t.store = s.store.set d (countBytes data.length) ∧ (t.tp.piece idx).len = mappedLen s.tp idx := by
  unfold recordBlock at h
  obtain ⟨tp,hmap,h⟩ := bind_ok.mp h
  unfold networkPeerReadPiece at h
  obtain ⟨tpp,-,h⟩ := bind_ok.mp h
  simp only [Session.setPeer_store,hfind] at h
  cases h
  refine ⟨rfl,?_⟩
  rw [Session.setPeer_tp] at hmap
  simp [mappedLen,hmap]

/-- The completion loop finds every block, as the lookup of `p` shows it, complete. -/
theorem everyBlock_true {st : DlStore} {plen : ℕ} : everyBlock st p idx plen = .ok true ↔
    (∀ o ∈ blockOffs plen, ∃ e, networkPieceDlFind st (some p) idx o = some e ∧ (st.get e).bytes = (st.get e).len) ∧
      blockLoopWraps plen = false := by
  unfold everyBlock
  constructor
  · intro h
    split at h
    · rename_i hall
      split at h
      · cases h
      · rename_i hwraps
        refine ⟨?_,by simpa using hwraps⟩
        intro o ho
        have hblock := List.all_eq_true.mp hall o ho
        cases hf : networkPieceDlFind st (some p) idx o with
        | none => simp [hf] at hblock
        | some e => exact ⟨e,rfl,by simpa [hf,PieceDl.outstanding] using hblock⟩
    · cases h
  · rintro ⟨h,hwraps⟩
    rw [if_pos,if_neg (by simp [hwraps])]
    rw [List.all_eq_true]
    intro o ho
    obtain ⟨e,he,hb⟩ := h o ho
    simp [he,PieceDl.outstanding,hb]

/-- Counting a block completes a request exactly when it had no bytes. -/
theorem countBytes_complete {pd : PieceDl} (h : Sized pd) :
    (countBytes pd.len pd).bytes = (countBytes pd.len pd).len ↔ pd.bytes = 0 := by
  obtain ⟨-,hle,hlt⟩ := h
  simp only [countBytes,add32,wrap32]
  unfold blockSize at hle
  omega

/-- The block is seen as soon as it is received: where it has a completed request, the lookup of
`p` gives one. -/
def DlStore.Shows (st : DlStore) (p : PeerId) (idx off : ℕ) : Prop :=
  st.Recorded idx off → ∃ e, networkPieceDlFind st (some p) idx off = some e ∧ (st.get e).bytes = (st.get e).len

/-- Another request for the block than `d` is complete. -/
def DlStore.RecordedBeside (st : DlStore) (d : DlId) (idx off : ℕ) : Prop :=
  ∃ e pd, e ≠ d ∧ st.dl e = some pd ∧ pd.key = (idx,off) ∧ pd.bytes = pd.len

/-- If a block counted on request `d` leaves no block of the piece missing, then `p` is shown the
other blocks as they are, the request had no bytes before, and the loop over the blocks ends. -/
def CompletionSeen (s : Session) (p : PeerId) (idx off : ℕ) (d : DlId) : Prop :=
  (∀ o ∈ blockOffs (mappedLen s.tp idx), o ≠ off → s.store.Recorded idx o) →
  (off ∈ blockOffs (mappedLen s.tp idx) → (s.store.get d).bytes = 0 ∨ s.store.RecordedBeside d idx off) →
  (∀ o ∈ blockOffs (mappedLen s.tp idx), o ≠ off → s.store.Shows p idx o) ∧
    (off ∈ blockOffs (mappedLen s.tp idx) → (s.store.get d).bytes = 0) ∧ blockLoopWraps (mappedLen s.tp idx) = false

section Counted
variable {st : DlStore} {pd : PieceDl} (hwf : st.Wf) (hd : st.dl d = some pd) (hkey : pd.key = (idx,off))
  (hsized : Sized pd)
include hd

theorem set_countBytes_dl (e : DlId) : (st.set d (countBytes pd.len)).dl e =
    if e = d then some (countBytes pd.len pd) else st.dl e := by
  simp only [DlStore.set,Function.update_apply,hd,Option.map_some]

include hkey

/-- Counting a block leaves the other blocks alone. -/
theorem recorded_other {o : ℕ} (ho : o ≠ off) :
    (st.set d (countBytes pd.len)).Recorded idx o ↔ st.Recorded idx o := by
  have hne : ∀ e pe, st.dl e = some pe → pe.key = (idx,o) → e ≠ d := by
    rintro e pe he hk rfl
    cases hd.symm.trans he
    exact ho (Prod.mk.inj (hk.symm.trans hkey)).2
  constructor
  · rintro ⟨e,pe,he,hk,hb⟩
    rw [set_countBytes_dl hd] at he
    split at he
    · cases he
      exact (ho (Prod.mk.inj (hk.symm.trans hkey)).2).elim
    · exact ⟨e,pe,he,hk,hb⟩
  · rintro ⟨e,pe,he,hk,hb⟩
    refine ⟨e,pe,?_,hk,hb⟩
    rw [set_countBytes_dl hd,if_neg (hne e pe he hk)]
    exact he

include hsized

theorem recorded_self : (st.set d (countBytes pd.len)).Recorded idx off ↔
    pd.bytes = 0 ∨ st.RecordedBeside d idx off := by
  constructor
  · rintro ⟨e,pe,he,hk,hb⟩
    rw [set_countBytes_dl hd] at he
    split at he
    · cases he
      exact .inl ((countBytes_complete hsized).mp hb)
    · rename_i hed
      exact .inr ⟨e,pe,hed,he,hk,hb⟩
  · rintro (hzero | ⟨e,pe,hed,he,hk,hb⟩)
    · refine ⟨d,countBytes pd.len pd,?_,hkey,(countBytes_complete hsized).mpr hzero⟩
      rw [set_countBytes_dl hd,if_pos rfl]
    · refine ⟨e,pe,?_,hk,hb⟩
      rw [set_countBytes_dl hd,if_neg hed]
      exact he

/-- Every block is received once the bytes are counted. -/
theorem recorded_all {plen : ℕ} : (∀ o ∈ blockOffs plen, (st.set d (countBytes pd.len)).Recorded idx o) ↔
    (∀ o ∈ blockOffs plen, o ≠ off → st.Recorded idx o) ∧
      (off ∈ blockOffs plen → pd.bytes = 0 ∨ st.RecordedBeside d idx off) := by
  constructor
  · intro h
    refine ⟨?_,?_⟩
    · intro o ho hne
      exact (recorded_other hd hkey hne).mp (h o ho)
    · intro ho
      exact (recorded_self hd hkey hsized).mp (h off ho)
  · rintro ⟨hother,hself⟩ o ho
    by_cases hne : o = off
    · subst hne
      exact (recorded_self hd hkey hsized).mpr (hself ho)
    · exact (recorded_other hd hkey hne).mpr (hother o ho hne)

include hwf

/-- The completion loop, over the store as it was before the block was counted. -/
theorem everyBlock_counted {plen : ℕ} (hfind : networkPieceDlFind st (some p) idx off = some d) :
    everyBlock (st.set d (countBytes pd.len)) p idx plen = .ok true ↔
      (∀ o ∈ blockOffs plen, o ≠ off → ∃ e, networkPieceDlFind st (some p) idx o = some e ∧
        (st.get e).bytes = (st.get e).len) ∧
      (off ∈ blockOffs plen → pd.bytes = 0) ∧ blockLoopWraps plen = false := by
  have hlook : ∀ o, networkPieceDlFind (st.set d (countBytes pd.len)) (some p) idx o =
      networkPieceDlFind st (some p) idx o := fun o =>
    find_set (f := countBytes pd.len) (fun _ => rfl) (some p) idx o
  have hget : ∀ e, e ≠ d → (st.set d (countBytes pd.len)).get e = st.get e := by
    intro e he
    simp only [DlStore.get,set_countBytes_dl hd,if_neg he]
  have hself : (st.set d (countBytes pd.len)).get d = countBytes pd.len pd := by
    simp only [DlStore.get,set_countBytes_dl hd,if_pos,Option.getD_some]
  have hne : ∀ o e, o ≠ off → networkPieceDlFind st (some p) idx o = some e → e ≠ d := by
    rintro o e ho he rfl
    obtain ⟨pe,hpe,hk⟩ := hwf.find_some he
    cases hd.symm.trans hpe
    exact ho (Prod.mk.inj (hk.symm.trans hkey)).2
  rw [everyBlock_true]
  simp only [hlook]
  constructor
  · rintro ⟨h,hwraps⟩
    refine ⟨?_,?_,hwraps⟩
    · intro o ho hoff
      obtain ⟨e,he,hb⟩ := h o ho
      rw [hget e (hne o e hoff he)] at hb
      exact ⟨e,he,hb⟩
    · intro ho
      obtain ⟨e,he,hb⟩ := h off ho
      cases hfind.symm.trans he
      rw [hself] at hb
      exact (countBytes_complete hsized).mp hb
  · rintro ⟨hother,hoff,hwraps⟩
    refine ⟨?_,hwraps⟩
    intro o ho
    by_cases hoo : o = off
    · subst hoo
      refine ⟨d,hfind,?_⟩
      rw [hself]
      exact (countBytes_complete hsized).mpr (hoff ho)
    · obtain ⟨e,he,hb⟩ := hother o ho hoo
      refine ⟨e,he,?_⟩
      rw [hget e (hne o e hoo he)]
      exact hb

end Counted

/-- What the lookup gives as complete is received. -/
theorem recorded_of_shown {st : DlStore} (hwf : st.Wf) {e : DlId}
    (he : networkPieceDlFind st (some p) idx off = some e) (hb : (st.get e).bytes = (st.get e).len) :
    st.Recorded idx off := by
  obtain ⟨pe,hpe,hk⟩ := hwf.find_some he
  rw [DlStore.get_of_dl hpe] at hb
  exact ⟨e,pe,hpe,hk,hb⟩

/-- The handling of an accepted block, up to the completion loop. -/
theorem AcceptsAt.handled {msg : Bytes} (hacc : AcceptsAt s p idx off msg d)
    (ht : recordBlock s p idx off (msg.drop 9) = .ok t) : pieceAt sha1 env s p idx off msg = (do
      let found ← everyBlock t.store p idx (t.tp.piece idx).len
      let u ← (if found then checkPiece sha1 env t idx else .ok t)
      .ok (u.setPeer p (fun q => { q with lastrecv := env.now }))) := by
  have hheader := hacc.header
  have hlength := hacc.length
  rw [List.length_drop] at hlength
  rw [pieceAt_some hacc.idx_lt hacc.off_le hacc.found,takeBlock,if_neg (by omega),hacc.unverified,
    if_neg Bool.false_ne_true,receiveBlock_eq,ht]
  simp only [ok_bind,bind_assoc]

theorem AcceptsAt.completion {msg : Bytes} (hacc : AcceptsAt s p idx off msg d) (hm : s.core.Metered)
    (ht : recordBlock s p idx off (msg.drop 9) = .ok t) :
    (everyBlock t.store p idx (t.tp.piece idx).len = .ok true ↔
      ∀ o ∈ blockOffs (t.tp.piece idx).len, t.store.Recorded idx o) ↔ CompletionSeen s p idx off d := by
  have hwf : s.store.Wf := hm.wf
  obtain ⟨pd,hpd,hkey⟩ := hwf.find_some hacc.found
  have hsized : Sized pd := hm.sized d pd hpd
  have hlength := hacc.length
  rw [DlStore.get_of_dl hpd] at hlength
  obtain ⟨hstore,hlen⟩ := recordBlock_ok hacc.found ht
  unfold CompletionSeen
  rw [hstore,hlen,hlength,recorded_all hpd hkey hsized,everyBlock_counted hwf hpd hkey hsized hacc.found,
    DlStore.get_of_dl hpd]
  constructor
  · intro hiff hother hself
    obtain ⟨hseen,hzero,hwraps⟩ := hiff.mpr ⟨hother,hself⟩
    exact ⟨fun o ho hne _ => hseen o ho hne,hzero,hwraps⟩
  · intro hcond
    constructor
    · rintro ⟨hseen,hzero,-⟩
      refine ⟨?_,fun ho => .inl (hzero ho)⟩
      intro o ho hne
      obtain ⟨e,he,hb⟩ := hseen o ho hne
      exact recorded_of_shown hwf he hb
    · rintro ⟨hother,hself⟩
      obtain ⟨hshows,hzero,hwraps⟩ := hcond hother hself
      exact ⟨fun o ho hne => hshows o ho hne (hother o ho hne),hzero,hwraps⟩

end Recording

/-- An accepted PIECE message is recorded, then the completion loop runs, and if it finds every
block the piece is checked. The loop finds every block exactly when every block is received,
exactly where no received block is hidden from the sender. -/
theorem completion_check_iff (sha1 : Bytes → Bytes) (b : Boot) (s : Session) (h : Reachable sha1 b s) (env : Env)
    (p : PeerId) (msg : Bytes) (d : DlId) (hacc : Accepts env s p msg d) (t : Session)
    (ht : recordBlock s p (msgField env msg 1) (msgField env msg 5) (msg.drop 9) = .ok t) :
    networkPeerProcessMessage sha1 env s p msgPieceId msg = (do
      let found ← everyBlock t.store p (msgField env msg 1) (t.tp.piece (msgField env msg 1)).len
      let u ← (if found then checkPiece sha1 env t (msgField env msg 1) else .ok t)
      .ok (u.setPeer p (fun q => { q with lastrecv := env.now }))) ∧
    ((everyBlock t.store p (msgField env msg 1) (t.tp.piece (msgField env msg 1)).len = .ok true ↔
        ∀ off ∈ blockOffs (t.tp.piece (msgField env msg 1)).len, t.store.Recorded (msgField env msg 1) off) ↔
      CompletionSeen s p (msgField env msg 1) (msgField env msg 5) d) := by
  rw [networkPeerProcessMessage_piece]
  exact ⟨AcceptsAt.handled hacc ht,AcceptsAt.completion hacc h.metered ht⟩

/-- Four peers are asked for a piece of one block, one of them outside the endgame. The third and
the fourth deliver it, and each time the hash check fails and frees the first request. -/
def fourPeersRun : List (Env × Event) :=
  [1,2,3,4].map (fun addr => (.plain 1000,.accept addr)) ++
    (List.range 4).flatMap (fun p => inputs 1000 p handshakePortions ++
      inputs 1000 p (messagePortions [msgBitfieldId,if p = 0 then 0x80 else 0]) ++
      inputs 1000 p (messagePortions [msgUnchokeId])) ++ [(.plain 1001,.scheduler)] ++
    inputs 1002 2 (messagePortions pieceZeroMessage) ++ inputs 1002 3 (messagePortions pieceZeroMessage)

/-- The fourth peer delivers the block again. Its own request now has two bytes in place of one,
while that of the third is complete: the piece is not checked. -/
theorem completion_missed : ∃ s t, Reachable sha1ZeroByte (.oneByte (List.replicate 20 0) 1) s ∧
    Accepts (.plain 1003) s 3 pieceZeroMessage 3 ∧ (s.tp.piece 0).cksumok = false ∧
    recordBlock s 3 0 0 (pieceZeroMessage.drop 9) = .ok t ∧
    (∀ off ∈ blockOffs (t.tp.piece 0).len, t.store.Recorded 0 off) ∧
    everyBlock t.store 3 0 (t.tp.piece 0).len = .ok false := by
  have hrun : ((Boot.oneByte (List.replicate 20 0) 1).run sha1ZeroByte fourPeersRun).toOption.map (fun s =>
      decide (Accepts (.plain 1003) s 3 pieceZeroMessage 3 ∧ (s.tp.piece 0).cksumok = false) &&
      ((recordBlock s 3 0 0 (pieceZeroMessage.drop 9)).toOption.map (fun t =>
        decide (blockOffs (t.tp.piece 0).len = [0] ∧ t.store.dl 2 = some ⟨some 2,0,0,1,1⟩ ∧
          (everyBlock t.store 3 0 (t.tp.piece 0).len).toOption = some false)) == some true)) = some true := by
    decide +kernel
  obtain ⟨s,hs,hP⟩ := exists_reachable hrun
  obtain ⟨hacc,hrec⟩ := Bool.and_eq_true_iff.mp hP
  obtain ⟨t,ht,hP⟩ := exists_ok (eq_of_beq hrec)
  obtain ⟨hoffs,hdl,hfalse⟩ := of_decide_eq_true hP
  obtain ⟨hacc,hck⟩ := of_decide_eq_true hacc
  refine ⟨s,t,hs,hacc,hck,ht,?_,?_⟩
  · rw [hoffs]
    intro off hoff
    rw [List.mem_singleton.mp hoff]
    exact ⟨2,_,hdl,rfl,rfl⟩
  · exact ok_of_toOption hfalse

/-- The peer that was asked for the only block delivers it: the loop finds it, and it is recorded. -/
theorem completion_check_iff_oneRequest : ∃ s t : Session, Reachable sha1ZeroByte (.oneByte (List.replicate 20 0) 1) s ∧
    Accepts (.plain 1002) s 0 pieceZeroMessage 0 ∧ recordBlock s 0 0 0 (pieceZeroMessage.drop 9) = .ok t ∧
    everyBlock t.store 0 0 (t.tp.piece 0).len = .ok true ∧ t.store.Recorded 0 0 := by
  have hrun : ((Boot.oneByte (List.replicate 20 0) 1).run sha1ZeroByte oneRequestRun).toOption.map (fun s =>
      decide (Accepts (.plain 1002) s 0 pieceZeroMessage 0 ∧ blockOffs (mappedLen s.tp 0) = [0] ∧
        (s.store.get 0).bytes = 0 ∧ blockLoopWraps (mappedLen s.tp 0) = false) &&
      ((recordBlock s 0 0 0 (pieceZeroMessage.drop 9)).toOption.map (fun t =>
        decide ((everyBlock t.store 0 0 (t.tp.piece 0).len).toOption = some true ∧
          0 ∈ blockOffs (t.tp.piece 0).len)) == some true)) = some true := by decide +kernel
  obtain ⟨s,hs,hP⟩ := exists_reachable hrun
  obtain ⟨hstate,hrec⟩ := Bool.and_eq_true_iff.mp hP
  obtain ⟨hacc,hblocks,hbytes,hwraps⟩ := of_decide_eq_true hstate
  obtain ⟨t,ht,hloop⟩ := exists_ok (eq_of_beq hrec)
  obtain ⟨hloop,hin⟩ := of_decide_eq_true hloop
  obtain ⟨hidx,hoff⟩ := msgField_pieceZeroMessage (.plain 1002)
  have hseen : CompletionSeen s 0 0 0 0 := by
    intro _ _
    rw [hblocks]
    exact ⟨fun o ho hne => (hne (List.mem_singleton.mp ho)).elim,fun _ => hbytes,hwraps⟩
  have hiff := (completion_check_iff sha1ZeroByte _ s hs (.plain 1002) 0 pieceZeroMessage 0 hacc t
    (by rw [hidx,hoff]; exact ht)).2
  rw [hidx,hoff] at hiff
  have hfound := ok_of_toOption hloop
  exact ⟨s,t,hs,hacc,ht,hfound,(hiff.mpr hseen).mp hfound 0 hin⟩

/-- What the count of received bytes asks of a message: a block that is taken is counted on an
outstanding request, and REJECT does not free the only completed request of a block that is
still needed. -/
structure FairMessage (env : Env) (s : Session) (p : PeerId) (msg : Bytes) : Prop where
  piece : msg.headD 0 = msgPieceId → ∀ d, Accepts env s p msg d → (s.store.get d).outstanding = true
  reject : msg.headD 0 = msgRejectId → (s.peer p).state.fast = true → indexRefused s (msgField env msg 1) = false →
    ∀ d, networkPieceDlFind s.store (some p) (msgField env msg 1) (msgField env msg 5) = some d →
      (s.store.get d).outstanding = true ∨ (s.tp.piece (msgField env msg 1)).cksumok = true ∨
        s.store.RecordedBeside d (msgField env msg 1) (msgField env msg 5)

def Fair (s : Session) : Env × Event → Prop
  | (env,.response p avail) => p ∈ s.peers → ∀ msg, completed env (s.peer p) avail = some msg → FairMessage env s p msg
  | _ => True

/-- The event brings an accepted block after which `torrent_piece_checkhash` runs on piece `idx`. -/
def ChecksHash (s : Session) (e : Env × Event) (idx : ℕ) : Prop :=
  ∃ p avail msg d t, e.2 = .response p avail ∧ completed e.1 (s.peer p) avail = some msg ∧
    msg.headD 0 = msgPieceId ∧ Accepts e.1 s p msg d ∧ msgField e.1 msg 1 = idx ∧
    recordBlock s p idx (msgField e.1 msg 5) (msg.drop 9) = .ok t ∧
    everyBlock t.store p idx (t.tp.piece idx).len = .ok true

/-- A block received for an unverified piece stays received, unless the piece is checked. -/
def Lasts (s : Session) (e : Env × Event) (s' : Session) : Prop :=
  ∀ idx off, s.store.Recorded idx off → (s.tp.piece idx).cksumok = false → s'.store.Recorded idx off ∨
    ChecksHash s e idx

section Fair
variable {sha1 : Bytes → Bytes} {env : Env} {s s' : Session} {p : PeerId} {c c' : Core}

theorem Ask.whole {p : PeerId} (ha : Ask p c c') (hm : c.Metered) (h : c.store.All Whole) :
    c'.store.All Whole ∧ c.store.Keeps c'.store := by
  cases ha with
  | @request idx off hp hidx hoff =>
    obtain ⟨hpos,hle⟩ := blockLen_pos_le (hm.short idx) hoff
    exact ⟨h.create ⟨hpos,hle,.inl rfl⟩,hm.wf.keeps_create p idx off _⟩
  | recycle hp hfind hpc hout => exact ⟨h.recycle Core.Booked.whole_pc,DlStore.keeps_recycle⟩

theorem Routine.whole (hmove : Routine sha1 c c') (hm : c.Metered) (h : c.store.All Whole) :
    c'.store.All Whole ∧ c.store.Keeps c'.store := by
  cases hmove with
  | torrent htm => exact ⟨h,.refl _⟩
  | ask p ha => exact ha.whole hm h
  | attend ha =>
    cases ha with
    | drop p => exact ⟨h.peerFreeDls Core.Booked.whole_pc,DlStore.keeps_peerFreeDls⟩
    | join => exact ⟨h,.refl _⟩

theorem Routines.whole (hmoves : Routines sha1 c c') (hm : c.Metered) (h : c.store.All Whole) :
    c'.store.All Whole ∧ c.store.Keeps c'.store := by
  have hall : c'.Metered ∧ c'.store.All Whole ∧ c.store.Keeps c'.store := by
    induction hmoves with
    | refl => exact ⟨hm,h,.refl _⟩
    | tail _ hmove ih =>
      obtain ⟨hm',hw',hk'⟩ := ih
      obtain ⟨hw,hk⟩ := hmove.whole hm' hw'
      exact ⟨hm'.routine hmove,hw,hk'.trans hk⟩
  exact hall.2

/-- A request that is outstanding becomes complete when its block is counted, and no other changes. -/
theorem deliver_whole {st : DlStore} {d : DlId} {data : Bytes} {pd : PieceDl} (h : st.All Whole)
    (hd : st.dl d = some pd)
    (hout : pd.outstanding = true) (hlen : data.length = pd.len) :
    (st.set d (fun pd => { pd with bytes := add32 pd.bytes data.length })).All Whole ∧
      st.Keeps (st.set d (fun pd => { pd with bytes := add32 pd.bytes data.length })) := by
  obtain ⟨hpos,hle,hbytes⟩ := h d pd hd
  have hne : pd.bytes ≠ pd.len := by simpa [PieceDl.outstanding] using hout
  have hsum : add32 pd.bytes data.length = pd.len := by
    rw [hbytes.resolve_right hne,hlen,add32_of_lt (by unfold blockSize at hle; omega),Nat.zero_add]
  constructor
  · refine h.set ?_
    intro pd' hpd'
    cases hd.symm.trans hpd'
    exact ⟨hpos,hle,.inr hsum⟩
  · refine DlStore.keeps_of ?_
    intro e pe he hb
    have hed : e ≠ d := by
      rintro rfl
      cases hd.symm.trans he
      exact hne hb
    exact ⟨pe.pc,by simpa [DlStore.set,hed] using he⟩

theorem cleanup_whole {st st' : DlStore} {idx plen : ℕ} (h : st.All Whole) (hc : cleanupDls st idx plen = .ok st') :
    st'.All Whole := by
  unfold cleanupDls at hc
  split at hc
  · cases hc
  · cases hc
    refine foldl_rel (R := fun st st' : DlStore => st.All Whole → st'.All Whole) (fun _ h => h)
      (fun hab hbc h => hbc (hab h)) (blockOffs plen) ?_ st h
    intro st off _ h
    unfold cleanupTurn
    split
    · exact h
    · exact h.free _

theorem networkPeerReadPiece_exists {idx off : ℕ} {d : DlId} (hidx : idx < s.tp.numPieces)
    (hfind : networkPieceDlFind s.store (some p) idx off = some d) (data : Bytes) :
    ∃ t, networkPeerReadPiece s p idx off data = .ok t := by
  have hpiece : torrentPieceFind s.tp idx = .ok (s.tp.piece idx) := torrentPieceFind_ok.mpr ⟨hidx,rfl⟩
  unfold networkPeerReadPiece
  rw [hpiece,hfind]
  exact ⟨_,rfl⟩

theorem recordBlock_exists {idx off : ℕ} {d : DlId} {tp : Torrent} (hidx : idx < s.tp.numPieces)
    (hfind : networkPieceDlFind s.store (some p) idx off = some d) (hmap : ensureMapped s.tp idx = .ok tp)
    (data : Bytes) : ∃ t, recordBlock s p idx off data = .ok t := by
  have hidx' : idx < tp.numPieces := by rwa [Torrent.numPieces,(ensureMapped_mapped hmap).2.1]
  obtain ⟨t,ht⟩ := @networkPeerReadPiece_exists
    { s.setPeer p (fun q => { q with dlQueueLen := sub32 q.dlQueueLen 1 }) with tp := tp } p idx off d hidx' hfind data
  exact ⟨t,bind_ok.mpr ⟨tp,hmap,ht⟩⟩

/-- An accepted block, counted on an outstanding request. -/
theorem receiveBlock_lasts {idx off : ℕ} {data : Bytes} {d : DlId} (hm : s.core.Metered) (hw : s.store.All Whole)
    (hidx : idx < s.tp.numPieces) (hfind : networkPieceDlFind s.store (some p) idx off = some d)
    (hout : (s.store.get d).outstanding = true) (hlen : data.length = (s.store.get d).len)
    (h : receiveBlock sha1 env s p idx off data = .ok s') : s'.store.All Whole ∧ ∀ i o, s.store.Recorded i o →
      s'.store.Recorded i o ∨ i = idx ∧ ∃ t, recordBlock s p idx off data = .ok t ∧
        everyBlock t.store p idx (t.tp.piece idx).len = .ok true := by
  have hwf : s.store.Wf := hm.wf
  obtain ⟨pd,hpd,-⟩ := hwf.find_some hfind
  rw [DlStore.get_of_dl hpd] at hout hlen
  obtain ⟨hw',hk'⟩ := deliver_whole hw hpd hout hlen
  have hkey : ∀ pd : PieceDl, ({ pd with bytes := add32 pd.bytes data.length } : PieceDl).key = pd.key ∧
      ({ pd with bytes := add32 pd.bytes data.length } : PieceDl).pc = pd.pc := fun _ => ⟨rfl,rfl⟩
  obtain ⟨tp₁,tp₂,hmap,-,hend⟩ := receiveBlock_cases hfind h
  rcases hend with hend | ⟨st,hevery,hclean,hend⟩
  · rw [show s'.store = _ from congrArg Core.store hend]
    exact ⟨hw',fun i o hr => .inl (hk' i o hr)⟩
  · obtain ⟨t,ht⟩ := recordBlock_exists hidx hfind hmap data
    obtain ⟨htstore,htlen⟩ := recordBlock_ok hfind ht
    have hplen : mappedLen s.tp idx = (tp₁.piece idx).len := by simp [mappedLen,hmap]
    rw [show s'.store = st from congrArg Core.store hend]
    refine ⟨cleanup_whole hw' hclean,?_⟩
    intro i o hr
    by_cases hi : i = idx
    · refine .inr ⟨hi,t,ht,?_⟩
      rw [htlen,htstore,hplen]
      exact hevery
    · -- the cleanup frees requests of the checked piece only
      unfold cleanupDls at hclean
      split at hclean
      · cases hclean
      · cases hclean
        exact .inl ((hwf.set d hkey).cleanup_recorded hi _ (hk' i o hr))

/-- A fair message. -/
theorem networkPeerProcessMessage_lasts {msg : Bytes} (hm : s.core.Metered) (hw : s.store.All Whole)
    (hf : FairMessage env s p msg) (h : networkPeerProcessMessage sha1 env s p (msg.headD 0) msg = .ok s') :
    s'.store.All Whole ∧ ∀ i o, s.store.Recorded i o → (s.tp.piece i).cksumok = false → s'.store.Recorded i o ∨
      msg.headD 0 = msgPieceId ∧ ∃ d t, Accepts env s p msg d ∧ msgField env msg 1 = i ∧
        recordBlock s p i (msgField env msg 5) (msg.drop 9) = .ok t ∧
        everyBlock t.store p i (t.tp.piece i).len = .ok true := by
  rcases networkPeerProcessMessage_cases h with hcore | ⟨-,hfast,hcore⟩ | ⟨hid,hcore⟩ | ⟨hid,d,t,hacc,ht,hcore⟩
  · rw [show s'.store = s.store from congrArg Core.store hcore]
    exact ⟨hw,fun i o hr _ => .inl hr⟩
  · rw [core_msgChoke_slow hfast] at hcore
    rw [show s'.store = (s.store.lists p).foldl (orphan p) s.store from congrArg Core.store hcore]
    exact ⟨hw.foldl_orphan Core.Booked.whole_pc _,fun i o hr _ => .inl (DlStore.keeps_foldl_orphan _ i o hr)⟩
  · rcases msgReject_cases env s p msg with heq | ⟨d,hfind,hfast,href,heq⟩
    · rw [show s'.store = s.store from congrArg Core.store (hcore.trans heq)]
      exact ⟨hw,fun i o hr _ => .inl hr⟩
    · rw [show s'.store = networkPieceDlFree s.store d from congrArg Core.store (hcore.trans heq)]
      refine ⟨hw.free d,?_⟩
      intro i o hr hck
      have hwf : s.store.Wf := hm.wf
      obtain ⟨pd,hpd,hkey⟩ := hwf.find_some hfind
      left
      obtain ⟨e,pe,he,hk,hb⟩ := hr
      by_cases hed : e = d
      · subst hed
        cases hpd.symm.trans he
        obtain ⟨rfl,rfl⟩ := Prod.mk.inj (hkey.symm.trans hk)
        rcases hf.reject hid hfast href e hfind with hout | hck' | ⟨e',pe',hne,he',hk',hb'⟩
        · rw [DlStore.get_of_dl hpd] at hout
          simp [PieceDl.outstanding,hb] at hout
        · rw [hck] at hck'
          cases hck'
        · exact ⟨e',pe',by rw [DlStore.free_dl,if_neg hne]; exact he',hk',hb'⟩
      · exact ⟨e,pe,by rw [DlStore.free_dl,if_neg hed]; exact he,hk,hb⟩
  · obtain ⟨hw',hlasts⟩ := receiveBlock_lasts hm hw hacc.idx_lt hacc.found (hf.piece hid d hacc) hacc.length ht
    rw [show s'.store = t.store from congrArg Core.store hcore]
    refine ⟨hw',?_⟩
    intro i o hr hck
    rcases hlasts i o hr with hr' | ⟨rfl,u,hu,hevery⟩
    · exact .inl hr'
    · exact .inr ⟨hid,d,u,hacc,rfl,hu,hevery⟩

theorem FairMessage.setPeer {msg : Bytes} (h : FairMessage env s p msg) {f : Peer → Peer}
    (hf : (f (s.peer p)).state.fast = (s.peer p).state.fast) : FairMessage env (s.setPeer p f) p msg where
  piece hid d hacc := h.piece hid d hacc.setPeer
  reject hid hfast := h.reject hid (by rwa [Session.setPeer_self,hf] at hfast)

/-- The completion loop sees nothing of the peer but its requests. -/
theorem recordBlock_setPeer {f : Peer → Peer} {idx off : ℕ} {data : Bytes} {d : DlId} {t : Session}
    (hidx : idx < s.tp.numPieces) (hfind : networkPieceDlFind s.store (some p) idx off = some d)
    (h : recordBlock (s.setPeer p f) p idx off data = .ok t) : ∃ t', recordBlock s p idx off data = .ok t' ∧
      t'.store = t.store ∧ (t'.tp.piece idx).len = (t.tp.piece idx).len := by
  obtain ⟨hstore,hlen⟩ := recordBlock_ok (s := s.setPeer p f) hfind h
  obtain ⟨tp,hmap,-⟩ := bind_ok.mp h
  obtain ⟨t',ht'⟩ := recordBlock_exists hidx hfind hmap data
  obtain ⟨hstore',hlen'⟩ := recordBlock_ok hfind ht'
  exact ⟨t',ht',hstore'.trans hstore.symm,hlen'.trans hlen.symm⟩

/-- A fair step. -/
theorem step_lasts (hp : s.core.Peered) (hm : s.core.Metered) (hw : s.store.All Whole) {e : Env × Event}
    (hf : Fair s e) (h : step sha1 s e = .ok s') : s'.store.All Whole ∧ Lasts s e s' := by
  have hrest : Routines sha1 s.core s'.core → s'.store.All Whole ∧ Lasts s e s' := by
    intro hmoves
    obtain ⟨hw',hk⟩ := hmoves.whole hm hw
    exact ⟨hw',fun i o hr _ => .inl (hk i o hr)⟩
  obtain ⟨env,e⟩ := e
  cases e with
  | response p avail =>
    simp only [step] at h
    split at h
    · rename_i hmem
      rcases peerResponse_cases h with ⟨-,hcore⟩ | ⟨msg,t,hmsg,hcore,ht⟩
      · exact hrest (hcore ▸ .refl)
      · have hfair : FairMessage env (s.setPeer p (afterRead env · avail)) p msg :=
          (hf hmem msg hmsg).setPeer (f := (afterRead env · avail)) (afterRead_fast (s.peer p) avail)
        have hmetered : (s.setPeer p (afterRead env · avail)).core.Metered := by
          rw [core_afterRead]
          exact hm
        obtain ⟨hw',hlasts⟩ := networkPeerProcessMessage_lasts hmetered hw hfair ht
        rw [show s'.store = t.store from congrArg Core.store hcore]
        refine ⟨hw',?_⟩
        intro i o hr hck
        rcases hlasts i o hr hck with hr' | ⟨hid,d,u,hacc,hi,hu,hevery⟩
        · left
          rw [show s'.store = t.store from congrArg Core.store hcore]
          exact hr'
        · have hacc' : Accepts env s p msg d := AcceptsAt.setPeer hacc
          have hidx : i < s.tp.numPieces := by
            rw [← hi]
            exact hacc'.idx_lt
          have hfind : networkPieceDlFind s.store (some p) i (msgField env msg 5) = some d := by
            rw [← hi]
            exact hacc'.found
          obtain ⟨t',ht',hstore',hlen'⟩ := recordBlock_setPeer hidx hfind hu
          refine .inr ⟨p,avail,msg,d,t',rfl,hmsg,hid,hacc',hi,ht',?_⟩
          rw [hstore',hlen']
          exact hevery
    · cases h
      exact hrest .refl
  | scheduler => exact hrest (scheduler_routines hp h)
  | _ => exact hrest (step_attends (by intros; simp) (by simp) h).routines

end Fair

/-- In a run of fair events every request has no bytes or all of them, in every state, and a
block received for an unverified piece stays received until that piece is checked. -/
theorem bytes_counted_once (sha1 : Bytes → Bytes) (b : Boot) (s₀ s : Session) (es : List (Env × Event))
    (hboot : b.session sha1 = .ok s₀) (hfair : RunMeets sha1 Fair s₀ es) (hrun : run sha1 s₀ es = .ok s) :
    (∀ d pd, s.store.dl d = some pd → pd.bytes = 0 ∨ pd.bytes = pd.len) ∧ RunShows sha1 Lasts s₀ es := by
  have hpeered : s₀.core.Peered := by
    obtain ⟨tp,-,rfl⟩ := Boot.session_ok hboot
    exact initial_peered _ _ _ _ _
  have hwhole : s₀.store.All Whole := by
    obtain ⟨tp,-,rfl⟩ := Boot.session_ok hboot
    nofun
  have hinit : s₀.core.Peered ∧ s₀.core.Metered ∧ s₀.store.All Whole :=
    ⟨hpeered,Core.Metered.session hboot,hwhole⟩
  have hstep : ∀ t e t', (t.core.Peered ∧ t.core.Metered ∧ t.store.All Whole) → Fair t e → step sha1 t e = .ok t' →
      Lasts t e t' ∧ t'.core.Peered ∧ t'.core.Metered ∧ t'.store.All Whole := by
    rintro t e t' ⟨hp,hm,hw⟩ hf h
    have hmoves := step_moves hp h
    obtain ⟨hw',hl⟩ := step_lasts hp hm hw hf h
    exact ⟨hl,hp.moves hmoves,hm.moves hmoves,hw'⟩
  refine ⟨?_,hfair.shows hstep hinit⟩
  obtain ⟨-,-,hw⟩ := hfair.invariant (fun t e t' hi hf h => (hstep t e t' hi hf h).2) hinit hrun
  intro d pd hd
  exact (hw d pd hd).2.2

/-- What keeps queue lengths right also keeps the counts of received bytes right. -/
theorem OrderlyRun.fair {sha1 : Bytes → Bytes} {s : Session} {es : List (Env × Event)} (h : OrderlyRun sha1 s es) :
    RunMeets sha1 Fair s es := by
  induction es generalizing s with
  | nil => trivial
  | cons e es ih =>
    refine ⟨?_,fun s' hs' => ih (h.2 s' hs')⟩
    obtain ⟨env,e⟩ := e
    cases e with
    | response p avail =>
      intro hp msg hmsg
      have ho : OrderlyMessage env s p msg := h.1 hp msg hmsg
      exact ⟨fun hid d hacc => (ho.piece hid d hacc).1.2,fun hid hfast href d hfind =>
        .inl (ho.reject hid hfast href d hfind).2⟩
    | _ => trivial

theorem bytes_counted_once_answered : ∃ s₀ s, (Boot.oneByte (List.replicate 20 0) 1).session sha1ZeroByte = .ok s₀ ∧
    run sha1ZeroByte s₀ answeredRun = .ok s ∧ s.tp.downloaded = 1 ∧ RunShows sha1ZeroByte Lasts s₀ answeredRun := by
  obtain ⟨s₀,hs₀,hP⟩ := exists_ok (x := (Boot.oneByte (List.replicate 20 0) 1).session sha1ZeroByte)
    (P := fun s => orderlyRun sha1ZeroByte s answeredRun &&
      ((run sha1ZeroByte s answeredRun).toOption.map (fun s => decide (s.tp.downloaded = 1)) == some true))
    (by decide +kernel)
  obtain ⟨horderly,hrun⟩ := Bool.and_eq_true_iff.mp hP
  obtain ⟨s,hs,hone⟩ := exists_ok (eq_of_beq hrun)
  exact ⟨s₀,s,hs₀,hs,of_decide_eq_true hone,
    (bytes_counted_once sha1ZeroByte _ s₀ s answeredRun hs₀ (orderlyRun_iff.mp horderly).fair hs).2⟩

/-- A torrent of one piece of two blocks, the second of one byte. -/
def Metainfo.twoBlocks : Metainfo where
  type := .singlefile
  name := []
  files := [⟨16385,[]⟩]
  pieces := List.replicate 20 0
  pieceLength := 16385
  infoHash := List.replicate 20 0
  pieceLength_lt := by decide
  infoHash_length := length_zeroHash
  single_file _ := rfl

/-- A peer is asked for both blocks and sends the second one twice. -/
def repeatedBlockRun : List (Env × Event) :=
  [(.plain 1000,.accept 1)] ++ inputs 1000 0 handshakePortions ++
    inputs 1000 0 (messagePortions [msgBitfieldId,0x80]) ++
    inputs 1000 0 (messagePortions [msgUnchokeId]) ++ [(.plain 1001,.scheduler)] ++
    inputs 1002 0 (messagePortions [msgPieceId,0,0,0,0,0,0,0x40,0,0]) ++
    inputs 1002 0 (messagePortions [msgPieceId,0,0,0,0,0,0,0x40,0,0])

/-- The request for it then has two bytes of the one it asked for. -/
theorem bytes_counted_twice : ∃ s, Reachable sha1ZeroByte { Boot.oneByte [] 0 with mi := .twoBlocks } s ∧
    ∃ d pd, s.store.dl d = some pd ∧ pd.bytes ≠ 0 ∧ pd.bytes ≠ pd.len := by
  have hrun : (Boot.run sha1ZeroByte { Boot.oneByte [] 0 with mi := .twoBlocks } repeatedBlockRun).toOption.map
      (fun s => decide (s.store.dl 1 = some ⟨some 0,0,16384,1,2⟩)) = some true := by decide +kernel
  obtain ⟨s,hs,hP⟩ := exists_reachable hrun
  exact ⟨s,hs,1,_,of_decide_eq_true hP,by decide,by decide⟩

end Unworkable
