import Unworkable.Session.Representation

/-! # Blocks nobody asked a peer for

`network_piece_dl_find` falls back to the index of all requests when the list of the peer
has none, so that a block asked of one peer, or of nobody any more, is taken from another.
-/
namespace Unworkable
open Library

theorem sub32_one_ne (n : ℕ) : sub32 n 1 ≠ n := by
  unfold sub32 wrap32
  omega

section Lookup
variable {st : DlStore} {p : PeerId} {idx off : ℕ}

/-- A peer with no request of its own for a block is answered from the index. -/
theorem find_of_not_own (hown : ∀ d ∈ st.lists p, ¬ ((st.get d).idx = idx ∧ (st.get d).off = off)) :
    networkPieceDlFind st (some p) idx off = networkPieceDlFind st none idx off := by
  have hnone : (st.lists p).find? (fun d => (st.get d).off = off ∧ (st.get d).idx = idx) = none := by
    rw [List.find?_eq_none]
    intro d hd hk
    exact hown d hd (by simpa [and_comm] using hk)
  simp only [networkPieceDlFind,hnone]

end Lookup

section Piece
variable {sha1 : Bytes → Bytes} {env : Env} {s : Session} {p : PeerId} {msg : Bytes}

theorem indexRefused_of_lt {idx : ℕ} (h : idx < s.tp.numPieces) : indexRefused s idx = false := by
  unfold indexRefused
  rw [decide_eq_false_iff_not,gt_sub32_one s.tp.numPieces_lt (by omega)]
  omega

section InRange
variable {idx off : ℕ} (hidx : idx < s.tp.numPieces) (hoff : off ≤ (s.tp.piece idx).len)
include hidx hoff

/-- PIECE with index and offset in range kills the sender when the lookup gives nothing. -/
theorem pieceAt_none (hfind : networkPieceDlFind s.store (some p) idx off = none) :
    pieceAt sha1 env s p idx off msg = .ok (killPeer s p) := by
  have hpiece : torrentPieceFind s.tp idx = .ok (s.tp.piece idx) := torrentPieceFind_ok.mpr ⟨hidx,rfl⟩
  simp [pieceAt,indexRefused_of_lt hidx,hpiece,hfind,Nat.not_lt.mpr hoff]

/-- PIECE with index and offset in range takes the block when the lookup gives a request. -/
theorem pieceAt_some {d : DlId} (hfind : networkPieceDlFind s.store (some p) idx off = some d) :
    pieceAt sha1 env s p idx off msg = takeBlock sha1 env s p idx off msg d := by
  have hpiece : torrentPieceFind s.tp idx = .ok (s.tp.piece idx) := torrentPieceFind_ok.mpr ⟨hidx,rfl⟩
  simp [pieceAt,indexRefused_of_lt hidx,hpiece,hfind,Nat.not_lt.mpr hoff]

end InRange

/-- A block that meets the conditions is received. -/
theorem AcceptsAt.receives {idx off : ℕ} {d : DlId} {t : Session} (hacc : AcceptsAt s p idx off msg d)
    (h : pieceAt sha1 env s p idx off msg = .ok t) :
    ∃ u, receiveBlock sha1 env s p idx off (msg.drop 9) = .ok u ∧ t.core = u.core := by
  have hheader := hacc.header
  have hlength := hacc.length
  rw [List.length_drop] at hlength
  rw [pieceAt_some hacc.idx_lt hacc.off_le hacc.found,takeBlock,if_neg (by omega)] at h
  obtain ⟨u,hu,h⟩ := bind_ok.mp h
  rw [hacc.unverified,if_neg Bool.false_ne_true] at hu
  cases h
  exact ⟨u,hu,core_setPeer u p rfl⟩

/-- Taking a block always changes the queue length of the sender. -/
theorem receiveBlock_ne_kill {idx off : ℕ} {data : Bytes} {d : DlId} {t : Session}
    (hfind : networkPieceDlFind s.store (some p) idx off = some d)
    (h : receiveBlock sha1 env s p idx off data = .ok t) : t.core.queue p ≠ s.core.queue p := by
  obtain ⟨tp₁,tp₂,-,-,hend⟩ := receiveBlock_cases hfind h
  have hq : t.core.queue p = sub32 (s.core.queue p) 1 := by
    rcases hend with hend | ⟨st,-,-,hend⟩ <;> simp [hend,Core.deliver,Core.setQueue]
  rw [hq]
  exact sub32_one_ne _

theorem state_of_eq_kill (h : s = killPeer s p) : (s.peer p).state = .deadOnly := by
  have hp := congrArg (fun t : Session => (t.peer p).state) h
  simpa [killPeer,Session.setState] using hp

theorem kill_of_state (h : (s.peer p).state = .deadOnly) : killPeer s p = s := by
  unfold killPeer Session.setState
  refine Session.setPeer_eq_self s p _ ?_
  rw [← h]

/-- The iff for given index and offset. -/
theorem pieceAt_killed_iff {idx off : ℕ} (hwf : s.store.Wf) (hidx : idx < s.tp.numPieces)
    (hoff : off ≤ (s.tp.piece idx).len)
    (hown : ∀ d ∈ s.store.lists p, ¬ ((s.store.get d).idx = idx ∧ (s.store.get d).off = off)) :
    pieceAt sha1 env s p idx off msg = .ok (killPeer s p) ↔
      (∀ d pd, s.store.dl d = some pd → (pd.idx,pd.off) ≠ (idx,off)) ∨
      (s.peer p).state = .deadOnly ∧ ∃ d, networkPieceDlFind s.store none idx off = some d ∧
        (msg.length < 9 ∨ msg.length - 9 ≠ (s.store.get d).len ∨
          (s.tp.piece idx).cksumok = true ∧ (s.peer p).lastrecv = env.now) := by
  cases hd : networkPieceDlFind s.store none idx off with
  | none =>
    rw [pieceAt_none hidx hoff ((find_of_not_own hown).trans hd)]
    exact ⟨fun _ => .inl (hwf.find_none.mp hd),fun _ => rfl⟩
  | some d =>
    rw [pieceAt_some hidx hoff ((find_of_not_own hown).trans hd)]
    have hlive : ¬ ∀ e pd, s.store.dl e = some pd →
        (pd.idx,pd.off) ≠ (idx,off) := by
      obtain ⟨pd,hpd,hkey⟩ := hwf.find_some hd
      exact fun hall => hall d pd hpd hkey
    simp only [hlive,false_or,Option.some.injEq,exists_eq_left',takeBlock]
    by_cases hlen : msg.length < 9 ∨ msg.length - 9 ≠ (s.store.get d).len
    · rw [if_pos hlen]
      constructor
      · intro hk
        exact ⟨state_of_eq_kill (Except.ok.inj hk),by tauto⟩
      · rintro ⟨hk,-⟩
        rw [kill_of_state hk]
    · rw [if_neg hlen]
      cases hck : (s.tp.piece idx).cksumok with
      | true =>
        simp only [if_true,ok_bind]
        constructor
        · intro hk
          have hs := Except.ok.inj hk
          have hstate := congrArg (fun t : Session => (t.peer p).state) hs
          have hrecv := congrArg (fun t : Session => (t.peer p).lastrecv) hs
          simp only [killPeer,Session.setState,Session.setPeer_self] at hstate hrecv
          exact ⟨hstate,.inr (.inr ⟨trivial,hrecv.symm⟩)⟩
        · rintro ⟨hk,hc⟩
          rw [kill_of_state hk,Session.setPeer_eq_self]
          have hrecv : (s.peer p).lastrecv = env.now := by tauto
          rw [← hrecv]
      | false =>
        simp only [Bool.false_eq_true,if_false]
        constructor
        · intro hk
          obtain ⟨t,ht,hk⟩ := bind_ok.mp hk
          have hq := receiveBlock_ne_kill ((find_of_not_own hown).trans hd) ht
          have hcore : t.core = s.core := by
            rw [← core_killPeer s p,← Except.ok.inj hk]
            exact (core_setPeer t p rfl).symm
          exact (hq (by rw [hcore])).elim
        · rintro ⟨-,hc⟩
          exact (by tauto : False).elim

end Piece

/-- The block zero of piece 0, one byte long. -/
def pieceZeroMessage : Bytes := [msgPieceId,0,0,0,0,0,0,0,0,0]

theorem msgField_pieceZeroMessage (env : Env) :
    msgField env pieceZeroMessage 1 = 0 ∧ msgField env pieceZeroMessage 5 = 0 := by
  simp [msgField,msgByte,pieceZeroMessage,readBe32]

end Unworkable
