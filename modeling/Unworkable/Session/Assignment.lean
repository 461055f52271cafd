import Unworkable.Session.Representation
import Unworkable.Session.LonePeer

/-! # Blocks are assigned once

`scheduler_piece_gimme` hands out a block that nobody has asked for, or one whose request
was given up before it completed. As long as the endgame asks for nothing, no other code
makes a request, so that no block has two. This is shown on the finite map first; on the tree it
holds as long as the keys are near each other.
-/
namespace Unworkable
open Library

namespace DlStore

def Distinct (st : DlStore) : Prop :=
  ∀ d d' pd pd', st.dl d = some pd → st.dl d' = some pd' → pd.key = pd'.key → d = d'

/-- The live requests of `st'` are live in `st`, and for the same blocks. -/
def Shrinks (st st' : DlStore) : Prop := ∀ d pd', st'.dl d = some pd' → ∃ pd, st.dl d = some pd ∧ pd.key = pd'.key

def requestsFor {ι : Type} [RbIndex ι] (st : DlStore ι) (idx off : ℕ) : List DlId :=
  ((RbIndex.nodes st.index).filter (fun n => n.idx = idx ∧ n.off = off)).flatMap PieceDlIdxnode.dls

section Shrinks
variable {st st' st'' : DlStore} {p : PeerId} {d : DlId}

theorem Shrinks.refl (st : DlStore) : st.Shrinks st := fun _ pd h => ⟨pd,h,rfl⟩

theorem Shrinks.trans (h : st.Shrinks st') (h' : st'.Shrinks st'') : st.Shrinks st'' := by
  intro d pd'' hd
  obtain ⟨pd',hd',hk'⟩ := h' d pd'' hd
  obtain ⟨pd,hd,hk⟩ := h d pd' hd'
  exact ⟨pd,hd,hk.trans hk'⟩

theorem Distinct.shrinks (h : st.Distinct) (hs : st.Shrinks st') : st'.Distinct := by
  intro d d' pd pd' hd hd' hk
  obtain ⟨qd,hqd,hqk⟩ := hs d pd hd
  obtain ⟨qd',hqd',hqk'⟩ := hs d' pd' hd'
  exact h d d' qd qd' hqd hqd' (hqk.trans (hk.trans hqk'.symm))

theorem shrinks_set {f : PieceDl → PieceDl} (hf : ∀ pd, (f pd).key = pd.key) : st.Shrinks (st.set d f) := by
  intro e pd' he
  simp only [set,Function.update_apply] at he
  split at he
  · rename_i hed
    subst hed
    obtain ⟨pd,hpd,rfl⟩ := Option.map_eq_some_iff.mp he
    exact ⟨pd,hpd,(hf pd).symm⟩
  · exact ⟨pd',he,rfl⟩

theorem shrinks_free : st.Shrinks (networkPieceDlFree st d) := by
  intro e pd' he
  rw [free_dl] at he
  split at he
  · cases he
  · exact ⟨pd',he,rfl⟩

theorem shrinks_orphan : st.Shrinks (orphan p st d) := by
  intro e pd' he
  exact shrinks_set (f := fun pd => { pd with pc := none }) (fun _ => rfl) e pd' he

theorem shrinks_recycle : st.Shrinks (recycle p st d) := by
  intro e pd' he
  exact shrinks_set (f := fun pd => { pd with pc := some p }) (fun _ => rfl) e pd' he

theorem shrinks_peerFreeDls : st.Shrinks (peerFreeDls st p) := by
  refine foldl_rel (R := Shrinks) Shrinks.refl Shrinks.trans (st.lists p) ?_ st
  intro st d _
  unfold freeTurn
  dsimp only
  split
  · exact shrinks_orphan.trans shrinks_free
  · exact shrinks_orphan

theorem shrinks_foldl_orphan (l : List DlId) : st.Shrinks (l.foldl (orphan p) st) :=
  foldl_rel (R := Shrinks) Shrinks.refl Shrinks.trans l (fun _ _ _ => shrinks_orphan) st

theorem shrinks_cleanupDls {idx plen : ℕ} (h : cleanupDls st idx plen = .ok st') : st.Shrinks st' := by
  unfold cleanupDls at h
  split at h
  · cases h
  · cases h
    refine foldl_rel (R := Shrinks) Shrinks.refl Shrinks.trans (blockOffs plen) ?_ st
    intro st off _
    unfold cleanupTurn
    split
    · exact .refl st
    · exact shrinks_free

end Shrinks

section Distinct
variable {st : DlStore}

theorem distinct_empty : DlStore.empty.Distinct := nofun

/-- A new request for a block that has none. -/
theorem Distinct.create (h : st.Distinct) (hwf : st.Wf) {p : PeerId} {idx off len : ℕ}
    (hfind : networkPieceDlFind st none idx off = none) : (networkPieceDlCreate st p idx off len).1.Distinct := by
  have hnone := hwf.find_none.mp hfind
  intro d d' pd pd' hd hd' hk
  rw [create_dl] at hd hd'
  split at hd
  · rename_i hdn
    cases hd
    split at hd'
    · rename_i hdn'
      rw [hdn,hdn']
    · exact (hnone d' pd' hd' hk.symm).elim
  · split at hd'
    · cases hd'
      exact (hnone d pd hd hk).elim
    · exact h d d' pd pd' hd hd' hk

/-- A list without repetitions whose entries are all the same has at most one. -/
theorem length_le_one {α : Type} [DecidableEq α] {l : List α} (hl : l.Nodup) (h : ∀ a ∈ l, ∀ b ∈ l, a = b) :
    l.length ≤ 1 := by
  rw [← List.toFinset_card_of_nodup hl,Finset.card_le_one]
  intro a ha b hb
  exact h a (List.mem_toFinset.mp ha) b (List.mem_toFinset.mp hb)

theorem Distinct.requestsFor_le (h : st.Distinct) (hwf : st.Wf) (idx off : ℕ) :
    (st.requestsFor idx off).length ≤ 1 := by
  have hmem : ∀ n ∈ st.index.filter (fun n => n.idx = idx ∧ n.off = off), n ∈ st.index ∧ n.key = (idx,off) := by
    intro n hn
    obtain ⟨hn,hk⟩ := List.mem_filter.mp hn
    exact ⟨hn,by simpa [PieceDlIdxnode.key] using hk⟩
  have hnode : ∀ n ∈ st.index, n.dls.length ≤ 1 := by
    intro n hn
    refine length_le_one (hwf.once n hn) ?_
    intro d hd d' hd'
    obtain ⟨pd,hpd,hk⟩ := hwf.keyed n hn d hd
    obtain ⟨pd',hpd',hk'⟩ := hwf.keyed n hn d' hd'
    exact h d d' pd pd' hpd hpd' (hk.trans hk'.symm)
  have hone : (st.index.filter (fun n => n.idx = idx ∧ n.off = off)).length ≤ 1 := by
    refine length_le_one ((List.Nodup.of_map _ hwf.keys).filter _) ?_
    intro n hn m hm
    exact hwf.node_unique (hmem n hn).1 (hmem m hm).1 ((hmem n hn).2.trans (hmem m hm).2.symm)
  unfold requestsFor
  generalize st.index.filter (fun n => n.idx = idx ∧ n.off = off) = l at hmem hone ⊢
  rcases l with _ | ⟨n,_ | ⟨m,l⟩⟩
  · exact Nat.zero_le 1
  · simpa using hnode n (hmem n (List.mem_singleton_self n)).1
  · simp at hone

end Distinct

end DlStore

structure Core.Assigned (c : Core) : Prop where
  indexed : Indexed c.tp
  wf : c.store.Wf
  distinct : c.store.Distinct

theorem Core.Assigned.setTorrent {c : Core} (h : c.Assigned) {tp : Torrent} (htp : Indexed tp) :
    Core.Assigned { c with tp := tp } := ⟨htp,h.wf,h.distinct⟩

/-- Request `d` goes to `p` and to nobody else. It is new, for a block that had none, or it was
given up before it completed; it is the only one for its block, and the piece is not verified. -/
structure Handed {ι : Type} (s s' : Session ι) (p : PeerId) (d : DlId) (pd : PieceDl) : Prop where
  live : s'.store.dl d = some pd
  unverified : pd.idx < s.tp.numPieces ∧ (s.tp.piece pd.idx).cksumok = false
  new : (∀ e pe, s.store.dl e = some pe → pe.key ≠ pd.key) ∨
    ∃ old, s.store.dl d = some old ∧ old.key = pd.key ∧ old.pc = none ∧ old.outstanding = true
  owner : ∀ q, d ∈ s'.store.lists q ↔ q = p
  only : ∀ e pe, s'.store.dl e = some pe → pe.key = pd.key → e = d

section Gimme
variable {env : Env} {s s' : Session} {p : PeerId}

/-- The store after the block search, and the request it hands out. -/
theorem gimmeBlock_distinct {st st' : DlStore} {idx plen : ℕ} {offs : List ℕ} {d : DlId} (hwf : st.Wf)
    (hd : st.Distinct) (h : gimmeBlock st p idx plen offs = .ok (st',d)) : st'.Wf ∧ st'.Distinct ∧
      ∃ pd, st'.dl d = some pd ∧ pd.idx = idx ∧ pd.pc = some p ∧
        ((∀ e pe, st.dl e = some pe → pe.key ≠ pd.key) ∨
          ∃ old, st.dl d = some old ∧ old.key = pd.key ∧ old.pc = none ∧ old.outstanding = true) := by
  obtain ⟨off,-,⟨hfind,hcreate⟩ | ⟨hfind,hpc,hout,rfl⟩⟩ := gimmeBlock_cases h
  · have hst : st' = (networkPieceDlCreate st p idx off (blockLen plen off)).1 := congrArg Prod.fst hcreate.symm
    have hnext : d = st.next := congrArg Prod.snd hcreate.symm
    subst hst hnext
    refine ⟨hwf.create p idx off _,hd.create hwf hfind,⟨some p,idx,off,blockLen plen off,0⟩,?_,rfl,rfl,
      .inl (hwf.find_none.mp hfind)⟩
    rw [DlStore.create_dl]
    exact if_pos rfl
  · obtain ⟨old,hold,hkey⟩ := hwf.find_some hfind
    rw [DlStore.get_of_dl hold] at hpc hout
    refine ⟨hwf.recycle hold hpc p,hd.shrinks DlStore.shrinks_recycle,{ old with pc := some p },?_,
      congrArg Prod.fst hkey,rfl,.inr ⟨old,hold,rfl,hpc,hout⟩⟩
    rw [DlStore.recycle_dl,if_pos rfl,hold]
    rfl

/-- `scheduler_piece_gimme` hands out nothing and leaves the ledger as it is, or it hands out a
request. -/
theorem schedulerPieceGimme_handed (hs : s.core.Assigned) {r : Option DlId} {hint : Bool}
    (h : schedulerPieceGimme env s p false = .ok (s',r,hint)) : s'.core.Assigned ∧ s'.tp = s.tp ∧
      ∀ d, r = some d → ∃ pd, Handed s s' p d pd := by
  unfold schedulerPieceGimme at h
  obtain ⟨⟨t,found⟩,ht,h⟩ := bind_ok.mp h
  have hcore := core_gimmePiece ht
  have htp : t.tp = s.tp := congrArg Core.tp hcore
  have hstore : t.store = s.store := congrArg Core.store hcore
  cases found with
  | none =>
    cases h
    rw [hcore]
    exact ⟨hs,htp,nofun⟩
  | some idx =>
    obtain ⟨hidx,hck,-⟩ := gimmePiece_wanted hs.indexed ht
    obtain ⟨tpp,-,h⟩ := bind_ok.mp h
    obtain ⟨⟨store,d⟩,hblock,h⟩ := bind_ok.mp h
    cases h
    rw [hstore] at hblock
    obtain ⟨hwf,hdist,pd,hpd,hpidx,hpc,hnew⟩ := gimmeBlock_distinct hs.wf hs.distinct hblock
    refine ⟨⟨?_,hwf,hdist⟩,htp,?_⟩
    · rw [show ({ t with store := store } : Session).core.tp = s.tp from htp]
      exact hs.indexed
    · intro e he
      cases he
      refine ⟨pd,hpd,?_,hnew,?_,?_⟩
      · rw [hpidx]
        exact ⟨hidx,hck⟩
      · intro q
        refine (hwf.listed q d).trans ⟨?_,?_⟩
        · rintro ⟨pd',hpd',hq⟩
          cases hpd.symm.trans hpd'
          exact Option.some.inj (hq.symm.trans hpc)
        · rintro rfl
          exact ⟨pd,hpd,hpc⟩
      · intro e pe he hk
        exact hdist e d pe pd he hpd hk

end Gimme

section Tick
variable {env : Env} {s s' : Session} {p : PeerId}

theorem fillLoop_assigned {n : ℕ} (hs : s.core.Assigned) (h : fillLoop env p n s = .ok s') : s'.core.Assigned := by
  induction n generalizing s with
  | zero =>
    cases h
    exact hs
  | succ n ih =>
    simp only [fillLoop] at h
    obtain ⟨⟨t,r,hint⟩,ht,h⟩ := bind_ok.mp h
    obtain ⟨hassigned,-,-⟩ := schedulerPieceGimme_handed hs ht
    cases r with
    | none => exact ih hassigned h
    | some d =>
      refine ih ?_ h
      rw [core_setPeer_queue (g := (add32 · 1)) _ _ rfl,networkPeerRequestBlock,core_networkPeerWrite]
      exact ⟨hassigned.indexed,hassigned.wf,hassigned.distinct⟩

theorem schedulerDequeueUploads_assigned (hs : s.core.Assigned) (h : schedulerDequeueUploads env s p = .ok s') :
    s'.core.Assigned := by
  rcases schedulerDequeueUploads_core h with hcore | ⟨idx,tp,htp,hcore⟩
  · rw [hcore]
    exact hs
  · rw [hcore]
    have hmoves : Moves (fun _ => []) s.core { s.core with tp := tp } := (ensureMapped_moves htp).routines.moves
    exact hs.setTorrent ((indexed_steady _).moves hmoves hs.indexed)

theorem Attend.assigned {c c' : Core} (h : Attend c c') (hc : c.Assigned) : c'.Assigned := by
  cases h with
  | drop p => exact ⟨hc.indexed,(hc.wf.peerFreeDls p).1,hc.distinct.shrinks DlStore.shrinks_peerFreeDls⟩
  | join => exact ⟨hc.indexed,hc.wf,hc.distinct⟩

theorem Attends.assigned {c c' : Core} (h : Attends c c') (hc : c.Assigned) : c'.Assigned := by
  induction h with
  | refl => exact hc
  | tail _ hmove ih => exact hmove.assigned ih

theorem schedulerPeer_assigned (hs : s.core.Assigned) (h : schedulerPeer env s p = .ok s') : s'.core.Assigned := by
  rcases schedulerPeer_cases h with rfl | hcore | ⟨t,ht,h⟩
  · exact dropPeer_attend.assigned hs
  · rw [hcore]
    exact hs
  · have htassigned := schedulerDequeueUploads_assigned hs ht
    simp only [schedulerFillRequests] at h
    split at h
    · exact fillLoop_assigned htassigned h
    · cases h
      exact htassigned

theorem foldlM_schedulerPeer_assigned {ps : List PeerId} (hs : s.core.Assigned)
    (h : ps.foldlM (schedulerPeer env) s = .ok s') : s'.core.Assigned :=
  foldlM_rel (R := fun t t' : Session => t.core.Assigned → t'.core.Assigned) (fun _ h => h)
    (fun hab hbc h => hbc (hab h)) ps (fun _ _ _ _ ht hs => schedulerPeer_assigned hs ht) h hs

/-- A state in which a tick begun in `s` calls `scheduler_piece_gimme` for `p`: the peers before
`p` have been looked after, its upload is sent, and the request loop has made some turns. -/
def FillsAt {ι : Type} [RbIndex ι] (env : Env) (s : Session ι) (p : PeerId) (t : Session ι) : Prop :=
  ∃ before after s₁ s₂ n, s.peers = before ++ p :: after ∧ before.foldlM (schedulerPeer env) s = .ok s₁ ∧
    schedulerDequeueUploads env s₁ p = .ok s₂ ∧ fillLoop env p n s₂ = .ok t

theorem FillsAt.assigned {t : Session} (h : FillsAt env s p t) (hs : s.core.Assigned) : t.core.Assigned := by
  obtain ⟨before,after,s₁,s₂,n,-,h₁,h₂,hfill⟩ := h
  exact fillLoop_assigned (schedulerDequeueUploads_assigned (foldlM_schedulerPeer_assigned hs h₁) h₂) hfill

end Tick

section Endgame
variable {env : Env} {s s' : Session}

def Numbers (s s' : Session) : Prop := s'.store = s.store ∨ s.store.next < s'.store.next

theorem Numbers.refl (s : Session) : Numbers s s := .inl rfl

theorem Numbers.trans {a b c : Session} (h : Numbers a b) (h' : Numbers b c) : Numbers a c := by
  rcases h with h | h
  · rcases h' with h' | h'
    · exact .inl (h'.trans h)
    · rw [h] at h'
      exact .inr h'
  · rcases h' with h' | h'
    · rw [← h'] at h
      exact .inr h
    · exact .inr (h.trans h')

theorem endgamePeer_numbers {i plen : ℕ} {p : PeerId} (h : endgamePeer env i plen s p = .ok s') : Numbers s s' := by
  unfold endgamePeer at h
  split at h
  · cases h
    exact .refl s
  · obtain ⟨has,-,h⟩ := bind_ok.mp h
    split_ifs at h
    · cases h
      exact .refl s
    · cases h
      exact .refl s
    · cases h
      refine foldl_rel (R := Numbers) Numbers.refl Numbers.trans (blockOffs plen) ?_ s
      intro t off _
      unfold endgameBlock
      split
      · exact .refl t
      · exact .inr (Nat.lt_succ_self _)

theorem schedulerEndgameAlgorithm_numbers (h : schedulerEndgameAlgorithm env s = .ok s') : Numbers s s' := by
  refine foldlM_rel (R := Numbers) Numbers.refl Numbers.trans _ ?_ h
  intro t t' i _ ht
  unfold endgamePiece at ht
  obtain ⟨tpp,-,ht⟩ := bind_ok.mp ht
  split at ht
  · cases ht
    exact .refl t
  · exact foldlM_rel (R := Numbers) Numbers.refl Numbers.trans _ (fun _ _ _ _ hp => endgamePeer_numbers hp) ht

/-- How many requests `scheduler_endgame_algorithm` makes in a tick. -/
def endgameRequests {ι : Type} [RbIndex ι] (env : Env) (s : Session ι) : ℕ :=
  let made : Except Halt ℕ := do
    let s ← s.peers.foldlM (schedulerPeer env) s
    let s ← schedulerChokeAlgorithm env s
    let endgame ← schedulerIsEndgame s
    let s' ← (if endgame then schedulerEndgameAlgorithm env s else .ok s)
    .ok (s'.store.next - s.store.next)
  made.toOption.getD 0

def EndgameIdle {ι : Type} [RbIndex ι] (s : Session ι) : Env × Event → Prop
  | (env,.scheduler) => endgameRequests env s = 0
  | _ => True

instance {ι : Type} [RbIndex ι] (s : Session ι) (e : Env × Event) : Decidable (EndgameIdle s e) :=
  match e with
  | (env,.scheduler) => inferInstanceAs (Decidable (endgameRequests env s = 0))
  | (_,.response _ _) | (_,.error _) | (_,.keepalive _) | (_,.accept _) | (_,.tracker _) | (_,.announceTimer) =>
    .isTrue trivial

theorem scheduler_idle (hidle : endgameRequests env s = 0) (h : scheduler env s = .ok s') :
    ∃ s₁, s.peers.foldlM (schedulerPeer env) s = .ok s₁ ∧ s'.store = s₁.store := by
  unfold scheduler at h
  obtain ⟨s₁,h₁,h⟩ := bind_ok.mp h
  obtain ⟨s₂,h₂,h⟩ := bind_ok.mp h
  obtain ⟨endgame,h₃,h⟩ := bind_ok.mp h
  obtain ⟨s₃,h₄,h⟩ := bind_ok.mp h
  have hzero : s₃.store.next - s₂.store.next = 0 := by
    simpa [endgameRequests,h₁,h₂,h₃,h₄,Except.toOption] using hidle
  have hnumbers : Numbers s₂ s₃ := by
    split at h₄
    · exact schedulerEndgameAlgorithm_numbers h₄
    · cases h₄
      exact .refl s₂
  have hlast : s'.core = s₃.core := by
    split at h
    · exact core_announce h
    · cases h
      rfl
  refine ⟨s₁,h₁,?_⟩
  rw [show s'.store = s₃.store from congrArg Core.store hlast,
    show s₁.store = s₂.store from (congrArg Core.store (core_schedulerChokeAlgorithm h₂)).symm]
  rcases hnumbers with heq | hlt
  · exact heq
  · exact (Nat.not_lt.mpr (Nat.sub_eq_zero_iff_le.mp hzero) hlt).elim

end Endgame

section Steps
variable {sha1 : Bytes → Bytes} {env : Env} {s s' : Session} {p : PeerId}

/-- A message makes no request. -/
theorem networkPeerProcessMessage_shrinks {id : UInt8} {msg : Bytes}
    (h : networkPeerProcessMessage sha1 env s p id msg = .ok s') : s.store.Shrinks s'.store := by
  rcases networkPeerProcessMessage_cases h with hcore | ⟨-,hfast,hcore⟩ | ⟨-,hcore⟩ | ⟨-,d,t,hacc,ht,hcore⟩
  · rw [show s'.store = s.store from congrArg Core.store hcore]
    exact .refl _
  · rw [core_msgChoke_slow hfast] at hcore
    rw [show s'.store = (s.store.lists p).foldl (orphan p) s.store from congrArg Core.store hcore]
    exact DlStore.shrinks_foldl_orphan _
  · rcases msgReject_cases env s p msg with heq | ⟨d,-,-,-,heq⟩
    · rw [show s'.store = s.store from congrArg Core.store (hcore.trans heq)]
      exact .refl _
    · rw [show s'.store = networkPieceDlFree s.store d from congrArg Core.store (hcore.trans heq)]
      exact DlStore.shrinks_free
  · obtain ⟨tp₁,tp₂,-,-,hend⟩ := receiveBlock_cases hacc.found ht
    have hdeliver : s.store.Shrinks (Core.deliver { s.core with tp := tp₁ } p d (msgField env msg 1)
      (msgField env msg 5)
        (msg.drop 9)).store :=
      DlStore.shrinks_set (f := fun pd => { pd with bytes := add32 pd.bytes (msg.drop 9).length }) (fun _ => rfl)
    rw [show s'.store = t.store from congrArg Core.store hcore]
    rcases hend with hend | ⟨st,-,hclean,hend⟩
    · rw [show t.store = _ from congrArg Core.store hend]
      exact hdeliver
    · rw [show t.store = st from congrArg Core.store hend]
      exact hdeliver.trans (DlStore.shrinks_cleanupDls hclean)

/-- A step in which the endgame is idle keeps every block at one request. -/
theorem step_assigned (hp : s.core.Peered) (hsound : s.core.Sound) (hs : s.core.Assigned) {e : Env × Event}
    (hidle : EndgameIdle s e) (h : step sha1 s e = .ok s') : s'.core.Assigned := by
  have hmoves := step_moves hp h
  refine ⟨(indexed_steady sha1).moves hmoves hs.indexed,(hsound.moves hmoves).wf,?_⟩
  obtain ⟨env,e⟩ := e
  cases e with
  | response p avail =>
    simp only [step] at h
    split at h
    · rcases peerResponse_cases h with ⟨-,hcore⟩ | ⟨msg,t,-,hcore,hmsg⟩
      · rw [hcore]
        exact hs.distinct
      · have hshrinks := networkPeerProcessMessage_shrinks hmsg
        rw [Session.setPeer_store] at hshrinks
        rw [hcore]
        exact hs.distinct.shrinks hshrinks
    · cases h
      exact hs.distinct
  | scheduler =>
    obtain ⟨s₁,h₁,hstore⟩ := scheduler_idle hidle h
    rw [show s'.core.store = s₁.core.store from hstore]
    exact (foldlM_schedulerPeer_assigned hs h₁).distinct
  | _ => exact ((step_attends (by intros; simp) (by simp) h).assigned hs).distinct

end Steps

/-- No block has two requests, and none is outstanding at two peers. -/
structure AssignedOnce {ι : Type} [RbIndex ι] (s : Session ι) : Prop where
  requests : ∀ idx off, (s.store.requestsFor idx off).length ≤ 1
  peers : ∀ p q d d', d ∈ s.store.lists p → d' ∈ s.store.lists q → (s.store.get d).key = (s.store.get d').key →
    (s.store.get d).outstanding = true → (s.store.get d').outstanding = true → p = q

theorem Core.Assigned.once {s : Session} (h : s.core.Assigned) : AssignedOnce s where
  requests := h.distinct.requestsFor_le h.wf
  peers p q d d' hd hd' hk _ _ := by
    have hwf : s.store.Wf := h.wf
    obtain ⟨pd,hpd,hpc⟩ := hwf.dl_of_mem_lists hd
    obtain ⟨pd',hpd',hpc'⟩ := hwf.dl_of_mem_lists hd'
    rw [DlStore.get_of_dl hpd,DlStore.get_of_dl hpd'] at hk
    cases h.distinct d d' pd pd' hpd hpd' hk
    cases hpd.symm.trans hpd'
    exact Option.some.inj (hpc.symm.trans hpc')

theorem Boot.session_assigned {sha1 : Bytes → Bytes} {b : Boot} {s : Session} (h : b.session sha1 = .ok s) :
    s.core.Peered ∧ s.core.Sound ∧ s.core.Assigned := by
  have hreach : Reachable sha1 b s := ⟨[],by rw [Boot.run,h]; rfl⟩
  obtain ⟨hsound,-⟩ := hreach.sound
  have hindexed : Indexed s.core.tp := (indexed_steady sha1).session (indexed_create b.mi b.disk) h
  obtain ⟨tp,-,rfl⟩ := Boot.session_ok h
  exact ⟨initial_peered _ _ _ _ _,hsound,hindexed,hsound.wf,DlStore.distinct_empty⟩

section Tree
variable {sha1 : Bytes → Bytes} {env : Env} {t : Session NodeTree} {s : Session} {p : PeerId}

theorem run_assigned {b : Boot} {s₀ : Session} {es : List (Env × Event)} (hboot : b.session sha1 = .ok s₀)
    (hrun : run sha1 s₀ es = .ok s) (hmeets : RunMeets sha1 EndgameIdle s₀ es) : s.core.Assigned := by
  have hinv := hmeets.invariant (I := fun s => s.core.Peered ∧ s.core.Sound ∧ s.core.Assigned) ?_
    (Boot.session_assigned hboot) hrun
  · exact hinv.2.2
  · rintro t e t' ⟨hp,hsound,hassigned⟩ hidle hstep
    have hmoves := step_moves hp hstep
    exact ⟨hp.moves hmoves,hsound.moves hmoves,step_assigned hp hsound hassigned hidle hstep⟩

namespace Agree

theorem assignedOnce (h : Agree t s) (hs : AssignedOnce s) : AssignedOnce t where
  requests idx off := by
    have hsame : t.store.requestsFor idx off = s.store.requestsFor idx off := by
      unfold DlStore.requestsFor
      rw [h.nodes]
    rw [hsame]
    exact hs.requests idx off
  peers p q d d' := by
    rw [h.lists,h.get]
    exact hs.peers p q d d'

theorem endgameRequests (h : Agree t s) : Unworkable.endgameRequests env t = Unworkable.endgameRequests env s := by
  unfold Unworkable.endgameRequests
  dsimp only
  rw [h.peers]
  refine congrArg (fun made : Except Halt ℕ => made.toOption.getD 0) (Lockstep.eq ?_)
  refine (Lockstep.foldlM (fun a b q hab => hab.schedulerPeer) _ h).bind fun a b hab => ?_
  refine hab.schedulerChokeAlgorithm.bind fun a b hab => ?_
  rw [hab.schedulerIsEndgame]
  refine (Lockstep.same _).bind ?_
  rintro endgame _ rfl
  refine (hab.schedulerEndgameAlgorithm.ite (.ok hab)).bind fun a' b' hab' => ?_
  rw [hab.next,hab'.next]
  exact .same _

theorem endgameIdle (h : Agree t s) {e : Env × Event} (hidle : EndgameIdle t e) : EndgameIdle s e := by
  obtain ⟨env,e⟩ := e
  cases e with
  | scheduler => exact h.endgameRequests.symm.trans hidle
  | _ => trivial

/-- A tick on the tree gets where the tick on the finite map gets. -/
theorem fillsAt (h : Agree t s) {u : Session NodeTree} (hfill : FillsAt env t p u) :
    ∃ v, FillsAt env s p v ∧ Agree u v := by
  obtain ⟨before,after,t₁,t₂,n,hpeers,h₁,h₂,hfill⟩ := hfill
  rw [h.peers] at hpeers
  obtain ⟨s₁,hs₁,hts₁⟩ := (Lockstep.foldlM (fun a b q hab => hab.schedulerPeer) before h).left h₁
  obtain ⟨s₂,hs₂,hts₂⟩ := hts₁.schedulerDequeueUploads.left h₂
  obtain ⟨v,hv,huv⟩ := (hts₂.fillLoop n).left hfill
  exact ⟨v,⟨before,after,s₁,s₂,n,hpeers,hs₁,hs₂,hv⟩,huv⟩

theorem handed {t' : Session NodeTree} {s' : Session} (h : Agree t s) (h' : Agree t' s') {d : DlId} {pd : PieceDl}
    (hs : Handed s s' p d pd) : Handed t t' p d pd where
  live := h'.dl ▸ hs.live
  unverified := h.tp ▸ hs.unverified
  new := h.dl ▸ hs.new
  owner := h'.lists ▸ hs.owner
  only := h'.dl ▸ hs.only

end Agree

end Tree

/-- On a torrent whose blocks have keys that are near each other: while the endgame makes no request, no block
has two requests, in any state of the run and wherever a tick calls `scheduler_piece_gimme`, and what that call
hands out is new for a block without requests or an orphaned incomplete request, now the peer's alone, in a
piece that is not verified. No callback of any run ends in the abort of its block search. -/
theorem blocks_assigned_once (sha1 : Bytes → Bytes) (b : Boot) (hnear : b.mi.Near) (t₀ t : Session NodeTree)
    (es : List (Env × Event)) (hboot : b.start sha1 NodeTree = .ok t₀) (hrun : run sha1 t₀ es = .ok t) :
    (RunMeets sha1 EndgameIdle t₀ es → AssignedOnce t ∧ ∀ env p u, FillsAt env t p u → AssignedOnce u ∧
      ∀ u' d hint, schedulerPieceGimme env u p false = .ok (u',some d,hint) →
        AssignedOnce u' ∧ ∃ pd, Handed u u' p d pd) ∧
    ∀ e, step sha1 t e ≠ .error badOffset := by
  obtain ⟨s₀,hs₀,h₀⟩ := (Boot.start_agrees hnear).left hboot
  obtain ⟨s,hs,h⟩ := (h₀.run es).left hrun
  constructor
  · intro hmeets
    have hidle : RunMeets sha1 EndgameIdle s₀ es :=
      h₀.runMeets (C := EndgameIdle) (D := EndgameIdle) (fun _ _ _ hab => hab.endgameIdle) hmeets
    have hassigned := run_assigned hs₀ hs hidle
    refine ⟨h.assignedOnce hassigned.once,?_⟩
    intro env p u hfill
    obtain ⟨v,hv,huv⟩ := h.fillsAt hfill
    have hfilled := hv.assigned hassigned
    refine ⟨huv.assignedOnce hfilled.once,?_⟩
    intro u' d hint hgimme
    obtain ⟨⟨v',r⟩,hgimme',⟨huv',hr⟩⟩ := (huv.schedulerPieceGimme false).left hgimme
    obtain rfl := hr
    obtain ⟨hassigned',-,hhanded⟩ := schedulerPieceGimme_handed hfilled hgimme'
    obtain ⟨pd,hpd⟩ := hhanded d rfl
    exact ⟨huv'.assignedOnce hassigned'.once,pd,huv.handed huv' hpd⟩
  · intro e he
    obtain ⟨hpeered,-,hassigned⟩ := Boot.session_assigned hs₀
    have hmoves := run_moves hpeered hs
    exact step_avoids (hpeered.moves hmoves) ((indexed_steady sha1).moves hmoves hassigned.indexed)
      e ((h.step e).error_iff.mp he)

theorem endgameRequests_eq_zero {ι : Type} [RbIndex ι] {env : Env} {s t : Session ι}
    (h : s.peers.foldlM (schedulerPeer env) s = .ok t)
    (hnow : env.now % 10 ≠ 0) (hendgame : schedulerIsEndgame t = .ok false) : endgameRequests env s = 0 := by
  unfold endgameRequests
  simp [h,schedulerChokeAlgorithm,hnow,hendgame,ok_bind,Except.toOption]

theorem endgameIdle_inputs {ι : Type} [RbIndex ι] (s : Session ι) {now : ℕ} {p : PeerId}
    {portions : List Bytes} {e : Env × Event}
    (he : e ∈ inputs now p portions) : EndgameIdle s e := by
  obtain ⟨bs,-,rfl⟩ := List.mem_map.mp he
  trivial

/-- With keys far apart a block gets a second request: in one tick outside the endgame the peer is asked twice
for the first block of the first piece. -/
theorem block_assigned_twice : ∃ s t : Session NodeTree, (Boot.many farCount).start sha1ZeroByte NodeTree = .ok s ∧
    run sha1ZeroByte s (farPrelude ++ [(.far,.scheduler)]) = .ok t ∧
    RunMeets sha1ZeroByte EndgameIdle s (farPrelude ++ [(.far,.scheduler)]) ∧ t.store.requestsFor 0 0 = [0,8] ∧
    ¬ AssignedOnce t := by
  obtain ⟨s,msg,hs,hblank,hunderway,hprelude⟩ := far_prelude sha1ZeroByte
  obtain ⟨t,hstore,hpeers,hendgame,htick⟩ := far_tick sha1ZeroByte hblank hunderway msg
  have htwice : (askAll .empty farPieces : DlStore NodeTree).requestsFor 0 0 = [0,8] := by decide +kernel
  refine ⟨s,t,hs,?_,?_,hstore ▸ htwice,?_⟩
  · rw [run_append hprelude,run,List.foldlM_cons,htick]
    rfl
  · refine RunMeets.append (.of_forall fun e he u => ?_) fun u hu => ?_
    · simp only [farPrelude,shakeRun,readyInputs,List.cons_append,List.mem_cons,List.mem_append] at he
      rcases he with rfl | he | he | he | he
      · trivial
      all_goals exact endgameIdle_inputs u he
    · cases hprelude.symm.trans hu
      exact ⟨endgameRequests_eq_zero hpeers (by decide) hendgame,fun _ _ => trivial⟩
  · intro honce
    have hle := honce.requests 0 0
    rw [hstore,htwice] at hle
    exact absurd hle (by decide)

/-- The run that asks a peer for the only piece there is. -/
theorem blocks_assigned_once_oneRequest : ∃ t₀ t, (Boot.oneByte (List.replicate 20 0) 1).start
    sha1ZeroByte NodeTree = .ok t₀ ∧
    run sha1ZeroByte t₀ oneRequestRun = .ok t ∧ t.store.requestsFor 0 0 = [0] ∧ AssignedOnce t ∧
    ∀ e, step sha1ZeroByte t e ≠ .error badOffset := by
  obtain ⟨t₀,ht₀,hP⟩ := exists_ok (x := (Boot.oneByte (List.replicate 20 0) 1).start sha1ZeroByte NodeTree)
    (P := fun t => runMeets sha1ZeroByte EndgameIdle t oneRequestRun &&
      ((run sha1ZeroByte t oneRequestRun).toOption.map (fun t => decide (t.store.requestsFor 0 0 = [0]))) == some true)
    (by decide +kernel)
  obtain ⟨hmeets,hrun⟩ := Bool.and_eq_true_iff.mp hP
  obtain ⟨t,ht,hone⟩ := exists_ok (eq_of_beq hrun)
  obtain ⟨honce,havoids⟩ := blocks_assigned_once sha1ZeroByte _
    (@Boot.near_oneByte (List.replicate 20 0) (by decide)) t₀ t
    oneRequestRun ht₀ ht
  exact ⟨t₀,t,ht₀,ht,of_decide_eq_true hone,(honce (runMeets_iff.mp hmeets)).1,havoids⟩

end Unworkable
