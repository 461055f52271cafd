import Unworkable.Session.TreeRun

/-! # Requests that REJECT and the cleanup discard

Both free the request that `network_piece_dl_find` gives them. REJECT passes the sender, and is
answered from the index of all requests when the list of the sender has none. The cleanup
after a hash check passes no peer, and frees the first request of each block of the piece.
What they leave is described on the finite map first, then on the tree with keys near each other.
-/
namespace Unworkable
open Library

/-- Every request is for a piece of the torrent, and the queue lengths have 32 bits. -/
structure Core.InRange (c : Core) : Prop where
  requests : c.store.All (fun pd => pd.idx < c.tp.numPieces)
  queues : ∀ q, c.queue q < 4294967296

namespace Core.InRange
variable {sha1 : Bytes → Bytes} {c c' : Core}

theorem pc {n : ℕ} (pd : PieceDl) (pc : Option PeerId) (h : pd.idx < n) : ({ pd with pc := pc } : PieceDl).idx < n := h

theorem setQueue (h : ∀ q, c.queue q < 4294967296) (p : PeerId) (f : ℕ → ℕ) (hf : f (c.queue p) < 4294967296)
    (q : PeerId) : (c.setQueue p f).queue q < 4294967296 := by
  simp only [Core.setQueue,Function.update_apply]
  split
  · exact hf
  · exact h q

theorem ask (h : c.InRange) {p : PeerId} (ha : Ask p c c') : c'.InRange := by
  cases ha with
  | request hp hidx hoff => exact ⟨h.requests.create hidx,setQueue h.queues p (add32 · 1) (wrap32_lt _)⟩
  | recycle hp hfind hpc hout => exact ⟨h.requests.recycle pc,setQueue h.queues p (add32 · 1) (wrap32_lt _)⟩

theorem setTorrent (h : c.InRange) {tp' : Torrent} (hmi : tp'.mi = c.tp.mi) : Core.InRange { c with tp := tp' } := by
  refine ⟨?_,h.queues⟩
  have hn : tp'.numPieces = c.tp.numPieces := congrArg Metainfo.numPieces hmi
  intro d pd hd
  dsimp only
  rw [hn]
  exact h.requests d pd hd

theorem routine (h : c.InRange) (hmove : Routine sha1 c c') : c'.InRange := by
  cases hmove with
  | torrent htm => exact h.setTorrent htm.mi
  | ask p ha => exact h.ask ha
  | attend ha =>
    cases ha with
    | drop p => exact ⟨h.requests.peerFreeDls pc,h.queues⟩
    | join => exact ⟨h.requests,setQueue h.queues _ (fun _ => 0) (show 0 < 4294967296 by decide)⟩

theorem move (h : c.InRange) (hmove : Move sha1 c c') : c'.InRange := by
  cases hmove with
  | routine hr => exact h.routine hr
  | choke p =>
    have hqueue : (c.store.lists p).foldl (fun n _ => sub32 n 1) (c.queue p) < 4294967296 :=
      foldl_rel (R := fun n m => n < 4294967296 → m < 4294967296) (fun _ => id) (fun hab hbc ha => hbc (hab ha))
        _ (fun _ _ _ _ => wrap32_lt _) _ (h.queues p)
    exact ⟨h.requests.foldl_orphan pc _,
      setQueue h.queues p (fun n => (c.store.lists p).foldl (fun n _ => sub32 n 1) n) hqueue⟩
  | @reject p d idx off hfind => exact ⟨h.requests.free d,setQueue h.queues p (sub32 · 1) (wrap32_lt _)⟩
  | @deliver p d idx off data hidx hck hmap hfind hlen =>
    have hdelivered : Core.InRange { c.setQueue p (sub32 · 1) with
        store := c.store.set d (fun pd => { pd with bytes := add32 pd.bytes data.length }) } :=
      ⟨h.requests.set (fun pd hpd => h.requests d pd hpd),setQueue h.queues p (sub32 · 1) (wrap32_lt _)⟩
    exact hdelivered.setTorrent (torrentBlockWrite_mi _ _ _ _ _)
  | free hfind => exact ⟨h.requests.free _,h.queues⟩

theorem moves (h : c.InRange) (hmoves : Moves sha1 c c') : c'.InRange := by
  induction hmoves with
  | refl => exact h
  | tail _ hmove ih => exact ih.move hmove

end Core.InRange

theorem Reachable.inRange {sha1 : Bytes → Bytes} {b : Boot} {s : Session} (h : Reachable sha1 b s) :
    s.core.InRange := by
  obtain ⟨tp,htp,hmoves⟩ := h.moves
  refine Core.InRange.moves ⟨?_,fun _ => show 0 < 4294967296 by decide⟩ hmoves
  intro d pd hd
  cases hd

section Reject
variable {env : Env} {s : Session} {p : PeerId} {msg : Bytes} {st : DlStore} {idx off : ℕ}

/-- The first request for the block on the list of `p` itself. -/
def DlStore.ownFind {ι : Type} (st : DlStore ι) (p : PeerId) (idx off : ℕ) : Option DlId :=
  (st.lists p).find? (fun d => (st.get d).off = off ∧ (st.get d).idx = idx)

/-- A request of `p` for the block, still outstanding. -/
def Pending {ι : Type} (st : DlStore ι) (p : PeerId) (idx off : ℕ) (d : DlId) : Prop :=
  Own st p d ∧ (st.get d).key = (idx,off)

/-- One pending request of the sender is removed if there is one, and nothing else: the length
of its queue drops by the number of requests removed. -/
def RejectLocal {ι : Type} [RbIndex ι] (s s' : Session ι) (p : PeerId) (idx off : ℕ) : Prop :=
  (∃ d, Pending s.store p idx off d ∧ s'.store = networkPieceDlFree s.store d ∧
    (s'.peer p).dlQueueLen + 1 = (s.peer p).dlQueueLen) ∨
  (∀ d, ¬ Pending s.store p idx off d) ∧ s'.store = s.store ∧ (s'.peer p).dlQueueLen = (s.peer p).dlQueueLen

theorem find_of_ownFind {d : DlId} (h : st.ownFind p idx off = some d) :
    networkPieceDlFind st (some p) idx off = some d := by
  unfold DlStore.ownFind at h
  simp only [networkPieceDlFind,h]

theorem find_of_ownFind_none (h : st.ownFind p idx off = none) :
    networkPieceDlFind st (some p) idx off = networkPieceDlFind st none idx off := by
  unfold DlStore.ownFind at h
  simp only [networkPieceDlFind,h]

theorem mem_of_ownFind {d : DlId} (h : st.ownFind p idx off = some d) :
    d ∈ st.lists p ∧ (st.get d).key = (idx,off) := by
  refine ⟨List.mem_of_find?_eq_some h,?_⟩
  simpa [PieceDl.key,and_comm] using List.find?_some h

/-- A peer without a request for the block on its list has none pending. -/
theorem not_pending_of_ownFind (h : st.ownFind p idx off = none) (d : DlId) : ¬ Pending st p idx off d := by
  rintro ⟨⟨hd,-⟩,hkey⟩
  refine (List.find?_eq_none.mp h) d hd ?_
  simpa [PieceDl.key,and_comm] using hkey

theorem not_pending_of_no_live (hwf : st.Wf) (h : ∀ d pd, st.dl d = some pd → pd.key ≠ (idx,off)) (d : DlId) :
    ¬ Pending st p idx off d := by
  rintro ⟨⟨hd,-⟩,hkey⟩
  obtain ⟨pd,hpd,-⟩ := hwf.dl_of_mem_lists hd
  rw [DlStore.get_of_dl hpd] at hkey
  exact h d pd hpd hkey

/-- Freeing a live request changes the store, and shows which request was freed. -/
theorem free_ne {d : DlId} {pd : PieceDl} (hd : st.dl d = some pd) : networkPieceDlFree st d ≠ st := by
  intro h
  have hdl := congrArg (fun st => st.dl d) h
  simp [DlStore.free_dl,hd] at hdl

theorem free_inj {d e : DlId} {pd : PieceDl} (hd : st.dl d = some pd)
    (h : networkPieceDlFree st d = networkPieceDlFree st e) : d = e := by
  by_contra hne
  have hdl := congrArg (fun st => st.dl d) h
  simp [DlStore.free_dl,hd,hne] at hdl

/-- What REJECT from a fast peer does for a request that the lookup gives. -/
theorem msgReject_some (env : Env) (msg : Bytes) {d : DlId} (hfast : (s.peer p).state.fast = true)
    (hidx : indexRefused s (msgField env msg 1) = false)
    (hfind : networkPieceDlFind s.store (some p) (msgField env msg 1) (msgField env msg 5) = some d) :
    (msgReject env s p msg).store = networkPieceDlFree s.store d ∧
      ((msgReject env s p msg).peer p).dlQueueLen = sub32 (s.peer p).dlQueueLen 1 := by
  simp [msgReject,hfast,hidx,hfind]

theorem msgReject_none (hfast : (s.peer p).state.fast = true)
    (h : indexRefused s (msgField env msg 1) = true ∨
      networkPieceDlFind s.store (some p) (msgField env msg 1) (msgField env msg 5) = none) :
    msgReject env s p msg = s := by
  rcases h with h | h <;> simp [msgReject,hfast,h]

theorem sub32_one_succ {n : ℕ} (hn : n < 4294967296) : sub32 n 1 + 1 = n ↔ 0 < n := by
  unfold sub32 wrap32
  omega

/-- Where the lookup of REJECT gives nothing, there is nothing to remove. -/
theorem rejectLocal_self (h : ∀ d, ¬ Pending s.store p idx off d) : RejectLocal s s p idx off := .inr ⟨h,rfl,rfl⟩

/-- REJECT from a fast peer is local if and only if nobody has a request for the block, or the first
one of the sender is outstanding and its queue is not empty. -/
theorem rejectLocal_iff {sha1 : Bytes → Bytes} {b : Boot} (h : Reachable sha1 b s)
    (hfast : (s.peer p).state.fast = true) :
    RejectLocal s (msgReject env s p msg) p (msgField env msg 1) (msgField env msg 5) ↔
    (∀ d pd, s.store.dl d = some pd → pd.key ≠ (msgField env msg 1,msgField env msg 5)) ∨
    (∃ d, s.store.ownFind p (msgField env msg 1) (msgField env msg 5) = some d ∧
      (s.store.get d).outstanding = true ∧ 0 < (s.peer p).dlQueueLen) := by
  have hwf : s.store.Wf := h.sound.1.wf
  have hrange := h.inRange
  have hqlt : (s.peer p).dlQueueLen < 4294967296 := hrange.queues p
  generalize hi : msgField env msg 1 = idx
  generalize ho : msgField env msg 5 = off
  constructor
  · intro hlocal
    by_cases hlive : ∀ d pd, s.store.dl d = some pd → pd.key ≠ (idx,off)
    · exact .inl hlive
    refine .inr ?_
    push Not at hlive
    obtain ⟨e,pe,he,hke⟩ := hlive
    -- a live request has an index that the guard lets pass
    have hidx : indexRefused s idx = false := by
      have hlt : pe.idx < s.tp.numPieces := hrange.requests e pe he
      rw [show pe.idx = idx from congrArg Prod.fst hke] at hlt
      exact indexRefused_of_lt hlt
    cases hown : s.store.ownFind p idx off with
    | none =>
      obtain ⟨d,hd⟩ : ∃ d, networkPieceDlFind s.store none idx off = some d := by
        cases hf : networkPieceDlFind s.store none idx off with
        | none => exact (hwf.find_none.mp hf e pe he hke).elim
        | some d => exact ⟨d,rfl⟩
      obtain ⟨pd,hpd,-⟩ := hwf.find_some hd
      obtain ⟨hstore,-⟩ := msgReject_some env msg hfast (by rw [hi]; exact hidx)
        (by rw [hi,ho,find_of_ownFind_none hown]; exact hd)
      rcases hlocal with ⟨d',hp',-⟩ | ⟨-,hsame,-⟩
      · exact (not_pending_of_ownFind hown d' hp').elim
      · exact (free_ne hpd (hstore.symm.trans hsame)).elim
    | some d =>
      obtain ⟨pd,hpd,-⟩ := hwf.dl_of_mem_lists (mem_of_ownFind hown).1
      obtain ⟨hstore,hqueue⟩ := msgReject_some env msg hfast (by rw [hi]; exact hidx)
        (by rw [hi,ho]; exact find_of_ownFind hown)
      refine ⟨d,rfl,?_⟩
      rcases hlocal with ⟨d',hp',hfree,hdec⟩ | ⟨-,hsame,-⟩
      · have hdd : d = d' := free_inj hpd (hstore.symm.trans hfree)
        rw [hqueue,sub32_one_succ hqlt] at hdec
        exact ⟨hdd ▸ hp'.1.2,hdec⟩
      · exact (free_ne hpd (hstore.symm.trans hsame)).elim
  · rintro (hnone | ⟨d,hown,hout,hpos⟩)
    · have hsame : msgReject env s p msg = s := by
        refine msgReject_none hfast (.inr ?_)
        rw [hi,ho]
        cases hf : networkPieceDlFind s.store (some p) idx off with
        | none => rfl
        | some d =>
          obtain ⟨pd,hpd,hk⟩ := hwf.find_some hf
          exact (hnone d pd hpd hk).elim
      rw [hsame]
      exact rejectLocal_self (not_pending_of_no_live hwf hnone)
    · obtain ⟨hmem,hkey⟩ := mem_of_ownFind hown
      obtain ⟨pd,hpd,-⟩ := hwf.dl_of_mem_lists hmem
      have hidx : indexRefused s idx = false := by
        have hlt : pd.idx < s.tp.numPieces := hrange.requests d pd hpd
        rw [DlStore.get_of_dl hpd] at hkey
        rw [show pd.idx = idx from congrArg Prod.fst hkey] at hlt
        exact indexRefused_of_lt hlt
      obtain ⟨hstore,hqueue⟩ := msgReject_some env msg hfast (by rw [hi]; exact hidx)
        (by rw [hi,ho]; exact find_of_ownFind hown)
      refine .inl ⟨d,⟨⟨hmem,hout⟩,hkey⟩,hstore,?_⟩
      rw [hqueue,sub32_one_succ hqlt]
      exact hpos

end Reject

section Cleanup
variable {sha1 : Bytes → Bytes} {env : Env} {s s' t u : Session} {p : PeerId} {st : DlStore} {idx : ℕ}

/-- No request is for piece `idx`: every block of it can be requested again. -/
structure DlStore.Cleared {ι : Type} [RbIndex ι] (st : DlStore ι) (idx : ℕ) : Prop where
  index : ∀ n ∈ RbIndex.nodes st.index, n.idx ≠ idx
  lists : ∀ q, ∀ d ∈ st.lists q, (st.get d).idx ≠ idx
  afresh : ∀ p off, networkPieceDlFind st p idx off = none

theorem DlStore.Wf.cleared_iff (h : st.Wf) :
    st.Cleared idx ↔ ∀ d pd, st.dl d = some pd → pd.idx ≠ idx := by
  constructor
  · intro hc d pd hd hidx
    obtain ⟨n,hn,hk,-⟩ := h.indexed d pd hd
    exact hc.index n hn ((congrArg Prod.fst hk).trans hidx)
  · intro hall
    refine ⟨?_,?_,?_⟩
    · intro n hn hidx
      obtain ⟨d,hd⟩ := List.exists_mem_of_ne_nil _ (h.nonempty n hn)
      obtain ⟨pd,hpd,hk⟩ := h.keyed n hn d hd
      exact hall d pd hpd ((congrArg Prod.fst hk).trans hidx)
    · intro q d hd
      obtain ⟨pd,hpd,-⟩ := h.dl_of_mem_lists hd
      rw [DlStore.get_of_dl hpd]
      exact hall d pd hpd
    · intro p off
      cases hf : networkPieceDlFind st p idx off with
      | none => rfl
      | some d =>
        obtain ⟨pd,hpd,hk⟩ := h.find_some hf
        exact (hall d pd hpd (congrArg Prod.fst hk)).elim

/-- Every request for piece `idx` is at one of the offsets, and is the only one there. -/
def DlStore.Single {ι : Type} (st : DlStore ι) (idx : ℕ) (offs : List ℕ) : Prop :=
  ∀ d pd, st.dl d = some pd → pd.idx = idx →
    pd.off ∈ offs ∧ ∀ e pe, st.dl e = some pe → pe.key = pd.key → e = d

theorem single_nil : st.Single idx [] ↔ ∀ d pd, st.dl d = some pd → pd.idx ≠ idx := by
  constructor
  · intro h d pd hd hidx
    cases (h d pd hd hidx).1
  · intro h d pd hd hidx
    exact (h d pd hd hidx).elim

/-- One turn of the cleanup takes care of the block at its offset. -/
theorem single_turn (hwf : st.Wf) {o : ℕ} {offs : List ℕ} (ho : o ∉ offs) :
    (cleanupTurn idx st o).Single idx offs ↔ st.Single idx (o :: offs) := by
  unfold cleanupTurn
  cases hf : networkPieceDlFind st none idx o with
  | none =>
    have hno := hwf.find_none.mp hf
    constructor
    · intro h d pd hd hidx
      exact ⟨List.mem_cons_of_mem o (h d pd hd hidx).1,(h d pd hd hidx).2⟩
    · intro h d pd hd hidx
      obtain ⟨hmem,huniq⟩ := h d pd hd hidx
      refine ⟨(List.mem_cons.mp hmem).resolve_left ?_,huniq⟩
      intro hoff
      exact hno d pd hd (Prod.ext hidx hoff)
  | some d =>
    obtain ⟨pd,hpd,hkey⟩ := hwf.find_some hf
    have hoff : pd.off = o := congrArg Prod.snd hkey
    simp only [DlStore.Single,DlStore.free_dl]
    constructor
    · intro h e pe he hidx
      by_cases hed : e = d
      · subst hed
        cases hpd.symm.trans he
        refine ⟨by simp [hoff],?_⟩
        intro e' pe' he' hk
        by_contra hne
        have hlate := (h e' pe' (by rw [if_neg hne]; exact he') ((congrArg Prod.fst hk).trans hidx)).1
        rw [show pe'.off = o from (congrArg Prod.snd hk).trans hoff] at hlate
        exact ho hlate
      · obtain ⟨hmem,huniq⟩ := h e pe (by rw [if_neg hed]; exact he) hidx
        refine ⟨List.mem_cons_of_mem o hmem,?_⟩
        intro e' pe' he' hk
        by_cases hed' : e' = d
        · subst hed'
          cases hpd.symm.trans he'
          rw [← show o = pe.off from hoff.symm.trans (congrArg Prod.snd hk)] at hmem
          exact (ho hmem).elim
        · exact huniq e' pe' (by rw [if_neg hed']; exact he') hk
    · intro h e pe he hidx
      split at he
      · cases he
      · rename_i hed
        obtain ⟨hmem,huniq⟩ := h e pe he hidx
        have hne : pe.off ≠ o := by
          intro heq
          exact hed (huniq d pd hpd (hkey.trans (Prod.ext hidx heq).symm)).symm
        refine ⟨(List.mem_cons.mp hmem).resolve_left hne,?_⟩
        intro e' pe' he' hk
        split at he'
        · cases he'
        · exact huniq e' pe' he' hk

theorem DlStore.Wf.cleanupTurn (h : st.Wf) (o : ℕ) : (cleanupTurn idx st o).Wf := by
  unfold Unworkable.cleanupTurn
  split
  · exact h
  · exact h.free _

/-- The cleanup loop clears the piece exactly if no block has two requests. -/
theorem cleanup_single (hwf : st.Wf) {offs : List ℕ} (hnd : offs.Nodup) :
    (offs.foldl (cleanupTurn idx) st).Cleared idx ↔ st.Single idx offs := by
  induction offs generalizing st with
  | nil => exact hwf.cleared_iff.trans single_nil.symm
  | cons o rest ih =>
    obtain ⟨ho,hnd⟩ := List.nodup_cons.mp hnd
    exact (ih (hwf.cleanupTurn o) hnd).trans (single_turn hwf ho)

/-- Which requests are single depends on their keys only. -/
theorem single_of_keys {st' : DlStore} {offs : List ℕ}
    (hkeys : ∀ d, (st'.dl d).map PieceDl.key = (st.dl d).map PieceDl.key) (h : st'.Single idx offs) :
    st.Single idx offs := by
  have hback : ∀ d pd, st.dl d = some pd → ∃ pd', st'.dl d = some pd' ∧ pd'.key = pd.key := by
    intro d pd hd
    have hk := hkeys d
    rw [hd,Option.map_some,Option.map_eq_some_iff] at hk
    exact hk
  intro d pd hd hidx
  obtain ⟨pd',hd',hk⟩ := hback d pd hd
  obtain ⟨hmem,huniq⟩ := h d pd' hd' ((congrArg Prod.fst hk).trans hidx)
  rw [show pd'.off = pd.off from congrArg Prod.snd hk] at hmem
  refine ⟨hmem,?_⟩
  intro e pe he hke
  obtain ⟨pe',he',hk'⟩ := hback e pe he
  exact huniq e pe' he' (hk'.trans (hke.trans hk.symm))

theorem keys_countBytes (d : DlId) (n : ℕ) (e : DlId) :
    ((st.set d (countBytes n)).dl e).map PieceDl.key = (st.dl e).map PieceDl.key := by
  by_cases he : e = d
  · subst he
    simp only [DlStore.set,Function.update_self,Option.map_map]
    rfl
  · simp only [DlStore.set,Function.update_of_ne he]

theorem nodup_blockOffs (plen : ℕ) : (blockOffs plen).Nodup := by
  refine List.nodup_range.map ?_
  intro i j hij
  exact Nat.eq_of_mul_eq_mul_right (by decide) hij

/-- After the check of a piece its requests are cleaned up, whatever came out. -/
theorem checkPiece_store (h : checkPiece sha1 env t idx = .ok u) :
    cleanupDls t.store idx (t.tp.piece idx).len = .ok u.store := by
  unfold checkPiece at h
  obtain ⟨⟨tp,good⟩,-,h⟩ := bind_ok.mp h
  obtain ⟨v,hv,h⟩ := bind_ok.mp h
  obtain ⟨store,hstore,h⟩ := bind_ok.mp h
  cases h
  have hkept : v.store = t.store := by
    cases good with
    | true =>
      obtain ⟨tp',-,hcore⟩ := core_pieceVerified sha1 hv
      exact congrArg Core.store hcore
    | false =>
      cases hv
      rfl
  rw [← hkept]
  exact hstore

/-- The cleanup after the hash check of a piece leaves no request for it if and only if every request
for it is at a block below its length, and no block has two. -/
theorem cleared_iff_single {b : Boot} (h : Reachable sha1 b s) {msg : Bytes} {d : DlId} (hacc : Accepts env s p msg d)
    (ht : recordBlock s p (msgField env msg 1) (msgField env msg 5) (msg.drop 9) = .ok t)
    (hcheck : everyBlock t.store p (msgField env msg 1) (t.tp.piece (msgField env msg 1)).len = .ok true)
    (hs' : networkPeerProcessMessage sha1 env s p msgPieceId msg = .ok s') :
    s'.store.Cleared (msgField env msg 1) ↔
      s.store.Single (msgField env msg 1) (blockOffs (mappedLen s.tp (msgField env msg 1))) := by
  have hwf : s.store.Wf := h.sound.1.wf
  obtain ⟨hstore,hlen⟩ := recordBlock_ok hacc.found ht
  rw [networkPeerProcessMessage_piece] at hs'
  unfold msgPiece at hs'
  rw [AcceptsAt.handled hacc ht,hcheck,ok_bind,if_pos rfl] at hs'
  obtain ⟨u,hu,hs'⟩ := bind_ok.mp hs'
  have hclean := checkPiece_store hu
  cases hs'
  rw [Session.setPeer_store]
  unfold cleanupDls at hclean
  split at hclean
  · cases hclean
  · rw [← Except.ok.inj hclean,hlen,hstore]
    refine (cleanup_single (hwf.set d ?_) (nodup_blockOffs _)).trans ⟨?_,?_⟩
    · exact fun pd => ⟨rfl,rfl⟩
    · exact single_of_keys (keys_countBytes d _)
    · exact single_of_keys (fun e => (keys_countBytes d _ e).symm)

end Cleanup

section Tree
variable {env : Env} {t t' : Session NodeTree} {s s' : Session} {p : PeerId} {msg : Bytes} {idx off : ℕ}

/-- REJECT frees what the lookup gives, or leaves the store alone. -/
theorem msgReject_store {ι : Type} [RbIndex ι] (env : Env) (s : Session ι) (p : PeerId) (msg : Bytes) :
    (msgReject env s p msg).store = s.store ∨
      ∃ d, networkPieceDlFind s.store (some p) (msgField env msg 1) (msgField env msg 5) = some d ∧
        (msgReject env s p msg).store = networkPieceDlFree s.store d := by
  unfold msgReject
  dsimp only
  split_ifs
  · exact .inl rfl
  · exact .inl rfl
  · split
    · exact .inl rfl
    · rename_i d hd
      exact .inr ⟨d,hd,rfl⟩

theorem Agree.free (h : Agree t s) (d : DlId) : (networkPieceDlFree t.store d).flat = networkPieceDlFree s.store d := by
  rw [← h.store]
  exact (h.good.free orders_near d).1

/-- REJECT is local on the tree if it is on the finite map: the store that is left shows which request was freed. -/
theorem Agree.rejectLocal (h : Agree t s) (hwf : s.store.Wf) :
    RejectLocal t (Unworkable.msgReject env t p msg) p idx off ↔ RejectLocal s
    (Unworkable.msgReject env s p msg) p idx off := by
  have h' : Agree (Unworkable.msgReject env t p msg) (Unworkable.msgReject env s p msg) := h.msgReject
  have hpending (d : DlId) : Pending t.store p idx off d ↔ Pending s.store p idx off d := by
    unfold Pending Own
    rw [h.lists,h.get]
  unfold RejectLocal
  rw [h.peer,h'.peer]
  simp only [hpending]
  constructor
  · rintro (⟨d,hd,hstore,hqueue⟩ | ⟨hnone,hstore,hqueue⟩)
    · refine .inl ⟨d,hd,?_,hqueue⟩
      rw [← h'.store,hstore,h.free]
    · refine .inr ⟨hnone,?_,hqueue⟩
      rw [← h'.store,hstore,h.store]
  · rintro (⟨d,hd,hstore,hqueue⟩ | ⟨hnone,hstore,hqueue⟩)
    · obtain ⟨pd,hpd,-⟩ := hwf.dl_of_mem_lists hd.1.1
      refine .inl ⟨d,hd,?_,hqueue⟩
      rcases msgReject_store env t p msg with hsame | ⟨e,-,hfree⟩
      · rw [← h'.store,hsame,h.store] at hstore
        exact absurd hstore.symm (free_ne hpd)
      · rw [← h'.store,hfree,h.free] at hstore
        rw [hfree,free_inj hpd hstore.symm]
    · rcases msgReject_store env t p msg with hsame | ⟨e,hfind,hfree⟩
      · exact .inr ⟨hnone,hsame,hqueue⟩
      · rw [h.find (some p) (msgField_lt env msg 1) (msgField_lt env msg 5)] at hfind
        obtain ⟨pd,hpd,-⟩ := hwf.find_some hfind
        rw [← h'.store,hfree,h.free] at hstore
        exact absurd hstore (free_ne hpd)

/-- In every reachable state, with keys near each other: REJECT from a fast peer is local if and only if nobody
has a request for the block, or the first one of the sender is outstanding and its queue is not empty. -/
theorem reject_local_iff (sha1 : Bytes → Bytes) (b : Boot) (hnear : b.mi.Near) (t : Session NodeTree)
    (h : TreeReachable sha1 b t) (env : Env) (p : PeerId) (hfast : (t.peer p).state.fast = true) (msg : Bytes) :
    (∃ t', networkPeerProcessMessage sha1 env t p msgRejectId msg = .ok t' ∧
      RejectLocal t t' p (msgField env msg 1) (msgField env msg 5)) ↔
    (∀ d pd, t.store.dl d = some pd → pd.key ≠ (msgField env msg 1,msgField env msg 5)) ∨
    (∃ d, t.store.ownFind p (msgField env msg 1) (msgField env msg 5) = some d ∧
      (t.store.get d).outstanding = true ∧ 0 < (t.peer p).dlQueueLen) := by
  obtain ⟨s,hs,hts⟩ := h.agrees hnear
  have hown (idx off : ℕ) : t.store.ownFind p idx off = s.store.ownFind p idx off := by
    unfold DlStore.ownFind
    rw [hts.lists,hts.get]
  rw [networkPeerProcessMessage_reject]
  simp only [Except.ok.injEq,exists_eq_left']
  rw [hts.rejectLocal hs.sound.1.wf,hown,hts.dl,hts.get,hts.peer]
  exact rejectLocal_iff hs (hts.peer ▸ hfast)

/-- A torrent whose info hash lets the handshake of a peer pass for one with the fast extension. -/
def Boot.fastByte : Boot :=
  { Boot.oneByte (List.replicate 20 0) 1 with
    mi := { Metainfo.oneByte (List.replicate 20 0) 1 with
      infoHash := List.replicate 20 4, infoHash_length := by decide } }

def fastHandshake : List Bytes := [19 :: btProtocol,List.replicate 8 0 ++ List.replicate 20 4 ++ List.replicate 20 0]

/-- Two fast peers connect, and the first is asked for the only block. -/
def fastRequestRun : List (Env × Event) :=
  [(.plain 1000,.accept 1),(.plain 1000,.accept 2)] ++ inputs 1000 0 fastHandshake ++ inputs 1000 1 fastHandshake ++
    inputs 1000 0 (messagePortions [msgBitfieldId,0x80]) ++ inputs 1000 0 (messagePortions [msgUnchokeId]) ++
    [(.plain 1001,.scheduler)]

def rejectZeroMessage : Bytes := msgRejectId :: (be32 0 ++ be32 0 ++ be32 1)

/-- The second peer rejects the block, and the request of the first is gone. -/
theorem reject_removes_other : ∃ t t' : Session NodeTree, TreeReachable sha1ZeroByte .fastByte t ∧ 1 ∈ t.peers ∧
    (t.peer 1).state.fast = true ∧
    networkPeerProcessMessage sha1ZeroByte (.plain 1002) t 1 msgRejectId rejectZeroMessage = .ok t' ∧
    ¬ RejectLocal t t' 1 (msgField (.plain 1002) rejectZeroMessage 1) (msgField (.plain 1002) rejectZeroMessage 5) := by
  have hrun : (Boot.fastByte.treeRun sha1ZeroByte fastRequestRun).toOption.map (fun t =>
      decide (1 ∈ t.peers ∧ (t.peer 1).state.fast = true ∧ t.store.lists 1 = [] ∧ (t.store.dl 0).isSome = true ∧
        (msgReject (.plain 1002) t 1 rejectZeroMessage).store.dl 0 = none)) = some true := by decide +kernel
  obtain ⟨t,ht,hP⟩ := exists_treeReachable hrun
  obtain ⟨hpeer,hfast,hlists,hlive,hgone⟩ := of_decide_eq_true hP
  refine ⟨t,_,ht,hpeer,hfast,networkPeerProcessMessage_reject _ _ _ _ _,?_⟩
  rintro (⟨d,⟨⟨hd,-⟩,-⟩,-⟩ | ⟨-,hsame,-⟩)
  · rw [hlists] at hd
    cases hd
  · rw [hsame] at hgone
    simp [hgone] at hlive

theorem Boot.near_fastByte : Boot.fastByte.mi.Near := by
  obtain ⟨hfew,hshort,hsized⟩ := @Boot.near_oneByte (List.replicate 20 0) (by decide)
  exact ⟨hfew,hshort,hsized⟩

/-- The first peer rejects the block it was asked for. -/
theorem reject_local_iff_own : ∃ t t' : Session NodeTree, TreeReachable sha1ZeroByte .fastByte t ∧
    networkPeerProcessMessage sha1ZeroByte (.plain 1002) t 0 msgRejectId rejectZeroMessage = .ok t' ∧
    RejectLocal t t' 0 (msgField (.plain 1002) rejectZeroMessage 1) (msgField (.plain 1002) rejectZeroMessage 5) := by
  have hrun : (Boot.fastByte.treeRun sha1ZeroByte fastRequestRun).toOption.map (fun t =>
      decide ((t.peer 0).state.fast = true ∧ t.store.ownFind 0 (msgField (.plain 1002) rejectZeroMessage 1)
        (msgField (.plain 1002) rejectZeroMessage 5) = some 0 ∧ (t.store.get 0).outstanding = true ∧
        0 < (t.peer 0).dlQueueLen)) = some true := by decide +kernel
  obtain ⟨t,ht,hP⟩ := exists_treeReachable hrun
  obtain ⟨hfast,hown,hout,hqueue⟩ := of_decide_eq_true hP
  obtain ⟨t',ht',hlocal⟩ := (reject_local_iff sha1ZeroByte _ Boot.near_fastByte t ht (.plain 1002) 0 hfast
    rejectZeroMessage).mpr (.inr ⟨0,hown,hout,hqueue⟩)
  exact ⟨t,t',ht,ht',hlocal⟩

theorem Agree.accepts (h : Agree t s) {d : DlId} (hacc : Accepts env t p msg d) : Accepts env s p msg d where
  idx_lt := h.tp ▸ hacc.idx_lt
  off_le := h.tp ▸ hacc.off_le
  unverified := h.tp ▸ hacc.unverified
  found := (h.find (some p) (msgField_lt env msg 1) (msgField_lt env msg 5)).symm.trans hacc.found
  header := hacc.header
  length := h.get ▸ hacc.length

/-- A search finds nodes with the index it is for. -/
theorem DlStore.Good.rbFind_idx {st : DlStore NodeTree} (h : st.Good nearKeys) (hidx : idx < 4294967296)
    {n : PieceDlIdxnode}
    (hn : st.rbFind idx off = some n) : n ∈ RbIndex.nodes st.index ∧ n.idx = idx := by
  obtain ⟨hmem,hneg,hpos⟩ := RbTree.find_some hn
  have hzero : pieceDlIdxnodeCmp (idx,off) (n.idx,n.off) = 0 := le_antisymm (not_lt.mp hpos) (not_lt.mp hneg)
  have hword : n.idx < 4294967296 := (wordKeys_near n.key (h.sorted.mem n hmem)).1
  refine ⟨by rwa [nodes_tree],?_⟩
  rw [pieceDlIdxnodeCmp_eq hidx hword] at hzero
  split_ifs at hzero with heq
  · exact heq.symm
  · unfold toInt32 sub32 wrap32 at hzero
    split at hzero <;> omega

theorem DlStore.cleared_iff {ι : Type} [RbIndex ι] {st : DlStore ι}
    (hfind : ∀ off n, st.rbFind idx off = some n → n ∈ RbIndex.nodes st.index ∧ n.idx = idx) :
    st.Cleared idx ↔ (∀ n ∈ RbIndex.nodes st.index, n.idx ≠ idx) ∧ ∀ q, ∀ d ∈ st.lists q, (st.get d).idx ≠ idx := by
  constructor
  · intro h
    exact ⟨h.index,h.lists⟩
  · rintro ⟨hindex,hlists⟩
    refine ⟨hindex,hlists,?_⟩
    intro p off
    have hnone : st.rbFind idx off = none := by
      rw [Option.eq_none_iff_forall_ne_some]
      intro n hn
      obtain ⟨hmem,hidx⟩ := hfind off n hn
      exact hindex n hmem hidx
    unfold networkPieceDlFind
    rw [hnone]
    cases p with
    | none => rfl
    | some p =>
      have hown : (st.lists p).find? (fun d => (st.get d).off = off ∧ (st.get d).idx = idx) = none := by
        rw [List.find?_eq_none]
        intro d hd hkey
        exact hlists p d hd (of_decide_eq_true hkey).2
      dsimp only
      rw [hown]
      rfl

theorem Agree.cleared (h : Agree t s) (hidx : idx < 4294967296) : t.store.Cleared idx ↔ s.store.Cleared idx := by
  rw [DlStore.cleared_iff fun _ _ => h.good.rbFind_idx hidx,DlStore.cleared_iff,h.nodes,h.lists,h.get]
  intro off n hn
  simp only [DlStore.rbFind,find_list] at hn
  have hkey := List.find?_some hn
  simp only [decide_eq_true_eq] at hkey
  exact ⟨List.mem_of_find?_eq_some hn,hkey.1⟩

/-- In every reachable state, with keys near each other: the cleanup after the hash check of a piece leaves no request
for it if and only if every request for it is at a block below its length, and no block has two. -/
theorem piece_cleanup_iff (sha1 : Bytes → Bytes) (b : Boot) (hnear : b.mi.Near) (t : Session NodeTree)
    (h : TreeReachable sha1 b t) (env : Env) (p : PeerId) (msg : Bytes) (d : DlId) (hacc : Accepts env t p msg d)
    (u : Session NodeTree) (hu : recordBlock t p (msgField env msg 1) (msgField env msg 5) (msg.drop 9) = .ok u)
    (hcheck : everyBlock u.store p (msgField env msg 1) (u.tp.piece (msgField env msg 1)).len = .ok true)
    (t' : Session NodeTree) (ht' : networkPeerProcessMessage sha1 env t p msgPieceId msg = .ok t') :
    t'.store.Cleared (msgField env msg 1) ↔
      t.store.Single (msgField env msg 1) (blockOffs (mappedLen t.tp (msgField env msg 1))) := by
  obtain ⟨s,hs,hts⟩ := h.agrees hnear
  obtain ⟨v,hv,⟨huv,hidx⟩⟩ := (hts.recordBlock (msgField_lt env msg 1) (msgField_lt env msg 5) _).left hu
  obtain ⟨s',hs',hts'⟩ := (hts.networkPeerProcessMessage msgPieceId).left ht'
  rw [huv.everyBlock hidx] at hcheck
  rw [hts'.cleared (msgField_lt env msg 1),cleared_iff_single hs (hts.accepts hacc) hv hcheck hs']
  unfold DlStore.Single
  rw [hts.dl,hts.tp]

/-- Two peers are asked for a piece of one block, the second in the endgame. -/
def twoRequestsRun : List (Env × Event) :=
  [1,2].map (fun addr => (.plain 1000,.accept addr)) ++
    (List.range 2).flatMap (fun p => inputs 1000 p handshakePortions ++
      inputs 1000 p (messagePortions [msgBitfieldId,if p = 0 then 0x80 else 0]) ++
      inputs 1000 p (messagePortions [msgUnchokeId])) ++ [(.plain 1001,.scheduler)]

/-- The first delivers, the check runs, and the request of the second is left behind. -/
theorem piece_cleanup_leaves : ∃ t u t' : Session NodeTree, TreeReachable sha1ZeroByte
    (.oneByte (List.replicate 20 0) 1) t ∧
    Accepts (.plain 1002) t 0 pieceZeroMessage 0 ∧
    recordBlock t 0 (msgField (.plain 1002) pieceZeroMessage 1) (msgField (.plain 1002) pieceZeroMessage 5)
      (pieceZeroMessage.drop 9) = .ok u ∧
    everyBlock u.store 0 (msgField (.plain 1002) pieceZeroMessage 1)
      (u.tp.piece (msgField (.plain 1002) pieceZeroMessage 1)).len = .ok true ∧
    networkPeerProcessMessage sha1ZeroByte (.plain 1002) t 0 msgPieceId pieceZeroMessage = .ok t' ∧
    ¬ t'.store.Cleared (msgField (.plain 1002) pieceZeroMessage 1) := by
  have hrun : ((Boot.oneByte (List.replicate 20 0) 1).treeRun sha1ZeroByte twoRequestsRun).toOption.map (fun t =>
      decide (Accepts (.plain 1002) t 0 pieceZeroMessage 0) &&
      ((recordBlock t 0 (msgField (.plain 1002) pieceZeroMessage 1) (msgField (.plain 1002) pieceZeroMessage 5)
        (pieceZeroMessage.drop 9)).toOption.map (fun u => decide
          ((everyBlock u.store 0 (msgField (.plain 1002) pieceZeroMessage 1)
            (u.tp.piece (msgField (.plain 1002) pieceZeroMessage 1)).len).toOption = some true)) == some true) &&
      ((networkPeerProcessMessage sha1ZeroByte (.plain 1002) t 0 msgPieceId pieceZeroMessage).toOption.map (fun t' =>
        decide (networkPieceDlFind t'.store none (msgField (.plain 1002) pieceZeroMessage 1) 0 = some 1)) ==
          some true)) = some true := by decide +kernel
  obtain ⟨t,ht,hP⟩ := exists_treeReachable hrun
  obtain ⟨hP,hhandled⟩ := Bool.and_eq_true_iff.mp hP
  obtain ⟨hacc,hrec⟩ := Bool.and_eq_true_iff.mp hP
  obtain ⟨u,hu,hfound⟩ := exists_ok (eq_of_beq hrec)
  obtain ⟨t',ht',hleft⟩ := exists_ok (eq_of_beq hhandled)
  refine ⟨t,u,t',ht,of_decide_eq_true hacc,hu,ok_of_toOption (of_decide_eq_true hfound),ht',?_⟩
  intro hc
  rw [hc.afresh none 0] at hleft
  simp at hleft

/-- A store with one request, for a block at one of the offsets. -/
theorem TreeReachable.single {sha1 : Bytes → Bytes} {b : Boot} (hnear : b.mi.Near) (h : TreeReachable sha1 b t)
    (hnext : t.store.next = 1) {pd : PieceDl} (hpd : t.store.dl 0 = some pd) {offs : List ℕ} (hoff : pd.off ∈ offs) :
    t.store.Single idx offs := by
  obtain ⟨s,hs,hts⟩ := h.agrees hnear
  have hwf : s.store.Wf := hs.sound.1.wf
  have hzero (d : DlId) (hd : t.store.dl d ≠ none) : d = 0 := by
    by_contra hne
    rw [hts.dl] at hd
    exact hd (hwf.fresh d (by rw [← hts.next,hnext]; exact Nat.one_le_iff_ne_zero.mpr hne))
  intro d qd hd _
  cases hzero d (by rw [hd]; exact nofun)
  cases hpd.symm.trans hd
  exact ⟨hoff,fun e pe he _ => hzero e (by rw [he]; exact nofun)⟩

/-- The only peer that was asked for the only block delivers it, and no request is left. -/
theorem piece_cleanup_iff_oneRequest : ∃ t t' : Session NodeTree,
    TreeReachable sha1ZeroByte (.oneByte (List.replicate 20 0) 1) t ∧ Accepts (.plain 1002) t 0 pieceZeroMessage 0 ∧
    networkPeerProcessMessage sha1ZeroByte (.plain 1002) t 0 msgPieceId pieceZeroMessage = .ok t' ∧
    t'.store.Cleared (msgField (.plain 1002) pieceZeroMessage 1) := by
  have hrun : ((Boot.oneByte (List.replicate 20 0) 1).treeRun sha1ZeroByte oneRequestRun).toOption.map (fun t =>
      decide (Accepts (.plain 1002) t 0 pieceZeroMessage 0) && decide (t.store.next = 1) &&
      ((t.store.dl 0).map (fun pd =>
        decide (pd.off ∈ blockOffs (mappedLen t.tp (msgField (.plain 1002) pieceZeroMessage 1)))) == some true) &&
      ((recordBlock t 0 (msgField (.plain 1002) pieceZeroMessage 1) (msgField (.plain 1002) pieceZeroMessage 5)
        (pieceZeroMessage.drop 9)).toOption.map (fun u => decide
          ((everyBlock u.store 0 (msgField (.plain 1002) pieceZeroMessage 1)
            (u.tp.piece (msgField (.plain 1002) pieceZeroMessage 1)).len).toOption = some true)) == some true) &&
      ((networkPeerProcessMessage sha1ZeroByte (.plain 1002) t 0 msgPieceId pieceZeroMessage).toOption.map (fun _ =>
        true) == some true)) = some true := by decide +kernel
  obtain ⟨t,ht,hP⟩ := exists_treeReachable hrun
  simp only [Bool.and_eq_true,decide_eq_true_eq] at hP
  obtain ⟨⟨⟨⟨hacc,hnext⟩,hone⟩,hrec⟩,hhandled⟩ := hP
  obtain ⟨pd,hpd,hoff⟩ := Option.map_eq_some_iff.mp (eq_of_beq hone)
  obtain ⟨u,hu,hfound⟩ := exists_ok (eq_of_beq hrec)
  obtain ⟨t',ht',-⟩ := exists_ok (eq_of_beq hhandled)
  have hnear := @Boot.near_oneByte (List.replicate 20 0) (by decide)
  have hsingle : t.store.Single (msgField (.plain 1002) pieceZeroMessage 1)
      (blockOffs (mappedLen t.tp (msgField (.plain 1002) pieceZeroMessage 1))) :=
        ht.single hnear hnext hpd (of_decide_eq_true hoff)
  exact ⟨t,t',ht,hacc,ht',(piece_cleanup_iff sha1ZeroByte _ hnear t ht (.plain 1002) 0 pieceZeroMessage 0
    hacc u hu (ok_of_toOption (of_decide_eq_true hfound)) t' ht').mpr hsingle⟩

end Tree

end Unworkable
