import Unworkable.Session.Accounting
import Unworkable.Session.Rarest
import Unworkable.Session.LonePeer

/-! # The end of a peer

`network_peer_free` walks the request list of a peer: a completed request stays in the index without an
owner, any other one is freed. Nobody else's request is touched. So it is on the finite map, and on the
tree as long as its keys are near each other.
-/
namespace Unworkable
open Library

/-- What the loop of `network_peer_free` leaves of a request. -/
def PieceDl.released (p : PeerId) (pd : PieceDl) : Option PieceDl :=
  if pd.pc = some p then if pd.outstanding then none else some { pd with pc := none } else some pd

namespace DlStore
variable {st : DlStore} {p : PeerId} {d : DlId}

def Linked {ι : Type} [RbIndex ι] (st : DlStore ι) (d : DlId) : Prop := ∃ n ∈ RbIndex.nodes st.index, d ∈ n.dls

theorem Wf.linked_iff (h : st.Wf) : st.Linked d ↔ ∃ pd, st.dl d = some pd := by
  constructor
  · rintro ⟨n,hn,hd⟩
    obtain ⟨pd,hpd,-⟩ := h.keyed n hn d hd
    exact ⟨pd,hpd⟩
  · rintro ⟨pd,hpd⟩
    obtain ⟨n,hn,-,hd⟩ := h.indexed d pd hpd
    exact ⟨n,hn,hd⟩

theorem freeTurn_self {pd : PieceDl} (hd : st.dl d = some pd) (hpc : pd.pc = some p) :
    (freeTurn p st d).dl d = pd.released p := by
  have horphan : (orphan p st d).dl d = some { pd with pc := none } := by
    rw [orphan_dl,if_pos rfl,hd]
    rfl
  have hget : (orphan p st d).get d = { pd with pc := none } := get_of_dl horphan
  unfold freeTurn PieceDl.released PieceDl.outstanding
  dsimp only
  rw [hget,if_pos hpc]
  by_cases hlen : pd.bytes = pd.len
  · rw [if_neg (fun h => h hlen.symm),horphan,if_neg (by simp [hlen])]
  · rw [if_pos (Ne.symm hlen),free_dl,if_pos rfl,if_pos (by simp [hlen])]

theorem foldl_freeTurn_dl {l : List DlId} (hl : l.Nodup)
    (hown : ∀ d ∈ l, ∃ pd, st.dl d = some pd ∧ pd.pc = some p) (d : DlId) :
    (l.foldl (freeTurn p) st).dl d = if d ∈ l then (st.dl d).bind (PieceDl.released p) else st.dl d := by
  induction l generalizing st with
  | nil => rfl
  | cons e l ih =>
    obtain ⟨hnew,hl⟩ := List.nodup_cons.mp hl
    have hrest : ∀ d ∈ l, ∃ pd, (freeTurn p st e).dl d = some pd ∧ pd.pc = some p := by
      intro d hd
      have hne : d ≠ e := by
        rintro rfl
        exact hnew hd
      rw [freeTurn_dl hne]
      exact hown d (List.mem_cons_of_mem e hd)
    rw [List.foldl_cons,ih hl hrest]
    by_cases hde : d = e
    · subst hde
      obtain ⟨pd,hpd,hpc⟩ := hown d List.mem_cons_self
      rw [if_neg hnew,if_pos List.mem_cons_self,freeTurn_self hpd hpc,hpd]
      rfl
    · rw [freeTurn_dl hde]
      simp only [List.mem_cons,hde,false_or]

/-- Every request after the loop. -/
theorem Wf.peerFreeDls_dl (h : st.Wf) (p : PeerId) (d : DlId) :
    (Unworkable.peerFreeDls st p).dl d = (st.dl d).bind (PieceDl.released p) := by
  unfold Unworkable.peerFreeDls
  rw [foldl_freeTurn_dl (h.list_nodup p) (fun e he => h.dl_of_mem_lists he)]
  split
  · rfl
  · rename_i hd
    cases hpd : st.dl d with
    | none => rfl
    | some pd =>
      have hpc : pd.pc ≠ some p := fun hpc => hd ((h.listed p d).mpr ⟨pd,hpd,hpc⟩)
      rw [Option.bind_some,PieceDl.released,if_neg hpc]

def receivedBlocks {ι : Type} [RbIndex ι] (st : DlStore ι) (idx : ℕ) : Set ℕ :=
  {off | ∃ d pd, st.Linked d ∧ st.dl d = some pd ∧ pd.key = (idx,off) ∧ pd.outstanding = false}

theorem Wf.mem_receivedBlocks (h : st.Wf) {idx off : ℕ} : off ∈ st.receivedBlocks idx ↔
    ∃ d pd, st.dl d = some pd ∧ pd.key = (idx,off) ∧ pd.outstanding = false := by
  constructor
  · rintro ⟨d,pd,-,hpd⟩
    exact ⟨d,pd,hpd⟩
  · rintro ⟨d,pd,hpd,hrest⟩
    exact ⟨d,pd,h.linked_iff.mpr ⟨pd,hpd⟩,hpd,hrest⟩

theorem released_key {pd pd' : PieceDl} (h : pd.released p = some pd') : pd'.key = pd.key ∧
    pd'.outstanding = pd.outstanding := by
  unfold PieceDl.released at h
  split_ifs at h <;> cases h <;> exact ⟨rfl,rfl⟩

/-- A completed request outlives its peer. -/
theorem released_of_complete {pd : PieceDl} (h : pd.outstanding = false) : ∃ pd', pd.released p = some pd' := by
  unfold PieceDl.released
  split_ifs
  · rename_i hout
    rw [h] at hout
    cases hout
  · exact ⟨_,rfl⟩
  · exact ⟨_,rfl⟩

theorem Wf.receivedBlocks_peerFreeDls (h : st.Wf) (p : PeerId) (idx : ℕ) :
    (Unworkable.peerFreeDls st p).receivedBlocks idx = st.receivedBlocks idx := by
  ext off
  rw [(h.peerFreeDls p).1.mem_receivedBlocks,h.mem_receivedBlocks]
  constructor
  · rintro ⟨d,pd',hpd',hkey,hout⟩
    rw [h.peerFreeDls_dl] at hpd'
    obtain ⟨pd,hpd,hrel⟩ := Option.bind_eq_some_iff.mp hpd'
    obtain ⟨hkey',hout'⟩ := released_key hrel
    exact ⟨d,pd,hpd,hkey'.symm.trans hkey,hout'.symm.trans hout⟩
  · rintro ⟨d,pd,hpd,hkey,hout⟩
    obtain ⟨pd',hrel⟩ := @released_of_complete p pd hout
    obtain ⟨hkey',hout'⟩ := released_key hrel
    refine ⟨d,pd',?_,hkey'.trans hkey,hout'.trans hout⟩
    rw [h.peerFreeDls_dl,hpd]
    exact hrel

/-- The only request for the block is one of the peer's that has not been completed. -/
def OnlyPending {ι : Type} [RbIndex ι] (st : DlStore ι) (p : PeerId) (idx off : ℕ) : Prop :=
  (∃ d ∈ st.lists p, (st.get d).key = (idx,off)) ∧
    ∀ d pd, st.Linked d → st.dl d = some pd → pd.key = (idx,off) → pd.pc = some p ∧ pd.outstanding = true

/-- Such a block has no request after the peer is gone. -/
theorem Wf.find_peerFreeDls (h : st.Wf) {idx off : ℕ} (honly : st.OnlyPending p idx off) :
    networkPieceDlFind (Unworkable.peerFreeDls st p) none idx off = none := by
  rw [(h.peerFreeDls p).1.find_none]
  intro d pd' hpd' hkey
  rw [h.peerFreeDls_dl] at hpd'
  obtain ⟨pd,hpd,hrel⟩ := Option.bind_eq_some_iff.mp hpd'
  obtain ⟨hpc,hout⟩ := honly.2 d pd (h.linked_iff.mpr ⟨pd,hpd⟩) hpd ((released_key hrel).1.symm.trans hkey)
  rw [PieceDl.released,if_pos hpc,if_pos hout] at hrel
  cases hrel

end DlStore

section Search
variable {ι : Type} [RbIndex ι] {st : DlStore ι} {off : ℕ}

/-- A block without a request keeps its piece from being assigned. -/
theorem schedulerPieceAssigned_of_none {tpp : TorrentPiece} (hoff : off ∈ blockOffs tpp.len)
    (hnone : networkPieceDlFind st none tpp.index off = none) : schedulerPieceAssigned st tpp = .ok false := by
  unfold schedulerPieceAssigned
  dsimp only
  rw [if_neg]
  intro hall
  have htaken := List.all_eq_true.mp hall off hoff
  rw [hnone] at htaken
  cases htaken

end Search

/-- What may go when a peer goes. -/
structure LosesNothing {ι : Type} [RbIndex ι] (s : Session ι) (p : PeerId) (s' : Session ι) : Prop where
  /-- The other peers keep their requests. -/
  others : ∀ q, q ≠ p → s'.store.lists q = s.store.lists q ∧ ∀ d ∈ s.store.lists q, s'.store.dl d = s.store.dl d
  /-- The orphans stay as they are. -/
  orphans : ∀ d pd, s.store.dl d = some pd → pd.pc = none → s'.store.dl d = some pd ∧ s'.store.Linked d
  /-- Of the requests of the peer those stay in the index that are completed, without an owner. -/
  own : ∀ d ∈ s.store.lists p, (s'.store.Linked d ↔ (s.store.get d).outstanding = false) ∧
    ((s.store.get d).outstanding = false → s'.store.dl d = some { s.store.get d with pc := none })
  received : ∀ idx, s'.store.receivedBlocks idx = s.store.receivedBlocks idx
  /-- A block that only an incomplete request of the peer stood for has none, -/
  vacant : ∀ idx off, s.store.OnlyPending p idx off → networkPieceDlFind s'.store none idx off = none
  /-- so its piece is not assigned, -/
  unassigned : ∀ idx off tpp, s.store.OnlyPending p idx off → torrentPieceFind s.tp idx = .ok tpp →
    off ∈ blockOffs tpp.len → schedulerPieceAssigned s'.store tpp = .ok false
  /-- and the search through its piece hands the block out, once the blocks before it are taken. -/
  handedOut : ∀ idx off tpp before after, s.store.OnlyPending p idx off → torrentPieceFind s.tp idx = .ok tpp →
    blockOffs tpp.len = before ++ off :: after → (∀ o ∈ before, Passed s'.store idx o) →
    ∀ env q t, gimmePiece env s' q = .ok (t,some idx) →
      schedulerPieceGimme env s' q false = .ok ({ t with
        store := (networkPieceDlCreate s'.store q idx off (blockLen tpp.len off)).1 },some s'.store.next,false)

theorem Reachable.losesNothing {sha1 : Bytes → Bytes} {b : Boot} {s : Session} (h : Reachable sha1 b s) (p : PeerId) :
    LosesNothing s p (networkPeerFree s p) := by
  have hwf : s.store.Wf := h.sound.1.wf
  obtain ⟨hwf',hlists⟩ := hwf.peerFreeDls p
  have hdl := hwf.peerFreeDls_dl p
  have hstays : ∀ d pd, s.store.dl d = some pd → pd.pc ≠ some p → (peerFreeDls s.store p).dl d = some pd := by
    intro d pd hpd hpc
    rw [hdl,hpd,Option.bind_some,PieceDl.released,if_neg hpc]
  have hvacant : ∀ idx off, s.store.OnlyPending p idx off →
      networkPieceDlFind (peerFreeDls s.store p) none idx off = none :=
    fun idx off honly => hwf.find_peerFreeDls honly
  refine ⟨?_,?_,?_,hwf.receivedBlocks_peerFreeDls p,hvacant,?_,?_⟩
  · intro q hq
    refine ⟨(hlists q).trans (if_neg hq),?_⟩
    intro d hd
    obtain ⟨pd,hpd,hpc⟩ := hwf.dl_of_mem_lists hd
    refine (hstays d pd hpd ?_).trans hpd.symm
    rw [hpc]
    exact fun heq => hq (Option.some.inj heq)
  · intro d pd hpd hpc
    have hstay := hstays d pd hpd (by rw [hpc]; exact nofun)
    exact ⟨hstay,hwf'.linked_iff.mpr ⟨pd,hstay⟩⟩
  · intro d hd
    obtain ⟨pd,hpd,hpc⟩ := hwf.dl_of_mem_lists hd
    have hrel : (peerFreeDls s.store p).dl d = pd.released p := by
      rw [hdl,hpd]
      rfl
    rw [DlStore.get_of_dl hpd]
    unfold PieceDl.released at hrel
    rw [if_pos hpc] at hrel
    cases hout : pd.outstanding with
    | true =>
      rw [if_pos hout] at hrel
      refine ⟨?_,fun h => by cases h⟩
      constructor
      · intro hlinked
        obtain ⟨pd',hpd'⟩ := hwf'.linked_iff.mp hlinked
        cases hrel.symm.trans hpd'
      · intro h
        cases h
    | false =>
      rw [if_neg (by simp [hout])] at hrel
      exact ⟨iff_of_true (hwf'.linked_iff.mpr ⟨_,hrel⟩) rfl,fun _ => hrel⟩
  · intro idx off tpp honly htpp hoff
    obtain ⟨hidx,rfl⟩ := torrentPieceFind_ok.mp htpp
    apply schedulerPieceAssigned_of_none hoff
    rw [h.indexed idx]
    exact hvacant idx off honly
  · intro idx off tpp before after honly htpp hsplit hbefore env q t ht
    exact schedulerPieceGimme_of_none ht htpp hsplit hbefore (hvacant idx off honly)

section Tree
variable {t t' : Session NodeTree} {s s' : Session} {p : PeerId}

namespace Agree

theorem linked (h : Agree t s) {d : DlId} : t.store.Linked d ↔ s.store.Linked d := by
  unfold DlStore.Linked
  rw [h.nodes]

theorem receivedBlocks (h : Agree t s) (idx : ℕ) : t.store.receivedBlocks idx = s.store.receivedBlocks idx := by
  unfold DlStore.receivedBlocks
  simp only [h.linked,h.dl]

theorem onlyPending (h : Agree t s) {idx off : ℕ} : t.store.OnlyPending p idx off ↔ s.store.OnlyPending p idx off := by
  unfold DlStore.OnlyPending
  simp only [h.linked,h.lists,h.get,h.dl]

/-- The key of a request that a list holds is near the others. -/
theorem key_near (h : Agree t s) (hwf : s.store.Wf) {idx off : ℕ} (honly : s.store.OnlyPending p idx off) :
    (idx,off) ∈ nearKeys := by
  obtain ⟨⟨d,hd,hkey⟩,-⟩ := honly
  obtain ⟨pd,hpd,-⟩ := hwf.dl_of_mem_lists hd
  rw [DlStore.get_of_dl hpd] at hkey
  exact hkey ▸ h.good.keyed d pd (h.dl ▸ hpd)

theorem losesNothing (h : Agree t s) (hwf : s.store.Wf) (hs : LosesNothing s p (Unworkable.networkPeerFree s p)) :
    LosesNothing t p (Unworkable.networkPeerFree t p) := by
  have h' := h.networkPeerFree p
  have hvacant : ∀ idx off, t.store.OnlyPending p idx off →
      networkPieceDlFind (Unworkable.networkPeerFree t p).store none idx off = none := by
    intro idx off honly
    rw [h.onlyPending] at honly
    obtain ⟨hidx,hoff⟩ := wordKeys_near _ (h.key_near hwf honly)
    rw [h'.find none hidx hoff]
    exact hs.vacant idx off honly
  constructor
  · rw [h.lists,h'.lists,h.dl,h'.dl]
    exact hs.others
  · simp only [h.dl,h'.dl,h'.linked]
    exact hs.orphans
  · simp only [h.lists,h.get,h'.dl,h'.linked]
    exact hs.own
  · intro idx
    rw [h'.receivedBlocks,h.receivedBlocks]
    exact hs.received idx
  · exact hvacant
  · intro idx off tpp honly htpp hoff
    rw [h.find_piece] at htpp
    rw [h'.assigned htpp]
    exact hs.unassigned idx off tpp (h.onlyPending.mp honly) htpp hoff
  · intro idx off tpp before after honly htpp hsplit hbefore env q u hu
    exact schedulerPieceGimme_of_none hu htpp hsplit hbefore (hvacant idx off honly)

end Agree

end Tree

/-- On a torrent whose blocks have keys that are near each other, the end of a peer loses no data. -/
theorem peer_loses_nothing (sha1 : Bytes → Bytes) (b : Boot) (hnear : b.mi.Near) (t : Session NodeTree)
    (h : TreeReachable sha1 b t) (p : PeerId) : LosesNothing t p (networkPeerFree t p) := by
  obtain ⟨s,hs,hts⟩ := h.agrees hnear
  exact hts.losesNothing hs.sound.1.wf (hs.losesNothing p)

/-- With keys far apart a request that is not completed stays in the index: the peer goes that was asked for
the first block of the first piece, and its request, freed, is linked from the node that the search for its key
does not get to. -/
theorem freed_request_linked : ∃ t : Session NodeTree, TreeReachable sha1ZeroByte (.many farCount) t ∧
    (t.store.get 0).outstanding = true ∧ (networkPeerFree t 0).store.dl 0 = none ∧
      (networkPeerFree t 0).store.Linked 0 ∧
    ¬ LosesNothing t 0 (networkPeerFree t 0) := by
  obtain ⟨s,msg,hs,hblank,hunderway,hprelude⟩ := far_prelude sha1ZeroByte
  obtain ⟨t,hstore,-,-,htick⟩ := far_tick sha1ZeroByte hblank hunderway msg
  have hreach : TreeReachable sha1ZeroByte (.many farCount) t := by
    refine ⟨farPrelude ++ [(.far,.scheduler)],?_⟩
    rw [Boot.treeRun,hs,ok_bind,run_append hprelude,run,List.foldlM_cons,htick]
    rfl
  have hfreed : 0 ∈ (askAll .empty farPieces : DlStore NodeTree).lists 0 ∧
      ((askAll .empty farPieces : DlStore NodeTree).get 0).outstanding = true ∧
      (peerFreeDls (askAll .empty farPieces : DlStore NodeTree) 0).dl 0 = none ∧
      ∃ n ∈ RbIndex.nodes (peerFreeDls (askAll .empty farPieces : DlStore NodeTree) 0).index, 0 ∈ n.dls := by
        decide +kernel
  obtain ⟨hlisted,hout,hgone,hlinked⟩ := hfreed
  have hfree : (networkPeerFree t 0).store = peerFreeDls (askAll .empty farPieces) 0 := by
    rw [← hstore]
    rfl
  refine ⟨t,hreach,hstore ▸ hout,hfree ▸ hgone,hfree ▸ hlinked,?_⟩
  intro h
  have hown := (h.own 0 (hstore ▸ hlisted)).1.mp (hfree ▸ hlinked)
  rw [hstore,hout] at hown
  cases hown

/-- A peer goes that owes the only block of a torrent. -/
theorem peer_loses_nothing_oneRequest : ∃ t : Session NodeTree,
    TreeReachable sha1ZeroByte (.oneByte (List.replicate 20 0) 1) t ∧ t.store.lists 0 = [0] ∧
    (t.store.get 0).outstanding = true ∧ LosesNothing t 0 (networkPeerFree t 0) := by
  have hrun : ((Boot.oneByte (List.replicate 20 0) 1).treeRun sha1ZeroByte oneRequestRun).toOption.map
      (fun t => decide (t.store.lists 0 = [0]) && (t.store.get 0).outstanding) = some true := by decide +kernel
  obtain ⟨t,ht,hP⟩ := exists_treeReachable hrun
  simp only [Bool.and_eq_true,decide_eq_true_eq] at hP
  exact ⟨t,ht,hP.1,hP.2,peer_loses_nothing sha1ZeroByte _ (@Boot.near_oneByte (List.replicate 20 0) (by decide)) t ht 0⟩

end Unworkable
