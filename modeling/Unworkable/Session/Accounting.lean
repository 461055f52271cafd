import Unworkable.Session.Unrequested

/-! # Queue lengths and the requests they count

`dl_queue_len` of a peer should be the number of its requests that are still outstanding.
Requests, the end of a peer and new peers keep it so. CHOKE, REJECT and PIECE keep it only
when the requests they give up, free or complete were outstanding and the peer's own.
-/
namespace Unworkable
open Library

/-- How many requests on the list of `p` are still outstanding. -/
def DlStore.outstandingOf (st : DlStore) (p : PeerId) : ℕ := (st.lists p).countP (fun d => (st.get d).outstanding)

def Whole (pd : PieceDl) : Prop := 0 < pd.len ∧ pd.len ≤ blockSize ∧ (pd.bytes = 0 ∨ pd.bytes = pd.len)

/-- The invariant of the ledger that concerns queue lengths, which are 32-bit words. -/
structure Core.Booked (c : Core) : Prop where
  wf : c.store.Wf
  peered : c.Peered
  short : ∀ i, (c.tp.piece i).len < 4294967296
  fresh : ∀ p, c.nextPeer ≤ p → c.store.lists p = []
  whole : c.store.All Whole
  balanced : ∀ p ∈ c.peers, c.queue p = wrap32 (c.store.outstandingOf p)

section Short
variable {sha1 : Bytes → Bytes} {tp tp' : Torrent}

theorem mapFiles_plen {l : List (ℕ × FileInfo)} {w w' : MapWalk} (hw : w.plen < 4294967296)
    (h : mapFiles l w = .ok w') : w'.plen < 4294967296 :=
  mapFiles_keeps (P := fun v => v.plen < 4294967296) (fun _ _ _ _ _ => wrap32_lt _) (fun _ _ _ _ hv => hv) hw h

/-- Lengths of pieces stay 32-bit words. -/
theorem TorrentMove.short (hs : ∀ i, (tp.piece i).len < 4294967296) (h : TorrentMove sha1 tp tp') (i : ℕ) :
    (tp'.piece i).len < 4294967296 := by
  cases hty : tp.mi.type with
  | singlefile =>
    rw [h.len hty]
    exact hs i
  | multifile =>
    cases h with
    | counters _ hpiece _ =>
      rw [hpiece]
      exact hs i
    | @map _ idx hmap =>
      simp only [torrentPieceMap,hty] at hmap
      obtain ⟨w,hw,hmap⟩ := bind_ok.mp hmap
      cases hmap
      by_cases hi : i = idx
      · subst hi
        simp only [Torrent.setPiece_self]
        exact mapFiles_plen (show 0 < 4294967296 by decide) hw
      · rw [Torrent.setPiece_ne _ _ hi,(mapFiles_frame hw).2]
        exact hs i
    | unmap idx =>
      obtain ⟨-,hpiece,-⟩ := Intact.foldl_unmapTurn (tp.piece idx).mmaps tp
      unfold torrentPieceUnmap
      by_cases hi : i = idx
      · subst hi
        simpa [hpiece] using hs i
      · rw [Torrent.setPiece_ne _ _ hi,hpiece]
        exact hs i
    | @verify _ idx _ _ _ hcheck =>
      rcases torrentPieceCheckhash_cases hcheck with ⟨-,rfl⟩ | ⟨-,rfl⟩
      · by_cases hi : i = idx
        · subst hi
          simpa using hs i
        · rw [Torrent.setPiece_ne _ _ hi]
          exact hs i
      · exact hs i

end Short

section Counting
variable {st st' : DlStore} {p : PeerId}

theorem outstandingOf_congr (hl : st'.lists p = st.lists p) (hd : ∀ d ∈ st.lists p, st'.dl d = st.dl d) :
    st'.outstandingOf p = st.outstandingOf p := by
  unfold DlStore.outstandingOf
  rw [hl]
  refine List.countP_congr ?_
  intro d hmem
  simp only [DlStore.get,hd d hmem]

theorem wrap32_add (n k : ℕ) : wrap32 (wrap32 n + k) = wrap32 (n + k) := by
  unfold wrap32
  omega

theorem add32_wrap32 (n : ℕ) : add32 (wrap32 n) 1 = wrap32 (n + 1) := wrap32_add n 1

theorem sub32_wrap32 (n : ℕ) : sub32 (wrap32 (n + 1)) 1 = wrap32 n := by
  unfold sub32 wrap32
  omega

theorem foldl_sub32 {α : Type} (l : List α) (n : ℕ) :
    l.foldl (fun n _ => sub32 n 1) (wrap32 (n + l.length)) = wrap32 n := by
  induction l with
  | nil => rfl
  | cons a l ih =>
    rw [List.foldl_cons,List.length_cons,← Nat.add_assoc,sub32_wrap32]
    exact ih

variable {q : PeerId} {d : DlId} {pd : PieceDl}

/-- A new request counts for its peer. -/
theorem outstandingOf_create (h : st.Wf) (idx off : ℕ) {len : ℕ} (hlen : 0 < len) (q : PeerId) :
    (networkPieceDlCreate st p idx off len).1.outstandingOf q = st.outstandingOf q + if q = p then 1 else 0 := by
  have hold : ∀ e ∈ st.lists q, (networkPieceDlCreate st p idx off len).1.dl e = st.dl e := by
    intro e he
    rw [DlStore.create_dl,if_neg (h.lists_ne_next he)]
  have hold₁ : (st.lists q).countP (fun e => ((networkPieceDlCreate st p idx off len).1.get e).outstanding) =
      st.outstandingOf q := by
    refine List.countP_congr ?_
    intro e he
    simp only [DlStore.get,hold e he]
  have hnew : ((networkPieceDlCreate st p idx off len).1.get st.next).outstanding = true := by
    simp [DlStore.get,DlStore.create_dl,PieceDl.outstanding]
    omega
  rw [DlStore.outstandingOf,DlStore.create_lists]
  split
  · rw [List.countP_append,hold₁,List.countP_singleton,if_pos hnew]
  · exact hold₁

/-- A recycled request counts for its new peer. -/
theorem outstandingOf_recycle (h : st.Wf) (hd : st.dl d = some pd) (hpc : pd.pc = none)
    (hout : pd.outstanding = true) (q : PeerId) :
    (recycle p st d).outstandingOf q = st.outstandingOf q + if q = p then 1 else 0 := by
  have hno : d ∉ st.lists q := by
    intro hmem
    obtain ⟨pd',hpd',hpc'⟩ := h.dl_of_mem_lists hmem
    cases hd.symm.trans hpd'
    simp [hpc] at hpc'
  have hold₁ : (st.lists q).countP (fun e => ((recycle p st d).get e).outstanding) = st.outstandingOf q := by
    refine List.countP_congr ?_
    intro e he
    have hed : e ≠ d := by
      rintro rfl
      exact hno he
    simp only [DlStore.get,DlStore.recycle_dl,if_neg hed]
  have hnew : ((recycle p st d).get d).outstanding = true := by
    rw [DlStore.get,DlStore.recycle_dl,if_pos rfl,hd]
    exact hout
  rw [DlStore.outstandingOf,DlStore.recycle_lists]
  split
  · rw [List.countP_append,hold₁,List.countP_singleton,if_pos hnew]
  · exact hold₁

theorem freeTurn_dl {e : DlId} (he : e ≠ d) : (freeTurn p st d).dl e = st.dl e := by
  unfold freeTurn
  dsimp only
  split
  · rw [DlStore.free_dl,if_neg he,DlStore.orphan_dl,if_neg he]
  · rw [DlStore.orphan_dl,if_neg he]

/-- A loop over requests that changes only the request of each turn. -/
theorem foldl_dl {f : DlStore → DlId → DlStore} (hf : ∀ st d e, e ≠ d → (f st d).dl e = st.dl e)
    {l : List DlId} {e : DlId} (he : e ∉ l) : (l.foldl f st).dl e = st.dl e := by
  induction l generalizing st with
  | nil => rfl
  | cons d l ih =>
    rw [List.mem_cons,not_or] at he
    rw [List.foldl_cons,ih he.2,hf st d e he.1]

/-- No request is on the lists of two peers. -/
theorem not_mem_other_list (h : st.Wf) (hq : q ≠ p) (hd : d ∈ st.lists q) : d ∉ st.lists p := by
  intro hd'
  obtain ⟨pd,hpd,hpc⟩ := h.dl_of_mem_lists hd
  obtain ⟨pd',hpd',hpc'⟩ := h.dl_of_mem_lists hd'
  cases hpd.symm.trans hpd'
  cases hpc.symm.trans hpc'
  exact hq rfl

/-- The end of a peer leaves the counts of the others alone. -/
theorem outstandingOf_peerFreeDls (h : st.Wf) (hq : q ≠ p) :
    (peerFreeDls st p).outstandingOf q = st.outstandingOf q := by
  refine outstandingOf_congr ?_ ?_
  · rw [(h.peerFreeDls p).2 q,if_neg hq]
  · intro d hd
    exact foldl_dl (fun st d e he => freeTurn_dl he) (not_mem_other_list h hq hd)

/-- The request `d` apart, the count of a peer is over the rest of its list. -/
theorem outstandingOf_split (st : DlStore) (d : DlId) (q : PeerId) : st.outstandingOf q =
    ((st.lists q).erase d).countP (fun e => (st.get e).outstanding) +
      if d ∈ st.lists q ∧ (st.get d).outstanding = true then 1 else 0 := by
  unfold DlStore.outstandingOf
  by_cases hd : d ∈ st.lists q
  · rw [(List.perm_cons_erase hd).countP_eq,List.countP_cons]
    simp [hd]
  · rw [List.erase_of_not_mem hd]
    simp [hd]

/-- Freeing a request takes it out of the count of its peer. -/
theorem outstandingOf_free (h : st.Wf) (d : DlId) (q : PeerId) : st.outstandingOf q =
    (networkPieceDlFree st d).outstandingOf q + if d ∈ st.lists q ∧ (st.get d).outstanding = true then 1 else 0 := by
  rw [outstandingOf_split st d q]
  congr 1
  rw [DlStore.outstandingOf,h.free_lists]
  refine List.countP_congr ?_
  intro e he
  have hed : e ≠ d := by
    rintro rfl
    exact (h.list_nodup q).not_mem_erase he
  simp only [DlStore.get,DlStore.free_dl,if_neg hed]

/-- Completing a request takes it out of the count of its peer. -/
theorem outstandingOf_complete (h : st.Wf) (hd : st.dl d = some pd) {f : PieceDl → PieceDl}
    (hc : (f pd).outstanding = false) (q : PeerId) :
    st.outstandingOf q =
      (st.set d f).outstandingOf q + if d ∈ st.lists q ∧ (st.get d).outstanding = true then 1 else 0 := by
  have hget : (st.set d f).get d = f pd := by simp [DlStore.get,DlStore.set,hd]
  rw [outstandingOf_split st d q,outstandingOf_split (st.set d f) d q,hget,hc]
  simp only [Bool.false_eq_true,and_false,if_false,Nat.add_zero]
  congr 1
  refine List.countP_congr ?_
  intro e he
  have hed : e ≠ d := by
    rintro rfl
    exact (h.list_nodup q).not_mem_erase he
  simp only [DlStore.get,DlStore.set,Function.update_of_ne hed]

end Counting

namespace Core.Booked
variable {sha1 : Bytes → Bytes} {c c' : Core}

theorem whole_pc (pd : PieceDl) (pc : Option PeerId) (h : Whole pd) : Whole { pd with pc := pc } := h

/-- A request keeps the accounts, and only the count of its peer grows. -/
theorem ask (h : c.Booked) {p : PeerId} (ha : Ask p c c') : c'.Booked ∧
    ∀ q, c'.store.outstandingOf q = c.store.outstandingOf q + if q = p then 1 else 0 := by
  obtain ⟨htp,hpeers,hnext⟩ := ha.frame
  have hpeered : c'.Peered := ⟨by rw [hpeers,hnext]; exact h.peered.lt,by rw [hpeers]; exact h.peered.nodup⟩
  have hshort : ∀ i, (c'.tp.piece i).len < 4294967296 := by
    rw [htp]
    exact h.short
  -- the queue length of the peer grows with its count
  have hbalanced : (∀ q, c'.store.outstandingOf q = c.store.outstandingOf q + if q = p then 1 else 0) →
      c'.queue = Function.update c.queue p (add32 (c.queue p) 1) →
      ∀ q ∈ c'.peers, c'.queue q = wrap32 (c'.store.outstandingOf q) := by
    intro hcount hqueue q hq
    rw [hpeers] at hq
    rw [hcount q,hqueue]
    by_cases hqp : q = p
    · subst hqp
      rw [Function.update_self,if_pos rfl,h.balanced q hq]
      exact add32_wrap32 _
    · rw [Function.update_of_ne hqp,if_neg hqp,Nat.add_zero]
      exact h.balanced q hq
  cases ha with
  | @request idx off hp hidx hoff =>
    have hlen := blockLen_pos_le (h.short idx) hoff
    have hcount := outstandingOf_create (p := p) h.wf idx off hlen.1
    refine ⟨⟨h.wf.create p idx off _,hpeered,hshort,?_,h.whole.create ⟨hlen.1,hlen.2,.inl rfl⟩,
      hbalanced hcount rfl⟩,hcount⟩
    intro q hq
    rw [DlStore.create_lists,if_neg (Nat.ne_of_gt (lt_of_lt_of_le hp hq))]
    exact h.fresh q hq
  | @recycle d idx off hp hfind hpc hout =>
    obtain ⟨pd,hpd,-⟩ := h.wf.find_some hfind
    rw [DlStore.get_of_dl hpd] at hpc hout
    have hcount := outstandingOf_recycle (p := p) h.wf hpd hpc hout
    refine ⟨⟨h.wf.recycle hpd hpc p,hpeered,hshort,?_,h.whole.recycle whole_pc,hbalanced hcount rfl⟩,hcount⟩
    intro q hq
    rw [DlStore.recycle_lists,if_neg (Nat.ne_of_gt (lt_of_lt_of_le hp hq))]
    exact h.fresh q hq

/-- A change of the peer list keeps the accounts, and no count grows. -/
theorem attend (h : c.Booked) (ha : Attend c c') :
    c'.Booked ∧ ∀ q, c'.store.outstandingOf q ≤ c.store.outstandingOf q := by
  have hpeered := h.peered.routine (@Routine.attend (fun _ => []) _ _ ha)
  cases ha with
  | drop p =>
    obtain ⟨hwf,hlists⟩ := h.wf.peerFreeDls p
    refine ⟨⟨hwf,hpeered,h.short,?_,h.whole.peerFreeDls whole_pc,?_⟩,?_⟩
    · intro q hq
      rw [hlists q]
      split
      · rfl
      · exact h.fresh q hq
    · intro q hq
      have hqp : q ≠ p := by
        rintro rfl
        exact h.peered.nodup.not_mem_erase hq
      rw [outstandingOf_peerFreeDls h.wf hqp]
      exact h.balanced q (List.mem_of_mem_erase hq)
    · intro q
      by_cases hqp : q = p
      · rw [DlStore.outstandingOf,hlists q,if_pos hqp]
        exact Nat.zero_le _
      · exact (outstandingOf_peerFreeDls h.wf hqp).le
  | join =>
    refine ⟨⟨h.wf,hpeered,h.short,fun q hq => h.fresh q (Nat.le_of_succ_le hq),h.whole,?_⟩,fun q => le_refl _⟩
    intro q hq
    simp only [Core.setQueue]
    rcases List.mem_append.mp hq with hq | hq
    · rw [Function.update_of_ne (Nat.ne_of_lt (h.peered.lt q hq))]
      exact h.balanced q hq
    · rw [List.mem_singleton.mp hq,Function.update_self,DlStore.outstandingOf,h.fresh _ (le_refl _)]
      rfl

theorem torrent (h : c.Booked) {tp' : Torrent} (hmove : TorrentMove sha1 c.tp tp') :
    Core.Booked { c with tp := tp' } :=
  ⟨h.wf,⟨h.peered.lt,h.peered.nodup⟩,hmove.short h.short,h.fresh,h.whole,h.balanced⟩

theorem torrents (h : c.Booked) {tp' : Torrent} (hmoves : TorrentMoves sha1 c.tp tp') :
    Core.Booked { c with tp := tp' } := by
  induction hmoves with
  | refl => exact h
  | tail _ hmove ih => exact ih.torrent hmove

theorem attends (h : c.Booked) (hmoves : Attends c c') :
    c'.Booked ∧ ∀ q, c'.store.outstandingOf q ≤ c.store.outstandingOf q := by
  induction hmoves with
  | refl => exact ⟨h,fun q => le_refl _⟩
  | tail _ hmove ih =>
    obtain ⟨hb,hle⟩ := ih.1.attend hmove
    exact ⟨hb,fun q => (hle q).trans (ih.2 q)⟩

/-- CHOKE keeps the accounts when every request it gives up is outstanding. -/
theorem choke (h : c.Booked) {p : PeerId} (hall : ∀ d ∈ c.store.lists p, (c.store.get d).outstanding = true) :
    Core.Booked { c.setQueue p (fun n => (c.store.lists p).foldl (fun n _ => sub32 n 1) n) with
      store := (c.store.lists p).foldl (orphan p) c.store } ∧
      ∀ q, ((c.store.lists p).foldl (orphan p) c.store).outstandingOf q ≤ c.store.outstandingOf q := by
  obtain ⟨hwf,hlists⟩ := h.wf.foldl_orphan p
  have hgone : ((c.store.lists p).foldl (orphan p) c.store).outstandingOf p = 0 := by
    rw [DlStore.outstandingOf,hlists p,if_pos rfl]
    rfl
  have hrest : ∀ q, q ≠ p →
      ((c.store.lists p).foldl (orphan p) c.store).outstandingOf q = c.store.outstandingOf q := by
    intro q hqp
    refine outstandingOf_congr ?_ ?_
    · rw [hlists q,if_neg hqp]
    · intro d hd
      exact foldl_dl (fun st d e he => by rw [DlStore.orphan_dl,if_neg he]) (not_mem_other_list h.wf hqp hd)
  refine ⟨⟨hwf,⟨h.peered.lt,h.peered.nodup⟩,h.short,?_,h.whole.foldl_orphan whole_pc _,?_⟩,?_⟩
  · intro q hq
    dsimp only
    rw [hlists q]
    split
    · rfl
    · exact h.fresh q hq
  · intro q hq
    by_cases hqp : q = p
    · subst hqp
      have hcount : c.store.outstandingOf q = 0 + (c.store.lists q).length := by
        rw [Nat.zero_add]
        exact List.countP_eq_length.mpr hall
      simp only [Core.setQueue,Function.update_self,h.balanced q hq,hcount,hgone]
      exact foldl_sub32 _ 0
    · simp only [Core.setQueue,Function.update_of_ne hqp]
      rw [h.balanced q hq,hrest q hqp]
  · intro q
    by_cases hqp : q = p
    · rw [hqp,hgone]
      exact Nat.zero_le _
    · exact (hrest q hqp).le

/-- The queue length of `p` and the count of one of its outstanding requests drop together. -/
theorem settle (h : c.Booked) {p : PeerId} {d : DlId} {st : DlStore} (hmem : d ∈ c.store.lists p)
    (hout : (c.store.get d).outstanding = true)
    (hcount : ∀ q, c.store.outstandingOf q =
      st.outstandingOf q + if d ∈ c.store.lists q ∧ (c.store.get d).outstanding = true then 1 else 0) :
    ∀ q ∈ c.peers, (c.setQueue p (sub32 · 1)).queue q = wrap32 (st.outstandingOf q) := by
  intro q hq
  by_cases hqp : q = p
  · subst hqp
    have hc := hcount q
    rw [if_pos ⟨hmem,hout⟩] at hc
    simp only [Core.setQueue,Function.update_self,h.balanced q hq,hc]
    exact sub32_wrap32 _
  · have hc := hcount q
    rw [if_neg (fun hd => not_mem_other_list h.wf (Ne.symm hqp) hmem hd.1),Nat.add_zero] at hc
    simp only [Core.setQueue,Function.update_of_ne hqp,h.balanced q hq,hc]

/-- REJECT keeps the accounts when it frees an outstanding request of the sender. -/
theorem reject (h : c.Booked) {p : PeerId} {d : DlId} (hmem : d ∈ c.store.lists p)
    (hout : (c.store.get d).outstanding = true) :
    Core.Booked { c.setQueue p (sub32 · 1) with store := networkPieceDlFree c.store d } ∧
      ∀ q, (networkPieceDlFree c.store d).outstandingOf q ≤ c.store.outstandingOf q := by
  have hcount := outstandingOf_free h.wf d
  refine ⟨⟨h.wf.free d,⟨h.peered.lt,h.peered.nodup⟩,h.short,?_,h.whole.free d,h.settle hmem hout hcount⟩,
    fun q => (hcount q).symm ▸ Nat.le_add_right _ _⟩
  intro q hq
  dsimp only
  rw [h.wf.free_lists,h.fresh q hq]
  rfl

/-- PIECE keeps the accounts when it completes an outstanding request of the sender. -/
theorem deliver (h : c.Booked) {p : PeerId} {d : DlId} {idx off : ℕ} {data : Bytes} (hmem : d ∈ c.store.lists p)
    (hout : (c.store.get d).outstanding = true) (hlen : data.length = (c.store.get d).len) :
    (c.deliver p d idx off data).Booked ∧
      (∀ q, (c.deliver p d idx off data).store.outstandingOf q ≤ c.store.outstandingOf q) ∧
      ((c.deliver p d idx off data).store.get d).outstanding = false := by
  obtain ⟨pd,hpd,-⟩ := h.wf.dl_of_mem_lists hmem
  obtain ⟨hpos,hle,hbytes⟩ := h.whole d pd hpd
  have hout' := hout
  rw [DlStore.get_of_dl hpd] at hout' hlen
  have hzero : pd.bytes = 0 := hbytes.resolve_right (by simpa [PieceDl.outstanding] using hout')
  have hsum : add32 pd.bytes data.length = pd.len := by
    rw [hzero,hlen,add32_of_lt (by unfold blockSize at hle; omega),Nat.zero_add]
  have hkeep : ∀ pd : PieceDl, ({ pd with bytes := add32 pd.bytes data.length } : PieceDl).key = pd.key ∧
      ({ pd with bytes := add32 pd.bytes data.length } : PieceDl).pc = pd.pc := fun _ => ⟨rfl,rfl⟩
  have hcount := outstandingOf_complete (f := fun pd => { pd with bytes := add32 pd.bytes data.length }) h.wf hpd
    (by simp [PieceDl.outstanding,hsum])
  refine ⟨⟨h.wf.set d hkeep,⟨h.peered.lt,h.peered.nodup⟩,?_,h.fresh,h.whole.set ?_,h.settle hmem hout hcount⟩,
    fun q => (hcount q).symm ▸ Nat.le_add_right _ _,by
      simp [Core.deliver,DlStore.get,DlStore.set,hpd,PieceDl.outstanding,hsum]⟩
  · intro i
    simp only [Core.deliver,torrentBlockWrite_piece]
    exact h.short i
  · intro pd' hpd'
    cases hpd.symm.trans hpd'
    exact ⟨hpos,hle,.inr hsum⟩

/-- The cleanup after a hash check keeps the accounts when it frees no outstanding request
that has a peer. -/
theorem free (h : c.Booked) {d : DlId}
    (hd : (c.store.get d).outstanding = true → ∀ q, d ∉ c.store.lists q) :
    Core.Booked { c with store := networkPieceDlFree c.store d } := by
  refine ⟨h.wf.free d,⟨h.peered.lt,h.peered.nodup⟩,h.short,?_,h.whole.free d,?_⟩
  · intro q hq
    dsimp only
    rw [h.wf.free_lists,h.fresh q hq]
    rfl
  · intro q hq
    have hc := outstandingOf_free h.wf d q
    rw [if_neg (fun hm => hd hm.2 q hm.1),Nat.add_zero] at hc
    dsimp only
    rw [← hc]
    exact h.balanced q hq

end Core.Booked

section Cleanup
variable {st : DlStore} {c : Core}

/-- Freeing a request does not change the lookup of another key. -/
theorem find_free_other (h : st.Wf) {d : DlId} {pd : PieceDl} (hd : st.dl d = some pd) {i o : ℕ}
    (hk : pd.key ≠ (i,o)) : networkPieceDlFind (networkPieceDlFree st d) none i o = networkPieceDlFind st none i o := by
  have hrb : (networkPieceDlFree st d).rbFind i o = st.rbFind i o := by
    cases hf : st.rbFind i o with
    | none =>
      rw [DlStore.rbFind_none] at hf ⊢
      intro n hn
      obtain ⟨m,hm,rfl,-⟩ := h.mem_index_free.mp hn
      exact hf m hm
    | some n =>
      obtain ⟨hn,hnk⟩ := DlStore.rbFind_some hf
      have hno : n.dls.erase d = n.dls := by
        refine List.erase_of_not_mem ?_
        intro hmem
        obtain ⟨pd',hpd',hk'⟩ := h.keyed n hn d hmem
        cases hd.symm.trans hpd'
        exact hk (hk'.trans hnk)
      have hn' : n ∈ (networkPieceDlFree st d).index :=
        h.mem_index_free.mpr ⟨n,hn,by rw [hno],by rw [hno]; exact h.nonempty n hn⟩
      have hkey : n.idx = i ∧ n.off = o := by simpa [PieceDlIdxnode.key] using hnk
      rw [← hkey.1,← hkey.2]
      exact (h.free d).rbFind_eq hn'
  simp only [networkPieceDlFind,hrb]

theorem blockOffs_nodup (len : ℕ) : (blockOffs len).Nodup :=
  List.Nodup.map (fun a b h => Nat.eq_of_mul_eq_mul_right (by decide) h) List.nodup_range

/-- The cleanup loop keeps the accounts when the first request of no block is outstanding
and has a peer. -/
theorem Core.Booked.cleanup (h : c.Booked) {idx : ℕ} {offs : List ℕ} (hoffs : offs.Nodup)
    (hfair : ∀ off ∈ offs, ∀ d, networkPieceDlFind c.store none idx off = some d →
      (c.store.get d).outstanding = true → ∀ q, d ∉ c.store.lists q) :
    Core.Booked { c with store := offs.foldl (cleanupTurn idx) c.store } ∧
      ∀ q, (offs.foldl (cleanupTurn idx) c.store).outstandingOf q ≤ c.store.outstandingOf q := by
  induction offs generalizing c with
  | nil => exact ⟨h,fun q => le_refl _⟩
  | cons off rest ih =>
    obtain ⟨hnot,hrest⟩ := List.nodup_cons.mp hoffs
    rw [List.foldl_cons]
    cases hf : networkPieceDlFind c.store none idx off with
    | none =>
      have hturn : cleanupTurn idx c.store off = c.store := by simp [cleanupTurn,hf]
      rw [hturn]
      exact ih h hrest (fun o ho => hfair o (List.mem_cons_of_mem _ ho))
    | some d =>
      have hturn : cleanupTurn idx c.store off = networkPieceDlFree c.store d := by simp [cleanupTurn,hf]
      obtain ⟨pd,hpd,hkey⟩ := h.wf.find_some hf
      have hfree := h.free (hfair off List.mem_cons_self d hf)
      rw [hturn]
      -- the blocks still to come have other keys, so their first requests are as before
      obtain ⟨hbooked,hle⟩ := ih hfree hrest (by
        intro o ho e he hout q hq
        have hne : pd.key ≠ (idx,o) := by
          rw [hkey]
          intro heq
          exact hnot ((Prod.mk.inj heq).2 ▸ ho)
        rw [find_free_other h.wf hpd hne] at he
        have hed : e ≠ d := by
          rintro rfl
          obtain ⟨pe,hpe,hke⟩ := h.wf.find_some he
          cases hpd.symm.trans hpe
          exact hne hke
        refine hfair o (List.mem_cons_of_mem _ ho) e he ?_ q ?_
        · simpa [DlStore.get,DlStore.free_dl,hed] using hout
        · dsimp only at hq
          rw [h.wf.free_lists] at hq
          exact List.mem_of_mem_erase hq)
      refine ⟨hbooked,fun q => (hle q).trans ?_⟩
      have hc := outstandingOf_free h.wf d q
      dsimp only
      omega

end Cleanup

end Unworkable
