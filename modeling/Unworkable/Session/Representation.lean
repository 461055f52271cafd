import Unworkable.Session.Refinement
import Unworkable.Library.WordLoop

/-! # The request store in every reachable state

The representation invariant of the store holds between any two events, and in single-file
torrents every request asks for a block of its piece, so that an accepted block fits.
-/
namespace Unworkable
open Library

theorem blockOffs_eq (len : ℕ) : blockOffs len = counters blockSize len := by
  unfold blockOffs counters
  have hround : len + blockSize - 1 = len + 16383 := by
    rw [blockSize]
    omega
  rw [hround]
  rfl

theorem mem_blockOffs {len off : ℕ} : off ∈ blockOffs len ↔ blockSize ∣ off ∧ off < len := by
  rw [blockOffs_eq]
  exact mem_counters (by decide)

theorem blockLen_eq {plen off : ℕ} (hp : plen < 4294967296) (ho : off < plen) :
    blockLen plen off = min blockSize (plen - off) := by
  unfold blockLen
  rw [sub32_of_le hp (by omega)]
  unfold blockSize
  split <;> omega

theorem blockLen_pos_le {plen off : ℕ} (hp : plen < 4294967296) (ho : off ∈ blockOffs plen) :
    0 < blockLen plen off ∧ blockLen plen off ≤ blockSize := by
  rw [blockLen_eq hp (mem_blockOffs.mp ho).2,blockSize]
  have hlt := (mem_blockOffs.mp ho).2
  omega

def BlockOf (tp : Torrent) (pd : PieceDl) : Prop :=
  pd.idx < tp.numPieces ∧ blockSize ∣ pd.off ∧ pd.off < (tp.piece pd.idx).len ∧
    pd.len = min blockSize ((tp.piece pd.idx).len - pd.off)

/-- The pieces of a single-file torrent have the lengths `torrent_pieces_create` gave them. -/
def Measured (tp : Torrent) : Prop := tp.mi.type = .singlefile → ∀ i, (tp.piece i).len = pieceLen tp.mi i

section Measured
variable {sha1 : Bytes → Bytes} {tp tp' : Torrent}

/-- No move of a single-file torrent changes the length of a piece. -/
theorem TorrentMove.len (hs : tp.mi.type = .singlefile) (h : TorrentMove sha1 tp tp') (i : ℕ) :
    (tp'.piece i).len = (tp.piece i).len := by
  cases h with
  | counters _ hpiece _ => rw [hpiece]
  | @map _ idx hmap =>
    obtain ⟨-,rfl⟩ := (torrentPieceMap_singlefile hs).mp hmap
    by_cases hi : i = idx
    · simp [hi]
    · simp [Torrent.setPiece_ne _ _ hi]
  | unmap idx =>
    obtain ⟨-,hpiece,-⟩ := Intact.foldl_unmapTurn (tp.piece idx).mmaps tp
    unfold torrentPieceUnmap
    by_cases hi : i = idx
    · simp [hi,hpiece]
    · simp [Torrent.setPiece_ne _ _ hi,hpiece]
  | @verify _ idx _ _ _ hcheck =>
    rcases torrentPieceCheckhash_cases hcheck with ⟨-,rfl⟩ | ⟨-,rfl⟩
    · by_cases hi : i = idx
      · simp [hi]
      · simp [Torrent.setPiece_ne _ _ hi]
    · rfl

theorem TorrentMoves.frame (h : TorrentMoves sha1 tp tp') :
    tp'.mi = tp.mi ∧ (tp.mi.type = .singlefile → ∀ i, (tp'.piece i).len = (tp.piece i).len) := by
  induction h with
  | refl => exact ⟨rfl,fun _ _ => rfl⟩
  | tail _ hmove ih =>
    refine ⟨hmove.mi.trans ih.1,?_⟩
    intro hs i
    rw [hmove.len (ih.1 ▸ hs) i,ih.2 hs i]

theorem fastresumeTurn_frame {bitfield : Bytes} {i : ℕ} (h : fastresumeTurn bitfield tp i = .ok tp') :
    tp'.mi = tp.mi ∧ ∀ j, (tp'.piece j).len = (tp.piece j).len := by
  unfold fastresumeTurn at h
  obtain ⟨tpp,-,h⟩ := bind_ok.mp h
  obtain ⟨bit,-,h⟩ := bind_ok.mp h
  cases h
  split
  · refine ⟨rfl,?_⟩
    intro j
    by_cases hj : j = i
    · simp [hj]
    · simp [Torrent.setPiece_ne _ _ hj]
  · exact ⟨rfl,fun _ => rfl⟩

/-- Both ways of starting leave the metainfo and the lengths of the pieces alone. -/
theorem Boot.torrent_frame {b : Boot} (h : b.torrent sha1 = .ok tp) : tp.mi = b.mi ∧ Measured tp := by
  unfold Boot.torrent at h
  cases hr : b.resume with
  | none =>
    simp only [hr] at h
    obtain ⟨hmi,hlen⟩ := (startup_moves h).frame
    refine ⟨hmi,?_⟩
    intro hs i
    rw [hlen (hmi ▸ hs) i,hmi]
    rfl
  | some contents =>
    simp only [hr] at h
    have hframe : tp.mi = b.mi ∧ ∀ i, (tp.piece i).len = pieceLen b.mi i := by
      refine foldlM_rel (R := fun t t' : Torrent => t'.mi = t.mi ∧ ∀ i, (t'.piece i).len = (t.piece i).len)
        (fun _ => ⟨rfl,fun _ => rfl⟩) ?_ _ (fun _ _ _ _ h => fastresumeTurn_frame h) h
      intro a b c hab hbc
      exact ⟨hbc.1.trans hab.1,fun i => (hbc.2 i).trans (hab.2 i)⟩
    refine ⟨hframe.1,?_⟩
    intro _ i
    rw [hframe.2 i,hframe.1]

end Measured

structure Core.Sound (c : Core) : Prop where
  wf : c.store.Wf
  measured : Measured c.tp
  blocks : c.tp.mi.type = .singlefile → c.store.All (BlockOf c.tp)

namespace Core.Sound
variable {sha1 : Bytes → Bytes} {c c' : Core}

theorem blockOf_congr {tp tp' : Torrent} (hmi : tp'.mi = tp.mi) (hlen : ∀ i, (tp'.piece i).len = (tp.piece i).len)
    {pd : PieceDl} (h : BlockOf tp pd) : BlockOf tp' pd := by
  unfold BlockOf at h ⊢
  rwa [Torrent.numPieces,hmi,hlen]

/-- A change of the torrent that keeps metainfo and lengths. -/
theorem setTorrent (h : c.Sound) {tp' : Torrent} (hmi : tp'.mi = c.tp.mi)
    (hlen : c.tp.mi.type = .singlefile → ∀ i, (tp'.piece i).len = (c.tp.piece i).len) :
    Core.Sound { c with tp := tp' } where
  wf := h.wf
  measured hs i := by
    dsimp only at hs ⊢
    rw [hmi] at hs ⊢
    rw [hlen hs,h.measured hs i]
  blocks hs d pd hd := by
    dsimp only at hs ⊢
    rw [hmi] at hs
    exact blockOf_congr hmi (hlen hs) (h.blocks hs d pd hd)

/-- A change of the store alone. -/
theorem setStore (h : c.Sound) {st : DlStore} (hwf : st.Wf)
    (hblocks : c.tp.mi.type = .singlefile → st.All (BlockOf c.tp)) : Core.Sound { c with store := st } :=
  ⟨hwf,h.measured,hblocks⟩

theorem setQueue (h : c.Sound) (p : PeerId) (f : ℕ → ℕ) : (c.setQueue p f).Sound := ⟨h.wf,h.measured,h.blocks⟩

/-- The peer of a request has no part in which block it asks for. -/
theorem blockOf_pc (tp : Torrent) (pd : PieceDl) (pc : Option PeerId) (h : BlockOf tp pd) :
    BlockOf tp { pd with pc := pc } := h

theorem ask (h : c.Sound) {p : PeerId} (ha : Ask p c c') : c'.Sound := by
  cases ha with
  | @request idx off hp hidx hoff =>
    refine (h.setQueue p _).setStore (h.wf.create p idx off _) ?_
    intro hs
    refine (h.blocks hs).create ?_
    obtain ⟨hdvd,hlt⟩ := mem_blockOffs.mp hoff
    refine ⟨hidx,hdvd,hlt,blockLen_eq ?_ hlt⟩
    rw [h.measured hs idx]
    exact pieceLen_lt _ _
  | @recycle d idx off hp hfind hpc hout =>
    obtain ⟨pd,hpd,-⟩ := h.wf.find_some hfind
    rw [DlStore.get_of_dl hpd] at hpc
    exact (h.setQueue p _).setStore (h.wf.recycle hpd hpc p)
      (fun hs => (h.blocks hs).recycle (blockOf_pc c.tp))

theorem routine (h : c.Sound) (hmove : Routine sha1 c c') : c'.Sound := by
  cases hmove with
  | torrent htm => exact h.setTorrent htm.mi (fun hs => htm.len hs)
  | ask p ha => exact h.ask ha
  | attend ha =>
    cases ha with
    | drop p => exact ⟨(h.wf.peerFreeDls p).1,h.measured,fun hs => (h.blocks hs).peerFreeDls (blockOf_pc c.tp)⟩
    | join => exact ⟨h.wf,h.measured,h.blocks⟩

theorem move (h : c.Sound) (hmove : Move sha1 c c') : c'.Sound := by
  cases hmove with
  | routine hr => exact h.routine hr
  | choke p =>
    exact (h.setQueue p _).setStore (h.wf.foldl_orphan p).1
      (fun hs => (h.blocks hs).foldl_orphan (blockOf_pc c.tp) _)
  | @reject p d idx off hfind =>
    exact (h.setQueue p _).setStore (h.wf.free d) (fun hs => (h.blocks hs).free d)
  | @deliver p d idx off data hidx hck hmap hfind hlen =>
    have hst : Core.Sound { c.setQueue p (sub32 · 1) with
        store := c.store.set d (fun pd => { pd with bytes := add32 pd.bytes data.length }) } :=
      (h.setQueue p _).setStore (h.wf.set d (fun pd => ⟨rfl,rfl⟩))
        (fun hs => (h.blocks hs).set (fun pd hpd => h.blocks hs d pd hpd))
    exact hst.setTorrent (torrentBlockWrite_mi _ _ _ _ _) (fun _ i => by simp [Core.setQueue])
  | @free d idx off hfind => exact h.setStore (h.wf.free d) (fun hs => (h.blocks hs).free d)

theorem moves (h : c.Sound) (hmoves : Moves sha1 c c') : c'.Sound := by
  induction hmoves with
  | refl => exact h
  | tail _ hmove ih => exact ih.move hmove

theorem mi (hmoves : Moves sha1 c c') : c'.tp.mi = c.tp.mi := by
  induction hmoves with
  | refl => rfl
  | tail _ hmove ih =>
    rw [← ih]
    cases hmove with
    | routine hr =>
      cases hr with
      | torrent htm => exact htm.mi
      | ask p ha => rw [ha.frame.1]
      | attend ha => rw [ha.tp]
    | deliver _ _ _ _ _ => exact torrentBlockWrite_mi _ _ _ _ _
    | _ => rfl

end Core.Sound

section Reachable
variable {sha1 : Bytes → Bytes} {b : Boot} {s : Session}

/-- The invariant in every reachable state. -/
theorem Reachable.sound (h : Reachable sha1 b s) : s.core.Sound ∧ s.tp.mi = b.mi := by
  obtain ⟨tp,htp,hmoves⟩ := h.moves
  obtain ⟨hmi,hlen⟩ := Boot.torrent_frame htp
  have h₀ : (Session.initial tp b.maxfds b.peerid b.seed b.now).core.Sound :=
    ⟨DlStore.wf_empty,hlen,fun _ d pd hd => by cases hd⟩
  exact ⟨h₀.moves hmoves,(Core.Sound.mi hmoves).trans hmi⟩

/-- The block of an accepted message lies inside its piece. -/
theorem Accepts.fits {env : Env} {p : PeerId} {msg : Bytes} {d : DlId} (hs : s.core.Sound)
    (htype : s.tp.mi.type = .singlefile) (h : Accepts env s p msg d) :
    msgField env msg 5 + (msg.drop 9).length ≤ (s.tp.piece (msgField env msg 1)).len := by
  obtain ⟨pd,hpd,hkey⟩ := hs.wf.find_some h.found
  have hkey' : pd.idx = msgField env msg 1 ∧ pd.off = msgField env msg 5 := by simpa [PieceDl.key] using hkey
  obtain ⟨-,-,hoff,hlen⟩ := hs.blocks htype d pd hpd
  have hget : s.store.get d = pd := DlStore.get_of_dl hpd
  rw [h.length,hget,← hkey'.1,← hkey'.2]
  have htp : s.core.tp = s.tp := rfl
  rw [htp] at hoff hlen
  omega

theorem DlStore.Wf.count_index {st : DlStore} (h : st.Wf) {d : DlId} {pd : PieceDl} (hd : st.dl d = some pd) :
    ∃ n ∈ st.index, n.key = pd.key ∧ n.dls.count d = 1 ∧ ∀ m ∈ st.index, d ∈ m.dls → m = n := by
  obtain ⟨n,hn,hk,hmem⟩ := h.indexed d pd hd
  refine ⟨n,hn,hk,List.count_eq_one_of_mem (h.once n hn) hmem,?_⟩
  intro m hm hdm
  obtain ⟨pd',hpd',hk'⟩ := h.keyed m hm d hdm
  cases hd.symm.trans hpd'
  exact h.node_unique hm hn (hk'.symm.trans hk.symm)

theorem DlStore.Wf.count_lists {st : DlStore} (h : st.Wf) {d : DlId} {pd : PieceDl} (hd : st.dl d = some pd)
    (p : PeerId) : (st.lists p).count d = if pd.pc = some p then 1 else 0 := by
  split
  · rename_i hpc
    exact List.count_eq_one_of_mem (h.list_nodup p) ((h.listed p d).mpr ⟨pd,hd,hpc⟩)
  · rename_i hpc
    refine List.count_eq_zero_of_not_mem ?_
    intro hmem
    obtain ⟨pd',hpd',hpc'⟩ := h.dl_of_mem_lists hmem
    cases hd.symm.trans hpd'
    exact hpc hpc'

end Reachable

/-- Between any two events a live request is on exactly one index node, the one with its own
key, and on the list of its peer exactly once and on no other; keys are distinct and no node
is empty. In a single-file torrent every request is for a block of its piece, and the block
of an accepted message lies inside the piece. -/
theorem store_representation (sha1 : Bytes → Bytes) (b : Boot) (s : Session) (h : Reachable sha1 b s) :
    (∀ d pd, s.store.dl d = some pd →
      (∃ n ∈ s.store.index, (n.idx,n.off) = (pd.idx,pd.off) ∧ n.dls.count d = 1 ∧
        ∀ m ∈ s.store.index, d ∈ m.dls → m = n) ∧
      ∀ p, (s.store.lists p).count d = if pd.pc = some p then 1 else 0) ∧
    (∀ n ∈ s.store.index, n.dls ≠ [] ∧ ∀ d ∈ n.dls, (s.store.dl d).isSome) ∧
    (s.store.index.map (fun n => (n.idx,n.off))).Nodup ∧
    (∀ p, ∀ d ∈ s.store.lists p, (s.store.dl d).isSome) ∧
    (b.mi.type = .singlefile →
      (∀ d pd, s.store.dl d = some pd → pd.idx < s.tp.numPieces ∧ blockSize ∣ pd.off ∧
        pd.off < (s.tp.piece pd.idx).len ∧ pd.len = min blockSize ((s.tp.piece pd.idx).len - pd.off)) ∧
      ∀ env p msg d, Accepts env s p msg d →
        msgField env msg 5 + (msg.drop 9).length ≤ (s.tp.piece (msgField env msg 1)).len) := by
  obtain ⟨hs,hmi⟩ := h.sound
  refine ⟨?_,?_,hs.wf.keys,?_,?_⟩
  · intro d pd hd
    exact ⟨hs.wf.count_index hd,hs.wf.count_lists hd⟩
  · intro n hn
    refine ⟨hs.wf.nonempty n hn,?_⟩
    intro d hd
    obtain ⟨pd,hpd,-⟩ := hs.wf.keyed n hn d hd
    simp [show s.store.dl d = some pd from hpd]
  · intro p d hd
    obtain ⟨pd,hpd,-⟩ := hs.wf.dl_of_mem_lists hd
    simp [show s.store.dl d = some pd from hpd]
  · intro htype
    have htype' : s.tp.mi.type = .singlefile := by rw [hmi]; exact htype
    exact ⟨hs.blocks htype',fun env p msg d hacc => hacc.fits hs htype'⟩

/-- A reachable state with a request in it. -/
theorem store_representation_oneRequest : ∃ s, Reachable sha1ZeroByte (.oneByte (List.replicate 20 0) 1) s ∧
    s.store.lists 0 = [0] ∧ (s.store.index.map (fun n => (n.idx,n.off))).Nodup ∧
    ∀ d pd, s.store.dl d = some pd → pd.idx < s.tp.numPieces := by
  have hrun : ((Boot.oneByte (List.replicate 20 0) 1).run sha1ZeroByte oneRequestRun).toOption.map
      (fun s => decide (s.store.lists 0 = [0])) = some true := by decide +kernel
  obtain ⟨s,hs,hlist⟩ := exists_reachable hrun
  obtain ⟨-,-,hkeys,-,hsingle⟩ := store_representation sha1ZeroByte _ s hs
  refine ⟨s,hs,by simpa using hlist,hkeys,?_⟩
  intro d pd hd
  exact ((hsingle rfl).1 d pd hd).1

end Unworkable
