import Unworkable.Library.Lockstep
import Unworkable.Session.IndexTree
import Unworkable.Session.Wanted
import Unworkable.Torrent.Walks

/-! # The scheduler on the tree

A session whose requests are indexed by the tree of the source does what the session on the finite map does, as long as
the blocks of its torrent have keys that are near each other. Here that is shown of the scheduler, one function after
the other; each ends in the same error as the other one, or in states that agree.
-/
namespace Unworkable
open Library

/-- Keys whose differences fit the `int` that `piece_dl_idxnode_cmp` returns. -/
def nearKeys : Set (ℕ × ℕ) := {k | k.1 < 2147483648 ∧ k.2 < 2147483648}

/-- The blocks of a torrent have such keys: there are few pieces, none of them is long, and no mapping makes
one longer. -/
structure Metainfo.Near (mi : Metainfo) : Prop where
  few : mi.numPieces ≤ 2147483648
  short : ∀ i < mi.numPieces, pieceLen mi i ≤ 2147483648
  sized : mi.type = .multifile → ∀ f ∈ mi.files, 0 ≤ f.fileLength

structure Torrent.Near (tp : Torrent) : Prop where
  mi : tp.mi.Near
  indexed : Indexed tp
  short : ∀ i < tp.numPieces, (tp.piece i).len ≤ 2147483648

section Keys

theorem wordKeys_near : WordKeys nearKeys := by
  rintro k ⟨hi,ho⟩
  omega

theorem nearKeys_near : NearKeys nearKeys := by
  rintro x ⟨hx,hxo⟩ y ⟨hy,hyo⟩
  omega

theorem orders_near : Orders nodeCmp rank {n | n.key ∈ nearKeys} := orders_rank wordKeys_near nearKeys_near

end Keys

section Torrent
variable {sha1 : Bytes → Bytes} {tp tp' : Torrent}

/-- No move makes a piece longer. -/
theorem TorrentMove.len_le (hsized : tp.mi.type = .multifile → ∀ f ∈ tp.mi.files, 0 ≤ f.fileLength)
    (h : TorrentMove sha1 tp tp') {i : ℕ} (hi : (tp.piece i).len < 4294967296) : (tp'.piece i).len ≤
      (tp.piece i).len := by
  cases htype : tp.mi.type with
  | singlefile => exact (h.len htype i).le
  | multifile =>
    cases h with
    | counters _ hpiece _ => rw [hpiece]
    | @map _ idx hmap =>
      simp only [torrentPieceMap,htype] at hmap
      obtain ⟨w,hw,hmap⟩ := bind_ok.mp hmap
      cases hmap
      by_cases heq : i = idx
      · subst heq
        rw [Torrent.setPiece_self]
        refine mapFiles_plen_le ?_ hw ?_ (Nat.zero_add _).le hi
        · exact fun x hx => hsized htype x.2 (List.of_mem_zip hx).2
        · exact Int.natCast_nonneg (tp.mi.pieceLength * (tp.piece i).index)
      · rw [Torrent.setPiece_ne _ _ heq,(mapFiles_frame hw).2]
    | unmap idx =>
      obtain ⟨-,hpiece,-⟩ := Intact.foldl_unmapTurn (tp.piece idx).mmaps tp
      unfold torrentPieceUnmap
      by_cases heq : i = idx
      · subst heq
        simp [hpiece]
      · rw [Torrent.setPiece_ne _ _ heq,hpiece]
    | @verify _ idx _ _ _ hcheck =>
      rcases torrentPieceCheckhash_cases hcheck with ⟨-,rfl⟩ | ⟨-,rfl⟩
      · by_cases heq : i = idx
        · subst heq
          simp
        · rw [Torrent.setPiece_ne _ _ heq]
      · exact le_rfl

/-- Nothing takes the keys apart. -/
theorem near_steady (sha1 : Bytes → Bytes) : Steady sha1 Torrent.Near where
  move {tp tp'} h hmove := by
    have hmi := hmove.mi
    refine ⟨hmi ▸ h.mi,(indexed_steady sha1).move h.indexed hmove,?_⟩
    intro i hi
    rw [Torrent.numPieces,hmi] at hi
    have hshort := h.short i hi
    exact (hmove.len_le h.mi.sized (by omega)).trans hshort
  write {tp} idx off len d h := by
    have hpiece := torrentBlockWrite_piece tp idx off len d
    have hmi := torrentBlockWrite_mi tp idx off len d
    refine ⟨hmi ▸ h.mi,(indexed_steady sha1).write idx off len d h.indexed,?_⟩
    intro i hi
    rw [hpiece]
    rw [Torrent.numPieces,hmi] at hi
    exact h.short i hi
  resume {tp} i n d h := by
    refine ⟨h.mi,(indexed_steady sha1).resume i n d h.indexed,?_⟩
    intro j hj
    have hlen : ((tp.setPiece i fun t => { t with cksumok := true }).piece j).len = (tp.piece j).len := by
      by_cases heq : j = i
      · subst heq
        rw [Torrent.setPiece_self]
      · rw [Torrent.setPiece_ne _ _ heq]
    exact hlen.trans_le (h.short j hj)

theorem Torrent.Near.create {mi : Metainfo} (h : mi.Near) (pagesize : ℕ) (disk : ℕ → FileState) :
    (torrentPiecesCreate pagesize mi disk).Near := ⟨h,indexed_create mi disk,h.short⟩

theorem Torrent.Near.counters (h : tp.Near) (hmi : tp'.mi = tp.mi) (hpiece : tp'.piece = tp.piece) : tp'.Near := by
  refine ⟨hmi ▸ h.mi,h.indexed.congr hpiece,?_⟩
  intro i hi
  rw [hpiece]
  rw [Torrent.numPieces,hmi] at hi
  exact h.short i hi

theorem Torrent.Near.ensureMapped (h : tp.Near) {idx : ℕ} (hmap : Unworkable.ensureMapped tp idx = .ok tp') :
    tp'.Near := by
  unfold Unworkable.ensureMapped at hmap
  split at hmap
  · cases hmap
    exact h
  · exact (near_steady fun _ => []).move h (.map hmap)

/-- The blocks of a piece have keys that are near each other. -/
theorem Torrent.Near.key (h : tp.Near) {idx off : ℕ} (hidx : idx < tp.numPieces)
    (hoff : off ∈ blockOffs (tp.piece idx).len) :
    (idx,off) ∈ nearKeys := by
  have hfew := h.mi.few
  have hshort := h.short idx hidx
  have hlt := (mem_blockOffs.mp hoff).2
  exact ⟨hidx.trans_le hfew,hlt.trans_le hshort⟩

end Torrent

/-- The session with the nodes of its tree in a list. -/
def Session.flat (t : Session NodeTree) : Session := { t with store := t.store.flat }

/-- A session on the tree that is in order, and the same session on the finite map. -/
structure Agree (t : Session NodeTree) (s : Session) : Prop where
  flat : t.flat = s
  good : t.store.Good nearKeys
  near : t.tp.Near

def AgreeWith {α : Type} (x : Session NodeTree × α) (y : Session × α) : Prop := Agree x.1 y.1 ∧ x.2 = y.2

section Lookups
variable {st : DlStore NodeTree} {tpp : TorrentPiece}

theorem DlStore.Good.find (h : st.Good nearKeys) (p : Option PeerId) {idx off : ℕ} (hidx : idx < 4294967296)
    (hoff : off < 4294967296) :
    networkPieceDlFind st p idx off = networkPieceDlFind st.flat p idx off :=
  h.lookup wordKeys_near orders_near p hidx hoff

theorem all_congr_mem {α : Type} {l : List α} {f g : α → Bool} (h : ∀ a ∈ l, f a = g a) : l.all f = l.all g := by
  rw [Bool.eq_iff_iff,List.all_eq_true,List.all_eq_true]
  exact forall₂_congr fun a ha => by rw [h a ha]

theorem DlStore.Good.assigned (h : st.Good nearKeys) (hidx : tpp.index < 4294967296) (hlen : tpp.len ≤ 2147483648) :
    schedulerPieceAssigned st tpp = schedulerPieceAssigned st.flat tpp := by
  unfold schedulerPieceAssigned
  dsimp only
  rw [all_congr_mem]
  intro off hoff
  have hlt := (mem_blockOffs.mp hoff).2
  rw [h.find none hidx (by omega)]
  rfl

end Lookups

section Agree
variable {env : Env} {t : Session NodeTree} {s : Session} {p : PeerId} {idx off : ℕ}

namespace Agree

theorem find_piece (h : Agree t s) : torrentPieceFind t.tp idx = torrentPieceFind s.tp idx := by
  rw [← h.flat]
  rfl

theorem assigned (h : Agree t s) {tpp : TorrentPiece} (hfind : torrentPieceFind s.tp idx = .ok tpp) :
    schedulerPieceAssigned t.store tpp = schedulerPieceAssigned s.store tpp := by
  rw [← h.find_piece] at hfind
  obtain ⟨hidx,rfl⟩ := torrentPieceFind_ok.mp hfind
  have hword := t.tp.numPieces_lt
  rw [← h.flat]
  refine h.good.assigned ?_ (h.near.short idx hidx)
  rw [h.near.indexed]
  exact hidx.trans hword

theorem foldl {f : Session NodeTree → PeerId → Session NodeTree} {g : Session → PeerId → Session}
    (h : Agree t s) (hfg : ∀ a b q, Agree a b → Agree (f a q) (g b q)) (ps : List PeerId) :
    Agree (ps.foldl f t) (ps.foldl g s) :=
  List.foldl_rel h fun q _ a b hab => hfg a b q hab

theorem withTorrent (h : Agree t s) {tp : Torrent} (hnear : tp.Near) : Agree { t with tp := tp }
    { s with tp := tp } := by
  obtain ⟨rfl,hgood,-⟩ := h
  exact ⟨rfl,hgood,hnear⟩

theorem withStore (h : Agree t s) {st : DlStore NodeTree} (hgood : st.Good nearKeys) :
    Agree { t with store := st } { s with store := st.flat } := by
  obtain ⟨rfl,-,hnear⟩ := h
  exact ⟨rfl,hgood,hnear⟩

theorem store (h : Agree t s) : t.store.flat = s.store := by
  rw [← h.flat]
  rfl

/-- What does not touch the requests. -/
theorem setPeer (h : Agree t s) (f : Peer → Peer) : Agree (t.setPeer p f) (s.setPeer p f) := by
  obtain ⟨rfl,hgood,hnear⟩ := h
  exact ⟨rfl,hgood,hnear⟩

theorem networkPeerWrite (h : Agree t s) (msg : Bytes) : Agree (Unworkable.networkPeerWrite env t p msg)
    (Unworkable.networkPeerWrite env s p msg) := by
  obtain ⟨rfl,hgood,hnear⟩ := h
  exact ⟨rfl,hgood,hnear⟩

theorem peers (h : Agree t s) : t.peers = s.peers := by
  rw [← h.flat]
  rfl

theorem peer (h : Agree t s) : t.peer = s.peer := by
  rw [← h.flat]
  rfl

theorem tp (h : Agree t s) : t.tp = s.tp := by
  rw [← h.flat]
  rfl

theorem lists (h : Agree t s) : t.store.lists = s.store.lists := by
  rw [← h.flat]
  rfl

theorem get (h : Agree t s) : t.store.get = s.store.get := by
  rw [← h.flat]
  rfl

theorem nodes (h : Agree t s) : RbIndex.nodes t.store.index = RbIndex.nodes s.store.index := by
  rw [nodes_tree,← h.flat]
  rfl

theorem next (h : Agree t s) : t.store.next = s.store.next := by
  rw [← h.flat]
  rfl

theorem dl (h : Agree t s) : t.store.dl = s.store.dl := by
  rw [← h.flat]
  rfl

theorem numPeers (h : Agree t s) : t.numPeers = s.numPeers := by
  rw [← h.flat]
  rfl

theorem out (h : Agree t s) : t.out = s.out := by
  rw [← h.flat]
  rfl

theorem endgameFrom (h : Agree t s) (is : List ℕ) : Unworkable.endgameFrom t is = Unworkable.endgameFrom s is := by
  induction is with
  | nil => rfl
  | cons i is ih =>
    unfold Unworkable.endgameFrom
    rw [h.find_piece]
    refine bind_congr_ok fun tpp hfind => ?_
    rw [h.assigned hfind,ih]

theorem schedulerIsEndgame (h : Agree t s) : Unworkable.schedulerIsEndgame t = Unworkable.schedulerIsEndgame s := by
  unfold Unworkable.schedulerIsEndgame
  rw [h.endgameFrom,h.tp]

theorem rarityCount (h : Agree t s) (i : ℕ) (ps : List PeerId) (count : ℕ) :
    Unworkable.rarityCount t i ps count = Unworkable.rarityCount s i ps count := by
  induction ps generalizing count with
  | nil => rfl
  | cons q ps ih => simp only [Unworkable.rarityCount,h.peer,ih]

theorem schedulerPieceRarityarray (h : Agree t s) :
    Lockstep Agree (Unworkable.schedulerPieceRarityarray env t) (Unworkable.schedulerPieceRarityarray env s) := by
  unfold Unworkable.schedulerPieceRarityarray
  simp only [h.rarityCount,h.peers,h.tp]
  refine (Lockstep.same _).bind ?_
  rintro pieces _ rfl
  obtain ⟨rfl,hgood,hnear⟩ := h
  exact .ok ⟨rfl,hgood,hnear⟩

theorem rarestFrom (h : Agree t s) (bf : Option Bytes) (cs : List (ℕ × PieceCounter)) :
    Unworkable.rarestFrom t bf cs = Unworkable.rarestFrom s bf cs := by
  induction cs with
  | nil => rfl
  | cons c cs ih =>
    simp only [Unworkable.rarestFrom,h.find_piece,ih]
    have hpiece : (do
        let tpp ← torrentPieceFind s.tp c.2.idx
        if tpp.cksumok then Unworkable.rarestFrom s bf cs
        else if ← schedulerPieceAssigned t.store tpp then Unworkable.rarestFrom s bf cs
        else .ok (some tpp.index)) = (do
        let tpp ← torrentPieceFind s.tp c.2.idx
        if tpp.cksumok then Unworkable.rarestFrom s bf cs
        else if ← schedulerPieceAssigned s.store tpp then Unworkable.rarestFrom s bf cs
        else .ok (some tpp.index)) := bind_congr_ok fun tpp hfind => by rw [h.assigned hfind]
    rw [hpiece]

theorem schedulerPieceFindRarest (h : Agree t s) :
    Lockstep AgreeWith (Unworkable.schedulerPieceFindRarest env t p) (Unworkable.schedulerPieceFindRarest env s p) := by
  unfold Unworkable.schedulerPieceFindRarest
  refine Lockstep.bind (R := Agree) ?_ ?_
  · rw [show t.lastRarity = s.lastRarity by rw [← h.flat]; rfl]
    exact h.schedulerPieceRarityarray.ite (.ok h)
  · intro u v huv
    rw [show u.rarityArray = v.rarityArray by rw [← huv.flat]; rfl,huv.tp]
    refine Lockstep.ite (.error _) ?_
    rw [huv.rarestFrom,huv.peer]
    refine (Lockstep.same _).bind ?_
    rintro found _ rfl
    exact .ok ⟨huv,rfl⟩

theorem gimmeScan (h : Agree t s) (bf : Option Bytes) (ns : List PieceDlIdxnode) :
    Unworkable.gimmeScan t bf ns = Unworkable.gimmeScan s bf ns := by
  induction ns with
  | nil => rfl
  | cons n ns ih =>
    simp only [Unworkable.gimmeScan,h.find_piece,ih]
    exact bind_congr_ok fun tpp hfind => by rw [h.assigned hfind]

theorem usefulPieces (h : Agree t s) (bf : Option Bytes) (is : List ℕ) :
    Unworkable.usefulPieces t bf is = Unworkable.usefulPieces s bf is := by
  induction is with
  | nil => rfl
  | cons i is ih =>
    simp only [Unworkable.usefulPieces,h.find_piece,ih]
    cases bf with
    | none => rfl
    | some bf =>
      refine bind_congr_ok fun has _ => ?_
      split
      · rfl
      · exact bind_congr_ok fun tpp hfind => by rw [h.assigned hfind]

theorem gimmePiece (h : Agree t s) : Lockstep AgreeWith (Unworkable.gimmePiece env t p)
    (Unworkable.gimmePiece env s p) := by
  unfold Unworkable.gimmePiece
  rw [h.gimmeScan,h.peer,h.nodes,h.tp]
  refine (Lockstep.same _).bind ?_
  rintro found _ rfl
  cases found with
  | some idx => exact .ok ⟨h,rfl⟩
  | none =>
    refine Lockstep.ite ?_ h.schedulerPieceFindRarest
    rw [h.usefulPieces]
    refine (Lockstep.same _).bind ?_
    rintro pieces _ rfl
    rw [h.out]
    exact .ok ⟨h,rfl⟩

end Agree

/-- The block search on both stores. -/
theorem DlStore.Good.gimmeBlock {st : DlStore NodeTree} (h : st.Good nearKeys) (p : PeerId) {plen : ℕ} {offs : List ℕ}
    (hkeys : ∀ off ∈ offs, (idx,off) ∈ nearKeys) : Lockstep (fun x y => x.1.flat = y.1 ∧ x.1.Good nearKeys ∧ x.2 = y.2)
      (Unworkable.gimmeBlock st p idx plen offs) (Unworkable.gimmeBlock st.flat p idx plen offs) := by
  induction offs with
  | nil => exact Lockstep.ite (.error _) (.error _)
  | cons off offs ih =>
    obtain ⟨hkey,hkeys⟩ := List.forall_mem_cons.mp hkeys
    have hwords := wordKeys_near _ hkey
    unfold Unworkable.gimmeBlock
    rw [h.find none hwords.1 hwords.2]
    cases networkPieceDlFind st.flat none idx off with
    | none =>
      obtain ⟨hflat,hgood⟩ := h.create wordKeys_near orders_near hkey p (blockLen plen off)
      exact .ok ⟨hflat,hgood,rfl⟩
    | some d => exact Lockstep.ite (.ok ⟨rfl,h.recycle p d,rfl⟩) (ih hkeys)

namespace Agree

theorem schedulerPieceGimme (h : Agree t s) (nocreate : Bool) :
    Lockstep AgreeWith (Unworkable.schedulerPieceGimme env t p nocreate)
    (Unworkable.schedulerPieceGimme env s p nocreate) := by
  unfold Unworkable.schedulerPieceGimme
  refine h.gimmePiece.bind ?_
  rintro ⟨u,found⟩ ⟨v,_⟩ ⟨huv,rfl⟩
  cases found with
  | none => exact .ok ⟨huv,rfl⟩
  | some idx =>
    dsimp only at huv ⊢
    rw [huv.find_piece]
    cases hfind : torrentPieceFind v.tp idx with
    | error e => exact .error e
    | ok tpp =>
      refine Lockstep.ite (.ok ⟨huv,rfl⟩) ?_
      obtain ⟨rfl,hgood,hnear⟩ := huv
      obtain ⟨hidx,rfl⟩ := torrentPieceFind_ok.mp hfind
      refine (hgood.gimmeBlock p fun off hoff => hnear.key hidx hoff).bind ?_
      rintro ⟨store,d⟩ ⟨_,_⟩ ⟨rfl,hstore,rfl⟩
      exact .ok ⟨⟨rfl,hstore,hnear⟩,rfl⟩

theorem fillLoop (h : Agree t s) (n : ℕ) : Lockstep Agree (Unworkable.fillLoop env p n t)
    (Unworkable.fillLoop env p n s) := by
  induction n generalizing t s with
  | zero => exact .ok h
  | succ n ih =>
    unfold Unworkable.fillLoop
    refine (h.schedulerPieceGimme false).bind ?_
    rintro ⟨u,found,hint⟩ ⟨v,_⟩ ⟨huv,rfl⟩
    cases found with
    | none => exact ih huv
    | some d =>
      dsimp only at huv ⊢
      rw [huv.get]
      exact ih ((huv.networkPeerWrite _).setPeer _)

theorem schedulerFillRequests (h : Agree t s) :
    Lockstep Agree (Unworkable.schedulerFillRequests env t p) (Unworkable.schedulerFillRequests env s p) := by
  unfold Unworkable.schedulerFillRequests
  rw [h.peer,h.tp]
  exact Lockstep.ite (h.fillLoop _) (.ok h)

/-- The piece is mapped on both sides. -/
theorem ensureMapped (h : Agree t s) (idx : ℕ) :
    Lockstep (fun x y => x = y ∧ x.Near) (Unworkable.ensureMapped t.tp idx) (Unworkable.ensureMapped s.tp idx) := by
  rw [h.tp]
  cases hmap : Unworkable.ensureMapped s.tp idx with
  | error e => exact .error e
  | ok tp => exact .ok ⟨rfl,(h.tp ▸ h.near).ensureMapped hmap⟩

theorem networkPeerWritePiece (h : Agree t s) (idx off len : ℕ) :
    Lockstep Agree (Unworkable.networkPeerWritePiece env t p idx off len)
    (Unworkable.networkPeerWritePiece env s p idx off len) := by
  unfold Unworkable.networkPeerWritePiece
  rw [h.find_piece]
  refine (Lockstep.same _).bind ?_
  rintro _ _ -
  refine (h.ensureMapped idx).bind ?_
  rintro tp _ ⟨rfl,hnear⟩
  refine (Lockstep.same _).bind ?_
  rintro block _ rfl
  have hmapped := h.withTorrent hnear
  cases block with
  | none => exact .ok hmapped
  | some d => exact Lockstep.ite (.error _) (.ok ((hmapped.networkPeerWrite _).setPeer _))

theorem schedulerDequeueUploads (h : Agree t s) :
    Lockstep Agree (Unworkable.schedulerDequeueUploads env t p) (Unworkable.schedulerDequeueUploads env s p) := by
  unfold Unworkable.schedulerDequeueUploads networkPieceUlDequeue
  rw [h.peer]
  cases (s.peer p).uls.head? with
  | none => exact .ok h
  | some pu => exact (h.setPeer _).networkPeerWritePiece pu.idx pu.off pu.len

theorem networkPeerFree (h : Agree t s) (p : PeerId) : Agree (Unworkable.networkPeerFree t p)
    (Unworkable.networkPeerFree s p) := by
  obtain ⟨hflat,hgood⟩ := h.good.peerFreeDls orders_near p
  have hfreed := (h.setPeer (p := p) fun q => { q with uls := [], connfd := false }).withStore hgood
  rw [hflat,h.store] at hfreed
  exact hfreed

theorem dropPeer (h : Agree t s) (p : PeerId) : Agree (Unworkable.dropPeer t p) (Unworkable.dropPeer s p) := by
  obtain ⟨hflat,hgood,hnear⟩ := h.networkPeerFree p
  obtain ⟨rfl,-,-⟩ := h
  exact ⟨congrArg (fun u : Session => { u with peers := t.peers.erase p, numPeers := sub32 t.numPeers 1 }) hflat,
    hgood,hnear⟩

theorem schedulerPeer (h : Agree t s) : Lockstep Agree (Unworkable.schedulerPeer env t p)
    (Unworkable.schedulerPeer env s p) := by
  unfold Unworkable.schedulerPeer schedulerThresholdKill
  rw [h.peer]
  refine Lockstep.ite (.ok (h.dropPeer p)) ?_
  dsimp only
  split_ifs
  · exact .ok (h.setPeer _)
  · exact h.schedulerDequeueUploads.bind fun _ _ huv => huv.schedulerFillRequests

theorem schedulerPeerSpeedrank (h : Agree t s) : Unworkable.schedulerPeerSpeedrank env t =
    Unworkable.schedulerPeerSpeedrank env s := by
  unfold Unworkable.schedulerPeerSpeedrank
  rw [h.peers,h.peer,h.numPeers]

theorem optimisticPick (h : Agree t s) (pc : List PeerCounter) : Unworkable.optimisticPick env t pc =
    Unworkable.optimisticPick env s pc := by
  unfold Unworkable.optimisticPick
  rw [h.peers,h.peer,h.out]

theorem schedulerChokeAlgorithm (h : Agree t s) :
    Lockstep Agree (Unworkable.schedulerChokeAlgorithm env t) (Unworkable.schedulerChokeAlgorithm env s) := by
  unfold Unworkable.schedulerChokeAlgorithm
  refine Lockstep.ite (.ok h) ?_
  rw [h.schedulerPeerSpeedrank,h.numPeers]
  refine (Lockstep.same _).bind ?_
  rintro pc _ rfl
  dsimp only
  generalize hu : List.foldl _ t (List.map PeerCounter.peer _) = u
  generalize hv : List.foldl _ s (List.map PeerCounter.peer _) = v
  have huv : Agree u v := by
    rw [← hu,← hv]
    refine h.foldl (fun a b q hab => ?_) _
    rw [hab.peer]
    split_ifs
    · exact hab
    · exact hab
    · exact (hab.setPeer _).networkPeerWrite _
  rw [huv.optimisticPick]
  refine (Lockstep.same _).bind ?_
  rintro p2 _ rfl
  have hchoke {c : PeerId → Prop} [DecidablePred c] {u : Session NodeTree} {v : Session} (huv : Agree u v) :
      Agree (u.peers.foldl (fun s p => if c p then s else if !(s.peer p).state.amchoking then
        networkPeerWriteChoke env s p else s) u)
        (v.peers.foldl (fun s p => if c p then s else if !(s.peer p).state.amchoking then
            networkPeerWriteChoke env s p else s) v) := by
    rw [huv.peers]
    refine huv.foldl (fun a b q hab => ?_) _
    rw [hab.peer]
    split_ifs
    · exact hab
    · exact (hab.setPeer _).networkPeerWrite _
    · exact hab
  cases p2 with
  | none => exact .ok (hchoke huv)
  | some q => exact .ok (hchoke ((huv.setPeer _).networkPeerWrite _))

end Agree

/-- The endgame asks for one block. -/
theorem Agree.endgameBlock (h : Agree t s) {i plen : ℕ} (hkey : (i,off) ∈ nearKeys) :
    Agree (Unworkable.endgameBlock env p i plen t off) (Unworkable.endgameBlock env p i plen s off) := by
  unfold Unworkable.endgameBlock
  rw [h.lists,h.get]
  split_ifs
  · exact h
  · obtain ⟨hflat,hgood⟩ := h.good.create wordKeys_near orders_near hkey p (blockLen plen off)
    have hcreated := h.withStore hgood
    rw [hflat,h.store] at hcreated
    exact (hcreated.networkPeerWrite _).setPeer _

namespace Agree

theorem endgamePeer (h : Agree t s) {i plen : ℕ} (hkeys : ∀ off ∈ blockOffs plen, (i,off) ∈ nearKeys) :
    Lockstep Agree (Unworkable.endgamePeer env i plen t p) (Unworkable.endgamePeer env i plen s p) := by
  unfold Unworkable.endgamePeer
  rw [h.peer]
  cases (s.peer p).bitfield with
  | none => exact .ok h
  | some bf =>
    refine (Lockstep.same _).bind ?_
    rintro has _ rfl
    refine Lockstep.ite (.ok h) (Lockstep.ite (.ok h) (Lockstep.ite (.error _) (.ok ?_)))
    exact List.foldl_rel h fun off hoff a b hab => hab.endgameBlock (hkeys off hoff)

theorem endgamePiece (h : Agree t s) (i : ℕ) : Lockstep Agree (Unworkable.endgamePiece env t i)
    (Unworkable.endgamePiece env s i) := by
  unfold Unworkable.endgamePiece
  rw [h.find_piece,h.peers]
  cases hfind : torrentPieceFind s.tp i with
  | error e => exact .error e
  | ok tpp =>
    rw [← h.find_piece] at hfind
    obtain ⟨hidx,rfl⟩ := torrentPieceFind_ok.mp hfind
    refine Lockstep.ite (.ok h) ?_
    exact Lockstep.foldlM (fun a b q hab => hab.endgamePeer fun off hoff => h.near.key hidx hoff) _ h

theorem schedulerEndgameAlgorithm (h : Agree t s) :
    Lockstep Agree (Unworkable.schedulerEndgameAlgorithm env t) (Unworkable.schedulerEndgameAlgorithm env s) := by
  unfold Unworkable.schedulerEndgameAlgorithm
  rw [h.tp]
  exact Lockstep.foldlM (fun a b i hab => hab.endgamePiece i) _ h

theorem announce (h : Agree t s) : Lockstep Agree (Unworkable.announce env t) (Unworkable.announce env s) := by
  obtain ⟨rfl,hgood,hnear⟩ := h
  unfold Unworkable.announce
  cases env.announce with
  | sent => exact .ok ⟨rfl,hgood,hnear⟩
  | truncated => exact .ok ⟨rfl,hgood,hnear⟩
  | failed => exact .error _

/-- A tick of the scheduler. -/
theorem scheduler (h : Agree t s) : Lockstep Agree (Unworkable.scheduler env t) (Unworkable.scheduler env s) := by
  unfold Unworkable.scheduler
  rw [h.peers,h.tp]
  refine (Lockstep.foldlM (fun a b q hab => hab.schedulerPeer) _ h).bind fun a b hab => ?_
  refine hab.schedulerChokeAlgorithm.bind fun a b hab => ?_
  rw [hab.schedulerIsEndgame]
  refine (Lockstep.same _).bind ?_
  rintro endgame _ rfl
  refine (hab.schedulerEndgameAlgorithm.ite (.ok hab)).bind fun a b hab => ?_
  have hfields : a.numPeers = b.numPeers ∧ a.announceUnderway = b.announceUnderway ∧ a.lastAnnounce =
      b.lastAnnounce := by
    rw [← hab.flat]
    exact ⟨rfl,rfl,rfl⟩
  rw [hfields.1,hfields.2.1,hfields.2.2]
  exact hab.announce.ite (.ok hab)

end Agree

end Agree

end Unworkable
