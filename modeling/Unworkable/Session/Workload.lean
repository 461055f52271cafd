import Unworkable.Session.Accounting

/-! # What a tick of the scheduler can ask for

A tick asks each peer for at most a hundred blocks of its choice, and in the endgame for at
most every block of the torrent once. An upload from the queue can map one piece for each
peer, and mapping gives a piece of a multi-file torrent its length anew.
-/
namespace Unworkable
open Library

def Torrent.blockTotal (tp : Torrent) : ℕ :=
  ((List.range tp.numPieces).map (fun i => (blockOffs (tp.piece i).len).length)).sum

/-- How many requests `p` has outstanding at most when a tick begun in state `s` is over. -/
def Session.tickBound (s : Session) (p : PeerId) : ℕ :=
  s.store.outstandingOf p + 100 + s.tp.blockTotal + 262144 * s.peers.length

section Blocks
variable {sha1 : Bytes → Bytes} {tp tp' : Torrent} {idx : ℕ}

theorem length_blockOffs_le {len : ℕ} (h : len < 4294967296) : (blockOffs len).length ≤ 262144 := by
  simp only [blockOffs,List.length_map,List.length_range]
  omega

theorem ensureMapped_piece (h : ensureMapped tp idx = .ok tp') {i : ℕ} (hi : i ≠ idx) : tp'.piece i = tp.piece i := by
  unfold ensureMapped at h
  split at h
  · cases h
    rfl
  · exact torrentPieceMap_other h hi

/-- Mapping a piece changes the number of blocks of that piece at most. -/
theorem ensureMapped_blockTotal (hs : ∀ i, (tp'.piece i).len < 4294967296) (h : ensureMapped tp idx = .ok tp') :
    tp'.blockTotal ≤ tp.blockTotal + 262144 := by
  have hn : tp'.numPieces = tp.numPieces := by rw [Torrent.numPieces,(ensureMapped_mapped h).2.1,Torrent.numPieces]
  have hpoint : ∀ i ∈ List.range tp.numPieces, (blockOffs (tp'.piece i).len).length ≤
      (blockOffs (tp.piece i).len).length + if idx = i then 262144 else 0 := by
    intro i _
    by_cases hi : idx = i
    · rw [if_pos hi]
      exact (length_blockOffs_le (hs i)).trans (Nat.le_add_left _ _)
    · rw [if_neg hi,ensureMapped_piece h (Ne.symm hi)]
      exact le_refl _
  unfold Torrent.blockTotal
  rw [hn]
  refine (List.sum_le_sum hpoint).trans ?_
  rw [List.sum_map_add]
  exact Nat.add_le_add_left (sum_indicator_le List.nodup_range idx 262144) _

end Blocks

section Fill
variable {env : Env} {s s' : Session} {p : PeerId}

/-- The request loop adds at most one request a turn, and only to its peer. -/
theorem fillLoop_grows {n : ℕ} (hb : s.core.Booked) (hp : p < s.nextPeer) (h : fillLoop env p n s = .ok s') :
    s'.core.Booked ∧ s'.tp = s.tp ∧ s'.peers = s.peers ∧ s'.nextPeer = s.nextPeer ∧
      ∀ q, s'.store.outstandingOf q ≤ s.store.outstandingOf q + if q = p then n else 0 := by
  induction n generalizing s with
  | zero =>
    cases h
    exact ⟨hb,rfl,rfl,rfl,fun q => Nat.le_add_right _ _⟩
  | succ n ih =>
    obtain ⟨t,hcore | hask,h⟩ := fillLoop_succ hp h
    · have hnext : t.nextPeer = s.nextPeer := congrArg Core.nextPeer hcore
      have htp : t.tp = s.tp := congrArg Core.tp hcore
      have hpeers : t.peers = s.peers := congrArg Core.peers hcore
      have hstore : t.store = s.store := congrArg Core.store hcore
      obtain ⟨hb',htp',hpeers',hnext',hle⟩ := ih (hcore ▸ hb) (hnext ▸ hp) h
      refine ⟨hb',htp'.trans htp,hpeers'.trans hpeers,hnext'.trans hnext,?_⟩
      intro q
      have hq := hle q
      rw [hstore] at hq
      split_ifs at hq ⊢ <;> omega
    · obtain ⟨htp,hpeers,hnext⟩ := hask.frame
      obtain ⟨hbt,hcount⟩ := hb.ask hask
      obtain ⟨hb',htp',hpeers',hnext',hle⟩ := ih hbt (by rw [show t.nextPeer = s.nextPeer from hnext]; exact hp) h
      refine ⟨hb',htp'.trans htp,hpeers'.trans hpeers,hnext'.trans hnext,?_⟩
      intro q
      have hq := hle q
      have hc : t.store.outstandingOf q = s.store.outstandingOf q + if q = p then 1 else 0 := hcount q
      rw [hc] at hq
      split_ifs at hq ⊢ <;> omega

theorem schedulerFillRequests_grows (hb : s.core.Booked) (hp : p < s.nextPeer)
    (h : schedulerFillRequests env s p = .ok s') :
    s'.core.Booked ∧ s'.tp = s.tp ∧ s'.peers = s.peers ∧ s'.nextPeer = s.nextPeer ∧
      ∀ q, s'.store.outstandingOf q ≤ s.store.outstandingOf q + if q = p then 100 else 0 := by
  simp only [schedulerFillRequests] at h
  split at h
  · obtain ⟨hb',htp,hpeers,hnext,hle⟩ := fillLoop_grows hb hp h
    refine ⟨hb',htp,hpeers,hnext,?_⟩
    intro q
    refine (hle q).trans (Nat.add_le_add_left ?_ _)
    by_cases hq : q = p
    · rw [if_pos hq,if_pos hq]
      unfold maxRequests
      split_ifs <;> omega
    · rw [if_neg hq]
      exact Nat.zero_le _
  · cases h
    exact ⟨hb,rfl,rfl,rfl,fun q => Nat.le_add_right _ _⟩

/-- What one peer's part of the tick adds. -/
theorem schedulerPeer_grows (hb : s.core.Booked) (hp : p < s.nextPeer) (h : schedulerPeer env s p = .ok s') :
    s'.core.Booked ∧ s'.nextPeer = s.nextPeer ∧ s'.peers ⊆ s.peers ∧ s'.tp.blockTotal ≤ s.tp.blockTotal + 262144 ∧
      ∀ q, s'.store.outstandingOf q ≤ s.store.outstandingOf q + if q = p then 100 else 0 := by
  rcases schedulerPeer_cases h with rfl | hcore | ⟨t,ht,h⟩
  · obtain ⟨hb',hle⟩ := hb.attend (dropPeer_attend (p := p))
    exact ⟨hb',rfl,List.erase_subset,Nat.le_add_right _ _,fun q => (hle q).trans (Nat.le_add_right _ _)⟩
  · have hnext : s'.nextPeer = s.nextPeer := congrArg Core.nextPeer hcore
    have htp : s'.tp = s.tp := congrArg Core.tp hcore
    have hpeers : s'.peers = s.peers := congrArg Core.peers hcore
    have hstore : s'.store = s.store := congrArg Core.store hcore
    rw [htp,hpeers,hstore]
    exact ⟨hcore ▸ hb,hnext,List.Subset.refl _,Nat.le_add_right _ _,fun q => Nat.le_add_right _ _⟩
  · -- an upload is sent first, and may map its piece
    obtain ⟨hbt,hnext,hpeers,hstore,hblocks⟩ : t.core.Booked ∧ t.nextPeer = s.nextPeer ∧ t.peers = s.peers ∧
        t.store = s.store ∧ t.tp.blockTotal ≤ s.tp.blockTotal + 262144 := by
      rcases schedulerDequeueUploads_core ht with hcore | ⟨idx,tp,hmap,hcore⟩
      · have htp : t.tp = s.tp := congrArg Core.tp hcore
        rw [htp]
        exact ⟨hcore ▸ hb,congrArg Core.nextPeer hcore,congrArg Core.peers hcore,congrArg Core.store hcore,
          Nat.le_add_right _ _⟩
      · have htp : t.tp = tp := congrArg Core.tp hcore
        have hbt : t.core.Booked := hcore ▸ hb.torrents (@ensureMapped_moves (fun _ => []) _ _ _ hmap)
        refine ⟨hbt,congrArg Core.nextPeer hcore,congrArg Core.peers hcore,congrArg Core.store hcore,?_⟩
        rw [htp]
        refine ensureMapped_blockTotal ?_ hmap
        rw [← htp]
        exact hbt.short
    obtain ⟨hb',htp,hpeers',hnext',hle⟩ := schedulerFillRequests_grows hbt (hnext ▸ hp) h
    refine ⟨hb',hnext'.trans hnext,(hpeers'.trans hpeers) ▸ List.Subset.refl _,?_,?_⟩
    · rw [htp]
      exact hblocks
    · rw [← hstore]
      exact hle

end Fill

section Endgame
variable {env : Env} {s s' : Session} {p q : PeerId}

/-- What the endgame loops rely on from turn to turn. -/
structure Settled (tp : Torrent) (n : PeerId) (ps : List PeerId) (s : Session) : Prop where
  booked : s.core.Booked
  tp_eq : s.tp = tp
  nextPeer_eq : s.nextPeer = n
  peers_eq : s.peers = ps

variable {tp : Torrent} {n : PeerId} {ps : List PeerId}

/-- The block loop of the endgame asks for each block of the piece at most once. -/
theorem foldl_endgameBlock_grows {i : ℕ} (hs : Settled tp n ps s) (hp : p < n) (hi : i < tp.numPieces) :
    Settled tp n ps ((blockOffs (tp.piece i).len).foldl (endgameBlock env p i (tp.piece i).len) s) ∧
      ((blockOffs (tp.piece i).len).foldl (endgameBlock env p i (tp.piece i).len) s).store.outstandingOf q ≤
        s.store.outstandingOf q + if q = p then (blockOffs (tp.piece i).len).length else 0 := by
  have hturn : ∀ t : Session, ∀ off ∈ blockOffs (tp.piece i).len, Settled tp n ps t →
      Settled tp n ps (endgameBlock env p i (tp.piece i).len t off) ∧
        (endgameBlock env p i (tp.piece i).len t off).store.outstandingOf q ≤
          t.store.outstandingOf q + if q = p then 1 else 0 := by
    intro t off hoff ht
    rcases endgameBlock_cases env (ht.nextPeer_eq ▸ hp) (ht.tp_eq ▸ hi) (by rw [ht.tp_eq]) hoff with heq | hask
    · rw [heq]
      exact ⟨ht,Nat.le_add_right _ _⟩
    · obtain ⟨htp,hpeers,hnext⟩ := hask.frame
      obtain ⟨hb,hcount⟩ := ht.booked.ask hask
      exact ⟨⟨hb,htp.trans ht.tp_eq,hnext.trans ht.nextPeer_eq,hpeers.trans ht.peers_eq⟩,(hcount q).le⟩
  obtain ⟨hs',hle⟩ := foldl_measure (P := Settled tp n ps) (m := fun s => s.store.outstandingOf q)
    (k := fun _ => if q = p then 1 else 0) (blockOffs (tp.piece i).len) hturn hs
  refine ⟨hs',hle.trans (Nat.add_le_add_left ?_ _)⟩
  rw [List.map_const',List.sum_replicate]
  split_ifs <;> simp

theorem endgamePeer_grows {i : ℕ} (hs : Settled tp n ps s) (hp : p < n) (hi : i < tp.numPieces)
    (h : endgamePeer env i (tp.piece i).len s p = .ok s') : Settled tp n ps s' ∧
      s'.store.outstandingOf q ≤ s.store.outstandingOf q + if q = p then (blockOffs (tp.piece i).len).length else
        0 := by
  have hsame : Settled tp n ps s ∧ s.store.outstandingOf q ≤
      s.store.outstandingOf q + if q = p then (blockOffs (tp.piece i).len).length else 0 := ⟨hs,Nat.le_add_right _ _⟩
  unfold endgamePeer at h
  split at h
  · cases h
    exact hsame
  · obtain ⟨has,-,h⟩ := bind_ok.mp h
    split_ifs at h
    · cases h
      exact hsame
    · cases h
      exact hsame
    · cases h
      exact foldl_endgameBlock_grows hs hp hi

/-- The endgame asks a peer for each block of a piece at most once. -/
theorem endgamePiece_grows {i : ℕ} (hs : Settled tp n ps s) (h : endgamePiece env s i = .ok s') : Settled tp n ps s' ∧
    s'.store.outstandingOf q ≤ s.store.outstandingOf q + (blockOffs (tp.piece i).len).length := by
  unfold endgamePiece at h
  obtain ⟨tpp,htpp,h⟩ := bind_ok.mp h
  obtain ⟨hi,rfl⟩ := torrentPieceFind_ok.mp htpp
  rw [hs.tp_eq] at h hi
  split at h
  · cases h
    exact ⟨hs,Nat.le_add_right _ _⟩
  · have hlt : ∀ p ∈ s.peers, p < n := by
      rw [← hs.nextPeer_eq]
      exact hs.booked.peered.lt
    obtain ⟨hs',hle⟩ := foldlM_measure (P := Settled tp n ps) (m := fun s => s.store.outstandingOf q)
      (k := fun p => if q = p then (blockOffs (tp.piece i).len).length else 0) s.peers
      (fun t t' p hp ht hstep => endgamePeer_grows ht (hlt p hp) hi hstep) hs h
    exact ⟨hs',hle.trans (Nat.add_le_add_left (sum_indicator_le hs.booked.peered.nodup q _) _)⟩

theorem schedulerEndgameAlgorithm_grows (hb : s.core.Booked) (h : schedulerEndgameAlgorithm env s = .ok s') :
    s'.core.Booked ∧ s'.peers = s.peers ∧
      ∀ q, s'.store.outstandingOf q ≤ s.store.outstandingOf q + s.tp.blockTotal := by
  have hall := fun q => foldlM_measure (P := Settled s.tp s.nextPeer s.peers) (m := fun s => s.store.outstandingOf q)
    (k := fun i => (blockOffs (s.tp.piece i).len).length) (List.range s.tp.numPieces)
    (fun t t' i _ ht hstep => endgamePiece_grows ht hstep) ⟨hb,rfl,rfl,rfl⟩ h
  exact ⟨(hall 0).1.booked,(hall 0).1.peers_eq,fun q => (hall q).2⟩

end Endgame

section Tick
variable {env : Env} {s s' : Session}

/-- The loop of the tick over the peers. -/
theorem foldlM_schedulerPeer_grows (hb : s.core.Booked) (h : s.peers.foldlM (schedulerPeer env) s = .ok s') :
    s'.core.Booked ∧ s'.peers ⊆ s.peers ∧ s'.tp.blockTotal ≤ s.tp.blockTotal + 262144 * s.peers.length ∧
      ∀ q, s'.store.outstandingOf q ≤ s.store.outstandingOf q + 100 := by
  let P : Session → Prop := fun t => t.core.Booked ∧ t.nextPeer = s.nextPeer ∧ t.peers ⊆ s.peers
  have hturn : ∀ t t' : Session, ∀ p ∈ s.peers, P t → schedulerPeer env t p = .ok t' → P t' ∧
      t'.tp.blockTotal ≤ t.tp.blockTotal + 262144 ∧
      ∀ q, t'.store.outstandingOf q ≤ t.store.outstandingOf q + if q = p then 100 else 0 := by
    intro t t' p hp ht hstep
    obtain ⟨hb',hnext,hpeers,hblocks,hle⟩ := schedulerPeer_grows ht.1 (ht.2.1 ▸ hb.peered.lt p hp) hstep
    exact ⟨⟨hb',hnext.trans ht.2.1,List.Subset.trans hpeers ht.2.2⟩,hblocks,hle⟩
  have hs : P s := ⟨hb,rfl,List.Subset.refl _⟩
  obtain ⟨hs',hblocks⟩ := foldlM_measure (P := P) (m := fun t => t.tp.blockTotal) (k := fun _ => 262144) s.peers
    (fun t t' p hp ht hstep => ⟨(hturn t t' p hp ht hstep).1,(hturn t t' p hp ht hstep).2.1⟩) hs h
  refine ⟨hs'.1,hs'.2.2,?_,?_⟩
  · rw [List.map_const',List.sum_replicate] at hblocks
    simpa [Nat.mul_comm] using hblocks
  · intro q
    obtain ⟨-,hle⟩ := foldlM_measure (P := P) (m := fun t => t.store.outstandingOf q)
      (k := fun p => if q = p then 100 else 0) s.peers
      (fun t t' p hp ht hstep => ⟨(hturn t t' p hp ht hstep).1,(hturn t t' p hp ht hstep).2.2 q⟩) hs h
    exact hle.trans (Nat.add_le_add_left (sum_indicator_le hb.peered.nodup q 100) _)

/-- A tick keeps the accounts, and no count passes its bound. -/
theorem scheduler_grows (hb : s.core.Booked) (h : scheduler env s = .ok s') :
    s'.core.Booked ∧ s'.peers ⊆ s.peers ∧ ∀ q, s'.store.outstandingOf q ≤ s.tickBound q := by
  unfold scheduler at h
  obtain ⟨s₁,h₁,h⟩ := bind_ok.mp h
  obtain ⟨hb₁,hpeers₁,hblocks,hle₁⟩ := foldlM_schedulerPeer_grows hb h₁
  obtain ⟨s₂,h₂,h⟩ := bind_ok.mp h
  have hcore₂ := core_schedulerChokeAlgorithm h₂
  have htp₂ : s₂.tp = s₁.tp := congrArg Core.tp hcore₂
  have hpeers₂ : s₂.peers = s₁.peers := congrArg Core.peers hcore₂
  have hstore₂ : s₂.store = s₁.store := congrArg Core.store hcore₂
  obtain ⟨endgame,-,h⟩ := bind_ok.mp h
  obtain ⟨s₃,h₃,h⟩ := bind_ok.mp h
  obtain ⟨hb₃,hpeers₃,hle₃⟩ : s₃.core.Booked ∧ s₃.peers = s₂.peers ∧
      ∀ q, s₃.store.outstandingOf q ≤ s₂.store.outstandingOf q + s₂.tp.blockTotal := by
    split at h₃
    · exact schedulerEndgameAlgorithm_grows (hcore₂ ▸ hb₁) h₃
    · cases h₃
      exact ⟨hcore₂ ▸ hb₁,rfl,fun q => Nat.le_add_right _ _⟩
  have hcore : s'.core = s₃.core := by
    split at h
    · exact core_announce h
    · cases h
      rfl
  have hpeers : s'.peers = s₃.peers := congrArg Core.peers hcore
  have hstore : s'.store = s₃.store := congrArg Core.store hcore
  refine ⟨hcore ▸ hb₃,?_,?_⟩
  · rw [hpeers,hpeers₃,hpeers₂]
    exact hpeers₁
  intro q
  have hq := hle₃ q
  have hq₁ := hle₁ q
  rw [htp₂,hstore₂] at hq
  rw [hstore,Session.tickBound]
  omega

end Tick

end Unworkable
