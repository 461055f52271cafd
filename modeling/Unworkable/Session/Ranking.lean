import Unworkable.Library.Comparator
import Unworkable.Session.System

/-! # The speed ranking

`scheduler_peer_speedrank` with any sort that is right for consistent comparators. Its comparator
makes an `int` of a 64-bit difference, and is that of the rates as long as no two of them differ by a
multiple of 2^32, or by 2^31 or more behind it.
-/
namespace Unworkable
open Library

/-- The array that `scheduler_peer_speedrank` sorts. A peer that is not interested has no rate, and any other at
least 1. -/
def peerCounters (env : Env) (s : Session) : List PeerCounter :=
  s.peers.map fun p =>
    let q := s.peer p
    let rate := networkPeerRxrate env q
    ⟨if q.state.interested then (if rate = 0 then 1 else rate) else 0,p⟩

/-- `scheduler_peer_speedrank`, by what `qsort` does with a comparator and an array. -/
def speedrankBy (qsort : (PeerCounter → PeerCounter → ℤ) → List PeerCounter → List PeerCounter)
    (env : Env) (s : Session) :
    Except Halt (List PeerCounter) :=
  if s.peers.length ≠ s.numPeers then
    .error (.errx "scheduler_peer_speedrank: peer number mismatch (i: %u num_peers: %u)")
  else .ok (qsort schedulerPeerCmp (peerCounters env s))

theorem schedulerPeerSpeedrank_eq (env : Env) (s : Session) :
    schedulerPeerSpeedrank env s = speedrankBy env.qsortPeers.sort env s := rfl

/-- Whatever sort it is, the peers come out by falling rates, and the interested ones first. -/
def RanksBySpeed (env : Env) (s : Session) : Prop :=
  ∀ qsort, Sorts qsort → ∃ rank, speedrankBy qsort env s = .ok rank ∧ rank.Perm (peerCounters env s) ∧
    (rank.map PeerCounter.peer).Perm s.peers ∧ rank.Pairwise (fun x y => y.rate ≤ x.rate) ∧
    rank.Pairwise fun x y => (s.peer y.peer).state.interested → (s.peer x.peer).state.interested

/-- The low 32 bits of the difference of two rates are positive as an `int`. -/
def RatesNear (env : Env) (s : Session) : Prop :=
  ∀ x ∈ peerCounters env s, ∀ y ∈ peerCounters env s, x.rate < y.rate →
    0 < (y.rate - x.rate) % 4294967296 ∧ (y.rate - x.rate) % 4294967296 < 2147483648

section Compare
variable {x y : PeerCounter}

/-- A greater rate is told from a smaller one exactly so. -/
theorem schedulerPeerCmp_tells (hy : y.rate < 18446744073709551616) (hlt : x.rate < y.rate) :
    schedulerPeerCmp y x < 0 ∧ 0 < schedulerPeerCmp x y ↔
      0 < (y.rate - x.rate) % 4294967296 ∧ (y.rate - x.rate) % 4294967296 < 2147483648 := by
  unfold schedulerPeerCmp toInt32 wrap32
  split
  · split <;> omega
  · split <;> omega

theorem schedulerPeerCmp_same (hx : x.rate < 18446744073709551616) (h : x.rate = y.rate) :
    schedulerPeerCmp x y = 0 := by
  unfold schedulerPeerCmp toInt32 wrap32
  split <;> omega

end Compare

section Counters
variable {env : Env} {s : Session} {c : PeerCounter}

theorem mem_peerCounters (h : c ∈ peerCounters env s) : c.peer ∈ s.peers ∧
    c.rate = if (s.peer c.peer).state.interested then
      (if networkPeerRxrate env (s.peer c.peer) = 0 then 1 else networkPeerRxrate env (s.peer c.peer)) else 0 := by
  obtain ⟨p,hp,rfl⟩ := List.mem_map.mp h
  exact ⟨hp,rfl⟩

theorem networkPeerRxrate_le (q : Peer) : networkPeerRxrate env q ≤ q.totalrx := by
  unfold networkPeerRxrate
  dsimp only
  split
  · exact Nat.zero_le _
  · exact Nat.div_le_self _ _

theorem peerCounters_rate (hrx : ∀ p ∈ s.peers, (s.peer p).totalrx < 18446744073709551616)
    (h : c ∈ peerCounters env s) :
    c.rate < 18446744073709551616 := by
  obtain ⟨hp,hrate⟩ := mem_peerCounters h
  have hle := @networkPeerRxrate_le env (s.peer c.peer)
  have hlt := hrx _ hp
  rw [hrate]
  split
  · split <;> omega
  · decide

/-- A peer has a rate if it is interested. -/
theorem peerCounters_interested (h : c ∈ peerCounters env s) : (s.peer c.peer).state.interested = true ↔
    0 < c.rate := by
  rw [(mem_peerCounters h).2]
  cases (s.peer c.peer).state.interested with
  | true =>
    rw [if_pos rfl]
    split
    · simp
    · rename_i hne
      simp [Nat.pos_of_ne_zero hne]
  | false => simp

theorem map_peer_peerCounters : (peerCounters env s).map PeerCounter.peer = s.peers := by
  unfold peerCounters
  rw [List.map_map]
  exact List.map_id _

theorem orders_rate (hrx : ∀ p ∈ s.peers, (s.peer p).totalrx < 18446744073709551616) (hnear : RatesNear env s) :
    Orders schedulerPeerCmp (fun c => OrderDual.toDual c.rate) {c | c ∈ peerCounters env s} := by
  have hcmp : ∀ x ∈ peerCounters env s, ∀ y ∈ peerCounters env s,
      (schedulerPeerCmp x y < 0 ↔ y.rate < x.rate) ∧ (0 < schedulerPeerCmp x y ↔ x.rate < y.rate) := by
    intro x hx y hy
    rcases Nat.lt_trichotomy x.rate y.rate with hlt | heq | hgt
    · have htells := (schedulerPeerCmp_tells (peerCounters_rate hrx hy) hlt).mpr (hnear x hx y hy hlt)
      omega
    · have hsame := schedulerPeerCmp_same (peerCounters_rate hrx hx) heq
      omega
    · have htells := (schedulerPeerCmp_tells (peerCounters_rate hrx hx) hgt).mpr (hnear y hy x hx hgt)
      omega
  exact ⟨fun x hx y hy => (hcmp x hx y hy).1,fun x hx y hy => (hcmp x hx y hy).2⟩

end Counters

/-- The ranking is right, whatever the sort, exactly if the rates are near each other so. -/
theorem ranks_by_speed_iff (env : Env) (s : Session) (hcount : s.peers.length = s.numPeers)
    (hrx : ∀ p ∈ s.peers, (s.peer p).totalrx < 18446744073709551616) : RanksBySpeed env s ↔ RatesNear env s := by
  have hrank : ∀ qsort, speedrankBy qsort env s = .ok (qsort schedulerPeerCmp (peerCounters env s)) :=
    fun qsort => if_neg (not_not_intro hcount)
  constructor
  · intro h x hx y hy hlt
    by_contra hfar
    rw [← schedulerPeerCmp_tells (peerCounters_rate hrx hy) hlt] at hfar
    obtain ⟨qsort,hsorts,hnot⟩ := @exists_sort_unordered PeerCounter ℕᵒᵈ _ schedulerPeerCmp (fun c =>
      OrderDual.toDual c.rate)
      (peerCounters env s) y x hy hx hlt hfar
    obtain ⟨rank,hok,-,-,hrates,-⟩ := h qsort hsorts
    rw [hrank] at hok
    cases hok
    exact hnot hrates
  · intro hnear qsort hsorts
    have hperm := hsorts.perm schedulerPeerCmp (peerCounters env s)
    have hrates : (qsort schedulerPeerCmp (peerCounters env s)).Pairwise fun x y => y.rate ≤ x.rate :=
      hsorts.ordered (orders_rate hrx hnear)
    refine ⟨_,hrank qsort,hperm,?_,hrates,?_⟩
    · have hpeers := hperm.map PeerCounter.peer
      rwa [map_peer_peerCounters] at hpeers
    · apply hrates.imp_of_mem
      intro x y hx hy hle hinterested
      rw [peerCounters_interested (hperm.subset hy)] at hinterested
      rw [peerCounters_interested (hperm.subset hx)]
      exact hinterested.trans_le hle

/-- Two interested peers that have been connected for a second and have sent so many bytes. -/
def twoRates (a b : ℕ) : Session where
  tp := torrentPiecesCreate 4096 (.oneByte (List.replicate 20 0) 1) fun _ => ⟨false,0,none,false⟩
  store := .empty
  peers := [0,1]
  peer p := { networkPeerCreate p with
    state := { interested := true }
    connected := 1000
    totalrx := if p = 0 then a else b }
  nextPeer := 2
  numPeers := 2
  maxfds := 1024
  peerid := List.replicate 20 0
  rarityArray := []
  lastRarity := 0
  announceUnderway := false
  lastAnnounce := 0
  seed := false
  out := []

theorem ranks_by_speed_two : RanksBySpeed (.plain 1001) (twoRates 1 3000) := by
  apply (ranks_by_speed_iff (.plain 1001) (twoRates 1 3000) rfl (by decide)).mpr
  unfold RatesNear
  decide

/-- The faster peer comes last. -/
theorem faster_last : ¬ RanksBySpeed (.plain 1001) (twoRates 3000000000 1) ∧
    schedulerPeerSpeedrank (.plain 1001) (twoRates 3000000000 1) = .ok [⟨1,1⟩,⟨3000000000,0⟩] := by
  have hrank : schedulerPeerSpeedrank (.plain 1001) (twoRates 3000000000 1) = .ok [⟨1,1⟩,⟨3000000000,0⟩] :=
    ok_of_toOption (by decide +kernel)
  refine ⟨?_,hrank⟩
  intro h
  obtain ⟨rank,hok,-,-,hrates,-⟩ := h _ (Env.plain 1001).qsortPeers.sorts
  rw [schedulerPeerSpeedrank_eq,hok] at hrank
  cases hrank
  exact absurd hrates (by decide)

end Unworkable
