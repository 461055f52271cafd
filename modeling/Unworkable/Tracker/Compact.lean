import Unworkable.Session.Census
import Unworkable.Session.Tracker

/-! # Compact peer lists

A tracker may send its peers as one string, six bytes for a peer. The string is walked byte by byte,
and every sixth byte starts a record.
-/
namespace Unworkable
open Library

/-- `memcpy` from an offset of the string on. -/
def copied (peerlist : ℕ → UInt8) (off n : ℕ) : Bytes := (List.range n).map fun k => peerlist (off + k)

def sockaddr (bs : Bytes) : ℕ := bs.foldl (fun addr b => 256 * addr + b.toNat) 0

/-- The session in the loop of `network_peerlist_update_string`, and the offsets read so far. -/
structure PeerlistLoop where
  session : Session
  reads : List ℕ

/-- One turn of the loop, for what the memory holds from the start of the string on. -/
def peerlistTurn (peerlist : ℕ → UInt8) (l : PeerlistLoop) (i : ℕ) : PeerlistLoop :=
  if i % 6 = 0 then
    let sinAddr := copied peerlist i 4
    let sinPort := copied peerlist (i + 4) 2
    ⟨networkPeerlistAddPeer l.session (sockaddr (sinAddr ++ sinPort)),
      l.reads ++ ((List.range 4).map (i + ·) ++ (List.range 2).map (i + 4 + ·))⟩
  else l

/-- The loop of `network_peerlist_update_string`. -/
def peerlistLoop (peerlist : ℕ → UInt8) (len : ℕ) (s : Session) : PeerlistLoop :=
  (List.range len).foldl (peerlistTurn peerlist) ⟨s,[]⟩

def record (peerlist : ℕ → UInt8) (k : ℕ) : ℕ := sockaddr (copied peerlist (6 * k) 6)

def Session.addrs (s : Session) : List ℕ := s.peers.map fun p => (s.peer p).addr

/-- The peers of a list that are not on another one, each where it comes first. -/
def newcomers (known addrs : List ℕ) : List ℕ := (addrs.filter (· ∉ known)).eraseDups

def PeersAdded (s : Session) (new : List ℕ) (s' : Session) : Prop :=
  ∃ ids, s'.peers = s.peers ++ ids ∧ ids.map (fun p => (s'.peer p).addr) = new ∧
    ∀ p ∈ s.peers, s'.peer p = s.peer p

/-- The loop reads the string only, and adds the peers of its complete records. -/
def ReadsCompact (peerlist : ℕ → UInt8) (len : ℕ) (s : Session) : Prop :=
  (∀ i ∈ (peerlistLoop peerlist len s).reads, i < len) ∧
    PeersAdded s (newcomers s.addrs ((List.range (len / 6)).map (record peerlist)))
      (peerlistLoop peerlist len s).session

section Loop
variable (peerlist : ℕ → UInt8)

theorem copied_append (i : ℕ) : copied peerlist i 4 ++ copied peerlist (i + 4) 2 = copied peerlist i 6 := rfl

/-- The bytes that start a record. -/
theorem range_filter_six (len : ℕ) : (List.range len).filter (· % 6 = 0) = (List.range ((len + 5) / 6)).map
    (6 * ·) := by
  induction len with
  | zero => rfl
  | succ len ih =>
    rw [List.range_succ,List.filter_append,ih]
    by_cases h : len % 6 = 0
    · have hnext : (len + 1 + 5) / 6 = (len + 5) / 6 + 1 := by omega
      have hlast : 6 * ((len + 5) / 6) = len := by omega
      rw [hnext,List.range_succ,List.map_append]
      simp [h,hlast]
    · have hsame : (len + 1 + 5) / 6 = (len + 5) / 6 := by omega
      simp [h,hsame]

/-- The loop adds a peer for every record, complete or not. -/
theorem peerlistLoop_eq (len : ℕ) (s : Session) : peerlistLoop peerlist len s =
    ⟨((List.range ((len + 5) / 6)).map (record peerlist)).foldl networkPeerlistAddPeer s,
      (List.range ((len + 5) / 6)).flatMap fun k => (List.range 6).map (6 * k + ·)⟩ := by
  have hskip : ∀ (l : List ℕ) (x : PeerlistLoop), l.foldl (peerlistTurn peerlist) x =
      (l.filter (· % 6 = 0)).foldl (peerlistTurn peerlist) x := by
    intro l x
    rw [List.foldl_filter]
    apply congrArg (fun f => l.foldl f x)
    funext x i
    by_cases h : i % 6 = 0 <;> simp [peerlistTurn,h]
  have hturns : ∀ n, ((List.range n).map (6 * ·)).foldl (peerlistTurn peerlist) ⟨s,[]⟩ =
      ⟨((List.range n).map (record peerlist)).foldl networkPeerlistAddPeer s,
        (List.range n).flatMap fun k => (List.range 6).map (6 * k + ·)⟩ := by
    intro n
    induction n with
    | zero => rfl
    | succ n ih =>
      rw [List.range_succ,List.map_append,List.foldl_append,ih]
      simp only [List.map_append,List.foldl_append,List.flatMap_append]
      simp [peerlistTurn,record,copied_append,List.range_succ,Nat.add_assoc]
  rw [peerlistLoop,hskip,range_filter_six,hturns]

theorem mem_reads {len i : ℕ} {s : Session} :
    i ∈ (peerlistLoop peerlist len s).reads ↔ i / 6 < (len + 5) / 6 := by
  rw [peerlistLoop_eq]
  simp only [List.mem_flatMap,List.mem_map,List.mem_range]
  constructor
  · rintro ⟨k,hk,j,hj,rfl⟩
    omega
  · intro h
    exact ⟨i / 6,h,i % 6,by omega,by omega⟩

/-- The loop stays inside the string when its last record is complete. -/
theorem reads_inside_iff {len : ℕ} {s : Session} :
    (∀ i ∈ (peerlistLoop peerlist len s).reads, i < len) ↔ 6 ∣ len := by
  simp only [mem_reads]
  constructor
  · intro h
    by_contra hlen
    have hlast := h (6 * (len / 6) + 5) (by omega)
    omega
  · intro h i hi
    omega

end Loop

section Added
variable {s : Session}

theorem newcomers_cons_known {known as : List ℕ} {a : ℕ} (h : a ∈ known) : newcomers known (a :: as) =
    newcomers known as := by
  simp [newcomers,h]

theorem newcomers_cons {known as : List ℕ} {a : ℕ} (h : a ∉ known) :
    newcomers known (a :: as) = a :: newcomers (known ++ [a]) as := by
  unfold newcomers
  rw [List.filter_cons_of_pos (by simpa using h),List.eraseDups_cons,List.filter_filter]
  refine congrArg (fun l => a :: List.eraseDups l) ?_
  apply List.filter_congr
  intro b _
  simp [and_comm,beq_eq_decide]

theorem networkPeerlistAddPeer_known {a : ℕ} (h : a ∈ s.addrs) : networkPeerlistAddPeer s a = s := by
  unfold networkPeerlistAddPeer
  obtain ⟨p,hp,rfl⟩ := List.mem_map.mp h
  exact if_pos (List.any_eq_true.mpr ⟨p,hp,by simp⟩)

theorem networkPeerlistAddPeer_new {a : ℕ} (h : a ∉ s.addrs) :
    networkPeerlistAddPeer s a = s.join (networkPeerCreate a) := by
  rcases networkPeerlistAddPeer_roster s a with heq | heq
  · exfalso
    unfold networkPeerlistAddPeer at heq
    split at heq
    · rename_i hany
      obtain ⟨p,hp,haddr⟩ := List.any_eq_true.mp hany
      exact h (List.mem_map.mpr ⟨p,hp,by simpa using haddr⟩)
    · have hlen := congrArg (fun s : Session => s.peers.length) heq
      simp at hlen
  · exact heq

/-- Peers are added one after the other, unless they are on the list by then. -/
theorem peersAdded_foldl (hs : ∀ p ∈ s.peers, p < s.nextPeer) (as : List ℕ) :
    PeersAdded s (newcomers s.addrs as) (as.foldl networkPeerlistAddPeer s) := by
  induction as generalizing s with
  | nil => exact ⟨[],by simp,rfl,fun _ _ => rfl⟩
  | cons a as ih =>
    rw [List.foldl_cons]
    by_cases ha : a ∈ s.addrs
    · rw [newcomers_cons_known ha,networkPeerlistAddPeer_known ha]
      exact ih hs
    · rw [newcomers_cons ha,networkPeerlistAddPeer_new ha]
      have hold : ∀ p ∈ s.peers, (s.join (networkPeerCreate a)).peer p = s.peer p := by
        intro p hp
        exact Function.update_of_ne (hs p hp).ne _ _
      have hjoined : ∀ p ∈ (s.join (networkPeerCreate a)).peers, p < (s.join (networkPeerCreate a)).nextPeer := by
        intro p hp
        rcases List.mem_append.mp hp with hp | hp
        · exact Nat.lt_succ_of_lt (hs p hp)
        · rw [List.mem_singleton.mp hp]
          exact Nat.lt_succ_self _
      have haddrs : (s.join (networkPeerCreate a)).addrs = s.addrs ++ [a] := by
        unfold Session.addrs
        rw [show (s.join (networkPeerCreate a)).peers = s.peers ++ [s.nextPeer] from rfl,List.map_append]
        congr 1
        · exact List.map_congr_left fun p hp => by rw [hold p hp]
        · simp [Session.join,networkPeerCreate]
      obtain ⟨ids,hpeers,hnew,hkept⟩ := ih hjoined
      rw [haddrs] at hnew
      refine ⟨s.nextPeer :: ids,?_,?_,?_⟩
      · rw [hpeers]
        simp [Session.join]
      · rw [List.map_cons,hnew,hkept s.nextPeer (by simp [Session.join])]
        simp [Session.join,networkPeerCreate]
      · intro p hp
        rw [hkept p (by simp [Session.join,hp]),hold p hp]

end Added

/-- The decoded addresses of a string are those of the loop, for a string inside its buffer. -/
theorem peerlistLoop_session {len : ℕ} {value : CharBuf} {addrs : List ℕ} (s : Session)
    (h : networkPeerlistUpdateString len value = .ok addrs) :
    (peerlistLoop (fun i => (value.text ++ List.replicate (value.size - value.text.length) 0).getD i 0) len s).session =
      addrs.foldl networkPeerlistAddPeer s := by
  have hrecords : addrs = (List.range ((len + 5) / 6)).map
      (record fun i => (value.text ++ List.replicate (value.size - value.text.length) 0).getD i 0) := by
    refine mapM_ok_eq_map h ?_
    intro k a ha
    split at ha
    · cases ha
    · rename_i hsize
      cases ha
      refine congrArg sockaddr ?_
      apply List.ext_getElem?
      intro j
      rw [getElem?_window]
      simp only [copied,List.getElem?_map]
      split
      · rename_i hj
        simp only [List.getElem?_range hj,Option.map_some,List.getD_eq_getElem?_getD]
        rw [List.getElem?_eq_getElem (by simp; omega)]
        rfl
      · rename_i hj
        rw [List.getElem?_eq_none (by simpa using hj)]
        rfl
  rw [peerlistLoop_eq,hrecords]

/-- The loop reads bytes of the string only, and adds exactly the peers of the complete records, if and
only if the last record is complete. New peers get memory that no peer on the list has. -/
theorem compact_peers_iff (peerlist : ℕ → UInt8) (len : ℕ) (s : Session) (hs : ∀ p ∈ s.peers, p < s.nextPeer) :
    ReadsCompact peerlist len s ↔ 6 ∣ len := by
  constructor
  · exact fun h => (reads_inside_iff peerlist).mp h.1
  · intro hlen
    refine ⟨(reads_inside_iff peerlist).mpr hlen,?_⟩
    rw [peerlistLoop_eq,show (len + 5) / 6 = len / 6 by omega]
    exact peersAdded_foldl hs _

section Test

/-- A client that has just started reads two equal records. -/
theorem compact_peers_two : ∃ s, (Boot.oneByte (List.replicate 20 0) 1).session sha1ZeroByte = .ok s ∧
    ReadsCompact (fun _ => 7) 12 s := by
  obtain ⟨s,hs,hpeers⟩ : ∃ s, (Boot.oneByte (List.replicate 20 0) 1).session sha1ZeroByte = .ok s ∧
      decide (s.peers = []) = true := exists_ok (P := fun s : Session => decide (s.peers = [])) (by decide +kernel)
  have hnil := of_decide_eq_true hpeers
  exact ⟨s,hs,(compact_peers_iff (fun _ => 7) 12 s (by simp [hnil])).mpr (by decide)⟩

/-- Of a string of seven bytes the last one starts a record of which five bytes lie behind its end. -/
theorem compact_peers_overread : ∃ s, (Boot.oneByte (List.replicate 20 0) 1).session sha1ZeroByte = .ok s ∧
    11 ∈ (peerlistLoop (fun _ => 7) 7 s).reads ∧ ¬ ReadsCompact (fun _ => 7) 7 s := by
  obtain ⟨s,hs,-⟩ : ∃ s, (Boot.oneByte (List.replicate 20 0) 1).session sha1ZeroByte = .ok s ∧ true = true :=
    exists_ok (P := fun _ => true) (by decide +kernel)
  have hread : 11 ∈ (peerlistLoop (fun _ => 7) 7 s).reads := (mem_reads _).mpr (by decide)
  exact ⟨s,hs,hread,fun h => absurd (h.1 11 hread) (by decide)⟩

end Test

end Unworkable
