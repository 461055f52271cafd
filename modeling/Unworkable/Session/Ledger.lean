import Unworkable.Session.System
import Unworkable.Session.StoreInvariant
import Unworkable.Torrent.Integrity

/-! # The session as a ledger of requests

The part of the session that the invariants of the request store and of the data on disk
speak about: the torrent, the store, the peer list and the queue length of each peer. Every
callback of the event loop is a finite sequence of moves on it. Most callbacks make routine
moves only; CHOKE, REJECT and PIECE make the others.
-/
namespace Unworkable
open Library

structure Core where
  tp : Torrent
  store : DlStore
  peers : List PeerId
  queue : PeerId → ℕ
  nextPeer : PeerId

def Session.core (s : Session) : Core where
  tp := s.tp
  store := s.store
  peers := s.peers
  queue p := (s.peer p).dlQueueLen
  nextPeer := s.nextPeer

/-- The queue length of `p` changes by `f`. -/
def Core.setQueue (c : Core) (p : PeerId) (f : ℕ → ℕ) : Core :=
  { c with queue := Function.update c.queue p (f (c.queue p)) }

/-- A block arrives from `p` and is counted on request `d`. -/
def Core.deliver (c : Core) (p : PeerId) (d : DlId) (idx off : ℕ) (data : Bytes) : Core :=
  { c.setQueue p (sub32 · 1) with
    tp := torrentBlockWrite c.tp idx off data.length data
    store := c.store.set d (fun pd => { pd with bytes := add32 pd.bytes data.length }) }

/-- A request goes to `p`: a new one, or an orphaned one. -/
inductive Ask (p : PeerId) : Core → Core → Prop
  | request {c : Core} {idx off : ℕ} (hp : p < c.nextPeer) (hidx : idx < c.tp.numPieces)
      (hoff : off ∈ blockOffs (c.tp.piece idx).len) : Ask p c { c.setQueue p (add32 · 1) with
        store := (networkPieceDlCreate c.store p idx off (blockLen (c.tp.piece idx).len off)).1 }
  | recycle {c : Core} {d : DlId} {idx off : ℕ} (hp : p < c.nextPeer)
      (hfind : networkPieceDlFind c.store none idx off = some d) (hpc : (c.store.get d).pc = none)
      (hout : (c.store.get d).outstanding = true) :
      Ask p c { c.setQueue p (add32 · 1) with store := recycle p c.store d }

inductive Attend : Core → Core → Prop
  /-- The end of a peer. -/
  | drop {c : Core} (p : PeerId) :
      Attend c { c with store := peerFreeDls c.store p, peers := c.peers.erase p }
  /-- A new peer. -/
  | join {c : Core} : Attend c { c.setQueue c.nextPeer (fun _ => 0) with
      peers := c.peers ++ [c.nextPeer], nextPeer := c.nextPeer + 1 }

def Attends : Core → Core → Prop := Relation.ReflTransGen Attend

theorem Attends.refl {c : Core} : Attends c c := Relation.ReflTransGen.refl

theorem Attends.trans {a b c : Core} (h : Attends a b) (h' : Attends b c) : Attends a c :=
  Relation.ReflTransGen.trans h h'

theorem Attend.attends {a b : Core} (h : Attend a b) : Attends a b := .single h

section Moves
variable (sha1 : Bytes → Bytes)

inductive Routine : Core → Core → Prop
  | torrent {c : Core} {tp' : Torrent} (h : TorrentMove sha1 c.tp tp') : Routine c { c with tp := tp' }
  | ask {c c' : Core} (p : PeerId) (h : Ask p c c') : Routine c c'
  | attend {c c' : Core} (h : Attend c c') : Routine c c'

inductive Move : Core → Core → Prop
  | routine {c c' : Core} (h : Routine sha1 c c') : Move c c'
  | choke {c : Core} (p : PeerId) :
      Move c { c.setQueue p (fun n => (c.store.lists p).foldl (fun n _ => sub32 n 1) n) with
        store := (c.store.lists p).foldl (orphan p) c.store }
  | reject {c : Core} {p : PeerId} {d : DlId} {idx off : ℕ}
      (hfind : networkPieceDlFind c.store (some p) idx off = some d) :
      Move c { c.setQueue p (sub32 · 1) with store := networkPieceDlFree c.store d }
  | deliver {c : Core} {p : PeerId} {d : DlId} {idx off : ℕ} {data : Bytes} (hidx : idx < c.tp.numPieces)
      (hck : (c.tp.piece idx).cksumok = false) (hmap : (c.tp.piece idx).mapped = true)
      (hfind : networkPieceDlFind c.store (some p) idx off = some d)
      (hlen : data.length = (c.store.get d).len) : Move c (c.deliver p d idx off data)
  | free {c : Core} {d : DlId} {idx off : ℕ} (hfind : networkPieceDlFind c.store none idx off = some d) :
      Move c { c with store := networkPieceDlFree c.store d }

def Routines : Core → Core → Prop := Relation.ReflTransGen (Routine sha1)
def Moves : Core → Core → Prop := Relation.ReflTransGen (Move sha1)

variable {sha1}

theorem Routines.refl {c : Core} : Routines sha1 c c := Relation.ReflTransGen.refl
theorem Moves.refl {c : Core} : Moves sha1 c c := Relation.ReflTransGen.refl

theorem Routines.trans {a b c : Core} (h : Routines sha1 a b) (h' : Routines sha1 b c) : Routines sha1 a c :=
  Relation.ReflTransGen.trans h h'

theorem Moves.trans {a b c : Core} (h : Moves sha1 a b) (h' : Moves sha1 b c) : Moves sha1 a c :=
  Relation.ReflTransGen.trans h h'

theorem Routine.routines {a b : Core} (h : Routine sha1 a b) : Routines sha1 a b := .single h
theorem Move.moves {a b : Core} (h : Move sha1 a b) : Moves sha1 a b := .single h

theorem Attends.routines {a b : Core} (h : Attends a b) : Routines sha1 a b := by
  induction h with
  | refl => exact .refl
  | tail _ hmove ih => exact ih.tail (.attend hmove)

theorem Routines.moves {a b : Core} (h : Routines sha1 a b) : Moves sha1 a b := by
  induction h with
  | refl => exact .refl
  | tail _ hmove ih => exact ih.tail (.routine hmove)

theorem TorrentMoves.routines {c : Core} {tp' : Torrent} (h : TorrentMoves sha1 c.tp tp') :
    Routines sha1 c { c with tp := tp' } := by
  induction h with
  | refl => exact .refl
  | tail _ hmove ih => exact ih.tail (.torrent hmove)

end Moves

/-- The peers on the list are distinct and have been numbered. -/
structure Core.Peered (c : Core) : Prop where
  lt : ∀ p ∈ c.peers, p < c.nextPeer
  nodup : c.peers.Nodup

section Peered
variable {sha1 : Bytes → Bytes} {c c' : Core}

/-- A request leaves the torrent and the peer list alone. -/
theorem Ask.frame {p : PeerId} (h : Ask p c c') :
    c'.tp = c.tp ∧ c'.peers = c.peers ∧ c'.nextPeer = c.nextPeer := by
  cases h <;> exact ⟨rfl,rfl,rfl⟩

theorem Attend.tp (h : Attend c c') : c'.tp = c.tp := by
  cases h <;> rfl

theorem Routine.nextPeer_le (h : Routine sha1 c c') : c.nextPeer ≤ c'.nextPeer := by
  cases h with
  | ask p ha => exact ha.frame.2.2.ge
  | attend ha =>
    cases ha with
    | drop p => exact le_refl _
    | join => exact Nat.le_succ _
  | torrent _ => exact le_refl _

theorem Routines.nextPeer_le (h : Routines sha1 c c') : c.nextPeer ≤ c'.nextPeer := by
  induction h with
  | refl => exact le_refl _
  | tail _ hmove ih => exact ih.trans hmove.nextPeer_le

theorem Core.Peered.routine (h : c.Peered) (hmove : Routine sha1 c c') : c'.Peered := by
  cases hmove with
  | torrent _ => exact ⟨h.lt,h.nodup⟩
  | ask p ha =>
    obtain ⟨-,hpeers,hnext⟩ := ha.frame
    exact ⟨by rw [hpeers,hnext]; exact h.lt,by rw [hpeers]; exact h.nodup⟩
  | attend ha =>
    cases ha with
    | drop p => exact ⟨fun q hq => h.lt q (List.mem_of_mem_erase hq),h.nodup.erase p⟩
    | join =>
      constructor
      · intro q hq
        rcases List.mem_append.mp hq with hq | hq
        · exact Nat.lt_succ_of_lt (h.lt q hq)
        · rw [List.mem_singleton.mp hq]
          exact Nat.lt_succ_self _
      · refine List.nodup_append.mpr ⟨h.nodup,List.nodup_singleton _,?_⟩
        intro q hq q' hq'
        rw [List.mem_singleton.mp hq']
        exact Nat.ne_of_lt (h.lt q hq)

theorem Core.Peered.move (h : c.Peered) (hmove : Move sha1 c c') : c'.Peered := by
  cases hmove with
  | routine hr => exact h.routine hr
  | _ => exact ⟨h.lt,h.nodup⟩

theorem Core.Peered.routines (h : c.Peered) (hmoves : Routines sha1 c c') : c'.Peered := by
  induction hmoves with
  | refl => exact h
  | tail _ hmove ih => exact ih.routine hmove

theorem Core.Peered.moves (h : c.Peered) (hmoves : Moves sha1 c c') : c'.Peered := by
  induction hmoves with
  | refl => exact h
  | tail _ hmove ih => exact ih.move hmove

end Peered

end Unworkable
