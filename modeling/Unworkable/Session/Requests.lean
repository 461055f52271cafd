import Unworkable.Library.Balance
import Unworkable.Session.State

/-! # Operations on block requests

`network_piece_dl_create`, `network_piece_dl_free`, `network_piece_dl_find`, and the two
loops that detach the requests of one peer. They go by an index of the requests, which comes
in two kinds: the red-black tree of the source, and the finite map it stands for, which is the
list of its nodes in tree order, looked up by key. The two agree as long as the keys are near
each other; further apart, the comparison of the source goes wrong, and the tree with it.
-/
namespace Unworkable
open Library

/-- `piece_dl_idxnode_cmp` on two keys `(idx, off)`. -/
def pieceDlIdxnodeCmp (p1 p2 : ℕ × ℕ) : ℤ :=
  let idxdiff := sub32 p1.1 p2.1
  if idxdiff = 0 then toInt32 (sub32 p1.2 p2.2) else toInt32 idxdiff

section Index

def rbInsert (n : PieceDlIdxnode) : List PieceDlIdxnode → List PieceDlIdxnode
  | [] => [n]
  | m :: rest => if pieceDlIdxnodeCmp (n.idx,n.off) (m.idx,m.off) < 0 then n :: m :: rest else m :: rbInsert n rest

/-- Change of the list of the node with key `(idx, off)`. -/
def rbModify (idx off : ℕ) (f : List DlId → List DlId) (ns : List PieceDlIdxnode) : List PieceDlIdxnode :=
  ns.map (fun n => if n.idx = idx ∧ n.off = off then { n with dls := f n.dls } else n)

/-- Removal of the node with key `(idx, off)`. -/
def rbRemove (idx off : ℕ) (ns : List PieceDlIdxnode) : List PieceDlIdxnode :=
  ns.filter (fun n => ¬ (n.idx = idx ∧ n.off = off))

instance : RbIndex (List PieceDlIdxnode) where
  empty := []
  find idx off ns := ns.find? (fun n => n.idx = idx ∧ n.off = off)
  insert := rbInsert
  modify := rbModify
  remove := rbRemove
  nodes ns := ns

section List
variable (idx off : ℕ) (ns : List PieceDlIdxnode)

@[simp] theorem find_list : RbIndex.find idx off ns = ns.find? (fun n => n.idx = idx ∧ n.off = off) := rfl
@[simp] theorem insert_list (n : PieceDlIdxnode) : RbIndex.insert n ns = rbInsert n ns := rfl
@[simp] theorem modify_list (f : List DlId → List DlId) : RbIndex.modify idx off f ns = rbModify idx off f ns := rfl
@[simp] theorem remove_list : RbIndex.remove idx off ns = rbRemove idx off ns := rfl
@[simp] theorem nodes_list : RbIndex.nodes ns = ns := rfl

end List

/-- `piece_dl_idxnode_cmp`. -/
def nodeCmp (p1 p2 : PieceDlIdxnode) : ℤ := pieceDlIdxnodeCmp (p1.idx,p1.off) (p2.idx,p2.off)

/-- The red-black tree of the source. It is balanced whatever the keys are, so that `RB_REMOVE` always gets through. -/
structure NodeTree where
  tree : RbTree PieceDlIdxnode
  balanced : ∃ m, tree.Balanced .black m

namespace NodeTree
variable (t : NodeTree)

theorem isSome_remove (n : PieceDlIdxnode) : (t.tree.remove nodeCmp n).isSome = true := by
  obtain ⟨m,hm⟩ := t.balanced
  obtain ⟨u,k,hu,-⟩ := hm.remove nodeCmp n
  rw [hu]
  rfl

theorem balanced_remove (n : PieceDlIdxnode) :
    ∃ m, ((t.tree.remove nodeCmp n).get (t.isSome_remove n)).Balanced .black m := by
  obtain ⟨m,hm⟩ := t.balanced
  obtain ⟨u,k,hu,hk⟩ := hm.remove nodeCmp n
  refine ⟨k,?_⟩
  simp only [hu,Option.get_some]
  exact hk

end NodeTree

instance : RbIndex NodeTree where
  empty := ⟨.nil,0,.nil⟩
  find idx off t := t.tree.find nodeCmp ⟨idx,off,[]⟩
  insert n t := ⟨t.tree.insert nodeCmp n,t.balanced.elim fun _ h => h.insert nodeCmp n⟩
  modify idx off f t := ⟨t.tree.modify nodeCmp ⟨idx,off,[]⟩ fun n => { n with dls := f n.dls },
    t.balanced.imp fun _ h => h.modify nodeCmp ⟨idx,off,[]⟩ _⟩
  remove idx off t := ⟨(t.tree.remove nodeCmp ⟨idx,off,[]⟩).get (t.isSome_remove _),t.balanced_remove _⟩
  nodes t := foreach t.tree.toList.length t.tree.min

end Index

namespace DlStore
variable {ι : Type} (st : DlStore ι)

def get (d : DlId) : PieceDl := (st.dl d).getD ⟨none,0,0,0,0⟩

def rbFind [RbIndex ι] (idx off : ℕ) : Option PieceDlIdxnode := RbIndex.find idx off st.index

def set (d : DlId) (f : PieceDl → PieceDl) : DlStore ι :=
  { st with dl := Function.update st.dl d ((st.dl d).map f) }

/-- `TAILQ_REMOVE` from the list of peer `p`. -/
def unlist (p : PeerId) (d : DlId) : DlStore ι :=
  { st with lists := Function.update st.lists p ((st.lists p).erase d) }

/-- `TAILQ_INSERT_TAIL` on the list of peer `p`. -/
def enlist (p : PeerId) (d : DlId) : DlStore ι :=
  { st with lists := Function.update st.lists p (st.lists p ++ [d]) }

end DlStore

section Operations
variable {ι : Type} [RbIndex ι]

def networkPieceDlCreate (st : DlStore ι) (p : PeerId) (idx off len : ℕ) : DlStore ι × DlId :=
  let d := st.next
  let pd : PieceDl := { pc := some p, idx := idx, off := off, len := len, bytes := 0 }
  let index := match st.rbFind idx off with
    | none => RbIndex.insert ⟨idx,off,[d]⟩ st.index
    | some _ => RbIndex.modify idx off (· ++ [d]) st.index
  (({ st with dl := Function.update st.dl d (some pd), next := d + 1, index := index }).enlist p d,d)

/-- `TAILQ_REMOVE` from the node with key `(idx, off)`, and `RB_REMOVE` if that leaves it empty. Where
`RB_FIND` does not get to the node, the request stays on it. -/
def rbDetach (idx off : ℕ) (d : DlId) (index : ι) : ι :=
  let index := RbIndex.modify idx off (·.erase d) index
  match RbIndex.find idx off index with
  | some n => if n.dls = [] then RbIndex.remove idx off index else index
  | none => index

/-- Removal from the list of the peer a request has, if it has one. -/
def DlStore.unlistFrom (st : DlStore ι) (pc : Option PeerId) (d : DlId) : DlStore ι :=
  match pc with
  | some p => st.unlist p d
  | none => st

/-- `network_piece_dl_free`. Nothing happens through a dangling pointer, which no list of the store holds
as long as `RB_FIND` gets to every node. -/
def networkPieceDlFree (st : DlStore ι) (d : DlId) : DlStore ι :=
  match st.dl d with
  | none => st
  | some pd => { st with
    dl := Function.update st.dl d none
    index := rbDetach pd.idx pd.off d st.index
    lists := (st.unlistFrom pd.pc d).lists }

/-- `network_piece_dl_find`: first the list of the given peer, then the index. -/
def networkPieceDlFind (st : DlStore ι) (p : Option PeerId) (idx off : ℕ) : Option DlId :=
  let own := match p with
    | none => none
    | some p => (st.lists p).find? (fun d => (st.get d).off = off ∧ (st.get d).idx = idx)
  match own with
  | some d => some d
  | none => (st.rbFind idx off).bind (fun n => n.dls.head?)

/-- `pd->pc = NULL; TAILQ_REMOVE(&p->peer_piece_dls, pd, ..)`. -/
def orphan (p : PeerId) (st : DlStore ι) (d : DlId) : DlStore ι :=
  (st.set d (fun pd => { pd with pc := none })).unlist p d

/-- `pd->pc = peer; TAILQ_INSERT_TAIL(&peer->peer_piece_dls, pd, ..)`. -/
def recycle (p : PeerId) (st : DlStore ι) (d : DlId) : DlStore ι :=
  (st.set d (fun pd => { pd with pc := some p })).enlist p d

/-- One turn of the request loop of `network_peer_free`: the request is orphaned, and if it
is not completed it leaves the index too. -/
def freeTurn (p : PeerId) (st : DlStore ι) (d : DlId) : DlStore ι :=
  let st := orphan p st d
  if (st.get d).len ≠ (st.get d).bytes then networkPieceDlFree st d else st

/-- The request loop of `network_peer_free`. -/
def peerFreeDls (st : DlStore ι) (p : PeerId) : DlStore ι := (st.lists p).foldl (freeTurn p) st

end Operations

/-- Offsets of the blocks of a piece: `0, BLOCK_SIZE, ..` below its length. -/
def blockOffs (len : ℕ) : List ℕ := (List.range ((len + 16383) / 16384)).map (· * 16384)

/-- The 32-bit offset of a block loop passes its bound only below this length. -/
def blockLoopWraps (len : ℕ) : Bool := decide (4294950912 < len)

end Unworkable
