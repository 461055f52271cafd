import Unworkable.Library.Balance
import Unworkable.Session.KeyOrder
import Unworkable.Session.Representation

/-! # The tree under the index of requests

The store of requests can keep the nodes of its index in the red-black tree of the source, or in a list. As long as
the keys are near each other, every operation on requests does with the tree what it does with the list; in the
tree that is by search, insertion and removal, none of which fails.
-/
namespace Unworkable
open Library

/-- The store with the nodes of its tree in a list. -/
def DlStore.flat (st : DlStore NodeTree) : DlStore := ⟨st.dl,st.next,st.index.tree.toList,st.lists⟩

/-- The operations on requests. Those that move a request from peer to peer, or count its bytes, leave the
index alone. -/
inductive StoreOp where
  | create (p : PeerId) (idx off len : ℕ)
  | free (d : DlId)
  | orphan (p : PeerId) (d : DlId)
  | recycle (p : PeerId) (d : DlId)
  | count (d : DlId) (len : ℕ)

def DlStore.apply {ι : Type} [RbIndex ι] (st : DlStore ι) : StoreOp → DlStore ι
  | .create p idx off len => (networkPieceDlCreate st p idx off len).1
  | .free d => networkPieceDlFree st d
  | .orphan p d => orphan p st d
  | .recycle p d => recycle p st d
  | .count d len => st.set d fun pd => { pd with bytes := add32 pd.bytes len }

def StoreOp.In (K : Set (ℕ × ℕ)) : StoreOp → Prop
  | .create _ idx off _ => (idx,off) ∈ K
  | _ => True

section Lists
variable {K : Set (ℕ × ℕ)} {ns : List PieceDlIdxnode} {idx off : ℕ}

abbrev rank (n : PieceDlIdxnode) : ℕ ×ₗ ℕ := toLex n.key

theorem rank_eq {n m : PieceDlIdxnode} : rank n = rank m ↔ n.key = m.key := toLex_inj

theorem orders_rank (hwords : WordKeys K) (hnear : NearKeys K) : Orders nodeCmp rank {n | n.key ∈ K} :=
  (orders_lex hwords hnear).comap PieceDlIdxnode.key

theorem rbInsert_increasing (ho : Orders nodeCmp rank {n | n.key ∈ K}) {n : PieceDlIdxnode} (hn : n.key ∈ K)
    (hns : ∀ m ∈ ns, m.key ∈ K)
    (hnew : ∀ m ∈ ns, m.key ≠ n.key) (h : ns.Pairwise fun a b => rank a < rank b) :
    (rbInsert n ns).Pairwise fun a b => rank a < rank b := by
  induction ns with
  | nil => exact List.pairwise_singleton _ n
  | cons m ns ih =>
    obtain ⟨hm,hns⟩ := List.forall_mem_cons.mp hns
    obtain ⟨hne,hnew⟩ := List.forall_mem_cons.mp hnew
    obtain ⟨hlow,htail⟩ := List.pairwise_cons.mp h
    have hcmp : pieceDlIdxnodeCmp (n.idx,n.off) (m.idx,m.off) < 0 ↔ rank n < rank m := ho.neg n hn m hm
    unfold rbInsert
    split_ifs with hneg
    · rw [hcmp] at hneg
      refine List.pairwise_cons.mpr ⟨?_,h⟩
      exact List.forall_mem_cons.mpr ⟨hneg,fun a ha => hneg.trans (hlow a ha)⟩
    · rw [hcmp,not_lt] at hneg
      refine List.pairwise_cons.mpr ⟨?_,ih hns hnew htail⟩
      intro a ha
      rcases List.mem_cons.mp ((rbInsert_perm n ns).subset ha) with rfl | ha
      · exact hneg.lt_of_ne fun heq => hne (rank_eq.mp heq)
      · exact hlow a ha

/-- A change of the one node with a key. -/
theorem rbModify_split {pre post : List PieceDlIdxnode} {n : PieceDlIdxnode} (f : List DlId → List DlId)
    (hkey : n.key = (idx,off))
    (h : (pre ++ n :: post).Pairwise fun a b => rank a < rank b) :
    rbModify idx off f (pre ++ n :: post) = pre ++ { n with dls := f n.dls } :: post := by
  obtain ⟨-,hpost,hpre⟩ := List.pairwise_append.mp h
  have hpost := (List.pairwise_cons.mp hpost).1
  obtain ⟨hidx,hoff⟩ := Prod.mk.inj hkey
  have hother {m : PieceDlIdxnode} (hm : rank m ≠ rank n) :
      (if m.idx = idx ∧ m.off = off then { m with dls := f m.dls } else m) = m := by
    apply if_neg
    rintro ⟨hi,ho⟩
    exact hm (rank_eq.mpr ((Prod.mk.injEq ..).mpr ⟨hi.trans hidx.symm,ho.trans hoff.symm⟩))
  rw [rbModify,List.map_append,List.map_cons,if_pos ⟨hidx,hoff⟩]
  congr 1
  · exact (List.map_congr_left fun m hm => hother (hpre m hm n List.mem_cons_self).ne).trans (List.map_id pre)
  · congr 1
    exact (List.map_congr_left fun m hm => hother (hpost m hm).ne').trans (List.map_id post)

end Lists

/-- The tree is in order, and all keys are in the set. -/
structure DlStore.Good (K : Set (ℕ × ℕ)) (st : DlStore NodeTree) : Prop where
  sorted : st.index.tree.Sorted rank {n | n.key ∈ K}
  keyed : st.flat.All fun pd => pd.key ∈ K

section Refinement
variable {K : Set (ℕ × ℕ)} {st : DlStore NodeTree} {idx off : ℕ}

theorem DlStore.good_empty : (DlStore.empty : DlStore NodeTree).Good K where
  sorted := RbTree.sorted_nil
  keyed d pd hd := by cases hd

@[simp] theorem nodes_tree (t : NodeTree) : RbIndex.nodes t = t.tree.toList := foreach_min le_rfl

theorem find_sorted (ho : Orders nodeCmp rank {n | n.key ∈ K}) {t : RbTree PieceDlIdxnode}
    (h : t.Sorted rank {n | n.key ∈ K})
    (hkey : (idx,off) ∈ K) : t.find nodeCmp ⟨idx,off,[]⟩ = t.toList.find? fun n => n.idx = idx ∧ n.off = off := by
  have hmem (n : PieceDlIdxnode) : t.find nodeCmp ⟨idx,off,[]⟩ = some n ↔ n ∈ t.toList ∧ n.key = (idx,off) :=
    (RbTree.find_iff ho h hkey).trans (and_congr_right fun _ => rank_eq)
  cases hfind : t.toList.find? fun n => n.idx = idx ∧ n.off = off with
  | some n =>
    have hn := List.find?_some hfind
    simp only [decide_eq_true_eq] at hn
    exact (hmem n).mpr ⟨List.mem_of_find?_eq_some hfind,(Prod.mk.injEq ..).mpr hn⟩
  | none =>
    cases hfind' : t.find nodeCmp ⟨idx,off,[]⟩ with
    | none => rfl
    | some n =>
      obtain ⟨hn,hnkey⟩ := (hmem n).mp hfind'
      have hnot := List.find?_eq_none.mp hfind n hn
      simp only [decide_eq_true_eq] at hnot
      exact absurd (Prod.mk.inj hnkey) hnot

/-- A search for a key outside the set finds nothing: the comparison is zero for equal words only. -/
theorem find_outside (hwords : WordKeys K) {t : RbTree PieceDlIdxnode} (h : t.Sorted rank {n | n.key ∈ K})
    (hidx : idx < 4294967296) (hoff : off < 4294967296) (hkey : (idx,off) ∉ K) :
    t.find nodeCmp ⟨idx,off,[]⟩ = t.toList.find? fun n => n.idx = idx ∧ n.off = off := by
  have hnone : (t.toList.find? fun n => n.idx = idx ∧ n.off = off) = none := by
    rw [List.find?_eq_none]
    intro n hn heq
    obtain ⟨rfl,rfl⟩ := of_decide_eq_true heq
    exact hkey (h.mem n hn)
  rw [hnone,Option.eq_none_iff_forall_ne_some]
  intro n hn
  obtain ⟨hmem,hneg,hpos⟩ := RbTree.find_some hn
  have hzero : pieceDlIdxnodeCmp (idx,off) n.key = 0 := le_antisymm (not_lt.mp hpos) (not_lt.mp hneg)
  have hsame := pieceDlIdxnodeCmp_eq_zero ⟨hidx,hoff⟩ (hwords n.key (h.mem n hmem)) hzero
  exact hkey (hsame ▸ h.mem n hmem)

/-- A search in the tree gets what a search in the list gets. -/
theorem DlStore.Good.rbFind (hwords : WordKeys K) (ho : Orders nodeCmp rank {n | n.key ∈ K})
    (h : st.Good K) (hidx : idx < 4294967296)
    (hoff : off < 4294967296) : st.rbFind idx off = st.flat.rbFind idx off := by
  by_cases hkey : (idx,off) ∈ K
  · exact find_sorted ho h.sorted hkey
  · exact find_outside hwords h.sorted hidx hoff hkey

theorem modify_sorted (ho : Orders nodeCmp rank {n | n.key ∈ K}) {t : RbTree PieceDlIdxnode}
    (h : t.Sorted rank {n | n.key ∈ K})
    (hkey : (idx,off) ∈ K) (f : List DlId → List DlId) :
    (t.modify nodeCmp ⟨idx,off,[]⟩ fun n => { n with dls := f n.dls }).Sorted rank {n | n.key ∈ K} ∧
      (t.modify nodeCmp ⟨idx,off,[]⟩ fun n => { n with dls := f n.dls }).toList = rbModify idx off f t.toList := by
  cases hfind : t.find nodeCmp ⟨idx,off,[]⟩ with
  | none =>
    rw [RbTree.modify_none hfind]
    refine ⟨h,?_⟩
    rw [find_sorted ho h hkey] at hfind
    symm
    refine (List.map_congr_left fun n hn => if_neg ?_).trans (List.map_id _)
    simpa using List.find?_eq_none.mp hfind n hn
  | some n =>
    obtain ⟨hn,hnkey⟩ := (RbTree.find_iff ho h hkey).mp hfind
    obtain ⟨pre,post,ht,hm⟩ := @RbTree.modify_some _ _ nodeCmp _ _ (fun n => { n with dls := f n.dls }) hfind
    obtain ⟨hpairs,hmem⟩ := h
    rw [ht] at hpairs hmem ⊢
    rw [hm,rbModify_split f (rank_eq.mp hnkey) hpairs]
    refine ⟨⟨?_,?_⟩,rfl⟩
    · have hranks : (pre ++ { n with dls := f n.dls } :: post).map rank = (pre ++ n :: post).map rank := by
        rw [List.map_append,List.map_append]
        rfl
      rwa [hm,← List.pairwise_map,hranks,List.pairwise_map]
    · rw [hm]
      intro a ha
      rcases List.mem_append.mp ha with ha | ha
      · exact hmem a (List.mem_append_left _ ha)
      rcases List.mem_cons.mp ha with rfl | ha
      · exact hmem n (List.mem_append_right _ List.mem_cons_self)
      · exact hmem a (List.mem_append_right _ (List.mem_cons_of_mem _ ha))

theorem DlStore.Good.create (hwords : WordKeys K) (ho : Orders nodeCmp rank {n | n.key ∈ K})
    (h : st.Good K) (hkey : (idx,off) ∈ K)
    (p : PeerId) (len : ℕ) : (networkPieceDlCreate st p idx off len).1.flat =
      (networkPieceDlCreate st.flat p idx off len).1 ∧
      (networkPieceDlCreate st p idx off len).1.Good K := by
  have hfind := h.rbFind hwords ho (hwords _ hkey).1 (hwords _ hkey).2
  have hindex : (networkPieceDlCreate st p idx off len).1.index.tree.toList =
    (networkPieceDlCreate st.flat p idx off len).1.index ∧
      (networkPieceDlCreate st p idx off len).1.index.tree.Sorted rank {n | n.key ∈ K} := by
    simp only [networkPieceDlCreate,DlStore.enlist]
    rw [← hfind]
    cases hf : st.rbFind idx off with
    | some n =>
      obtain ⟨hsorted,hlist⟩ := modify_sorted ho h.sorted hkey (· ++ [st.next])
      exact ⟨hlist,hsorted⟩
    | none =>
      rw [hfind] at hf
      have hnew : ∀ a ∈ st.index.tree.toList, a.key ≠ (idx,off) := DlStore.rbFind_none.mp hf
      obtain ⟨hsorted,hmem⟩ := @RbTree.insert_sorted _ _ _ _ _ _ _ ⟨idx,off,[st.next]⟩ ho h.sorted hkey
      refine ⟨?_,hsorted⟩
      apply eq_of_increasing hsorted.pairwise
      · exact rbInsert_increasing ho hkey h.sorted.mem hnew h.sorted.pairwise
      · intro a
        rw [hmem,insert_list,(rbInsert_perm _ _).mem_iff,List.mem_cons,or_comm]
        exact or_congr_left (and_iff_left fun b hb heq => hnew b hb (rank_eq.mp heq))
  obtain ⟨hlist,hsorted⟩ := hindex
  have hflat : (networkPieceDlCreate st p idx off len).1.flat = (networkPieceDlCreate st.flat p idx off len).1 := by
    unfold DlStore.flat
    rw [hlist]
    rfl
  refine ⟨hflat,hsorted,?_⟩
  rw [hflat]
  exact h.keyed.create hkey

theorem remove_sorted_tree (ho : Orders nodeCmp rank {n | n.key ∈ K}) {t : NodeTree}
    (h : t.tree.Sorted rank {n | n.key ∈ K})
    (hkey : (idx,off) ∈ K) : (RbIndex.remove idx off t).tree.Sorted rank {n | n.key ∈ K} ∧
      (RbIndex.remove idx off t).tree.toList = rbRemove idx off t.tree.toList := by
  obtain ⟨hsorted,hlist⟩ := RbTree.remove_sorted ho h hkey (Option.some_get (t.isSome_remove ⟨idx,off,[]⟩)).symm
  refine ⟨hsorted,hlist.trans (List.filter_congr ?_)⟩
  intro n _
  rw [decide_eq_decide,ne_eq,rank_eq]
  exact not_congr (Prod.mk.injEq ..).to_iff

theorem detach_sorted (ho : Orders nodeCmp rank {n | n.key ∈ K}) {t : NodeTree} (h : t.tree.Sorted rank {n | n.key ∈ K})
    (hkey : (idx,off) ∈ K) (d : DlId) : (rbDetach idx off d t).tree.Sorted rank {n | n.key ∈ K} ∧
      (rbDetach idx off d t).tree.toList = rbDetach idx off d t.tree.toList := by
  have hmodify : (RbIndex.modify idx off (·.erase d) t).tree.Sorted rank {n | n.key ∈ K} ∧
      (RbIndex.modify idx off (·.erase d) t).tree.toList = rbModify idx off (·.erase d) t.tree.toList :=
    modify_sorted ho h hkey (·.erase d)
  simp only [rbDetach,modify_list,find_list,remove_list]
  rw [← hmodify.2]
  generalize RbIndex.modify idx off (·.erase d) t = t' at hmodify
  have hfind : RbIndex.find idx off t' = t'.tree.toList.find? fun n => n.idx = idx ∧ n.off = off :=
    find_sorted ho hmodify.1 hkey
  rw [← hfind]
  cases RbIndex.find idx off t' with
  | none => exact ⟨hmodify.1,rfl⟩
  | some n =>
    dsimp only
    split_ifs
    · exact remove_sorted_tree ho hmodify.1 hkey
    · exact ⟨hmodify.1,rfl⟩

theorem DlStore.Good.free (ho : Orders nodeCmp rank {n | n.key ∈ K}) (h : st.Good K) (d : DlId) :
    (networkPieceDlFree st d).flat = networkPieceDlFree st.flat d ∧ (networkPieceDlFree st d).Good K := by
  cases hd : st.dl d with
  | none =>
    have hflat : networkPieceDlFree st.flat d = st.flat := DlStore.free_of_none hd
    have hsame : networkPieceDlFree st d = st := by simp only [networkPieceDlFree,hd]
    rw [hflat,hsame]
    exact ⟨rfl,h⟩
  | some pd =>
    obtain ⟨hsorted,hlist⟩ := detach_sorted ho h.sorted (h.keyed d pd hd) d
    have hfree : (networkPieceDlFree st d).index = rbDetach pd.idx pd.off d st.index := by
      simp only [networkPieceDlFree,hd]
    have hflat : (networkPieceDlFree st d).flat = networkPieceDlFree st.flat d := by
      have hd' : st.flat.dl d = some pd := hd
      rw [DlStore.free_of_some hd']
      unfold DlStore.flat
      rw [hfree,hlist]
      simp only [networkPieceDlFree,hd]
      cases pd.pc <;> rfl
    refine ⟨hflat,?_,?_⟩
    · rw [hfree]
      exact hsorted
    · rw [hflat]
      exact h.keyed.free d

/-- An operation on the tree does what it does on the list. -/
theorem DlStore.Good.apply (hwords : WordKeys K) (ho : Orders nodeCmp rank {n | n.key ∈ K}) (h : st.Good K)
    {op : StoreOp}
    (hop : op.In K) : (st.apply op).flat = st.flat.apply op ∧ (st.apply op).Good K := by
  have hpc (pd : PieceDl) (pc : Option PeerId) (hpd : pd.key ∈ K) : { pd with pc := pc }.key ∈ K := hpd
  cases op with
  | create p idx off len => exact h.create hwords ho hop p len
  | free d => exact h.free ho d
  | orphan p d => exact ⟨rfl,h.sorted,h.keyed.orphan hpc⟩
  | recycle p d => exact ⟨rfl,h.sorted,h.keyed.recycle hpc⟩
  | count d len => exact ⟨rfl,h.sorted,h.keyed.set fun pd hpd => h.keyed d pd hpd⟩

theorem DlStore.Good.applyAll (hwords : WordKeys K) (ho : Orders nodeCmp rank {n | n.key ∈ K})
    (h : st.Good K) {ops : List StoreOp}
    (hops : ∀ op ∈ ops, op.In K) : (ops.foldl DlStore.apply st).flat = ops.foldl DlStore.apply st.flat ∧
      (ops.foldl DlStore.apply st).Good K := by
  induction ops generalizing st with
  | nil => exact ⟨rfl,h⟩
  | cons op ops ih =>
    obtain ⟨hop,hops⟩ := List.forall_mem_cons.mp hops
    obtain ⟨hflat,hgood⟩ := h.apply hwords ho hop
    rw [List.foldl_cons,List.foldl_cons,← hflat]
    exact ih hgood hops

/-- A lookup gets the same request. -/
theorem DlStore.Good.lookup (hwords : WordKeys K) (ho : Orders nodeCmp rank {n | n.key ∈ K})
    (h : st.Good K) (p : Option PeerId)
    (hidx : idx < 4294967296) (hoff : off < 4294967296) : networkPieceDlFind st p idx off =
      networkPieceDlFind st.flat p idx off := by
  unfold networkPieceDlFind
  rw [h.rbFind hwords ho hidx hoff]
  rfl

theorem DlStore.Good.orphan (h : st.Good K) (p : PeerId) (d : DlId) : (Unworkable.orphan p st d).Good K :=
  ⟨h.sorted,h.keyed.orphan fun _ _ hpd => hpd⟩

theorem DlStore.Good.recycle (h : st.Good K) (p : PeerId) (d : DlId) : (Unworkable.recycle p st d).Good K :=
  ⟨h.sorted,h.keyed.recycle fun _ _ hpd => hpd⟩

theorem DlStore.Good.freeTurn (ho : Orders nodeCmp rank {n | n.key ∈ K}) (h : st.Good K) (p : PeerId) (d : DlId) :
    (Unworkable.freeTurn p st d).flat = Unworkable.freeTurn p st.flat d ∧ (Unworkable.freeTurn p st d).Good K := by
  have horphan := h.orphan p d
  have hflat : Unworkable.freeTurn p st.flat d =
      if ((Unworkable.orphan p st d).get d).len ≠ ((Unworkable.orphan p st d).get d).bytes then
        networkPieceDlFree (Unworkable.orphan p st d).flat d else (Unworkable.orphan p st d).flat := rfl
  rw [hflat,Unworkable.freeTurn]
  split
  · exact horphan.free ho d
  · exact ⟨rfl,horphan⟩

/-- The end of a peer does the same to the store. -/
theorem DlStore.Good.peerFreeDls (ho : Orders nodeCmp rank {n | n.key ∈ K}) (h : st.Good K) (p : PeerId) :
    (Unworkable.peerFreeDls st p).flat = Unworkable.peerFreeDls st.flat p ∧ (Unworkable.peerFreeDls st p).Good K := by
  refine List.foldl_rel (r := fun (a : DlStore NodeTree) b => a.flat = b ∧ a.Good K) ⟨rfl,h⟩ ?_
  rintro d - a b ⟨rfl,ha⟩
  exact ha.freeTurn ho p d

end Refinement

/-- Any operations on requests whose keys are near each other get through on the tree, and leave it with the nodes that
the list has, in order and balanced; searching it, removing from it and looping over it gives what the list gives. -/
theorem tree_store_refines (K : Set (ℕ × ℕ)) (hwords : WordKeys K) (hnear : NearKeys K) (ops : List StoreOp)
    (hops : ∀ op ∈ ops, op.In K) :
    ∃ st : DlStore NodeTree, ops.foldl DlStore.apply DlStore.empty = st ∧
      st.flat = ops.foldl DlStore.apply DlStore.empty ∧
      st.index.tree.depth ≤ 2 * Nat.log 2 (st.flat.index.length + 1) ∧
      (∀ n, (st.index.tree.remove nodeCmp n).isSome = true) ∧
      (∀ idx < 4294967296, ∀ off < 4294967296, st.rbFind idx off = st.flat.rbFind idx off) ∧
      ∀ k, st.flat.index.length ≤ k → foreach k st.index.tree.min = st.flat.index := by
  have ho := orders_rank hwords hnear
  obtain ⟨hflat,hgood⟩ := DlStore.good_empty.applyAll hwords ho hops
  obtain ⟨m,hm⟩ := (ops.foldl DlStore.apply (DlStore.empty : DlStore NodeTree)).index.balanced
  refine ⟨_,rfl,hflat,hm.depth_le_log,NodeTree.isSome_remove _,?_,fun k hk => foreach_min hk⟩
  exact fun idx hidx off hoff => hgood.rbFind hwords ho hidx hoff

/-- Two requests for one block of a hundred, one for another, and the first is given up. -/
theorem tree_store_three : ∃ st : DlStore NodeTree,
    [StoreOp.create 0 1 0 16384,.create 1 1 0 16384,.create 0 7 16384 16384,.free 0].foldl DlStore.apply
      DlStore.empty = st ∧
      st.flat.index.map PieceDlIdxnode.key = [(1,0),(7,16384)] := by
  obtain ⟨st,hst,hflat,-⟩ := tree_store_refines {k | k.1 < 100 ∧ k.2 < 1000000} (by rintro k ⟨hi,ho⟩; omega)
    (by rintro x ⟨hx,hxo⟩ y ⟨hy,hyo⟩; omega) [StoreOp.create 0 1 0 16384,.create 1 1 0 16384,
      .create 0 7 16384 16384,.free 0]
    (by simp [StoreOp.In])
  refine ⟨st,hst,?_⟩
  rw [hflat]
  rfl

end Unworkable
