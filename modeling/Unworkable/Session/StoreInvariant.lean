import Unworkable.Session.Requests

/-! # The two structures over the live requests

Every live request is on exactly one index node, the one with its key, and on the list of
its peer exactly when it has one. The operations of the store keep this: each changes one
request and the two places it is linked from.
-/
namespace Unworkable
open Library

def PieceDlIdxnode.key (n : PieceDlIdxnode) : ℕ × ℕ := (n.idx,n.off)
def PieceDl.key (pd : PieceDl) : ℕ × ℕ := (pd.idx,pd.off)

structure DlStore.Wf (st : DlStore) : Prop where
  fresh : ∀ d, st.next ≤ d → st.dl d = none
  indexed : ∀ d pd, st.dl d = some pd → ∃ n ∈ st.index, n.key = pd.key ∧ d ∈ n.dls
  keyed : ∀ n ∈ st.index, ∀ d ∈ n.dls, ∃ pd, st.dl d = some pd ∧ pd.key = n.key
  once : ∀ n ∈ st.index, n.dls.Nodup
  keys : (st.index.map PieceDlIdxnode.key).Nodup
  nonempty : ∀ n ∈ st.index, n.dls ≠ []
  listed : ∀ p d, d ∈ st.lists p ↔ ∃ pd, st.dl d = some pd ∧ pd.pc = some p
  list_nodup : ∀ p, (st.lists p).Nodup

section Index
variable (idx off : ℕ)

theorem rbInsert_perm (n : PieceDlIdxnode) (ns : List PieceDlIdxnode) : (rbInsert n ns).Perm (n :: ns) := by
  induction ns with
  | nil => exact .refl _
  | cons m rest ih =>
    simp only [rbInsert]
    split
    · exact .refl _
    · exact (ih.cons m).trans (.swap n m rest)

theorem mem_rbModify {f : List DlId → List DlId} {ns : List PieceDlIdxnode} {n : PieceDlIdxnode} :
    n ∈ rbModify idx off f ns ↔
      (∃ m ∈ ns, m.key = (idx,off) ∧ n = { m with dls := f m.dls }) ∨ n ∈ ns ∧ n.key ≠ (idx,off) := by
  simp only [rbModify,List.mem_map,PieceDlIdxnode.key,ne_eq,Prod.mk.injEq]
  constructor
  · rintro ⟨m,hm,rfl⟩
    by_cases hk : m.idx = idx ∧ m.off = off
    · exact .inl ⟨m,hm,hk,if_pos hk⟩
    · exact .inr (by simpa only [if_neg hk] using ⟨hm,hk⟩)
  · rintro (⟨m,hm,hk,rfl⟩ | ⟨hn,hk⟩)
    · exact ⟨m,hm,if_pos hk⟩
    · exact ⟨n,hn,if_neg hk⟩

@[simp] theorem map_key_rbModify (f : List DlId → List DlId) (ns : List PieceDlIdxnode) :
    (rbModify idx off f ns).map PieceDlIdxnode.key = ns.map PieceDlIdxnode.key := by
  rw [rbModify,List.map_map]
  apply List.map_congr_left
  intro n _
  simp only [Function.comp_apply,PieceDlIdxnode.key]
  split <;> rfl

theorem mem_rbRemove {ns : List PieceDlIdxnode} {n : PieceDlIdxnode} :
    n ∈ rbRemove idx off ns ↔ n ∈ ns ∧ n.key ≠ (idx,off) := by
  simp only [rbRemove,PieceDlIdxnode.key,List.mem_filter,decide_eq_true_eq,ne_eq,Prod.mk.injEq]

end Index

namespace DlStore
variable {st : DlStore}

theorem get_of_dl {d : DlId} {pd : PieceDl} (h : st.dl d = some pd) : st.get d = pd := by simp [get,h]

theorem rbFind_some {idx off : ℕ} {n : PieceDlIdxnode} (h : st.rbFind idx off = some n) :
    n ∈ st.index ∧ n.key = (idx,off) := by
  refine ⟨List.mem_of_find?_eq_some h,?_⟩
  simpa [PieceDlIdxnode.key] using List.find?_some h

theorem rbFind_none {idx off : ℕ} : st.rbFind idx off = none ↔ ∀ n ∈ st.index, n.key ≠ (idx,off) := by
  simp [rbFind,PieceDlIdxnode.key]

theorem Wf.node_unique (h : st.Wf) {n m : PieceDlIdxnode} (hn : n ∈ st.index) (hm : m ∈ st.index)
    (hk : n.key = m.key) : n = m := List.inj_on_of_nodup_map h.keys hn hm hk

theorem Wf.rbFind_eq (h : st.Wf) {n : PieceDlIdxnode} (hn : n ∈ st.index) :
    st.rbFind n.idx n.off = some n := by
  cases hf : st.rbFind n.idx n.off with
  | none => exact (rbFind_none.mp hf n hn rfl).elim
  | some m =>
    obtain ⟨hm,hk⟩ := rbFind_some hf
    rw [h.node_unique hm hn hk]

theorem Wf.dl_of_mem_lists (h : st.Wf) {p : PeerId} {d : DlId} (hd : d ∈ st.lists p) :
    ∃ pd, st.dl d = some pd ∧ pd.pc = some p := (h.listed p d).mp hd

/-- What the lookup returns is live and has the key asked for. -/
theorem Wf.find_some (h : st.Wf) {p : Option PeerId} {idx off : ℕ} {d : DlId}
    (hf : networkPieceDlFind st p idx off = some d) : ∃ pd, st.dl d = some pd ∧ pd.key = (idx,off) := by
  have hglobal : (st.rbFind idx off).bind (fun n => n.dls.head?) = some d →
      ∃ pd, st.dl d = some pd ∧ pd.key = (idx,off) := by
    intro hb
    obtain ⟨n,hn,hd⟩ := Option.bind_eq_some_iff.mp hb
    obtain ⟨hmem,hk⟩ := rbFind_some hn
    obtain ⟨pd,hpd,hkey⟩ := h.keyed n hmem d (List.mem_of_mem_head? hd)
    exact ⟨pd,hpd,hkey.trans hk⟩
  unfold networkPieceDlFind at hf
  cases p with
  | none => exact hglobal hf
  | some p =>
    cases hown : (st.lists p).find? (fun d => (st.get d).off = off ∧ (st.get d).idx = idx) with
    | none => simp only [hown] at hf; exact hglobal hf
    | some e =>
      simp only [hown] at hf
      cases hf
      obtain ⟨pd,hpd,-⟩ := h.dl_of_mem_lists (List.mem_of_find?_eq_some hown)
      have hkey := List.find?_some hown
      rw [get_of_dl hpd] at hkey
      exact ⟨pd,hpd,by simpa [PieceDl.key,and_comm] using hkey⟩

/-- The lookup in the index fails exactly for keys nobody has asked for. -/
theorem Wf.find_none (h : st.Wf) {idx off : ℕ} :
    networkPieceDlFind st none idx off = none ↔ ∀ d pd, st.dl d = some pd → pd.key ≠ (idx,off) := by
  constructor
  · intro hf d pd hpd hk
    obtain ⟨n,hn,hkey,hd⟩ := h.indexed d pd hpd
    have hr := h.rbFind_eq hn
    rw [hk,PieceDlIdxnode.key,Prod.mk.injEq] at hkey
    rw [hkey.1,hkey.2] at hr
    simp only [networkPieceDlFind,hr,Option.bind_some,List.head?_eq_none_iff] at hf
    exact h.nonempty n hn hf
  · intro hall
    cases hf : networkPieceDlFind st none idx off with
    | none => rfl
    | some d =>
      obtain ⟨pd,hpd,hk⟩ := h.find_some hf
      exact (hall d pd hpd hk).elim

theorem wf_empty : DlStore.empty.Wf where
  fresh _ _ := rfl
  indexed d pd h := by cases h
  keyed n hn := by cases hn
  once n hn := by cases hn
  keys := List.nodup_nil
  nonempty n hn := by cases hn
  listed p d := by simp [empty]
  list_nodup p := List.nodup_nil

/-- An assignment that keeps the key and the peer of a request. -/
theorem Wf.set (h : st.Wf) (d : DlId) {f : PieceDl → PieceDl}
    (hf : ∀ pd, (f pd).key = pd.key ∧ (f pd).pc = pd.pc) : (st.set d f).Wf := by
  have hdl : ∀ e pd', (st.set d f).dl e = some pd' →
      ∃ pd, st.dl e = some pd ∧ pd'.key = pd.key ∧ pd'.pc = pd.pc := by
    intro e pd' he
    by_cases hed : e = d
    · subst hed
      simp only [DlStore.set,Function.update_self,Option.map_eq_some_iff] at he
      obtain ⟨pd,hpd,rfl⟩ := he
      exact ⟨pd,hpd,hf pd⟩
    · simp only [DlStore.set,Function.update_of_ne hed] at he
      exact ⟨pd',he,rfl,rfl⟩
  have hdl' : ∀ e pd, st.dl e = some pd →
      ∃ pd', (st.set d f).dl e = some pd' ∧ pd'.key = pd.key ∧ pd'.pc = pd.pc := by
    intro e pd he
    by_cases hed : e = d
    · subst hed
      exact ⟨f pd,by simp [DlStore.set,he],hf pd⟩
    · exact ⟨pd,by simp [DlStore.set,Function.update_of_ne hed,he],rfl,rfl⟩
  refine ⟨?_,?_,?_,h.once,h.keys,h.nonempty,?_,h.list_nodup⟩
  · intro e he
    cases hs : (st.set d f).dl e with
    | none => rfl
    | some pd' =>
      obtain ⟨pd,hpd,-⟩ := hdl e pd' hs
      simp [h.fresh e he] at hpd
  · intro e pd' he
    obtain ⟨pd,hpd,hk,-⟩ := hdl e pd' he
    rw [hk]
    exact h.indexed e pd hpd
  · intro n hn e he
    obtain ⟨pd,hpd,hk⟩ := h.keyed n hn e he
    obtain ⟨pd',hpd',hk',-⟩ := hdl' e pd hpd
    exact ⟨pd',hpd',hk'.trans hk⟩
  · intro p e
    constructor
    · intro he
      obtain ⟨pd,hpd,hpc⟩ := h.dl_of_mem_lists he
      obtain ⟨pd',hpd',-,hpc'⟩ := hdl' e pd hpd
      exact ⟨pd',hpd',hpc'.trans hpc⟩
    · rintro ⟨pd',hpd',hpc'⟩
      obtain ⟨pd,hpd,-,hpc⟩ := hdl e pd' hpd'
      exact (h.listed p e).mpr ⟨pd,hpd,hpc ▸ hpc'⟩

section Create
variable (p : PeerId) (idx off len : ℕ)

theorem create_dl (e : DlId) : (networkPieceDlCreate st p idx off len).1.dl e =
    if e = st.next then some ⟨some p,idx,off,len,0⟩ else st.dl e := by
  simp [networkPieceDlCreate,enlist,Function.update_apply]

theorem create_lists (q : PeerId) : (networkPieceDlCreate st p idx off len).1.lists q =
    if q = p then st.lists q ++ [st.next] else st.lists q := by
  simp only [networkPieceDlCreate,enlist,Function.update_apply]
  split
  · rename_i hq
    rw [hq]
  · rfl

theorem Wf.ne_next (h : st.Wf) {e : DlId} {pd : PieceDl} (he : st.dl e = some pd) : e ≠ st.next := by
  rintro rfl
  simp [h.fresh _ (le_refl _)] at he

theorem Wf.lists_ne_next (h : st.Wf) {q : PeerId} {e : DlId} (he : e ∈ st.lists q) : e ≠ st.next := by
  obtain ⟨pd,hpd,-⟩ := h.dl_of_mem_lists he
  exact h.ne_next hpd

theorem Wf.create_dl_old (h : st.Wf) {e : DlId} {pd : PieceDl} (he : st.dl e = some pd) :
    (networkPieceDlCreate st p idx off len).1.dl e = some pd := by
  rw [create_dl,if_neg (h.ne_next he),he]

/-- The node of the new request. -/
theorem create_node : ∃ n ∈ (networkPieceDlCreate st p idx off len).1.index,
    n.key = (idx,off) ∧ st.next ∈ n.dls := by
  simp only [networkPieceDlCreate,enlist]
  cases hf : st.rbFind idx off with
  | none => exact ⟨_,(rbInsert_perm _ _).mem_iff.mpr List.mem_cons_self,rfl,by simp⟩
  | some m =>
    obtain ⟨hm,hk⟩ := rbFind_some hf
    exact ⟨_,(mem_rbModify idx off).mpr (.inl ⟨m,hm,hk,rfl⟩),hk,by simp⟩

/-- No node loses a request. -/
theorem create_node_old {n : PieceDlIdxnode} (hn : n ∈ st.index) :
    ∃ n' ∈ (networkPieceDlCreate st p idx off len).1.index, n'.key = n.key ∧ ∀ e ∈ n.dls, e ∈ n'.dls := by
  simp only [networkPieceDlCreate,enlist]
  cases hf : st.rbFind idx off with
  | none => exact ⟨n,(rbInsert_perm _ _).mem_iff.mpr (List.mem_cons_of_mem _ hn),rfl,fun _ he => he⟩
  | some m =>
    by_cases hk : n.key = (idx,off)
    · exact ⟨_,(mem_rbModify idx off).mpr (.inl ⟨n,hn,hk,rfl⟩),rfl,fun e he => List.mem_append_left _ he⟩
    · exact ⟨n,(mem_rbModify idx off).mpr (.inr ⟨hn,hk⟩),rfl,fun _ he => he⟩

/-- A node is as before, or it is the node of the new request. -/
theorem Wf.mem_index_create (h : st.Wf) {n : PieceDlIdxnode}
    (hn : n ∈ (networkPieceDlCreate st p idx off len).1.index) :
    n ∈ st.index ∨ n.key = (idx,off) ∧ ∃ es, n.dls = es ++ [st.next] ∧ es.Nodup ∧
      ∀ e ∈ es, ∃ pd, st.dl e = some pd ∧ pd.key = n.key := by
  simp only [networkPieceDlCreate,enlist] at hn
  cases hf : st.rbFind idx off with
  | none =>
    simp only [hf] at hn
    rcases List.mem_cons.mp ((rbInsert_perm _ _).mem_iff.mp hn) with rfl | hn
    · exact .inr ⟨rfl,[],rfl,List.nodup_nil,by simp⟩
    · exact .inl hn
  | some m =>
    simp only [hf] at hn
    rcases (mem_rbModify idx off).mp hn with ⟨m,hm,hk,rfl⟩ | ⟨hn,-⟩
    · exact .inr ⟨hk,m.dls,rfl,h.once m hm,h.keyed m hm⟩
    · exact .inl hn

/-- A request given to a peer joins the node of its key, made where there is none, and the
list of the peer. -/
theorem Wf.create (h : st.Wf) : (networkPieceDlCreate st p idx off len).1.Wf where
  fresh e he := by
    have hlt : st.next < e := Nat.lt_of_succ_le he
    rw [create_dl,if_neg (Nat.ne_of_gt hlt)]
    exact h.fresh e (Nat.le_of_lt hlt)
  indexed e pd he := by
    rw [create_dl] at he
    split at he
    · rename_i heq
      cases he
      subst heq
      exact create_node p idx off len
    · obtain ⟨n,hn,hk,hd⟩ := h.indexed e pd he
      obtain ⟨n',hn',hk',hsub⟩ := create_node_old p idx off len hn
      exact ⟨n',hn',hk'.trans hk,hsub e hd⟩
  keyed n hn e he := by
    rcases h.mem_index_create p idx off len hn with hn | ⟨hk,es,hes,-,hall⟩
    · obtain ⟨pd,hpd,hkey⟩ := h.keyed n hn e he
      exact ⟨pd,h.create_dl_old p idx off len hpd,hkey⟩
    · rw [hes] at he
      rcases List.mem_append.mp he with he | he
      · obtain ⟨pd,hpd,hkey⟩ := hall e he
        exact ⟨pd,h.create_dl_old p idx off len hpd,hkey⟩
      · rw [List.mem_singleton.mp he,create_dl,if_pos rfl]
        exact ⟨_,rfl,hk.symm⟩
  once n hn := by
    rcases h.mem_index_create p idx off len hn with hn | ⟨hk,es,hes,hnd,hall⟩
    · exact h.once n hn
    · rw [hes]
      refine List.nodup_append.mpr ⟨hnd,List.nodup_singleton _,?_⟩
      intro e he e' he'
      obtain ⟨pd,hpd,-⟩ := hall e he
      rw [List.mem_singleton.mp he']
      exact h.ne_next hpd
  keys := by
    simp only [networkPieceDlCreate,enlist]
    cases hf : st.rbFind idx off with
    | none =>
      rw [insert_list,((rbInsert_perm _ _).map PieceDlIdxnode.key).nodup_iff,List.map_cons,List.nodup_cons]
      refine ⟨?_,h.keys⟩
      intro hin
      obtain ⟨n,hn,hk⟩ := List.mem_map.mp hin
      exact rbFind_none.mp hf n hn hk
    | some m => simpa using h.keys
  nonempty n hn := by
    rcases h.mem_index_create p idx off len hn with hn | ⟨hk,es,hes,-⟩
    · exact h.nonempty n hn
    · simp [hes]
  listed q e := by
    rw [create_dl,create_lists]
    by_cases he : e = st.next
    · subst he
      have hno : st.next ∉ st.lists q := fun hq => h.lists_ne_next hq rfl
      by_cases hq : q = p
      · simp [hq]
      · simp [hq,hno,Ne.symm hq]
    · rw [if_neg he,← h.listed q e]
      split
      · simp [he]
      · rfl
  list_nodup q := by
    rw [create_lists]
    split
    · refine List.nodup_append.mpr ⟨h.list_nodup q,List.nodup_singleton _,?_⟩
      intro e he e' he'
      rw [List.mem_singleton.mp he']
      exact h.lists_ne_next he
    · exact h.list_nodup q

end Create

section Free

theorem free_of_none {d : DlId} (hd : st.dl d = none) : networkPieceDlFree st d = st := by
  simp only [networkPieceDlFree,hd]

theorem free_of_some {d : DlId} {pd : PieceDl} (hd : st.dl d = some pd) : networkPieceDlFree st d = { st with
    dl := Function.update st.dl d none
    index := rbDetach pd.idx pd.off d st.index
    lists := (st.unlistFrom pd.pc d).lists } := by
  simp only [networkPieceDlFree,hd]

theorem free_next (d : DlId) : (networkPieceDlFree st d).next = st.next := by
  cases hd : st.dl d with
  | none => rw [free_of_none hd]
  | some pd => rw [free_of_some hd]

theorem free_dl (d e : DlId) : (networkPieceDlFree st d).dl e = if e = d then none else st.dl e := by
  cases hd : st.dl d with
  | none =>
    rw [free_of_none hd]
    by_cases he : e = d
    · simp [he,hd]
    · simp [he]
  | some pd => simp only [free_of_some hd,Function.update_apply]

/-- The freed request leaves the list it is on; it is on no other. -/
theorem Wf.free_lists (h : st.Wf) (d : DlId) (q : PeerId) :
    (networkPieceDlFree st d).lists q = (st.lists q).erase d := by
  cases hd : st.dl d with
  | none =>
    rw [free_of_none hd]
    refine (List.erase_of_not_mem ?_).symm
    intro hq
    obtain ⟨pd,hpd,-⟩ := h.dl_of_mem_lists hq
    simp [hd] at hpd
  | some pd =>
    have hno : pd.pc ≠ some q → d ∉ st.lists q := by
      intro hne hq
      obtain ⟨pd',hpd',hpc⟩ := h.dl_of_mem_lists hq
      cases hd.symm.trans hpd'
      exact hne hpc
    rw [free_of_some hd]
    cases hpc : pd.pc with
    | none => exact (List.erase_of_not_mem (hno (by simp [hpc]))).symm
    | some p =>
      simp only [unlistFrom,unlist,Function.update_apply]
      split
      · rename_i hq
        rw [hq]
      · rename_i hq
        exact (List.erase_of_not_mem (hno (by simpa [hpc] using Ne.symm hq))).symm

/-- Detaching from an index with distinct keys and no empty node drops the node it empties. -/
theorem mem_rbDetach {idx off : ℕ} {d : DlId} {ns : List PieceDlIdxnode} {n : PieceDlIdxnode}
    (hkeys : (ns.map PieceDlIdxnode.key).Nodup) (hne : ∀ n ∈ ns, n.dls ≠ []) :
    n ∈ rbDetach idx off d ns ↔ n ∈ rbModify idx off (·.erase d) ns ∧ n.dls ≠ [] := by
  have hfull : ∀ m ∈ rbModify idx off (·.erase d) ns, m.key ≠ (idx,off) → m.dls ≠ [] := by
    intro m hm hk
    rcases (mem_rbModify _ _).mp hm with ⟨m',-,hk',rfl⟩ | ⟨hm,-⟩
    · exact (hk hk').elim
    · exact hne m hm
  have huniq : ∀ m ∈ rbModify idx off (·.erase d) ns, ∀ m' ∈ rbModify idx off (·.erase d) ns,
      m.key = m'.key → m = m' := by
    intro m hm m' hm' hk
    refine List.inj_on_of_nodup_map ?_ hm hm' hk
    rwa [map_key_rbModify]
  simp only [rbDetach,modify_list,find_list,remove_list]
  -- whether the node of the key is found empty decides what is removed
  cases hfind : (rbModify idx off (·.erase d) ns).find? (fun n => n.idx = idx ∧ n.off = off) with
  | none =>
    have hk : ∀ m ∈ rbModify idx off (·.erase d) ns, m.key ≠ (idx,off) := by
      simpa [PieceDlIdxnode.key] using hfind
    dsimp only
    exact ⟨fun hn => ⟨hn,hfull n hn (hk n hn)⟩,fun hn => hn.1⟩
  | some m =>
    have hm := List.mem_of_find?_eq_some hfind
    have hmk : m.key = (idx,off) := by simpa [PieceDlIdxnode.key] using List.find?_some hfind
    dsimp only
    by_cases hmt : m.dls = []
    · simp only [hmt,if_true,mem_rbRemove]
      refine and_congr_right (fun hn => ⟨hfull n hn,?_⟩)
      intro hnn hk
      rw [huniq n hn m hm (hk.trans hmk.symm)] at hnn
      exact hnn hmt
    · simp only [hmt,if_false]
      refine ⟨fun hn => ⟨hn,?_⟩,fun hn => hn.1⟩
      by_cases hk : n.key = (idx,off)
      · rwa [huniq n hn m hm (hk.trans hmk.symm)]
      · exact hfull n hn hk

/-- The freed request leaves its node, and a node left empty goes away. -/
theorem Wf.mem_index_free (h : st.Wf) {d : DlId} {n : PieceDlIdxnode} :
    n ∈ (networkPieceDlFree st d).index ↔
      ∃ m ∈ st.index, n = { m with dls := m.dls.erase d } ∧ m.dls.erase d ≠ [] := by
  have hother : ∀ m ∈ st.index, (∀ pd, st.dl d = some pd → pd.key ≠ m.key) → m.dls.erase d = m.dls := by
    intro m hm hne
    refine List.erase_of_not_mem ?_
    intro hd
    obtain ⟨pd,hpd,hk⟩ := h.keyed m hm d hd
    exact hne pd hpd hk
  cases hd : st.dl d with
  | none =>
    have herase : ∀ m ∈ st.index, m.dls.erase d = m.dls := fun m hm => hother m hm (by simp [hd])
    rw [free_of_none hd]
    constructor
    · intro hn
      exact ⟨n,hn,by rw [herase n hn],by rw [herase n hn]; exact h.nonempty n hn⟩
    · rintro ⟨m,hm,rfl,-⟩
      rwa [herase m hm]
  | some pd =>
    have hkept : ∀ m ∈ st.index, m.key ≠ (pd.idx,pd.off) → m.dls.erase d = m.dls := by
      intro m hm hne
      refine hother m hm ?_
      intro pd' hpd' hk
      cases hd.symm.trans hpd'
      exact hne hk.symm
    rw [free_of_some hd,mem_rbDetach h.keys h.nonempty,mem_rbModify]
    constructor
    · rintro ⟨⟨m,hm,-,rfl⟩ | ⟨hn,hk⟩,hne⟩
      · exact ⟨m,hm,rfl,hne⟩
      · exact ⟨n,hn,by rw [hkept n hn hk],by rwa [hkept n hn hk]⟩
    · rintro ⟨m,hm,rfl,hne⟩
      refine ⟨?_,hne⟩
      by_cases hk : m.key = (pd.idx,pd.off)
      · exact .inl ⟨m,hm,hk,rfl⟩
      · exact .inr ⟨by rwa [hkept m hm hk],hk⟩

theorem Wf.free_keys (h : st.Wf) (d : DlId) :
    ((networkPieceDlFree st d).index.map PieceDlIdxnode.key).Nodup := by
  cases hd : st.dl d with
  | none => simpa only [free_of_none hd] using h.keys
  | some pd =>
    have hmod : ((rbModify pd.idx pd.off (·.erase d) st.index).map PieceDlIdxnode.key).Nodup := by
      rw [map_key_rbModify]
      exact h.keys
    simp only [free_of_some hd,rbDetach]
    split
    · split
      · exact hmod.sublist (List.Sublist.map _ List.filter_sublist)
      · exact hmod
    · exact hmod

/-- A freed request is linked from nowhere. -/
theorem Wf.free (h : st.Wf) (d : DlId) : (networkPieceDlFree st d).Wf where
  fresh e he := by
    rw [free_next] at he
    rw [free_dl]
    split
    · rfl
    · exact h.fresh e he
  indexed e pd he := by
    rw [free_dl] at he
    split at he
    · cases he
    · rename_i hne
      obtain ⟨n,hn,hk,hmem⟩ := h.indexed e pd he
      have hmem' : e ∈ n.dls.erase d := (List.mem_erase_of_ne hne).mpr hmem
      exact ⟨{ n with dls := n.dls.erase d },h.mem_index_free.mpr ⟨n,hn,rfl,List.ne_nil_of_mem hmem'⟩,hk,hmem'⟩
  keyed n hn e he := by
    obtain ⟨m,hm,rfl,-⟩ := h.mem_index_free.mp hn
    have hed : e ≠ d := by
      rintro rfl
      exact (h.once m hm).not_mem_erase he
    rw [free_dl,if_neg hed]
    exact h.keyed m hm e (List.mem_of_mem_erase he)
  once n hn := by
    obtain ⟨m,hm,rfl,-⟩ := h.mem_index_free.mp hn
    exact (h.once m hm).erase d
  keys := h.free_keys d
  nonempty n hn := by
    obtain ⟨m,-,rfl,hne⟩ := h.mem_index_free.mp hn
    exact hne
  listed q e := by
    rw [h.free_lists,free_dl,(h.list_nodup q).mem_erase_iff]
    by_cases hed : e = d
    · simp [hed]
    · simp [hed,h.listed q e]
  list_nodup q := by
    rw [h.free_lists]
    exact (h.list_nodup q).erase d

end Free

section Attach
variable {p : PeerId} {d : DlId}

theorem orphan_dl (e : DlId) : (orphan p st d).dl e =
    if e = d then (st.dl d).map (fun pd => { pd with pc := none }) else st.dl e := by
  simp [orphan,unlist,DlStore.set,Function.update_apply]

theorem orphan_lists (q : PeerId) :
    (orphan p st d).lists q = if q = p then (st.lists q).erase d else st.lists q := by
  simp only [orphan,unlist,DlStore.set,Function.update_apply]
  split
  · rename_i hq
    rw [hq]
  · rfl

theorem recycle_dl (e : DlId) : (recycle p st d).dl e =
    if e = d then (st.dl d).map (fun pd => { pd with pc := some p }) else st.dl e := by
  simp [recycle,enlist,DlStore.set,Function.update_apply]

theorem recycle_lists (q : PeerId) :
    (recycle p st d).lists q = if q = p then st.lists q ++ [d] else st.lists q := by
  simp only [recycle,enlist,DlStore.set,Function.update_apply]
  split
  · rename_i hq
    rw [hq]
  · rfl

/-- A change of one request that keeps its key, together with the lists that follow it. -/
theorem Wf.relink (h : st.Wf) {st' : DlStore} {pd : PieceDl} (pd' : PieceDl) (hd : st.dl d = some pd)
    (hkey : pd'.key = pd.key) (hnext : st'.next = st.next) (hindex : st'.index = st.index)
    (hdl : ∀ e, st'.dl e = if e = d then some pd' else st.dl e)
    (hlists : ∀ q e, e ∈ st'.lists q ↔ if e = d then pd'.pc = some q else e ∈ st.lists q)
    (hnodup : ∀ q, (st'.lists q).Nodup) : st'.Wf where
  fresh e he := by
    have hed : e ≠ d := by
      rintro rfl
      rw [hnext] at he
      simp [h.fresh e he] at hd
    rw [hdl,if_neg hed]
    exact h.fresh e (hnext ▸ he)
  indexed e pe he := by
    rw [hindex]
    rw [hdl] at he
    split at he
    · rename_i hed
      cases he
      rw [hkey,hed]
      exact h.indexed d pd hd
    · exact h.indexed e pe he
  keyed n hn e he := by
    rw [hindex] at hn
    obtain ⟨pe,hpe,hk⟩ := h.keyed n hn e he
    rw [hdl]
    by_cases hed : e = d
    · rw [hed,hd] at hpe
      cases hpe
      exact ⟨pd',if_pos hed,hkey.trans hk⟩
    · exact ⟨pe,by rw [if_neg hed,hpe],hk⟩
  once := hindex ▸ h.once
  keys := hindex ▸ h.keys
  nonempty := hindex ▸ h.nonempty
  listed q e := by
    rw [hlists,hdl]
    by_cases hed : e = d
    · simp [hed]
    · simp only [hed,if_false]
      exact h.listed q e
  list_nodup := hnodup

/-- CHOKE and the end of a peer detach a request from its peer only. -/
theorem Wf.orphan (h : st.Wf) (hd : d ∈ st.lists p) : (orphan p st d).Wf := by
  obtain ⟨pd,hpd,hpc⟩ := h.dl_of_mem_lists hd
  have hother : ∀ q, q ≠ p → d ∉ st.lists q := by
    intro q hq hdq
    obtain ⟨pd',hpd',hpc'⟩ := h.dl_of_mem_lists hdq
    cases hpd.symm.trans hpd'
    cases hpc.symm.trans hpc'
    exact hq rfl
  refine h.relink { pd with pc := none } hpd rfl rfl rfl ?_ ?_ ?_
  · intro e
    rw [orphan_dl,hpd]
    rfl
  · intro q e
    rw [orphan_lists]
    by_cases hed : e = d
    · subst hed
      by_cases hq : q = p
      · simp [hq,(h.list_nodup p).not_mem_erase]
      · simp [hq,hother q hq]
    · simp only [hed,if_false]
      split
      · exact List.mem_erase_of_ne hed
      · exact Iff.rfl
  · intro q
    rw [orphan_lists]
    split
    · exact (h.list_nodup q).erase d
    · exact h.list_nodup q

/-- Recycling gives an orphaned request to a peer. -/
theorem Wf.recycle (h : st.Wf) {pd : PieceDl} (hd : st.dl d = some pd) (hpc : pd.pc = none) (p : PeerId) :
    (recycle p st d).Wf := by
  have hno : ∀ q, d ∉ st.lists q := by
    intro q hq
    obtain ⟨pd',hpd',hpc'⟩ := h.dl_of_mem_lists hq
    cases hd.symm.trans hpd'
    simp [hpc] at hpc'
  refine h.relink { pd with pc := some p } hd rfl rfl rfl ?_ ?_ ?_
  · intro e
    rw [recycle_dl,hd]
    rfl
  · intro q e
    rw [recycle_lists]
    by_cases hed : e = d
    · subst hed
      by_cases hq : q = p
      · simp [hq]
      · simp [hq,hno q,Ne.symm hq]
    · simp only [hed,if_false]
      split <;> simp [hed]
  · intro q
    rw [recycle_lists]
    split
    · refine List.nodup_append.mpr ⟨h.list_nodup q,List.nodup_singleton _,?_⟩
      intro e he e' he' heq
      rw [heq,List.mem_singleton.mp he'] at he
      exact hno q he
    · exact h.list_nodup q

end Attach

section Loops
variable {p : PeerId}

theorem Wf.freeTurn (h : st.Wf) {d : DlId} (hd : d ∈ st.lists p) : (freeTurn p st d).Wf := by
  unfold Unworkable.freeTurn
  dsimp only
  split
  · exact (h.orphan hd).free d
  · exact h.orphan hd

theorem Wf.freeTurn_lists (h : st.Wf) {d : DlId} (hd : d ∈ st.lists p) (q : PeerId) :
    (Unworkable.freeTurn p st d).lists q = if q = p then (st.lists q).erase d else st.lists q := by
  have horphan : (Unworkable.freeTurn p st d).lists q = (Unworkable.orphan p st d).lists q := by
    unfold Unworkable.freeTurn
    dsimp only
    split
    · rw [(h.orphan hd).free_lists]
      refine List.erase_of_not_mem ?_
      intro hq
      obtain ⟨pd,hpd,hpc⟩ := (h.orphan hd).dl_of_mem_lists hq
      rw [orphan_dl,if_pos rfl] at hpd
      obtain ⟨pd',-,rfl⟩ := Option.map_eq_some_iff.mp hpd
      cases hpc
    · rfl
  rw [horphan,orphan_lists]

/-- A loop that detaches the requests of a peer one after the other keeps the invariant,
empties the list of the peer and leaves the other lists alone. -/
theorem Wf.foldl_detach {f : DlStore → DlId → DlStore}
    (hwf : ∀ st : DlStore, st.Wf → ∀ d ∈ st.lists p, (f st d).Wf)
    (hlists : ∀ st : DlStore, st.Wf → ∀ d ∈ st.lists p, ∀ q,
      (f st d).lists q = if q = p then (st.lists q).erase d else st.lists q)
    {l : List DlId} (h : st.Wf) (hl : st.lists p = l) :
    (l.foldl f st).Wf ∧ ∀ q, (l.foldl f st).lists q = if q = p then [] else st.lists q := by
  induction l generalizing st with
  | nil =>
    refine ⟨h,?_⟩
    intro q
    by_cases hq : q = p
    · simp [hq,hl]
    · simp [hq]
  | cons d l ih =>
    have hd : d ∈ st.lists p := by simp [hl]
    have hl' : (f st d).lists p = l := by simp [hlists st h d hd,hl]
    obtain ⟨hwf',hlists'⟩ := ih (hwf st h d hd) hl'
    refine ⟨hwf',?_⟩
    intro q
    rw [List.foldl_cons,hlists' q,hlists st h d hd q]
    split <;> rfl

theorem Wf.peerFreeDls (h : st.Wf) (p : PeerId) :
    (peerFreeDls st p).Wf ∧ ∀ q, (peerFreeDls st p).lists q = if q = p then [] else st.lists q :=
  h.foldl_detach (fun _ h _ hd => h.freeTurn hd) (fun _ h _ hd q => h.freeTurn_lists hd q) rfl

theorem Wf.foldl_orphan (h : st.Wf) (p : PeerId) :
    ((st.lists p).foldl (Unworkable.orphan p) st).Wf ∧
      ∀ q, ((st.lists p).foldl (Unworkable.orphan p) st).lists q = if q = p then [] else st.lists q :=
  h.foldl_detach (fun _ h _ hd => h.orphan hd) (fun _ _ _ _ q => orphan_lists q) rfl

end Loops

def All (P : PieceDl → Prop) (st : DlStore) : Prop := ∀ d pd, st.dl d = some pd → P pd

section All
variable {P : PieceDl → Prop} {p : PeerId} {d : DlId}

theorem All.create (h : st.All P) {idx off len : ℕ} (hP : P ⟨some p,idx,off,len,0⟩) :
    (networkPieceDlCreate st p idx off len).1.All P := by
  intro e pd he
  rw [create_dl] at he
  split at he
  · cases he
    exact hP
  · exact h e pd he

theorem All.free (h : st.All P) (d : DlId) : (networkPieceDlFree st d).All P := by
  intro e pd he
  rw [free_dl] at he
  split at he
  · cases he
  · exact h e pd he

theorem All.set (h : st.All P) {f : PieceDl → PieceDl} (hP : ∀ pd, st.dl d = some pd → P (f pd)) :
    (st.set d f).All P := by
  intro e pd he
  by_cases hed : e = d
  · subst hed
    simp only [DlStore.set,Function.update_self] at he
    obtain ⟨pd',hpd',rfl⟩ := Option.map_eq_some_iff.mp he
    exact hP pd' hpd'
  · simp only [DlStore.set,Function.update_of_ne hed] at he
    exact h e pd he

variable (hP : ∀ pd pc, P pd → P { pd with pc := pc })
include hP

theorem All.orphan (h : st.All P) : (orphan p st d).All P := h.set (fun pd hpd => hP pd none (h d pd hpd))

theorem All.recycle (h : st.All P) : (recycle p st d).All P := h.set (fun pd hpd => hP pd (some p) (h d pd hpd))

theorem All.freeTurn (h : st.All P) : (freeTurn p st d).All P := by
  unfold Unworkable.freeTurn
  dsimp only
  split
  · exact (h.orphan hP).free d
  · exact h.orphan hP

theorem All.peerFreeDls (h : st.All P) : (peerFreeDls st p).All P := by
  unfold Unworkable.peerFreeDls
  generalize st.lists p = l
  induction l generalizing st with
  | nil => exact h
  | cons d l ih => exact ih (h.freeTurn hP)

theorem All.foldl_orphan (h : st.All P) (l : List DlId) : (l.foldl (Unworkable.orphan p) st).All P := by
  induction l generalizing st with
  | nil => exact h
  | cons d l ih => exact ih (h.orphan hP)

end All

end DlStore

end Unworkable
