import Unworkable.Library.Comparator
import Mathlib.Order.Basic
import Mathlib.Data.Nat.Notation
import Mathlib.Data.Int.Notation

/-! # Red-black trees

Search and insertion by a comparator that returns the sign of a difference. An insertion goes down to a
leaf and repairs the colors on the way back, by recoloring and rotations that keep the order of the
elements. What was inserted is found if the comparator is that of a linear order on it.
-/
namespace Unworkable.Library

inductive Color where
  | red
  | black
  deriving DecidableEq, Repr

inductive RbTree (α : Type*) where
  | nil
  | node (color : Color) (left : RbTree α) (elm : α) (right : RbTree α)
  deriving DecidableEq, Repr

/-- A node on the way from the root, by the side the way goes on. -/
inductive Frame (α : Type*) where
  | left (color : Color) (elm : α) (right : RbTree α)
  | right (color : Color) (left : RbTree α) (elm : α)

namespace RbTree
variable {α β : Type*}

def blacken : RbTree α → RbTree α
  | nil => nil
  | node _ l a r => node .black l a r

def toList : RbTree α → List α
  | nil => []
  | node _ l a r => l.toList ++ a :: r.toList

def find (cmp : α → α → ℤ) (x : α) : RbTree α → Option α
  | nil => none
  | node _ l a r =>
    if cmp x a < 0 then l.find cmp x
    else if 0 < cmp x a then r.find cmp x
    else some a

end RbTree

open RbTree

section Insert
variable {α : Type*}

def Frame.plug (t : RbTree α) : Frame α → RbTree α
  | left c a r => node c t a r
  | right c l a => node c l a t

def plugAll (t : RbTree α) (fs : List (Frame α)) : RbTree α := fs.foldl Frame.plug t

/-- The way of an element to its leaf, or the equal element on it. -/
def pathTo (cmp : α → α → ℤ) (x : α) : RbTree α → List (Frame α) → List (Frame α) ⊕ α
  | nil,fs => .inl fs
  | node c l a r,fs =>
    if cmp x a < 0 then pathTo cmp x l (.left c a r :: fs)
    else if 0 < cmp x a then pathTo cmp x r (.right c l a :: fs)
    else .inr a

/-- The repair above a red node. Its parent and grandparent are the first two frames; with a red uncle it goes on
two levels up, otherwise one or two rotations end it. -/
def insertColor (t : RbTree α) : List (Frame α) → RbTree α
  | .left .red p pr :: .left _ g (node .red ul u ur) :: fs =>
    insertColor (node .red (node .black t p pr) g (node .black ul u ur)) fs
  | .right .red pl p :: .left _ g (node .red ul u ur) :: fs =>
    insertColor (node .red (node .black pl p t) g (node .black ul u ur)) fs
  | .left .red p pr :: .right _ (node .red ul u ur) g :: fs =>
    insertColor (node .red (node .black ul u ur) g (node .black t p pr)) fs
  | .right .red pl p :: .right _ (node .red ul u ur) g :: fs =>
    insertColor (node .red (node .black ul u ur) g (node .black pl p t)) fs
  | .left .red p pr :: .left _ g gr :: fs => (plugAll (node .black t p (node .red pr g gr)) fs).blacken
  | .right .red pl p :: .left gc g gr :: fs => match t with
    | nil => (plugAll (node gc (node .red pl p nil) g gr) fs).blacken
    | node _ l a r => (plugAll (node .black (node .red pl p l) a (node .red r g gr)) fs).blacken
  | .right .red pl p :: .right _ gl g :: fs => (plugAll (node .black (node .red gl g pl) p t) fs).blacken
  | .left .red p pr :: .right gc gl g :: fs => match t with
    | nil => (plugAll (node gc gl g (node .red nil p pr)) fs).blacken
    | node _ l a r => (plugAll (node .black (node .red gl g l) a (node .red r p pr)) fs).blacken
  | fs => (plugAll t fs).blacken

def RbTree.insert (cmp : α → α → ℤ) (t : RbTree α) (x : α) : RbTree α :=
  match pathTo cmp x t [] with
  | .inl fs => insertColor (node .red nil x nil) fs
  | .inr _ => t

end Insert

section Order
variable {α β : Type*}

@[simp] theorem RbTree.toList_nil : (nil : RbTree α).toList = [] := rfl

@[simp] theorem RbTree.toList_node (c : Color) (l : RbTree α) (a : α) (r : RbTree α) :
    (node c l a r).toList = l.toList ++ a :: r.toList := rfl

@[simp] theorem RbTree.toList_blacken (t : RbTree α) : t.blacken.toList = t.toList := by cases t <;> rfl

theorem toList_plugAll_congr {t t' : RbTree α} (h : t.toList = t'.toList) (fs : List (Frame α)) :
    (plugAll t fs).toList = (plugAll t' fs).toList := by
  induction fs generalizing t t' with
  | nil => exact h
  | cons f fs ih =>
    apply ih
    cases f <;> simp [Frame.plug,h]

/-- The repair keeps the order of the elements. -/
theorem toList_insertColor (t : RbTree α) (fs : List (Frame α)) : (insertColor t fs).toList =
    (plugAll t fs).toList := by
  fun_induction insertColor t fs
  all_goals first
    -- nothing but the color of the root changes
    | exact RbTree.toList_blacken _
    -- a red uncle: both levels are recolored, and the rest is done above them
    | rename_i ih
      rw [ih]
      apply toList_plugAll_congr
      simp [Frame.plug]
    -- rotations
    | rw [RbTree.toList_blacken]
      apply toList_plugAll_congr
      simp [Frame.plug]

variable [LinearOrder β] {cmp : α → α → ℤ} {f : α → β} {S : Set α} {t : RbTree α} {x y : α}

/-- The elements are in order, and in the set. -/
structure RbTree.Sorted (f : α → β) (S : Set α) (t : RbTree α) : Prop where
  pairwise : t.toList.Pairwise fun a b => f a < f b
  mem : ∀ a ∈ t.toList, a ∈ S

theorem RbTree.Sorted.node {c : Color} {l r : RbTree α} {a : α} (h : (RbTree.node c l a r).Sorted f S) :
    l.Sorted f S ∧ r.Sorted f S ∧ a ∈ S ∧ (∀ b ∈ l.toList, f b < f a) ∧ ∀ b ∈ r.toList, f a < f b := by
  obtain ⟨hpairs,hmem⟩ := h
  rw [toList_node] at hpairs hmem
  obtain ⟨hl,har,hlr⟩ := List.pairwise_append.mp hpairs
  obtain ⟨ha,hr⟩ := List.pairwise_cons.mp har
  refine ⟨⟨hl,fun b hb => hmem b (List.mem_append_left _ hb)⟩,⟨hr,?_⟩,?_,?_,ha⟩
  · exact fun b hb => hmem b (List.mem_append_right _ (List.mem_cons_of_mem a hb))
  · exact hmem a (List.mem_append_right _ List.mem_cons_self)
  · exact fun b hb => hlr b hb a List.mem_cons_self

/-- A search gets the element of its rank. -/
theorem RbTree.find_iff (ho : Orders cmp f S) (h : t.Sorted f S) (hx : x ∈ S) :
    t.find cmp x = some y ↔ y ∈ t.toList ∧ f y = f x := by
  induction t with
  | nil => simp [find]
  | node c l a r ihl ihr =>
    obtain ⟨hl,hr,ha,hla,har⟩ := h.node
    have hneg := ho.neg x hx a ha
    have hpos := ho.pos x hx a ha
    rw [find,toList_node,List.mem_append,List.mem_cons]
    rcases lt_trichotomy (f x) (f a) with hlt | heq | hgt
    · rw [if_pos (hneg.mpr hlt),ihl hl]
      constructor
      · rintro ⟨hy,hyx⟩
        exact ⟨.inl hy,hyx⟩
      · rintro ⟨hy | rfl | hy,hyx⟩
        · exact ⟨hy,hyx⟩
        · exact absurd hyx hlt.ne'
        · exact absurd hyx (hlt.trans (har y hy)).ne'
    · rw [if_neg fun h => heq.not_lt (hneg.mp h),if_neg fun h => heq.not_gt (hpos.mp h),Option.some_inj]
      constructor
      · rintro rfl
        exact ⟨.inr (.inl rfl),heq.symm⟩
      · rintro ⟨hy | rfl | hy,hyx⟩
        · exact absurd (hyx.trans heq) (hla y hy).ne
        · rfl
        · exact absurd (hyx.trans heq) (har y hy).ne'
    · rw [if_neg fun h => hgt.not_gt (hneg.mp h),if_pos (hpos.mpr hgt),ihr hr]
      constructor
      · rintro ⟨hy,hyx⟩
        exact ⟨.inr (.inr hy),hyx⟩
      · rintro ⟨hy | rfl | hy,hyx⟩
        · exact absurd hyx ((hla y hy).trans hgt).ne
        · exact absurd hyx hgt.ne
        · exact ⟨hy,hyx⟩

/-- The way to a leaf goes between the smaller and the greater elements. -/
theorem pathTo_leaf (ho : Orders cmp f S) (h : t.Sorted f S) (hx : x ∈ S) {fs fs' : List (Frame α)}
    (hpath : pathTo cmp x t fs = .inl fs') : ∃ pre post, t.toList = pre ++ post ∧ (∀ a ∈ pre, f a < f x) ∧
      (∀ b ∈ post, f x < f b) ∧ ∀ u, ∃ t', t'.toList = pre ++ u.toList ++ post ∧ plugAll u fs' = plugAll t' fs := by
  induction t generalizing fs with
  | nil =>
    cases hpath
    exact ⟨[],[],rfl,List.forall_mem_nil _,List.forall_mem_nil _,fun u => ⟨u,(List.append_nil _).symm,rfl⟩⟩
  | node c l a r ihl ihr =>
    obtain ⟨hl,hr,ha,hla,har⟩ := h.node
    rw [pathTo] at hpath
    split at hpath
    · rename_i hneg
      have hlt := (ho.neg x hx a ha).mp hneg
      obtain ⟨pre,post,hsplit,hpre,hpost,hplug⟩ := ihl hl hpath
      refine ⟨pre,post ++ a :: r.toList,by simp [hsplit],hpre,?_,?_⟩
      · intro b hb
        rcases List.mem_append.mp hb with hb | hb
        · exact hpost b hb
        rcases List.mem_cons.mp hb with rfl | hb
        · exact hlt
        · exact hlt.trans (har b hb)
      · intro u
        obtain ⟨t',ht',hu⟩ := hplug u
        exact ⟨.node c t' a r,by simp [ht'],hu⟩
    split at hpath
    · rename_i hpos
      have hgt := (ho.pos x hx a ha).mp hpos
      obtain ⟨pre,post,hsplit,hpre,hpost,hplug⟩ := ihr hr hpath
      refine ⟨l.toList ++ a :: pre,post,by simp [hsplit],?_,hpost,?_⟩
      · intro b hb
        rcases List.mem_append.mp hb with hb | hb
        · exact (hla b hb).trans hgt
        rcases List.mem_cons.mp hb with rfl | hb
        · exact hgt
        · exact hpre b hb
      · intro u
        obtain ⟨t',ht',hu⟩ := hplug u
        exact ⟨.node c l a t',by simp [ht'],hu⟩
    · cases hpath

theorem pathTo_found (ho : Orders cmp f S) (h : t.Sorted f S) (hx : x ∈ S) {fs : List (Frame α)}
    (hpath : pathTo cmp x t fs = .inr y) : y ∈ t.toList ∧ f y = f x := by
  induction t generalizing fs with
  | nil => cases hpath
  | node c l a r ihl ihr =>
    obtain ⟨hl,hr,ha,-,-⟩ := h.node
    rw [pathTo] at hpath
    rw [toList_node,List.mem_append,List.mem_cons]
    split at hpath
    · obtain ⟨hy,hyx⟩ := ihl hl hpath
      exact ⟨.inl hy,hyx⟩
    split at hpath
    · obtain ⟨hy,hyx⟩ := ihr hr hpath
      exact ⟨.inr (.inr hy),hyx⟩
    · rename_i hneg hpos
      cases hpath
      refine ⟨.inr (.inl rfl),le_antisymm ?_ ?_⟩
      · exact not_lt.mp fun h => hneg ((ho.neg x hx _ ha).mpr h)
      · exact not_lt.mp fun h => hpos ((ho.pos x hx _ ha).mpr h)

/-- What an insertion does to a tree in order. -/
theorem RbTree.insert_sorted (ho : Orders cmp f S) (h : t.Sorted f S) (hx : x ∈ S) : (t.insert cmp x).Sorted f S ∧
    ∀ y, y ∈ (t.insert cmp x).toList ↔ y ∈ t.toList ∨ y = x ∧ ∀ a ∈ t.toList, f a ≠ f x := by
  unfold RbTree.insert
  cases hpath : pathTo cmp x t [] with
  | inl fs =>
    obtain ⟨pre,post,hsplit,hpre,hpost,hplug⟩ := pathTo_leaf ho h hx hpath
    obtain ⟨t',ht',hu⟩ := hplug (.node .red .nil x .nil)
    have hlist : (insertColor (.node .red .nil x .nil) fs).toList = pre ++ x :: post := by
      rw [toList_insertColor,hu]
      simpa [plugAll] using ht'
    have hne : ∀ a ∈ t.toList, f a ≠ f x := by
      intro a ha
      rw [hsplit] at ha
      rcases List.mem_append.mp ha with ha | ha
      · exact (hpre a ha).ne
      · exact (hpost a ha).ne'
    have hmem : ∀ y, y ∈ pre ++ x :: post ↔ y ∈ t.toList ∨ y = x := by
      intro y
      rw [hsplit,List.mem_append,List.mem_cons,List.mem_append,or_left_comm,or_comm]
    simp only
    constructor
    · constructor
      · rw [hlist]
        obtain ⟨hpairs,-⟩ := h
        rw [hsplit] at hpairs
        obtain ⟨hl,hr,hlr⟩ := List.pairwise_append.mp hpairs
        apply List.pairwise_append.mpr
        refine ⟨hl,List.pairwise_cons.mpr ⟨hpost,hr⟩,?_⟩
        intro a ha b hb
        rcases List.mem_cons.mp hb with rfl | hb
        · exact hpre a ha
        · exact hlr a ha b hb
      · intro a ha
        rw [hlist] at ha
        rcases (hmem a).mp ha with ha | rfl
        · exact h.mem a ha
        · exact hx
    · intro y
      rw [hlist,hmem]
      exact or_congr_right (and_iff_left hne).symm
  | inr a =>
    obtain ⟨ha,hax⟩ := pathTo_found ho h hx hpath
    refine ⟨h,?_⟩
    intro y
    exact (or_iff_left fun hy => hy.2 a ha hax).symm

theorem RbTree.find_insert {a : α} (ho : Orders cmp f S) (h : t.Sorted f S) (ha : a ∈ S) (hx : x ∈ S) :
    (t.insert cmp a).find cmp x = (t.find cmp x).or (if f a = f x then some a else none) := by
  obtain ⟨hsorted,hmem⟩ := RbTree.insert_sorted ho h ha
  apply Option.ext
  intro y
  rw [find_iff ho hsorted hx,hmem]
  cases hfind : t.find cmp x with
  | some b =>
    obtain ⟨hb,hbx⟩ := (find_iff ho h hx).mp hfind
    rw [Option.some_or,← hfind,find_iff ho h hx]
    constructor
    · rintro ⟨hy | ⟨rfl,hne⟩,hyx⟩
      · exact ⟨hy,hyx⟩
      · exact absurd (hbx.trans hyx.symm) (hne b hb)
    · rintro ⟨hy,hyx⟩
      exact ⟨.inl hy,hyx⟩
  | none =>
    have hnone : ∀ b ∈ t.toList, f b ≠ f x := by
      intro b hb hbx
      have hfound := (find_iff ho h hx).mpr ⟨hb,hbx⟩
      rw [hfind] at hfound
      cases hfound
    rw [Option.none_or]
    split
    · rename_i hax
      rw [Option.some_inj]
      constructor
      · rintro ⟨hy | ⟨rfl,-⟩,hyx⟩
        · exact absurd hyx (hnone y hy)
        · rfl
      · rintro rfl
        exact ⟨.inr ⟨rfl,fun b hb => hax ▸ hnone b hb⟩,hax⟩
    · rename_i hax
      constructor
      · rintro ⟨hy | ⟨rfl,-⟩,hyx⟩
        · exact absurd hyx (hnone y hy)
        · exact absurd hyx hax
      · intro h
        cases h

theorem RbTree.sorted_nil : (nil : RbTree α).Sorted f S := ⟨List.Pairwise.nil,List.forall_mem_nil _⟩

/-- A search in a tree made by insertions finds the first element of its rank. -/
theorem RbTree.find_foldl_insert (ho : Orders cmp f S) (xs : List α) (hxs : ∀ a ∈ xs, a ∈ S)
    (h : t.Sorted f S) (hx : x ∈ S) :
    (xs.foldl (RbTree.insert cmp) t).find cmp x = (t.find cmp x).or (xs.find? fun a => decide (f a = f x)) := by
  induction xs generalizing t with
  | nil => simp
  | cons a xs ih =>
    obtain ⟨ha,hxs⟩ := List.forall_mem_cons.mp hxs
    obtain ⟨hsorted,hmem⟩ := RbTree.insert_sorted ho h ha
    have hstep := RbTree.find_insert ho h ha hx
    rw [List.foldl_cons,ih hxs hsorted,hstep,List.find?_cons,Option.or_assoc]
    by_cases hax : f a = f x
    · simp [hax]
    · simp [hax]

end Order

end Unworkable.Library
