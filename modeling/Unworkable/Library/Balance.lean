import Unworkable.Library.RedBlack
import Mathlib.Algebra.Ring.Nat
import Mathlib.Data.Nat.Log

/-! # Removal from red-black trees, and balance

A node with two children is taken out by way of its successor, which takes its place and its color. If
the node that leaves its place was black, the paths through the hole are one black node short, and the repair goes
up from there until a red node can be blackened or rotations end it. A tree that is balanced has no path more than
twice as long as another.
-/
namespace Unworkable.Library
open RbTree

section Remove
variable {α : Type*}

def RbTree.isRed : RbTree α → Bool
  | node .red _ _ _ => true
  | _ => false

/-- The repair at a parent whose left subtree is short, with a black sibling `tmp`: it goes on one level up, or is
ended by one or two rotations. There is no repair without a sibling. -/
def removeLeft (t : RbTree α) (pc : Color) (p : α) (fs : List (Frame α)) :
    RbTree α → Option ((RbTree α × List (Frame α)) ⊕ RbTree α)
  | nil => none
  | node _ tl x tr =>
    if !tl.isRed && !tr.isRed then some (.inl (node pc t p (node .red tl x tr),fs))
    else if !tr.isRed then match tl with
      | nil => none
      | node _ l y r => some (.inr (plugAll (node pc (node .black t p l) y (node .black r x tr)) fs).blacken)
    else some (.inr (plugAll (node pc (node .black t p tl) x tr.blacken) fs).blacken)

def removeRight (t : RbTree α) (pc : Color) (p : α) (fs : List (Frame α)) :
    RbTree α → Option ((RbTree α × List (Frame α)) ⊕ RbTree α)
  | nil => none
  | node _ tl x tr =>
    if !tl.isRed && !tr.isRed then some (.inl (node pc (node .red tl x tr) p t,fs))
    else if !tl.isRed then match tr with
      | nil => none
      | node _ l y r => some (.inr (plugAll (node pc (node .black tl x l) y (node .black r p t)) fs).blacken)
    else some (.inr (plugAll (node pc tl.blacken x (node .black tr p t)) fs).blacken)

/-- One turn of the repair. A red sibling is first rotated away. -/
def removeTurn (t : RbTree α) (fs : List (Frame α)) : Frame α → Option ((RbTree α × List (Frame α)) ⊕ RbTree α)
  | .left _ p (node .red sl s sr) => removeLeft t .red p (.left .black s sr :: fs) sl
  | .left pc p tmp => removeLeft t pc p fs tmp
  | .right _ (node .red sl s sr) p => removeRight t .red p (.right .black sl s :: fs) sr
  | .right pc tmp p => removeRight t pc p fs tmp

def repairsLeft (w : RbTree α × List (Frame α)) : ℕ := if w.1.isRed then 0 else w.2.length + 1

theorem removeLeft_next {t tmp : RbTree α} {pc : Color} {p : α} {fs : List (Frame α)} {w : RbTree α × List (Frame α)}
    (h : removeLeft t pc p fs tmp = some (.inl w)) :
    ∃ tl x tr c, tmp = node c tl x tr ∧ tl.isRed = false ∧ tr.isRed = false ∧
      w = (node pc t p (node .red tl x tr),fs) := by
  cases tmp with
  | nil => cases h
  | node c tl x tr =>
    simp only [removeLeft] at h
    split_ifs at h with hboth hright
    · simp only [Bool.and_eq_true,Bool.not_eq_true'] at hboth
      cases h
      exact ⟨tl,x,tr,c,rfl,hboth.1,hboth.2,rfl⟩
    · cases tl <;> cases h
    · cases h

theorem removeRight_next {t tmp : RbTree α} {pc : Color} {p : α} {fs : List (Frame α)} {w : RbTree α × List (Frame α)}
    (h : removeRight t pc p fs tmp = some (.inl w)) :
    ∃ tl x tr c, tmp = node c tl x tr ∧ tl.isRed = false ∧ tr.isRed = false ∧
      w = (node pc (node .red tl x tr) p t,fs) := by
  cases tmp with
  | nil => cases h
  | node c tl x tr =>
    simp only [removeRight] at h
    split_ifs at h with hboth hleft
    · simp only [Bool.and_eq_true,Bool.not_eq_true'] at hboth
      cases h
      exact ⟨tl,x,tr,c,rfl,hboth.1,hboth.2,rfl⟩
    · cases tr <;> cases h
    · cases h

theorem repairsLeft_node (pc : Color) (l : RbTree α) (a : α) (r : RbTree α) (fs : List (Frame α)) :
    repairsLeft (node pc l a r,fs) ≤ if pc = .red then 0 else fs.length + 1 := by
  cases pc <;> simp [repairsLeft,RbTree.isRed]

theorem removeTurn_less {t : RbTree α} {fs : List (Frame α)} {f : Frame α} {w : RbTree α × List (Frame α)}
    (h : removeTurn t fs f = some (.inl w)) : repairsLeft w < fs.length + 2 := by
  have hless (pc : Color) (l : RbTree α) (a : α) (r : RbTree α) : repairsLeft (node pc l a r,fs) < fs.length + 2 := by
    have hle := repairsLeft_node pc l a r fs
    split at hle <;> omega
  unfold removeTurn at h
  split at h
  · obtain ⟨tl,x,tr,c,-,-,-,rfl⟩ := removeLeft_next h
    simp [repairsLeft,RbTree.isRed]
  · obtain ⟨tl,x,tr,c,-,-,-,rfl⟩ := removeLeft_next h
    exact hless _ _ _ _
  · obtain ⟨tl,x,tr,c,-,-,-,rfl⟩ := removeRight_next h
    simp [repairsLeft,RbTree.isRed]
  · obtain ⟨tl,x,tr,c,-,-,-,rfl⟩ := removeRight_next h
    exact hless _ _ _ _

def removeColor (t : RbTree α) : List (Frame α) → Option (RbTree α)
  | [] => some t.blacken
  | f :: fs =>
    if _ : t.isRed = true then some (plugAll t.blacken (f :: fs))
    else match _ : removeTurn t fs f with
      | none => none
      | some (.inr u) => some u
      | some (.inl w) => removeColor w.1 w.2
termination_by fs => repairsLeft (t,fs)
decreasing_by
  rename_i hred hturn
  have hless := removeTurn_less hturn
  have hself : repairsLeft (t,f :: fs) = fs.length + 2 := by
    unfold repairsLeft
    rw [if_neg hred,List.length_cons]
  rw [hself]
  exact hless

def cutNode (color : Color) (child : RbTree α) (fs : List (Frame α)) : Option (RbTree α) :=
  match color with
  | .black => removeColor child fs
  | .red => some (plugAll child fs)

/-- The way to the first element, with the color and the right subtree of its node. -/
def firstNode (c : Color) : RbTree α → α → RbTree α → List (Frame α) → List (Frame α) × Color × α × RbTree α
  | nil,a,r,fs => (fs,c,a,r)
  | node c' l' a' r',a,r,fs => firstNode c' l' a' r' (.left c a r :: fs)

def removeNode (c : Color) (l r : RbTree α) (fs : List (Frame α)) : Option (RbTree α) :=
  match l,r with
  | nil,r => cutNode c r fs
  | l,nil => cutNode c l fs
  | l,node cr lr ar rr =>
    let (gs,color,s,child) := firstNode cr lr ar rr []
    cutNode color child (gs ++ .right c l s :: fs)

def focus (cmp : α → α → ℤ) (x : α) : RbTree α → List (Frame α) → Option (List (Frame α) × Color × RbTree α × RbTree α)
  | nil,_ => none
  | node c l a r,fs =>
    if cmp x a < 0 then focus cmp x l (.left c a r :: fs)
    else if 0 < cmp x a then focus cmp x r (.right c l a :: fs)
    else some (fs,c,l,r)

/-- The tree with a change to the element that compares equal, which stays equal. -/
def RbTree.modify (cmp : α → α → ℤ) (x : α) (g : α → α) : RbTree α → RbTree α
  | nil => nil
  | node c l a r =>
    if cmp x a < 0 then node c (l.modify cmp x g) a r
    else if 0 < cmp x a then node c l a (r.modify cmp x g)
    else node c l (g a) r

def RbTree.remove (cmp : α → α → ℤ) (t : RbTree α) (x : α) : Option (RbTree α) :=
  match focus cmp x t [] with
  | none => some t
  | some (fs,c,l,r) => removeNode c l r fs

end Remove

section Balance
variable {α : Type*}

/-- A tree whose root has the given color: no red node has a red child, and all paths down have the same number of
black nodes. -/
inductive RbTree.Balanced : RbTree α → Color → ℕ → Prop
  | nil : Balanced nil .black 0
  | red {l : RbTree α} {a : α} {r : RbTree α} {n : ℕ} (hl : Balanced l .black n) (hr : Balanced r .black n) :
      Balanced (node .red l a r) .red n
  | black {l : RbTree α} {a : α} {r : RbTree α} {c c' : Color} {n : ℕ} (hl : Balanced l c n) (hr : Balanced r c' n) :
      Balanced (node .black l a r) .black (n + 1)

/-- What is around a hole that takes a tree of the given color and height. -/
inductive Fits : List (Frame α) → Color → ℕ → Prop
  | root {n : ℕ} : Fits [] .black n
  | redLeft {fs : List (Frame α)} {a : α} {r : RbTree α} {n : ℕ} (hr : r.Balanced .black n) (h : Fits fs .red n) :
      Fits (.left .red a r :: fs) .black n
  | redRight {fs : List (Frame α)} {a : α} {l : RbTree α} {n : ℕ} (hl : l.Balanced .black n) (h : Fits fs .red n) :
      Fits (.right .red l a :: fs) .black n
  | blackLeft {fs : List (Frame α)} {a : α} {r : RbTree α} {c c' : Color} {n : ℕ} (hr : r.Balanced c' n)
      (h : Fits fs .black (n + 1)) : Fits (.left .black a r :: fs) c n
  | blackRight {fs : List (Frame α)} {a : α} {l : RbTree α} {c c' : Color} {n : ℕ} (hl : l.Balanced c' n)
      (h : Fits fs .black (n + 1)) : Fits (.right .black l a :: fs) c n

variable {t u : RbTree α} {f : Frame α} {fs : List (Frame α)} {c : Color} {n : ℕ}

theorem Fits.toBlack (h : Fits fs c n) : Fits fs .black n := by
  cases c with
  | black => exact h
  | red =>
    cases h with
    | blackLeft hr h => exact .blackLeft hr h
    | blackRight hl h => exact .blackRight hl h

theorem Fits.plug (h : Fits fs c n) (ht : t.Balanced c n) : ∃ m, (plugAll t fs).Balanced .black m := by
  induction h generalizing t with
  | root => exact ⟨_,ht⟩
  | redLeft hr _ ih => exact ih (.red ht hr)
  | redRight hl _ ih => exact ih (.red hl ht)
  | blackLeft hr _ ih => exact ih (.black ht hr)
  | blackRight hl _ ih => exact ih (.black hl ht)

theorem RbTree.Balanced.blacken_of_black (h : t.Balanced .black n) : t.blacken = t := by cases h <;> rfl

theorem Fits.plug_blacken (h : Fits fs c n) (ht : t.Balanced c n) : ∃ m, (plugAll t fs).blacken.Balanced .black m := by
  obtain ⟨m,hm⟩ := h.plug ht
  exact ⟨m,by rwa [hm.blacken_of_black]⟩

theorem RbTree.Balanced.isRed_black (h : t.Balanced .black n) : t.isRed = false := by cases h <;> rfl
theorem RbTree.Balanced.isRed_red (h : t.Balanced .red n) : t.isRed = true := by cases h; rfl

theorem RbTree.Balanced.of_not_red (h : t.Balanced c n) (hred : t.isRed = false) : t.Balanced .black n := by
  cases c with
  | black => exact h
  | red =>
    rw [h.isRed_red] at hred
    cases hred

theorem RbTree.Balanced.of_no_red (h : t.Balanced c n) (hred : ∀ l a r, t = node .red l a r → False) :
    t.Balanced .black n := by
  cases h with
  | nil => exact .nil
  | red hl hr => exact (hred _ _ _ rfl).elim
  | black hl hr => exact .black hl hr

/-- The repair of an insertion balances the tree. -/
theorem insertColor_balanced (ht : t.Balanced .red n) (h : Fits fs .black n) :
    ∃ m, (insertColor t fs).Balanced .black m := by
  fun_induction insertColor t fs generalizing n with
  | case1 t p pr gc g ul u ur fs ih =>
    cases h with
    | redLeft hr h =>
      cases h with
      | blackLeft hu h =>
        cases hu with
        | red hul hur => exact ih (.red (.black ht hr) (.black hul hur)) h
  | case2 t pl p gc g ul u ur fs ih =>
    cases h with
    | redRight hl h =>
      cases h with
      | blackLeft hu h =>
        cases hu with
        | red hul hur => exact ih (.red (.black hl ht) (.black hul hur)) h
  | case3 t p pr gc ul u ur g fs ih =>
    cases h with
    | redLeft hr h =>
      cases h with
      | blackRight hu h =>
        cases hu with
        | red hul hur => exact ih (.red (.black hul hur) (.black ht hr)) h
  | case4 t pl p gc ul u ur g fs ih =>
    cases h with
    | redRight hl h =>
      cases h with
      | blackRight hu h =>
        cases hu with
        | red hul hur => exact ih (.red (.black hul hur) (.black hl ht)) h
  | case5 t p pr gc g gr fs hu =>
    cases h with
    | redLeft hr h =>
      cases h with
      | blackLeft hg h => exact h.plug_blacken (.black ht (.red hr (hg.of_no_red hu)))
  | case6 => cases ht
  | case7 pl p gc g gr fs hu tc l a r =>
    cases h with
    | redRight hl h =>
      cases h with
      | blackLeft hg h =>
        cases ht with
        | red hll hrr => exact h.plug_blacken (.black (.red hl hll) (.red hrr (hg.of_no_red hu)))
  | case8 t pl p gc gl g fs hu =>
    cases h with
    | redRight hl h =>
      cases h with
      | blackRight hg h => exact h.plug_blacken (.black (.red (hg.of_no_red hu) hl) ht)
  | case9 => cases ht
  | case10 p pr gc gl g fs hu tc l a r =>
    cases h with
    | redLeft hr h =>
      cases h with
      | blackRight hg h =>
        cases ht with
        | red hll hrr => exact h.plug_blacken (.black (.red (hg.of_no_red hu) hll) (.red hrr hr))
  | case11 t fs h1 h2 h3 h4 h5 h6 h7 h8 =>
    cases h with
    | root =>
      cases ht with
      | red hl hr => exact ⟨_,.black hl hr⟩
    | redLeft hr h =>
      cases h with
      | blackLeft hu h => exact (h5 _ _ _ _ _ _ rfl).elim
      | blackRight hu h => exact (h8 _ _ _ _ _ _ rfl).elim
    | redRight hl h =>
      cases h with
      | blackLeft hu h => exact (h6 _ _ _ _ _ _ rfl).elim
      | blackRight hu h => exact (h7 _ _ _ _ _ _ rfl).elim
    | blackLeft hr h => exact Fits.plug_blacken (.blackLeft hr h) ht
    | blackRight hl h => exact Fits.plug_blacken (.blackRight hl h) ht

/-- The way to a leaf ends at a hole for a leaf. -/
theorem Fits.pathTo {cmp : α → α → ℤ} {x : α} {fs' : List (Frame α)} (h : Fits fs c n) (ht : t.Balanced c n)
    (hpath : pathTo cmp x t fs = .inl fs') : Fits fs' .black 0 := by
  induction ht generalizing fs with
  | nil =>
    cases hpath
    exact h
  | red hl hr ihl ihr =>
    unfold Library.pathTo at hpath
    split_ifs at hpath
    · exact ihl (.redLeft hr h) hpath
    · exact ihr (.redRight hl h) hpath
  | black hl hr ihl ihr =>
    unfold Library.pathTo at hpath
    split_ifs at hpath
    · exact ihl (.blackLeft hr h) hpath
    · exact ihr (.blackRight hl h) hpath

/-- An insertion keeps a tree balanced. -/
theorem RbTree.Balanced.insert (cmp : α → α → ℤ) (ht : t.Balanced .black n) (x : α) :
    ∃ m, (t.insert cmp x).Balanced .black m := by
  unfold RbTree.insert
  cases hpath : pathTo cmp x t [] with
  | inl fs => exact insertColor_balanced (.red .nil .nil) (Fits.root.pathTo ht hpath)
  | inr y => exact ⟨n,ht⟩

/-- A subtree that is a black node short of its place, or would be if its red root were not blackened. -/
inductive Short : RbTree α → List (Frame α) → Prop
  | red {t : RbTree α} {fs : List (Frame α)} {n : ℕ} (hred : t.isRed = true) (ht : t.blacken.Balanced .black n)
      (h : Fits fs .black n) : Short t fs
  | black {t : RbTree α} {fs : List (Frame α)} {n : ℕ} (ht : t.Balanced .black n) (h : Fits fs .black (n + 1)) :
    Short t fs

def RepairOk (r : Option ((RbTree α × List (Frame α)) ⊕ RbTree α)) : Prop :=
  (∃ w, r = some (.inl w) ∧ Short w.1 w.2) ∨ ∃ u m, r = some (.inr u) ∧ u.Balanced .black m

/-- A parent of any color with black subtrees, in its place. -/
theorem Fits.plug_node {pc : Color} {l r : RbTree α} {a : α} {k : ℕ} (hl : l.Balanced .black n)
    (hr : r.Balanced .black n)
    (h : Fits fs pc k) (hk : k = if pc = .red then n else n + 1) :
    ∃ m, (plugAll (node pc l a r) fs).blacken.Balanced .black m := by
  subst hk
  cases pc with
  | red => exact h.plug_blacken (.red hl hr)
  | black => exact h.plug_blacken (.black hl hr)

theorem removeLeft_ok {pc : Color} {p : α} {k : ℕ} (ht : t.Balanced .black n) (hu : u.Balanced .black (n + 1))
    (h : Fits fs pc k)
    (hk : k = if pc = .red then n + 1 else n + 2) : RepairOk (removeLeft t pc p fs u) := by
  cases hu with
  | @black tl x tr c c' _ hl hr =>
    simp only [removeLeft]
    split_ifs with hboth hright
    · simp only [Bool.and_eq_true,Bool.not_eq_true'] at hboth
      have hlow := RbTree.Balanced.red (a := x) (hl.of_not_red hboth.1) (hr.of_not_red hboth.2)
      refine .inl ⟨_,rfl,?_⟩
      subst hk
      cases pc with
      | red => exact .red rfl (.black ht hlow) h.toBlack
      | black => exact .black (.black ht hlow) h
    · simp only [Bool.not_eq_true'] at hright
      have hlred : tl.isRed = true := by
        rw [hright] at hboth
        simpa using hboth
      cases hl with
      | nil => cases hlred
      | black => cases hlred
      | red hll hlr =>
        obtain ⟨m,hm⟩ := h.plug_node (.black ht hll) (.black hlr (hr.of_not_red hright)) hk
        exact .inr ⟨_,m,rfl,hm⟩
    · simp only [Bool.not_eq_true',Bool.not_eq_false] at hright
      cases hr with
      | nil => cases hright
      | black => cases hright
      | red hrl hrr =>
        obtain ⟨m,hm⟩ := h.plug_node (.black ht hl) (.black hrl hrr) hk
        exact .inr ⟨_,m,rfl,hm⟩

theorem removeRight_ok {pc : Color} {p : α} {k : ℕ} (ht : t.Balanced .black n) (hu : u.Balanced .black (n + 1))
    (h : Fits fs pc k)
    (hk : k = if pc = .red then n + 1 else n + 2) : RepairOk (removeRight t pc p fs u) := by
  cases hu with
  | @black tl x tr c c' _ hl hr =>
    simp only [removeRight]
    split_ifs with hboth hleft
    · simp only [Bool.and_eq_true,Bool.not_eq_true'] at hboth
      have hlow := RbTree.Balanced.red (a := x) (hl.of_not_red hboth.1) (hr.of_not_red hboth.2)
      refine .inl ⟨_,rfl,?_⟩
      subst hk
      cases pc with
      | red => exact .red rfl (.black hlow ht) h.toBlack
      | black => exact .black (.black hlow ht) h
    · simp only [Bool.not_eq_true'] at hleft
      have hrred : tr.isRed = true := by
        rw [hleft] at hboth
        simpa using hboth
      cases hr with
      | nil => cases hrred
      | black => cases hrred
      | red hrl hrr =>
        obtain ⟨m,hm⟩ := h.plug_node (.black (hl.of_not_red hleft) hrl) (.black hrr ht) hk
        exact .inr ⟨_,m,rfl,hm⟩
    · simp only [Bool.not_eq_true',Bool.not_eq_false] at hleft
      cases hl with
      | nil => cases hleft
      | black => cases hleft
      | red hll hlr =>
        obtain ⟨m,hm⟩ := h.plug_node (.black hll hlr) (.black hr ht) hk
        exact .inr ⟨_,m,rfl,hm⟩

/-- A short black subtree has a sibling, so a turn never fails. -/
theorem removeTurn_ok (ht : t.Balanced .black n) (h : Fits (f :: fs) .black (n + 1)) :
    RepairOk (removeTurn t fs f) := by
  cases h with
  | redLeft hr h =>
    rw [removeTurn]
    · exact removeLeft_ok ht hr h rfl
    · rintro l a r rfl
      cases hr
  | redRight hl h =>
    rw [removeTurn]
    · exact removeRight_ok ht hl h rfl
    · rintro l a r rfl
      cases hl
  | @blackLeft _ a r _ c' _ hr h =>
    cases hr with
    | red hl hr => exact removeLeft_ok ht hl (.blackLeft hr h) rfl
    | black hl hr => exact removeLeft_ok ht (.black hl hr) h rfl
  | @blackRight _ a l _ c' _ hl h =>
    cases hl with
    | red hl hr => exact removeRight_ok ht hr (.blackRight hl h) rfl
    | black hl hr => exact removeRight_ok ht (.black hl hr) h rfl

theorem Short.turn (h : Short t (f :: fs)) (hred : ¬ t.isRed = true) : RepairOk (removeTurn t fs f) := by
  cases h with
  | red hred' _ _ => exact absurd hred' hred
  | black ht h => exact removeTurn_ok ht h

theorem removeColor_ok (h : Short t fs) : ∃ u m, removeColor t fs = some u ∧ u.Balanced .black m := by
  fun_induction removeColor t fs with
  | case1 t =>
    cases h with
    | red hred ht _ => exact ⟨_,_,rfl,ht⟩
    | black ht _ => exact ⟨_,_,rfl,by rwa [ht.blacken_of_black]⟩
  | case2 t f fs hred =>
    cases h with
    | red _ ht h =>
      obtain ⟨m,hm⟩ := h.plug ht
      exact ⟨_,m,rfl,hm⟩
    | black ht _ =>
      rw [ht.isRed_black] at hred
      cases hred
  | case3 t f fs hred hturn =>
    rcases h.turn hred with ⟨w,hw,-⟩ | ⟨u,m,hu,-⟩
    · rw [hturn] at hw
      cases hw
    · rw [hturn] at hu
      cases hu
  | case4 t f fs hred u hturn =>
    rcases h.turn hred with ⟨w,hw,-⟩ | ⟨v,m,hv,hm⟩
    · rw [hturn] at hw
      cases hw
    · rw [hturn] at hv
      cases hv
      exact ⟨u,m,rfl,hm⟩
  | case5 t f fs hred w hturn ih =>
    rcases h.turn hred with ⟨w',hw,hshort⟩ | ⟨u,m,hu,-⟩
    · rw [hturn] at hw
      cases hw
      exact ih hshort
    · rw [hturn] at hu
      cases hu

/-- A node with one child at most is taken out. -/
theorem cutNode_ok {color : Color} {k : ℕ} (ht : t.Balanced c n) (h : Fits fs color k)
    (hred : color = .red → c = .black ∧ k = n)
    (hblack : color = .black → k = n + 1) : ∃ u m, cutNode color t fs = some u ∧ u.Balanced .black m := by
  cases color with
  | red =>
    obtain ⟨rfl,rfl⟩ := hred rfl
    obtain ⟨m,hm⟩ := h.toBlack.plug ht
    exact ⟨_,m,rfl,hm⟩
  | black =>
    rw [hblack rfl] at h
    apply removeColor_ok
    cases ht with
    | nil => exact .black .nil h
    | red hl hr => exact .red rfl (.black hl hr) h
    | black hl hr => exact .black (.black hl hr) h

/-- The first node has no left subtree. -/
theorem Fits.firstNode {l r child : RbTree α} {a s : α} {acc gs : List (Frame α)} {c' : Color}
    (hnode : (node c l a r).Balanced c n) (h : Fits (acc ++ fs) c n)
    (hfirst : firstNode c l a r acc = (gs,c',s,child)) :
    ∃ k, Fits (gs ++ fs) c' k ∧ (node c' .nil s child).Balanced c' k := by
  induction l generalizing c a r acc n with
  | nil =>
    cases hfirst
    exact ⟨n,h,hnode⟩
  | node cl ll al rl ihl _ =>
    cases hnode with
    | red hl hr =>
      have hlow : Fits (.left .red a r :: acc ++ fs) .black n := .redLeft hr h
      cases hl with
      | black hll hlr => exact ihl (.black hll hlr) hlow hfirst
    | black hl hr =>
      cases hl with
      | red hll hlr => exact ihl (.red hll hlr) (.blackLeft hr h) hfirst
      | black hll hlr => exact ihl (.black hll hlr) (.blackLeft hr h) hfirst

theorem RbTree.Balanced.height_nil {k : ℕ} (h : (RbTree.nil : RbTree α).Balanced c k) : c = .black ∧ k = 0 := by
  cases h
  exact ⟨rfl,rfl⟩

theorem removeNode_ok {l r : RbTree α} {a : α} (hnode : (node c l a r).Balanced c n) (h : Fits fs c n) :
    ∃ u m, removeNode c l r fs = some u ∧ u.Balanced .black m := by
  have hcut {child : RbTree α} {c' : Color} {k : ℕ} {gs : List (Frame α)} {s : α}
      (hn : (node c' .nil s child).Balanced c' k) (hf : Fits gs c' k) :
      ∃ u m, cutNode c' child gs = some u ∧ u.Balanced .black m := by
    cases hn with
    | red _ hr => exact cutNode_ok hr hf (fun _ => ⟨rfl,rfl⟩) nofun
    | black _ hr => exact cutNode_ok hr hf nofun (fun _ => rfl)
  cases l with
  | nil =>
    rw [removeNode]
    exact hcut hnode h
  | node cl ll al rl =>
    cases r with
    | nil =>
      simp only [removeNode]
      cases hnode with
      | red hl hr => exact cutNode_ok hl h (fun _ => ⟨rfl,rfl⟩) nofun
      | black hl hr =>
        obtain ⟨-,rfl⟩ := hr.height_nil
        exact cutNode_ok hl h nofun (fun _ => rfl)
    | node cr lr ar rr =>
      simp only [removeNode]
      cases hfirst : firstNode cr lr ar rr [] with
      | mk gs w =>
        obtain ⟨color,s,child⟩ := w
        have hplace : ∃ k, (node cr lr ar rr).Balanced cr k ∧ Fits (.right c (node cl ll al rl) s :: fs) cr k := by
          cases hnode with
          | red hl hr => cases hr with
            | black hrl hrr => exact ⟨_,.black hrl hrr,.redRight hl h⟩
          | black hl hr => cases hr with
            | red hrl hrr => exact ⟨_,.red hrl hrr,.blackRight hl h⟩
            | black hrl hrr => exact ⟨_,.black hrl hrr,.blackRight hl h⟩
        obtain ⟨k,hr,hf⟩ := hplace
        obtain ⟨k',hfit,hnode'⟩ := @Fits.firstNode _ _ _ _ _ _ _ _ _ [] _ _ hr hf hfirst
        exact hcut hnode' hfit

theorem Fits.focus {cmp : α → α → ℤ} {x : α} {fs' : List (Frame α)} {c' : Color} {l r : RbTree α} (h : Fits fs c n)
    (ht : t.Balanced c n) (hfocus : focus cmp x t fs = some (fs',c',l,r)) :
    ∃ a k, (node c' l a r).Balanced c' k ∧ Fits fs' c' k := by
  induction ht generalizing fs with
  | nil => cases hfocus
  | @red l a r n hl hr ihl ihr =>
    unfold Library.focus at hfocus
    split_ifs at hfocus
    · exact ihl (.redLeft hr h) hfocus
    · exact ihr (.redRight hl h) hfocus
    · cases hfocus
      exact ⟨a,n,.red hl hr,h⟩
  | @black l a r c c' n hl hr ihl ihr =>
    unfold Library.focus at hfocus
    split_ifs at hfocus
    · exact ihl (.blackLeft hr h) hfocus
    · exact ihr (.blackRight hl h) hfocus
    · cases hfocus
      exact ⟨a,_,.black hl hr,h⟩

/-- A removal gets through, and keeps a tree balanced. -/
theorem RbTree.Balanced.remove (cmp : α → α → ℤ) (ht : t.Balanced .black n) (x : α) :
    ∃ u m, t.remove cmp x = some u ∧ u.Balanced .black m := by
  unfold RbTree.remove
  cases hfocus : focus cmp x t [] with
  | none => exact ⟨t,n,rfl,ht⟩
  | some w =>
    obtain ⟨fs,c,l,r⟩ := w
    obtain ⟨a,k,hnode,hfit⟩ := Fits.root.focus ht hfocus
    exact removeNode_ok hnode hfit

theorem RbTree.Balanced.modify (cmp : α → α → ℤ) (x : α) (g : α → α) (ht : t.Balanced c n) :
    (t.modify cmp x g).Balanced c n := by
  induction ht with
  | nil => exact .nil
  | red hl hr ihl ihr =>
    unfold RbTree.modify
    split_ifs
    · exact .red ihl hr
    · exact .red hl ihr
    · exact .red hl hr
  | black hl hr ihl ihr =>
    unfold RbTree.modify
    split_ifs
    · exact .black ihl hr
    · exact .black hl ihr
    · exact .black hl hr

def RbTree.depth : RbTree α → ℕ
  | .nil => 0
  | .node _ l _ r => max l.depth r.depth + 1

theorem RbTree.Balanced.depth_le (h : t.Balanced c n) : t.depth ≤ 2 * n + if c = .red then 1 else 0 := by
  induction h with
  | nil => rfl
  | red hl hr ihl ihr =>
    simp only [RbTree.depth]
    simp only [reduceCtorEq,if_false,if_true] at ihl ihr ⊢
    omega
  | @black l a r c c' n hl hr ihl ihr =>
    simp only [RbTree.depth,reduceCtorEq,if_false]
    split at ihl <;> split at ihr <;> omega

theorem RbTree.Balanced.two_pow_le (h : t.Balanced c n) : 2 ^ n ≤ t.toList.length + 1 := by
  induction h with
  | nil => rfl
  | red hl hr ihl ihr =>
    simp only [toList_node,List.length_append,List.length_cons]
    omega
  | black hl hr ihl ihr =>
    simp only [toList_node,List.length_append,List.length_cons,Nat.pow_succ]
    omega

/-- A balanced tree is searched in a number of steps logarithmic in its size. -/
theorem RbTree.Balanced.depth_le_log (h : t.Balanced .black n) : t.depth ≤ 2 * Nat.log 2 (t.toList.length + 1) := by
  have hdepth := h.depth_le
  have hlog : n ≤ Nat.log 2 (t.toList.length + 1) := Nat.le_log_of_pow_le (by decide) h.two_pow_le
  simp only [reduceCtorEq,if_false] at hdepth
  omega

end Balance

section Elements
variable {α β : Type*} {t u : RbTree α} {fs : List (Frame α)} {f : Frame α} {w : RbTree α × List (Frame α)}

theorem plugAll_append (t : RbTree α) (fs gs : List (Frame α)) : plugAll t (fs ++ gs) = plugAll (plugAll t fs) gs :=
  List.foldl_append

/-- The elements around a hole. -/
theorem toList_plugAll (fs : List (Frame α)) : ∃ pre post, ∀ t, (plugAll t fs).toList = pre ++ t.toList ++ post := by
  induction fs with
  | nil => exact ⟨[],[],fun t => by simp [plugAll]⟩
  | cons f fs ih =>
    obtain ⟨pre,post,hplug⟩ := ih
    cases f with
    | left c a r =>
      refine ⟨pre,a :: r.toList ++ post,fun t => ?_⟩
      show (plugAll (node c t a r) fs).toList = _
      rw [hplug]
      simp
    | right c l a =>
      refine ⟨pre ++ l.toList ++ [a],post,fun t => ?_⟩
      show (plugAll (node c l a t) fs).toList = _
      rw [hplug]
      simp

/-- A turn of the repair keeps the order of the elements. -/
theorem toList_removeLeft {pc : Color} {p : α} {s : (RbTree α × List (Frame α)) ⊕ RbTree α}
    (h : removeLeft t pc p fs u = some s) :
    (s.elim (fun w => plugAll w.1 w.2) id).toList = (plugAll (node pc t p u) fs).toList := by
  unfold removeLeft at h
  split at h
  · cases h
  · split_ifs at h
    · cases h
      exact toList_plugAll_congr (by simp) fs
    · split at h
      · cases h
      · cases h
        rw [Sum.elim_inr,id,toList_blacken]
        exact toList_plugAll_congr (by simp) fs
    · cases h
      rw [Sum.elim_inr,id,toList_blacken]
      exact toList_plugAll_congr (by simp) fs

theorem toList_removeRight {pc : Color} {p : α} {s : (RbTree α × List (Frame α)) ⊕ RbTree α}
    (h : removeRight t pc p fs u = some s) :
    (s.elim (fun w => plugAll w.1 w.2) id).toList = (plugAll (node pc u p t) fs).toList := by
  unfold removeRight at h
  split at h
  · cases h
  · split_ifs at h
    · cases h
      exact toList_plugAll_congr (by simp) fs
    · split at h
      · cases h
      · cases h
        rw [Sum.elim_inr,id,toList_blacken]
        exact toList_plugAll_congr (by simp) fs
    · cases h
      rw [Sum.elim_inr,id,toList_blacken]
      exact toList_plugAll_congr (by simp) fs

theorem toList_removeTurn {s : (RbTree α × List (Frame α)) ⊕ RbTree α} (h : removeTurn t fs f = some s) :
    (s.elim (fun w => plugAll w.1 w.2) id).toList = (plugAll t (f :: fs)).toList := by
  unfold removeTurn at h
  split at h
  · rw [toList_removeLeft h]
    exact toList_plugAll_congr (by simp [Frame.plug]) fs
  · exact toList_removeLeft h
  · rw [toList_removeRight h]
    exact toList_plugAll_congr (by simp [Frame.plug]) fs
  · exact toList_removeRight h

theorem toList_removeColor (h : removeColor t fs = some u) : u.toList = (plugAll t fs).toList := by
  fun_induction removeColor t fs with
  | case1 t =>
    cases h
    exact toList_blacken t
  | case2 t f fs hred =>
    cases h
    exact toList_plugAll_congr (toList_blacken t) _
  | case3 => cases h
  | case4 t f fs hred v hturn =>
    cases h
    exact toList_removeTurn hturn
  | case5 t f fs hred w hturn ih =>
    rw [ih h]
    exact toList_removeTurn hturn

theorem toList_cutNode (h : cutNode c t fs = some u) : u.toList = (plugAll t fs).toList := by
  cases c with
  | red =>
    cases h
    rfl
  | black => exact toList_removeColor h

/-- The way to the first element, and what is behind it. -/
theorem firstNode_spec {l r child : RbTree α} {a s : α} {gs : List (Frame α)} {c' : Color}
    (h : firstNode c l a r fs = (gs,c',s,child)) : ∃ rest, l.toList ++ a :: r.toList = s :: (child.toList ++ rest) ∧
      ∀ v, ∃ v', v'.toList = v.toList ++ rest ∧ plugAll v gs = plugAll v' fs := by
  induction l generalizing c a r fs with
  | nil =>
    cases h
    exact ⟨[],by simp,fun v => ⟨v,by simp,rfl⟩⟩
  | node cl ll al rl ihl _ =>
    obtain ⟨rest,hsplit,hplug⟩ := ihl h
    refine ⟨rest ++ a :: r.toList,?_,fun v => ?_⟩
    · rw [toList_node,hsplit]
      simp
    · obtain ⟨v',hv',hv⟩ := hplug v
      exact ⟨node c v' a r,by simp [hv'],hv⟩

/-- What is left when a node is taken out. -/
theorem toList_removeNode {l r : RbTree α} {pre post : List α} (h : removeNode c l r fs = some u)
    (hplug : ∀ v, (plugAll v fs).toList = pre ++ v.toList ++ post) :
    u.toList = pre ++ (l.toList ++ r.toList) ++ post := by
  unfold removeNode at h
  split at h
  · rw [toList_cutNode h,hplug]
    rfl
  · rw [toList_cutNode h,hplug]
    simp
  · rename_i cr lr ar rr _
    cases hfirst : firstNode cr lr ar rr [] with
    | mk gs w =>
      obtain ⟨color,s,child⟩ := w
      obtain ⟨rest,hsplit,hrest⟩ := firstNode_spec hfirst
      obtain ⟨v,hv,hgs⟩ := hrest child
      simp only [hfirst] at h
      rw [toList_cutNode h,plugAll_append,hgs]
      show (plugAll (node c l s v) fs).toList = _
      rw [hplug,toList_node,toList_node,hsplit,hv]

/-- The search for the node to take out gets the one that a search finds. -/
theorem focus_none {cmp : α → α → ℤ} {x : α} (h : focus cmp x t fs = none) : t.find cmp x = none := by
  induction t generalizing fs with
  | nil => rfl
  | node c l a r ihl ihr =>
    rw [focus] at h
    rw [find]
    split_ifs at h ⊢
    · exact ihl h
    · exact ihr h

theorem focus_some {cmp : α → α → ℤ} {x : α} {fs' : List (Frame α)} {l r : RbTree α}
    (h : focus cmp x t fs = some (fs',c,l,r)) :
    ∃ y, t.find cmp x = some y ∧ plugAll (node c l y r) fs' = plugAll t fs := by
  induction t generalizing fs with
  | nil => cases h
  | node c' l' a r' ihl ihr =>
    rw [focus] at h
    rw [find]
    split_ifs at h ⊢
    · exact ihl h
    · exact ihr h
    · cases h
      exact ⟨a,rfl,rfl⟩

/-- A removal leaves out the element that a search finds, and nothing else. -/
theorem RbTree.remove_spec {cmp : α → α → ℤ} {x : α} (h : t.remove cmp x = some u) :
    t.find cmp x = none ∧ u = t ∨
      ∃ y pre post, t.find cmp x = some y ∧ t.toList = pre ++ y :: post ∧ u.toList = pre ++ post := by
  unfold RbTree.remove at h
  cases hfocus : focus cmp x t [] with
  | none =>
    rw [hfocus] at h
    cases h
    exact .inl ⟨focus_none hfocus,rfl⟩
  | some w =>
    obtain ⟨fs,c,l,r⟩ := w
    rw [hfocus] at h
    obtain ⟨y,hy,hplug⟩ := focus_some hfocus
    obtain ⟨pre,post,hlist⟩ := toList_plugAll fs
    refine .inr ⟨y,pre ++ l.toList,r.toList ++ post,hy,?_,?_⟩
    · have ht : plugAll t [] = t := rfl
      rw [← ht,← hplug,hlist]
      simp
    · rw [toList_removeNode h hlist]
      simp

theorem RbTree.find_some {cmp : α → α → ℤ} {x y : α} (h : t.find cmp x = some y) :
    y ∈ t.toList ∧ ¬ cmp x y < 0 ∧ ¬ 0 < cmp x y := by
  induction t with
  | nil => cases h
  | node c l a r ihl ihr =>
    rw [find] at h
    split_ifs at h with hneg hpos
    · exact (ihl h).imp_left (List.mem_append_left _)
    · exact (ihr h).imp_left fun hy => List.mem_append_right _ (List.mem_cons_of_mem a hy)
    · cases h
      exact ⟨List.mem_append_right _ List.mem_cons_self,hneg,hpos⟩

/-- A change is made to the element that a search finds, and to nothing else. -/
theorem RbTree.modify_none {cmp : α → α → ℤ} {x : α} {g : α → α} (h : t.find cmp x = none) : t.modify cmp x g = t := by
  induction t with
  | nil => rfl
  | node c l a r ihl ihr =>
    rw [find] at h
    rw [modify]
    split_ifs at h ⊢
    · rw [ihl h]
    · rw [ihr h]

theorem RbTree.modify_some {cmp : α → α → ℤ} {x y : α} {g : α → α} (h : t.find cmp x = some y) :
    ∃ pre post, t.toList = pre ++ y :: post ∧ (t.modify cmp x g).toList = pre ++ g y :: post := by
  induction t with
  | nil => cases h
  | node c l a r ihl ihr =>
    rw [find] at h
    rw [modify]
    split_ifs at h ⊢
    · obtain ⟨pre,post,hl,hm⟩ := ihl h
      exact ⟨pre,post ++ a :: r.toList,by simp [hl],by simp [hm]⟩
    · obtain ⟨pre,post,hr,hm⟩ := ihr h
      exact ⟨l.toList ++ a :: pre,post,by simp [hr],by simp [hm]⟩
    · cases h
      exact ⟨l.toList,r.toList,rfl,rfl⟩

end Elements

section Walk
variable {α : Type*}

structure Cursor (α : Type*) where
  frames : List (Frame α)
  color : Color
  left : RbTree α
  elm : α
  right : RbTree α

def Cursor.leftmost (w : Cursor α) : Cursor α :=
  let (fs,c,s,child) := firstNode w.color w.left w.elm w.right w.frames
  ⟨fs,c,.nil,s,child⟩

def Cursor.climb (t : RbTree α) : List (Frame α) → Option (Cursor α)
  | [] => none
  | .left c a r :: fs => some ⟨fs,c,t,a,r⟩
  | .right c l a :: fs => climb (node c l a t) fs

def Cursor.next (w : Cursor α) : Option (Cursor α) :=
  match w.right with
  | nil => climb (node w.color w.left w.elm nil) w.frames
  | node c l a r => some (Cursor.leftmost ⟨.right w.color w.left w.elm :: w.frames,c,l,a,r⟩)

def RbTree.min : RbTree α → Option (Cursor α)
  | nil => none
  | node c l a r => some (Cursor.leftmost ⟨[],c,l,a,r⟩)

/-- The elements that a loop over the nodes sees, up to a number of turns. -/
def foreach : ℕ → Option (Cursor α) → List α
  | 0,_ => []
  | _,none => []
  | k + 1,some w => w.elm :: foreach k w.next

def rest : List (Frame α) → List α
  | [] => []
  | .left _ a r :: fs => a :: r.toList ++ rest fs
  | .right _ _ _ :: fs => rest fs

def Cursor.ahead (w : Cursor α) : List α := w.elm :: w.right.toList ++ rest w.frames

theorem firstNode_rest {c c' : Color} {l r child : RbTree α} {a s : α} {fs gs : List (Frame α)}
    (h : firstNode c l a r fs = (gs,c',s,child)) :
    s :: child.toList ++ rest gs = l.toList ++ a :: r.toList ++ rest fs := by
  induction l generalizing c a r fs with
  | nil =>
    cases h
    rfl
  | node cl ll al rl ihl _ =>
    rw [ihl h]
    simp [rest]

theorem Cursor.ahead_leftmost (w : Cursor α) :
    w.leftmost.ahead = w.left.toList ++ w.elm :: w.right.toList ++ rest w.frames := by
  unfold Cursor.leftmost
  cases hfirst : firstNode w.color w.left w.elm w.right w.frames with
  | mk fs v =>
    obtain ⟨c,s,child⟩ := v
    exact firstNode_rest hfirst

theorem Cursor.ahead_climb (t : RbTree α) (fs : List (Frame α)) : (climb t fs).elim [] Cursor.ahead = rest fs := by
  induction fs generalizing t with
  | nil => rfl
  | cons f fs ih =>
    cases f with
    | left c a r => rfl
    | right c l a => exact ih _

theorem Cursor.ahead_next (w : Cursor α) : w.ahead = w.elm :: w.next.elim [] Cursor.ahead := by
  unfold Cursor.next
  unfold Cursor.ahead
  split
  · rename_i hright
    have hclimb := ahead_climb (node w.color w.left w.elm nil) w.frames
    unfold Cursor.ahead at hclimb
    rw [hclimb,hright]
    rfl
  · rename_i c l a r hright
    show _ = w.elm :: Cursor.ahead _
    rw [ahead_leftmost,hright]
    simp [rest]

theorem foreach_eq {k : ℕ} {w : Option (Cursor α)} (hk : (w.elim [] Cursor.ahead).length ≤ k) :
    foreach k w = w.elim [] Cursor.ahead := by
  induction k generalizing w with
  | zero => exact (List.length_eq_zero_iff.mp (Nat.le_zero.mp hk)).symm
  | succ k ih =>
    cases w with
    | none => rfl
    | some w =>
      rw [Option.elim_some,w.ahead_next] at hk ⊢
      rw [foreach,ih (Nat.le_of_succ_le_succ hk)]

/-- The loop over all nodes sees every element once, in order. -/
theorem foreach_min {t : RbTree α} {k : ℕ} (hk : t.toList.length ≤ k) : foreach k t.min = t.toList := by
  have hmin : t.min.elim [] Cursor.ahead = t.toList := by
    cases t with
    | nil => rfl
    | node c l a r =>
      show Cursor.ahead _ = _
      rw [Cursor.ahead_leftmost]
      simp [rest]
  rw [foreach_eq (by rwa [hmin]),hmin]

end Walk

section Order
variable {α β : Type*} [LinearOrder β] {cmp : α → α → ℤ} {f : α → β} {S : Set α} {t u : RbTree α} {x y : α}

/-- Lists in order with the same elements are the same. -/
theorem eq_of_increasing {xs ys : List α} (hx : xs.Pairwise fun a b => f a < f b)
    (hy : ys.Pairwise fun a b => f a < f b)
    (hmem : ∀ a, a ∈ xs ↔ a ∈ ys) : xs = ys := by
  have hnodup {zs : List α} (hz : zs.Pairwise fun a b => f a < f b) : zs.Nodup := hz.imp fun hlt heq =>
    hlt.ne (congrArg f heq)
  have hperm := (List.perm_ext_iff_of_nodup (hnodup hx) (hnodup hy)).mpr hmem
  apply hperm.eq_of_pairwise _ hx hy
  intro a b _ _ hab hba
  exact absurd hab hba.not_gt

/-- What a removal does to a tree in order. -/
theorem RbTree.remove_sorted (ho : Orders cmp f S) (h : t.Sorted f S) (hx : x ∈ S) (hr : t.remove cmp x = some u) :
    u.Sorted f S ∧ u.toList = t.toList.filter fun a => decide (f a ≠ f x) := by
  rcases RbTree.remove_spec hr with ⟨hnone,rfl⟩ | ⟨y,pre,post,hy,ht,hu⟩
  · refine ⟨h,(List.filter_eq_self.mpr ?_).symm⟩
    intro a ha
    apply decide_eq_true
    intro hax
    have hfound := (RbTree.find_iff ho h hx).mpr ⟨ha,hax⟩
    rw [hnone] at hfound
    cases hfound
  · obtain ⟨-,hyx⟩ := (RbTree.find_iff ho h hx).mp hy
    obtain ⟨hpairs,hmem⟩ := h
    have hsub : (pre ++ post).Sublist t.toList := by
      rw [ht]
      exact (List.sublist_cons_self y post).append_left pre
    refine ⟨⟨?_,?_⟩,?_⟩
    · rw [hu]
      exact hpairs.sublist hsub
    · rw [hu]
      exact fun a ha => hmem a (hsub.subset ha)
    · rw [ht] at hpairs
      obtain ⟨-,hpost,hpre⟩ := List.pairwise_append.mp hpairs
      have hpost := (List.pairwise_cons.mp hpost).1
      rw [hu,ht,List.filter_append,List.filter_cons_of_neg (by simp [hyx])]
      congr 1
      · exact (List.filter_eq_self.mpr fun a ha => decide_eq_true (hyx ▸ (hpre a ha y List.mem_cons_self).ne)).symm
      · exact (List.filter_eq_self.mpr fun a ha => decide_eq_true (hyx ▸ (hpost a ha).ne')).symm

end Order

end Unworkable.Library
