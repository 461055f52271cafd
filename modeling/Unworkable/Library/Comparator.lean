import Mathlib.Data.List.Pairwise
import Mathlib.Data.List.Sort
import Mathlib.Data.Set.Operations

/-! # Comparators

A comparator returns the sign of a difference. A sort by one has to be right for comparators that are
consistent on the elements sorted; its result is in a given linear order exactly if the comparator
tells the smaller element from the greater one.
-/
namespace Unworkable.Library
variable {α β γ : Type*}

/-- A comparator has the signs of a linear order on a set. -/
structure Orders [LinearOrder β] (cmp : α → α → ℤ) (f : α → β) (S : Set α) : Prop where
  neg : ∀ x ∈ S, ∀ y ∈ S, cmp x y < 0 ↔ f x < f y
  pos : ∀ x ∈ S, ∀ y ∈ S, 0 < cmp x y ↔ f y < f x

theorem Orders.comap [LinearOrder β] {cmp : α → α → ℤ} {f : α → β} {S : Set α} (h : Orders cmp f S) (g : γ → α) :
    Orders (fun a b => cmp (g a) (g b)) (fun a => f (g a)) (Set.preimage g S) :=
  ⟨fun x hx y hy => h.neg (g x) hx (g y) hy,fun x hx y hy => h.pos (g x) hx (g y) hy⟩

/-- A comparator is that of a total preorder on the elements of a list. -/
structure Consistent (cmp : α → α → ℤ) (xs : List α) : Prop where
  antisymm : ∀ x ∈ xs, ∀ y ∈ xs, cmp x y < 0 ↔ 0 < cmp y x
  trans : ∀ x ∈ xs, ∀ y ∈ xs, ∀ z ∈ xs, cmp x y ≤ 0 → cmp y z ≤ 0 → cmp x z ≤ 0

/-- A sort permutes its list, and orders it if the comparator is consistent on it. -/
structure Sorts (sort : (α → α → ℤ) → List α → List α) : Prop where
  perm : ∀ cmp xs, (sort cmp xs).Perm xs
  pairwise : ∀ cmp xs, Consistent cmp xs → (sort cmp xs).Pairwise fun a b => cmp a b ≤ 0

/-- A sort function. In which order it leaves elements that the comparator holds equal is open. -/
structure Sorter (α : Type*) where
  sort : (α → α → ℤ) → List α → List α
  sorts : Sorts sort

section Sorting

/-- Insertion sort by a relation that is total and transitive on the list. -/
theorem pairwise_insertionSort_on {r : α → α → Prop} [DecidableRel r] (xs : List α)
    (htotal : ∀ x ∈ xs, ∀ y ∈ xs, r x y ∨ r y x)
    (htrans : ∀ x ∈ xs, ∀ y ∈ xs, ∀ z ∈ xs, r x y → r y z → r x z) : (xs.insertionSort r).Pairwise r := by
  have htot : Std.Total fun a b : {x // x ∈ xs} => r a.val b.val := ⟨fun a b => htotal a a.2 b b.2⟩
  have htra : IsTrans {x // x ∈ xs} fun a b => r a.val b.val := ⟨fun a b c => htrans a a.2 b b.2 c c.2⟩
  have hsorted := List.pairwise_insertionSort (fun a b : {x // x ∈ xs} => r a.val b.val) xs.attach
  have hmap := List.map_insertionSort (fun a b : {x // x ∈ xs} => r a.val b.val) r Subtype.val xs.attach
    fun a _ b _ => Iff.rfl
  rw [List.attach_map_subtype_val] at hmap
  rw [← hmap]
  exact List.pairwise_map.mpr hsorted

theorem Consistent.pairwise_insertionSort {cmp : α → α → ℤ} {xs : List α} (h : Consistent cmp xs) :
    (xs.insertionSort fun a b => cmp a b ≤ 0).Pairwise fun a b => cmp a b ≤ 0 := by
  apply pairwise_insertionSort_on xs _ h.trans
  intro x hx y hy
  have hanti := h.antisymm y hy x hx
  omega

theorem insertionSort_sorts : Sorts fun (cmp : α → α → ℤ) xs => xs.insertionSort fun a b => cmp a b ≤ 0 :=
  ⟨fun _ _ => List.perm_insertionSort _ _,fun _ _ h => h.pairwise_insertionSort⟩

def Sorter.insertion : Sorter α := ⟨fun cmp xs => xs.insertionSort fun a b => cmp a b ≤ 0,insertionSort_sorts⟩

variable [LinearOrder β] {cmp : α → α → ℤ} {f : α → β} {xs : List α}

theorem Orders.consistent (h : Orders cmp f {x | x ∈ xs}) : Consistent cmp xs where
  antisymm x hx y hy := (h.neg x hx y hy).trans (h.pos y hy x hx).symm
  trans x hx y hy z hz hxy hyz := by
    have hle : ∀ a ∈ xs, ∀ b ∈ xs, cmp a b ≤ 0 ↔ f a ≤ f b := by
      intro a ha b hb
      rw [← not_lt,h.pos a ha b hb,not_lt]
    rw [hle x hx y hy] at hxy
    rw [hle y hy z hz] at hyz
    rw [hle x hx z hz]
    exact hxy.trans hyz

/-- A sort by the comparator of a linear order puts its list in this order. -/
theorem Sorts.ordered {sort : (α → α → ℤ) → List α → List α} (hsort : Sorts sort) (h : Orders cmp f {x | x ∈ xs}) :
    (sort cmp xs).Pairwise fun a b => f a ≤ f b := by
  have hmem : ∀ a ∈ sort cmp xs, a ∈ xs := fun a ha => (hsort.perm cmp xs).subset ha
  refine (hsort.pairwise cmp xs h.consistent).imp_of_mem ?_
  intro a b ha hb hab
  rwa [← not_lt,← h.pos a (hmem a ha) b (hmem b hb),not_lt]

/-- Sorting by a relation that does not hold between a smaller element and a greater one does not put them in order. -/
theorem not_pairwise_of_not {r : α → α → Prop} {ys : List α} {x y : α} (hx : x ∈ ys) (hy : y ∈ ys) (hlt : f x < f y)
    (hr : ¬ r x y) (hys : ys.Pairwise r) : ¬ ys.Pairwise fun a b => f a ≤ f b := by
  intro hf
  have happart : ys.Pairwise fun a b => ¬ (a = x ∧ b = y) ∧ ¬ (a = y ∧ b = x) := by
    refine (hys.and hf).imp ?_
    rintro a b ⟨hab,hle⟩
    constructor
    · rintro ⟨rfl,rfl⟩
      exact hr hab
    · rintro ⟨rfl,rfl⟩
      exact absurd hle hlt.not_ge
  have hsymm : Std.Symm fun a b => ¬ (a = x ∧ b = y) ∧ ¬ (a = y ∧ b = x) :=
    ⟨fun a b hab => ⟨fun h => hab.2 h.symm,fun h => hab.1 h.symm⟩⟩
  have hne : x ≠ y := fun h => hlt.ne (congrArg f h)
  exact (happart.forall hx hy hne).1 ⟨rfl,rfl⟩

/-- Equal elements in the wrong order. -/
theorem Consistent.ties (h : Consistent cmp xs) :
    (∀ x ∈ xs, ∀ y ∈ xs, (cmp x y < 0 ∨ cmp x y = 0 ∧ f y ≤ f x) ∨ cmp y x < 0 ∨ cmp y x = 0 ∧ f x ≤ f y) ∧
    ∀ x ∈ xs, ∀ y ∈ xs, ∀ z ∈ xs, cmp x y < 0 ∨ cmp x y = 0 ∧ f y ≤ f x → cmp y z < 0 ∨ cmp y z = 0 ∧ f z ≤ f y →
      cmp x z < 0 ∨ cmp x z = 0 ∧ f z ≤ f x := by
  constructor
  · intro x hx y hy
    have hxy := h.antisymm x hx y hy
    have hyx := h.antisymm y hy x hx
    rcases lt_trichotomy (cmp x y) 0 with hneg | hzero | hpos
    · exact .inl (.inl hneg)
    · have hzero' : cmp y x = 0 := by omega
      exact (le_total (f y) (f x)).imp (fun hle => .inr ⟨hzero,hle⟩) fun hle => .inr ⟨hzero',hle⟩
    · exact .inr (.inl (by omega))
  · intro x hx y hy z hz hxy hyz
    have hxz := h.trans x hx y hy z hz (by omega) (by omega)
    rcases hxz.lt_or_eq with hneg | hzero
    · exact .inl hneg
    · refine .inr ⟨hzero,?_⟩
      have hzx := h.antisymm x hx z hz
      -- with x and z tied, a strict step on the way would come back as one the other way round
      rcases hxy with hxy | ⟨hxy,hfxy⟩
      · have hyx := h.antisymm x hx y hy
        have hback := h.trans y hy z hz x hx (by omega) (by omega)
        omega
      rcases hyz with hyz | ⟨-,hfyz⟩
      · have hzy := h.antisymm y hy z hz
        have hback := h.trans z hz x hx y hy (by omega) (by omega)
        omega
      · exact hfyz.trans hfxy

/-- A comparator that does not tell a smaller element from a greater one does not order them: some sort gives a list
in which they are the other way round. -/
theorem exists_sort_unordered {x y : α} (hx : x ∈ xs) (hy : y ∈ xs) (hlt : f x < f y)
    (hcmp : ¬ (cmp x y < 0 ∧ 0 < cmp y x)) :
    ∃ sort, Sorts sort ∧ ¬ (sort cmp xs).Pairwise fun a b => f a ≤ f b := by
  classical
  have hlist : ∃ ys : List α, ys.Perm xs ∧ (Consistent cmp xs → ys.Pairwise fun a b => cmp a b ≤ 0) ∧
      ¬ ys.Pairwise fun a b => f a ≤ f b := by
    by_cases hcons : Consistent cmp xs
    · obtain ⟨htotal,htrans⟩ := @Consistent.ties α β _ cmp f xs hcons
      have hsorted := pairwise_insertionSort_on xs htotal htrans
      have hperm := List.perm_insertionSort (fun a b => cmp a b < 0 ∨ cmp a b = 0 ∧ f b ≤ f a) xs
      refine ⟨_,hperm,fun _ => hsorted.imp fun hab => by omega,?_⟩
      apply not_pairwise_of_not (hperm.mem_iff.mpr hx) (hperm.mem_iff.mpr hy) hlt _ hsorted
      rintro (hneg | ⟨-,hle⟩)
      · exact hcmp ⟨hneg,(hcons.antisymm x hx y hy).mp hneg⟩
      · exact absurd hle hlt.not_ge
    · have hsorted := pairwise_insertionSort_on (r := fun a b => f b ≤ f a) xs (fun a _ b _ => le_total (f b) (f a))
        fun a _ b _ c _ hab hbc => hbc.trans hab
      have hperm := List.perm_insertionSort (fun a b => f b ≤ f a) xs
      refine ⟨_,hperm,fun h => absurd h hcons,?_⟩
      exact not_pairwise_of_not (hperm.mem_iff.mpr hx) (hperm.mem_iff.mpr hy) hlt hlt.not_ge hsorted
  obtain ⟨ys,hperm,hpairs,hnot⟩ := hlist
  refine ⟨fun c l => if c = cmp ∧ l = xs then ys else l.insertionSort fun a b => c a b ≤ 0,⟨?_,?_⟩,?_⟩
  · intro c l
    split
    · rename_i heq
      rw [heq.2]
      exact hperm
    · exact List.perm_insertionSort _ _
  · intro c l hcons
    split
    · rename_i heq
      rw [heq.1,heq.2] at hcons
      rw [heq.1]
      exact hpairs hcons
    · exact hcons.pairwise_insertionSort
  · simp only [and_self,if_true]
    exact hnot

end Sorting

end Unworkable.Library
