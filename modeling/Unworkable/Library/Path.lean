import Unworkable.Library.Words
import Mathlib.Data.List.DropRight
import Mathlib.Data.List.Basic
import Mathlib.Data.Set.Finite.Basic

/-! # Paths

Where a path leads from a directory in a tree without links, and when it stays below the
directory whatever the directories above are called. A place is the list of the names that
lead to it from the root, and the root is its own parent.
-/
namespace Unworkable.Library

inductive Move (α : Type*)
  | up
  | down (a : α)
  deriving DecidableEq

section Moves
variable {α : Type*} {a : α} {loc l : List α} {ms : List (Move α)}

def Move.go (loc : List α) : Move α → List α
  | .up => loc.dropLast
  | .down a => loc ++ [a]

def walk (loc : List α) (ms : List (Move α)) : List α := ms.foldl Move.go loc

def Move.goBelow (loc : List α) : Move α → Option (List α)
  | .up => if loc.isEmpty then none else some loc.dropLast
  | .down a => some (loc ++ [a])

def walkBelow (loc : List α) (ms : List (Move α)) : Option (List α) := ms.foldlM Move.goBelow loc

theorem walkBelow_append (loc : List α) (ms ns : List (Move α)) :
    walkBelow loc (ms ++ ns) = (walkBelow loc ms).bind (walkBelow · ns) := List.foldlM_append

theorem walkBelow_cons (loc : List α) (m : Move α) (ms : List (Move α)) :
    walkBelow loc (m :: ms) = (m.goBelow loc).bind (walkBelow · ms) := List.foldlM_cons

/-- A way that stays below a directory leads to the same place below it wherever the directory is. -/
theorem walk_of_below (base : List α) (h : walkBelow loc ms = some l) : walk (base ++ loc) ms = base ++ l := by
  induction ms generalizing loc with
  | nil =>
    cases h
    rfl
  | cons m ms ih =>
    rw [walkBelow_cons,Option.bind_eq_some_iff] at h
    obtain ⟨loc',hm,h⟩ := h
    have hgo : m.go (base ++ loc) = base ++ loc' := by
      cases m with
      | up =>
        rw [Move.goBelow] at hm
        split at hm
        · cases hm
        · rename_i hne
          cases hm
          exact List.dropLast_append_of_ne_nil (fun hnil => hne (by rw [hnil]; rfl))
      | down a =>
        cases hm
        exact List.append_assoc _ _ _
    exact (congrArg (walk · ms) hgo).trans (ih h)

/-- A place outside a directory stays outside if the directory's name is not entered. -/
theorem walk_outside (hloc : ¬ [a] <+: loc) (ha : Move.down a ∉ ms) : ¬ [a] <+: walk loc ms := by
  induction ms generalizing loc with
  | nil => exact hloc
  | cons m ms ih =>
    rw [List.mem_cons,not_or] at ha
    refine ih ?_ ha.2
    cases m with
    | up => exact fun hup => hloc (hup.trans ( List.dropLast_prefix loc))
    | down b =>
      intro hdown
      rw [Move.go] at hdown
      cases loc with
      | nil =>
        rw [List.nil_append,List.cons_prefix_cons] at hdown
        exact ha.1 (congrArg Move.down hdown.1)
      | cons c loc =>
        rw [List.cons_append,List.cons_prefix_cons] at hdown
        exact hloc (List.cons_prefix_cons.mpr ⟨hdown.1, List.nil_prefix⟩)

/-- A way that leaves the directory called `a` does not come back to it. -/
theorem walk_leaves (h : walkBelow loc ms = none) (ha : Move.down a ∉ ms) : ¬ [a] <+: walk (a :: loc) ms := by
  induction ms generalizing loc with
  | nil => cases h
  | cons m ms ih =>
    rw [List.mem_cons,not_or] at ha
    rw [walkBelow_cons,Option.bind_eq_none_iff] at h
    cases m with
    | up =>
      cases loc with
      | nil =>
        have hroot : ¬ [a] <+: ([] : List α) := by simp
        exact @walk_outside α a [] ms hroot ha.2
      | cons b loc =>
        have hrest := ih (h _ rfl) ha.2
        rwa [← List.dropLast_cons_cons] at hrest
    | down b => exact ih (h _ rfl) ha.2

/-- Some name from any infinite choice is entered nowhere. -/
theorem exists_fresh [DecidableEq α] {name : ℕ → α} (hname : Function.Injective name) (ms : List (Move α)) :
    ∃ n, Move.down (name n) ∉ ms := by
  obtain ⟨m,⟨n,rfl⟩,hm⟩ := (Set.infinite_range_of_injective (f := fun n => Move.down (name n))
    (fun i j hij => hname (Move.down.inj hij))).exists_notMem_finset ms.toFinset
  exact ⟨n,fun h => hm (List.mem_toFinset.mpr h)⟩

end Moves

/-- Empty components and `.` lead nowhere. -/
def component (s : Bytes) : Option (Move Bytes) :=
  if s = [] ∨ s = [46] then none else if s = [46,46] then some .up else some (.down s)

def moves (path : Bytes) : List (Move Bytes) := (path.splitOn 47).filterMap component

def Relative (path : Bytes) : Prop := path.head? ≠ some 47

instance (path : Bytes) : Decidable (Relative path) := inferInstanceAs (Decidable (path.head? ≠ some 47))

/-- The place of a path, from the directory `cwd`. -/
def resolve (cwd : List Bytes) (path : Bytes) : List Bytes := walk (if path.head? = some 47 then [] else cwd)
    (moves path)

def Below (dir loc : List Bytes) : Prop := dir <+: loc ∧ dir ≠ loc

def IsName (s : Bytes) : Prop := s ≠ [] ∧ s ≠ [46] ∧ s ≠ [46,46] ∧ 47 ∉ s ∧ 0 ∉ s

/-- The path without its last component, and `.` if there is no other. -/
def dirname (path : Bytes) : Bytes :=
  if path = [] then [46]
  else
    let front := path.rdropWhile (· = 47)
    if front = [] then [47]
    else
      let dir := front.rdropWhile (· ≠ 47)
      if dir = [] then [46]
      else
        let parent := dir.rdropWhile (· = 47)
        if parent = [] then [47] else parent

section Paths
variable {s t : Bytes}

theorem moves_slash (s t : Bytes) : moves (s ++ 47 :: t) = moves s ++ moves t := by
  rw [moves,List.splitOn_append_cons_self,List.filterMap_append]
  rfl

@[simp] theorem moves_nil : moves [] = [] := rfl

theorem moves_slashes (s : Bytes) (h : ∀ b ∈ t, b = 47) : moves (s ++ t) = moves s := by
  induction t generalizing s with
  | nil => rw [List.append_nil]
  | cons b t ih =>
    obtain ⟨rfl,ht⟩ := List.forall_mem_cons.mp h
    have hnone := ih [] ht
    rw [List.nil_append,moves_nil] at hnone
    rw [moves_slash,hnone,List.append_nil]

theorem moves_component (h : 47 ∉ s) : moves s = (component s).toList := by
  rw [moves,List.splitOn_eq_singleton h]
  cases hs : component s <;> simp [hs]

theorem resolve_relative {cwd : List Bytes} (h : Relative s) : resolve cwd s = walk cwd (moves s) :=
  congrArg (walk · (moves s)) (if_neg h)

theorem Relative.of_front (ht : Relative t) (h : s <+: t) : Relative s := by
  obtain ⟨r,rfl⟩ := h
  cases s with
  | nil => exact nofun
  | cons b s => exact ht

theorem Relative.not_slashes (h : Relative s) (hs : s ≠ []) : s.rdropWhile (· = 47) ≠ [] := by
  cases s with
  | nil => exact (hs rfl).elim
  | cons b s =>
    intro hnil
    rw [List.rdropWhile_eq_nil_iff] at hnil
    have hb := hnil b List.mem_cons_self
    exact h (congrArg some (of_decide_eq_true hb))

theorem strip_slashes (s : Bytes) : ∃ t, s.rdropWhile (· = 47) ++ t = s ∧ ∀ b ∈ t, b = 47 := by
  refine ⟨_,List.rdropWhile_append_rtakeWhile,?_⟩
  intro b hb
  simpa using List.mem_rtakeWhile_imp hb

theorem strip_last (s : Bytes) : ∃ t, s.rdropWhile (· ≠ 47) ++ t = s ∧ 47 ∉ t := by
  refine ⟨_,List.rdropWhile_append_rtakeWhile,?_⟩
  intro hmem
  simpa using List.mem_rtakeWhile_imp hmem

theorem moves_rdropWhile (s : Bytes) : moves (s.rdropWhile (· = 47)) = moves s := by
  obtain ⟨t,hs,ht⟩ := strip_slashes s
  have hmoves := moves_slashes (s.rdropWhile (· = 47)) ht
  rwa [hs,eq_comm] at hmoves

/-- What stands in front of the last component, if anything does, ends in a slash. -/
theorem moves_strip_last {s t : Bytes} (hs : s.rdropWhile (· ≠ 47) ++ t = s) (ht : 47 ∉ t)
    (hdir : s.rdropWhile (· ≠ 47) ≠ []) :
    moves s = moves (s.rdropWhile (· ≠ 47)) ++ (component t).toList := by
  have hend : (s.rdropWhile (· ≠ 47)).getLast hdir = 47 := by simpa using List.rdropWhile_last_not _ _ hdir
  have hdir' := List.dropLast_append_getLast hdir
  rw [hend] at hdir'
  rw [← moves_component ht]
  conv_lhs => rw [← hs,← hdir',List.append_assoc,List.singleton_append,moves_slash]
  conv_rhs => rw [← hdir',moves_slash,moves_nil,List.append_nil]

/-- A relative path is that of its parent directory and a last component. -/
theorem dirname_relative (h : Relative s) : Relative (dirname s) ∧
    (moves (dirname s) = moves s ∨ moves (dirname s) = (moves s).dropLast) := by
  unfold dirname
  split
  · rename_i hs
    subst hs
    exact ⟨by decide,.inl rfl⟩
  · rename_i hs
    have hfront := h.not_slashes hs
    have hrel : Relative (s.rdropWhile (· = 47)) := h.of_front ( List.rdropWhile_prefix _ s)
    rw [← moves_rdropWhile s]
    dsimp only
    rw [if_neg hfront]
    generalize s.rdropWhile (· = 47) = front at hrel
    obtain ⟨last,hsplit,hlast⟩ := strip_last front
    split
    · rename_i hdir
      refine ⟨by decide,.inr ?_⟩
      rw [hdir,List.nil_append] at hsplit
      rw [← hsplit,moves_component hlast]
      cases component last <;> rfl
    · rename_i hdir
      have hdirrel : Relative (front.rdropWhile (· ≠ 47)) := hrel.of_front ( List.rdropWhile_prefix _ front)
      rw [if_neg (hdirrel.not_slashes hdir),moves_rdropWhile,moves_strip_last hsplit hlast hdir]
      refine ⟨hdirrel.of_front ( List.rdropWhile_prefix _ _),?_⟩
      cases component last with
      | none => exact .inl (List.append_nil _).symm
      | some m => exact .inr List.dropLast_concat.symm

theorem length_dirname (s : Bytes) : dirname s = [46] ∨ dirname s = [47] ∨ (dirname s).length < s.length := by
  unfold dirname
  split
  · exact .inl rfl
  · dsimp only
    split
    · exact .inr (.inl rfl)
    · rename_i hfront
      split
      · exact .inl rfl
      · split
        · exact .inr (.inl rfl)
        · right
          right
          have hend : (s.rdropWhile (· = 47)).getLast hfront ≠ 47 := by simpa using List.rdropWhile_last_not _ _ hfront
          have hne : (s.rdropWhile (· = 47)).rdropWhile (· ≠ 47) ≠ s.rdropWhile (· = 47) := by
            intro hself
            exact List.rdropWhile_eq_self_iff.mp hself hfront (by simpa using hend)
          calc _ ≤ ((s.rdropWhile (· = 47)).rdropWhile (· ≠ 47)).length := ( List.rdropWhile_prefix _ _).length_le
            _ < (s.rdropWhile (· = 47)).length := by
              refine lt_of_le_of_ne ( List.rdropWhile_prefix _ _).length_le ?_
              exact fun hlen => hne (( List.rdropWhile_prefix _ _).eq_of_length hlen)
            _ ≤ s.length := ( List.rdropWhile_prefix _ _).length_le

end Paths

end Unworkable.Library
