import Mathlib.Data.List.Basic
import Mathlib.Data.List.Induction

/-! # Queues that allow cancelling

Elements arrive at a queue, are served from its head, and may be cancelled while they wait, all equal
ones at once. The ledger of a history of such events gives every arrival its fate. In a queue that serves
its head the arrivals served are those that come first among all that were not cancelled.
-/
namespace Unworkable.Library
variable {α : Type*}

inductive QueueEvent (α : Type*) where
  | arrive (a : α)
  | cancel (a : α)
  | serve (a : α)

inductive Fate where
  | waiting
  | served
  | cancelled
  deriving DecidableEq

/-- What has arrived in a history, and what was served, in order. -/
def arrivals : List (QueueEvent α) → List α
  | [] => []
  | .arrive a :: h => a :: arrivals h
  | _ :: h => arrivals h

def servings : List (QueueEvent α) → List α
  | [] => []
  | .serve a :: h => a :: servings h
  | _ :: h => servings h

theorem arrivals_append (h h' : List (QueueEvent α)) : arrivals (h ++ h') = arrivals h ++ arrivals h' := by
  induction h with
  | nil => rfl
  | cons e h ih => cases e <;> simp [arrivals,ih]

theorem servings_append (h h' : List (QueueEvent α)) : servings (h ++ h') = servings h ++ servings h' := by
  induction h with
  | nil => rfl
  | cons e h ih => cases e <;> simp [servings,ih]

theorem filter_fate {l : List (α × Fate)} {f : Fate} (hf : f ≠ .cancelled) :
    l.filter (·.2 = f) = (l.filter (·.2 ≠ .cancelled)).filter (·.2 = f) := by
  rw [List.filter_filter]
  apply List.filter_congr
  intro x _
  by_cases hx : x.2 = f
  · simp [hx,hf]
  · simp [hx]

section Ledger
variable [DecidableEq α]

/-- The first arrival of `a` that waits is served. -/
def serveFirst (a : α) : List (α × Fate) → List (α × Fate)
  | [] => []
  | x :: l => if x = (a,.waiting) then (a,.served) :: l else x :: serveFirst a l

/-- What an event does to the fates of the arrivals so far: a cancel meets all equal ones that wait. -/
def enter (l : List (α × Fate)) : QueueEvent α → List (α × Fate)
  | .arrive a => l ++ [(a,.waiting)]
  | .cancel a => l.map fun x => if x = (a,.waiting) then (a,.cancelled) else x
  | .serve a => serveFirst a l

/-- The arrivals of a history, each with its fate. -/
def ledger (h : List (QueueEvent α)) : List (α × Fate) := h.foldl enter []

def kept (h : List (QueueEvent α)) : List α := ((ledger h).filter (·.2 ≠ .cancelled)).map Prod.fst

def withFate (f : Fate) (h : List (QueueEvent α)) : List α := ((ledger h).filter (·.2 = f)).map Prod.fst

theorem ledger_append (h : List (QueueEvent α)) (e : QueueEvent α) : ledger (h ++ [e]) = enter (ledger h) e := by
  simp [ledger]

theorem map_fst_serveFirst (a : α) (l : List (α × Fate)) : (serveFirst a l).map Prod.fst = l.map Prod.fst := by
  induction l with
  | nil => rfl
  | cons x l ih =>
    rw [serveFirst]
    split
    · rename_i hx
      simp [hx]
    · rw [List.map_cons,ih,List.map_cons]

/-- The ledger lists the arrivals. -/
theorem map_fst_ledger (h : List (QueueEvent α)) : (ledger h).map Prod.fst = arrivals h := by
  induction h using List.reverseRecOn with
  | nil => rfl
  | append_singleton h e ih =>
    rw [ledger_append,arrivals_append]
    cases e with
    | arrive a => simp [enter,arrivals,ih]
    | cancel a =>
      show List.map Prod.fst (List.map _ _) = arrivals h ++ []
      rw [List.map_map,List.append_nil,← ih]
      apply List.map_congr_left
      intro x _
      by_cases hx : x = (a,.waiting) <;> simp [hx]
    | serve a => simpa [enter,map_fst_serveFirst,arrivals] using ih

end Ledger

section Queue
variable [DecidableEq α]

def QueueEvent.after (q : List α) : QueueEvent α → List α
  | .arrive a => q ++ [a]
  | .cancel a => q.filter (· ≠ a)
  | .serve _ => q.tail

def QueueEvent.Serves (q : List α) : QueueEvent α → Prop
  | .serve a => q.head? = some a
  | _ => True

/-- A history of a queue that was empty at first. -/
inductive QueueHistory : List (QueueEvent α) → List α → Prop where
  | nil : QueueHistory [] []
  | snoc {h : List (QueueEvent α)} {q : List α} (e : QueueEvent α) (hq : QueueHistory h q) (he : e.Serves q) :
      QueueHistory (h ++ [e]) (e.after q)

def Arranged (l : List (α × Fate)) (served waiting : List α) : Prop :=
  l.filter (·.2 ≠ .cancelled) = served.map (·,.served) ++ waiting.map (·,.waiting)

theorem filter_cancel (a : α) (l : List (α × Fate)) :
    (enter l (.cancel a)).filter (·.2 ≠ .cancelled) = (l.filter (·.2 ≠ .cancelled)).filter (· ≠ (a,.waiting)) := by
  induction l with
  | nil => rfl
  | cons x l ih =>
    simp only [enter] at ih ⊢
    rw [List.map_cons]
    by_cases hx : x = (a,.waiting)
    · rw [if_pos hx,hx]
      simpa using ih
    · rw [if_neg hx]
      by_cases hc : x.2 = .cancelled
      · simpa [hc] using ih
      · rw [List.filter_cons_of_pos (by simpa using hc),List.filter_cons_of_pos (by simpa using hc),
          List.filter_cons_of_pos (by simpa using hx),ih]

theorem filter_serveFirst (a : α) (l : List (α × Fate)) :
    (serveFirst a l).filter (·.2 ≠ .cancelled) = serveFirst a (l.filter (·.2 ≠ .cancelled)) := by
  induction l with
  | nil => rfl
  | cons x l ih =>
    by_cases hx : x = (a,.waiting)
    · simp [serveFirst,hx]
    · rw [serveFirst,if_neg hx]
      by_cases hc : x.2 = .cancelled
      · simpa [hc] using ih
      · rw [List.filter_cons_of_pos (by simpa using hc),List.filter_cons_of_pos (by simpa using hc),
          ih,serveFirst,if_neg hx]

theorem serveFirst_append {a : α} {l l' : List (α × Fate)} (h : (a,.waiting) ∉ l) :
    serveFirst a (l ++ l') = l ++ serveFirst a l' := by
  induction l with
  | nil => rfl
  | cons x l ih =>
    have hx : x ≠ (a,.waiting) := fun heq => h (heq ▸ List.mem_cons_self)
    rw [List.cons_append,serveFirst,if_neg hx,ih (fun hmem => h (List.mem_cons_of_mem x hmem))]
    rfl

theorem Arranged.enter {l : List (α × Fate)} {served waiting : List α} (h : Arranged l served waiting)
    {e : QueueEvent α}
    (he : e.Serves waiting) : Arranged (Library.enter l e) (served ++ servings [e]) (e.after waiting) := by
  unfold Arranged at h ⊢
  cases e with
  | arrive a =>
    simp only [Library.enter,QueueEvent.after,servings,List.append_nil]
    rw [List.filter_append,h,List.map_append]
    simp
  | cancel a =>
    rw [filter_cancel,h,List.filter_append]
    simp only [QueueEvent.after,servings,List.append_nil]
    congr 1
    · apply List.filter_eq_self.mpr
      intro x hx
      obtain ⟨b,-,rfl⟩ := List.mem_map.mp hx
      simp
    · rw [List.filter_map]
      refine congrArg (List.map _) ?_
      apply List.filter_congr
      intro b _
      simp
  | serve a =>
    cases waiting with
    | nil => cases he
    | cons b waiting =>
      obtain rfl : b = a := Option.some.inj he
      have hserved : (b,Fate.waiting) ∉ served.map (·,Fate.served) := by
        intro hmem
        obtain ⟨c,-,hc⟩ := List.mem_map.mp hmem
        cases hc
      simp only [Library.enter]
      rw [filter_serveFirst,h,serveFirst_append hserved]
      simp [serveFirst,servings,QueueEvent.after]

theorem QueueHistory.arranged {h : List (QueueEvent α)} {q : List α} (hq : QueueHistory h q) :
    Arranged (ledger h) (servings h) q := by
  induction hq with
  | nil => rfl
  | snoc e _ he ih =>
    rw [ledger_append,servings_append]
    exact ih.enter he

/-- What was served, and behind it what waits, is what arrived without being cancelled. -/
theorem QueueHistory.kept {h : List (QueueEvent α)} {q : List α} (hq : QueueHistory h q) :
    Library.kept h = servings h ++ q := by
  have harr := hq.arranged
  unfold Arranged at harr
  rw [Library.kept,harr]
  simp [Function.comp_def]

/-- Every serving serves an arrival of its own. -/
theorem QueueHistory.served {h : List (QueueEvent α)} {q : List α} (hq : QueueHistory h q) :
    withFate .served h = servings h := by
  have harr := hq.arranged
  unfold Arranged at harr
  rw [withFate,filter_fate (by decide),harr,List.filter_append]
  simp [List.filter_map,Function.comp_def]

theorem QueueHistory.waiting {h : List (QueueEvent α)} {q : List α} (hq : QueueHistory h q) :
    withFate .waiting h = q := by
  have harr := hq.arranged
  unfold Arranged at harr
  rw [withFate,filter_fate (by decide),harr,List.filter_append]
  simp [List.filter_map,Function.comp_def]

end Queue

end Unworkable.Library
