import Unworkable.Library.Words
import Mathlib.Algebra.BigOperators.Group.List.Basic

/-! # Fallible steps and loops over them

A fallible computation is a value of `Except`. A loop whose body keeps a reflexive and
transitive relation keeps it as a whole, and so does a loop whose body cannot fail.
-/
namespace Unworkable.Library

universe u

section Bind
variable {ε : Type*} {α β : Type u} {x : Except ε α} {f : α → Except ε β}

theorem bind_ok {b : β} : (x >>= f) = .ok b ↔ ∃ a, x = .ok a ∧ f a = .ok b := by
  cases x with
  | error e => simp [Bind.bind,Except.bind]
  | ok a => simp [Bind.bind,Except.bind]

theorem map_ok {g : α → β} {b : β} : x.map g = .ok b ↔ ∃ a, x = .ok a ∧ g a = b := by
  cases x <;> simp [Except.map]

@[simp] theorem ok_bind (a : α) (f : α → Except ε β) : ((.ok a : Except ε α) >>= f) = f a := rfl

/-- Two computations that go on alike from what the first part ends in. -/
theorem bind_congr_ok {g : α → Except ε β} (h : ∀ a, x = .ok a → f a = g a) : (x >>= f) = (x >>= g) := by
  cases x with
  | error e => rfl
  | ok a => exact h a rfl

@[simp] theorem ite_ok {c : Prop} [Decidable c] {a b r : α} :
    (if c then (.ok a : Except ε α) else .ok b) = .ok r ↔ (if c then a else b) = r := by
  split <;> simp

/-- A computation that computes to a value with some property. -/
theorem exists_ok {P : α → Bool} (h : x.toOption.map P = some true) : ∃ a, x = .ok a ∧ P a = true := by
  cases x with
  | error e => cases h
  | ok a => exact ⟨a,rfl,Option.some.inj h⟩

theorem ok_of_toOption {a : α} (h : x.toOption = some a) : x = .ok a := by
  cases x with
  | error e => cases h
  | ok b => exact congrArg Except.ok (Option.some.inj h)

end Bind

section Avoids
variable {ε : Type*} {α β : Type u}

/-- A computation does not end in the error `e`. -/
def Avoids (e : ε) (x : Except ε α) : Prop := x ≠ .error e

variable {e : ε}

@[simp] theorem avoids_ok (a : α) : Avoids e (.ok a) := nofun

@[simp] theorem avoids_error {e' : ε} : Avoids e (.error e' : Except ε α) ↔ e' ≠ e := by simp [Avoids]

theorem Avoids.bind {x : Except ε α} {f : α → Except ε β} (hx : Avoids e x) (hf : ∀ a, x = .ok a → Avoids e (f a)) :
    Avoids e (x >>= f) := by
  cases x with
  | error e' =>
    rw [avoids_error] at hx
    exact avoids_error.mpr hx
  | ok a => exact hf a rfl

theorem Avoids.ite {c : Prop} [Decidable c] {x y : Except ε α} (hx : Avoids e x) (hy : Avoids e y) :
    Avoids e (if c then x else y) := by
  split
  · exact hx
  · exact hy

theorem Avoids.map {x : Except ε α} (hx : Avoids e x) (f : α → β) : Avoids e (x.map f) := by
  cases x with
  | error e' => simpa [Except.map] using hx
  | ok a => exact avoids_ok _

theorem Avoids.mapM {γ : Type*} {f : γ → Except ε α} (hf : ∀ c, Avoids e (f c)) (l : List γ) : Avoids e (l.mapM f) := by
  induction l with
  | nil => exact avoids_ok []
  | cons c l ih =>
    rw [List.mapM_cons]
    exact (hf c).bind (fun _ _ => ih.bind (fun _ _ => avoids_ok _))

/-- A loop avoids an error if its turns do while some invariant holds. -/
theorem Avoids.foldlM {σ : Type u} {γ : Type*} {P : σ → Prop} {f : σ → γ → Except ε σ} (l : List γ)
    (hf : ∀ s, ∀ a ∈ l, P s → Avoids e (f s a)) (hP : ∀ s s', ∀ a ∈ l, P s → f s a = .ok s' → P s') {s : σ} (hs : P s) :
    Avoids e (l.foldlM f s) := by
  induction l generalizing s with
  | nil => exact avoids_ok s
  | cons a l ih =>
    rw [List.foldlM_cons]
    refine (hf s a List.mem_cons_self hs).bind ?_
    intro t ht
    exact ih (fun s b hb => hf s b (List.mem_cons_of_mem a hb)) (fun s s' b hb => hP s s' b (List.mem_cons_of_mem a hb))
      (hP s t a List.mem_cons_self hs ht)

end Avoids

section Loops
variable {ε σ α : Type*} {R : σ → σ → Prop}

/-- The results of a fallible map are those of a function that its turns agree with. -/
theorem mapM_ok_eq_map {β : Type u} {f : α → Except ε β} {g : α → β} {l : List α} {bs : List β} (h : l.mapM f = .ok bs)
    (hf : ∀ a b, f a = .ok b → b = g a) : bs = l.map g := by
  induction l generalizing bs with
  | nil =>
    cases h
    rfl
  | cons a l ih =>
    rw [List.mapM_cons] at h
    obtain ⟨b,hb,h⟩ := bind_ok.mp h
    obtain ⟨cs,hcs,h⟩ := bind_ok.mp h
    cases h
    rw [List.map_cons,hf a b hb,ih hcs]

/-- The results of a fallible map are those of its turns. -/
theorem mem_mapM {β : Type u} {f : α → Except ε β} {l : List α} {bs : List β} (h : l.mapM f = .ok bs) :
    (∀ a ∈ l, ∃ b ∈ bs, f a = .ok b) ∧ ∀ b ∈ bs, ∃ a ∈ l, f a = .ok b := by
  induction l generalizing bs with
  | nil =>
    cases h
    exact ⟨List.forall_mem_nil _,List.forall_mem_nil _⟩
  | cons a l ih =>
    rw [List.mapM_cons] at h
    obtain ⟨b,hb,h⟩ := bind_ok.mp h
    obtain ⟨cs,hcs,h⟩ := bind_ok.mp h
    cases h
    obtain ⟨hto,hof⟩ := ih hcs
    constructor
    · rw [List.forall_mem_cons]
      refine ⟨⟨b,List.mem_cons_self,hb⟩,?_⟩
      intro c hc
      obtain ⟨d,hd,hf⟩ := hto c hc
      exact ⟨d,List.mem_cons_of_mem b hd,hf⟩
    · rw [List.forall_mem_cons]
      refine ⟨⟨a,List.mem_cons_self,hb⟩,?_⟩
      intro d hd
      obtain ⟨c,hc,hf⟩ := hof d hd
      exact ⟨c,List.mem_cons_of_mem a hc,hf⟩

/-- A fallible loop keeps what every turn of it keeps. -/
theorem foldlM_rel (hrefl : ∀ s, R s s) (htrans : ∀ {a b c}, R a b → R b c → R a c)
    {f : σ → α → Except ε σ} (l : List α) (hf : ∀ s s', ∀ a ∈ l, f s a = .ok s' → R s s') {s s' : σ}
    (h : l.foldlM f s = .ok s') : R s s' := by
  induction l generalizing s with
  | nil =>
    cases h
    exact hrefl _
  | cons a l ih =>
    rw [List.foldlM_cons,bind_ok] at h
    obtain ⟨t,ht,h⟩ := h
    exact htrans (hf s t a List.mem_cons_self ht) (ih (fun s s' b hb => hf s s' b (List.mem_cons_of_mem a hb)) h)

/-- A loop keeps what every turn of it keeps. -/
theorem foldl_rel (hrefl : ∀ s, R s s) (htrans : ∀ {a b c}, R a b → R b c → R a c)
    {f : σ → α → σ} (l : List α) (hf : ∀ s, ∀ a ∈ l, R s (f s a)) (s : σ) : R s (l.foldl f s) := by
  induction l generalizing s with
  | nil => exact hrefl s
  | cons a l ih =>
    exact htrans (hf s a List.mem_cons_self) (ih (fun s b hb => hf s b (List.mem_cons_of_mem a hb)) (f s a))

/-- A loop each turn of which adds its own part to what the turns before it gathered. -/
theorem foldlM_gathers {β : Type*} {R : σ → Set β → Prop} {f : σ → α → Except ε σ} (g : α → Set β) (l : List α)
    (hf : ∀ a ∈ l, ∀ s b, R s b → ∃ s', f s a = .ok s' ∧ R s' (b ∪ g a)) {s : σ} {b : Set β} (h : R s b) :
    ∃ s', l.foldlM f s = .ok s' ∧ R s' (b ∪ {x | ∃ a ∈ l, x ∈ g a}) := by
  induction l generalizing s b with
  | nil =>
    refine ⟨s,rfl,?_⟩
    simpa using h
  | cons a l ih =>
    obtain ⟨t,ht,hR⟩ := hf a List.mem_cons_self s b h
    obtain ⟨s',hs',hR'⟩ := ih (fun c hc => hf c (List.mem_cons_of_mem a hc)) hR
    refine ⟨s',by rw [List.foldlM_cons,ht]; exact hs',?_⟩
    have hset : b ∪ {x | ∃ c ∈ a :: l, x ∈ g c} = b ∪ g a ∪ {x | ∃ c ∈ l, x ∈ g c} := by
      ext x
      simp [or_assoc]
    rw [hset]
    exact hR'

theorem foldl_gathers {β : Type*} {R : σ → Set β → Prop} {f : σ → α → σ} (g : α → Set β) (l : List α)
    (hf : ∀ a ∈ l, ∀ s b, R s b → R (f s a) (b ∪ g a)) {s : σ} {b : Set β} (h : R s b) :
    R (l.foldl f s) (b ∪ {x | ∃ a ∈ l, x ∈ g a}) := by
  induction l generalizing s b with
  | nil => simpa using h
  | cons a l ih =>
    have hR := ih (fun c hc => hf c (List.mem_cons_of_mem a hc)) (hf a List.mem_cons_self s b h)
    have hset : b ∪ {x | ∃ c ∈ a :: l, x ∈ g c} = b ∪ g a ∪ {x | ∃ c ∈ l, x ∈ g c} := by
      ext x
      simp [or_assoc]
    rw [hset]
    exact hR

/-- A loop over a list, with an invariant that knows which turns are still to come. -/
theorem foldlM_rest {P : List α → σ → Prop} {f : σ → α → Except ε σ}
    (hf : ∀ a rest s s', P (a :: rest) s → f s a = .ok s' → P rest s') {l : List α} {s s' : σ} (hs : P l s)
    (h : l.foldlM f s = .ok s') : P [] s' := by
  induction l generalizing s with
  | nil =>
    cases h
    exact hs
  | cons a l ih =>
    rw [List.foldlM_cons,bind_ok] at h
    obtain ⟨t,ht,h⟩ := h
    exact ih (hf a l s t hs ht) h

theorem foldl_rest {P : List α → σ → Prop} {f : σ → α → σ} (hf : ∀ a rest s, P (a :: rest) s → P rest (f s a))
    {l : List α} {s : σ} (hs : P l s) : P [] (l.foldl f s) := by
  induction l generalizing s with
  | nil => exact hs
  | cons a l ih => exact ih (hf a l s hs)

/-- A loop whose turns do what is planned, where they do not fail. -/
theorem foldlM_eq_foldl {f : σ → α → Except ε σ} {g : σ → α → σ} (hf : ∀ s a t, f s a = .ok t → t = g s a) {l : List α}
    {s t : σ} (h : l.foldlM f s = .ok t) : t = l.foldl g s := by
  induction l generalizing s with
  | nil =>
    cases h
    rfl
  | cons a l ih =>
    rw [List.foldlM_cons] at h
    obtain ⟨u,hu,h⟩ := bind_ok.mp h
    rw [List.foldl_cons,← hf s a u hu]
    exact ih h

/-- A fallible loop over `0 .. n-1` keeps an invariant that may speak about the turns done. -/
theorem foldlM_range {P : ℕ → σ → Prop} {f : σ → ℕ → Except ε σ} {n : ℕ}
    (hf : ∀ i < n, ∀ s s', P i s → f s i = .ok s' → P (i + 1) s') {s s' : σ} (hs : P 0 s)
    (h : (List.range n).foldlM f s = .ok s') : P n s' := by
  induction n generalizing s' with
  | zero =>
    cases h
    exact hs
  | succ n ih =>
    rw [List.range_succ,List.foldlM_append,bind_ok] at h
    obtain ⟨t,ht,h⟩ := h
    rw [List.foldlM_cons,bind_ok] at h
    obtain ⟨u,hu,h⟩ := h
    cases h
    exact hf n (Nat.lt_succ_self n) t s' (ih (fun i hi => hf i (Nat.lt_succ_of_lt hi)) ht) hu

/-- A fallible loop over `0 .. n-1` whose turns succeed while an invariant holds succeeds. -/
theorem foldlM_range_ok {P : ℕ → σ → Prop} {f : σ → ℕ → Except ε σ} {n : ℕ}
    (hf : ∀ i < n, ∀ s, P i s → ∃ s', f s i = .ok s' ∧ P (i + 1) s') {s : σ} (hs : P 0 s) :
    ∃ s', (List.range n).foldlM f s = .ok s' ∧ P n s' := by
  induction n with
  | zero => exact ⟨s,rfl,hs⟩
  | succ n ih =>
    obtain ⟨t,ht,hP⟩ := ih (fun i hi => hf i (Nat.lt_succ_of_lt hi))
    obtain ⟨u,hu,hQ⟩ := hf n (Nat.lt_succ_self n) t hP
    refine ⟨u,?_,hQ⟩
    rw [List.range_succ,List.foldlM_append,ht,ok_bind,List.foldlM_cons,hu]
    rfl

end Loops

section Measure
variable {ε σ α : Type*} {P : σ → Prop} {m : σ → ℕ} {k : α → ℕ}

/-- A fallible loop keeps an invariant and raises a measure by at most what its turns add. -/
theorem foldlM_measure {f : σ → α → Except ε σ} (l : List α)
    (hf : ∀ s s', ∀ a ∈ l, P s → f s a = .ok s' → P s' ∧ m s' ≤ m s + k a) {s s' : σ} (hs : P s)
    (h : l.foldlM f s = .ok s') : P s' ∧ m s' ≤ m s + (l.map k).sum := by
  induction l generalizing s with
  | nil =>
    cases h
    exact ⟨hs,le_refl _⟩
  | cons a l ih =>
    rw [List.foldlM_cons,bind_ok] at h
    obtain ⟨t,ht,h⟩ := h
    obtain ⟨hP,hm⟩ := hf s t a List.mem_cons_self hs ht
    obtain ⟨hP',hm'⟩ := ih (fun s s' b hb => hf s s' b (List.mem_cons_of_mem a hb)) hP h
    refine ⟨hP',?_⟩
    rw [List.map_cons,List.sum_cons]
    omega

/-- A loop keeps an invariant and raises a measure by at most what its turns add. -/
theorem foldl_measure {f : σ → α → σ} (l : List α) (hf : ∀ s, ∀ a ∈ l, P s → P (f s a) ∧ m (f s a) ≤ m s + k a)
    {s : σ} (hs : P s) : P (l.foldl f s) ∧ m (l.foldl f s) ≤ m s + (l.map k).sum := by
  induction l generalizing s with
  | nil => exact ⟨hs,le_refl _⟩
  | cons a l ih =>
    obtain ⟨hP,hm⟩ := hf s a List.mem_cons_self hs
    obtain ⟨hP',hm'⟩ := ih (fun s b hb => hf s b (List.mem_cons_of_mem a hb)) hP
    refine ⟨hP',?_⟩
    rw [List.foldl_cons,List.map_cons,List.sum_cons]
    omega

/-- In a list without repetitions one entry weighs at most once. -/
theorem sum_indicator_le [DecidableEq α] {l : List α} (hl : l.Nodup) (a : α) (n : ℕ) :
    (l.map (fun b => if a = b then n else 0)).sum ≤ n := by
  induction l with
  | nil => exact Nat.zero_le n
  | cons b l ih =>
    obtain ⟨hb,hl⟩ := List.nodup_cons.mp hl
    rw [List.map_cons,List.sum_cons]
    by_cases hab : a = b
    · subst hab
      have hzero : (l.map (fun b => if a = b then n else 0)).sum = 0 := by
        refine List.sum_eq_zero ?_
        intro x hx
        obtain ⟨b,hb',rfl⟩ := List.mem_map.mp hx
        rw [if_neg]
        rintro rfl
        exact hb hb'
      rw [hzero,if_pos rfl]
      exact le_refl n
    · rw [if_neg hab,Nat.zero_add]
      exact ih hl

end Measure

end Unworkable.Library
