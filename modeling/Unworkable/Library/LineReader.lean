import Mathlib.Data.List.Basic

/-! # Readers of lines

A text that grows is read line by line, each as soon as its separator has come. What a reader has made of it is
the state after its complete lines, and the rest that waits for a separator. Appending to the text is appending to the
rest until a separator is in it, so what is read later depends on the text before only through these two.
-/
namespace Unworkable.Library

variable {α σ : Type*}

/-- After `text` a reader that started in `init` is in state `s`, and `rest` waits for a separator. -/
inductive Follows (sep : α) (f : σ → List α → Option σ) (init : σ) : List α → σ → List α → Prop
  | nil : Follows sep f init [] init []
  | part {text rest more : List α} {s : σ} (h : Follows sep f init text s rest) (hmore : sep ∉ more) :
      Follows sep f init (text ++ more) s (rest ++ more)
  | line {text rest l : List α} {s s' : σ} (h : Follows sep f init text s rest) (hl : sep ∉ l)
      (hs : f s (rest ++ l) = some s') : Follows sep f init (text ++ (l ++ [sep])) s' []

namespace Follows
variable {sep : α} {f : σ → List α → Option σ} {init s : σ} {text rest : List α}

theorem not_mem (h : Follows sep f init text s rest) : sep ∉ rest := by
  induction h with
  | nil => exact List.not_mem_nil
  | part _ hmore ih => exact fun hmem => (List.mem_append.mp hmem).elim ih hmore
  | line => exact List.not_mem_nil

/-- The lines behind a state. -/
theorem exists_lines (h : Follows sep f init text s rest) : ∃ ls : List (List α), (∀ l ∈ ls, sep ∉ l) ∧
    text = ls.flatMap (· ++ [sep]) ++ rest ∧ ls.foldlM f init = some s := by
  induction h with
  | nil => exact ⟨[],nofun,rfl,rfl⟩
  | part _ _ ih =>
    obtain ⟨ls,hls,rfl,hfold⟩ := ih
    exact ⟨ls,hls,List.append_assoc _ _ _,hfold⟩
  | @line text rest l s s' h hl hs ih =>
    obtain ⟨ls,hls,rfl,hfold⟩ := ih
    refine ⟨ls ++ [rest ++ l],?_,?_,?_⟩
    · intro k hk
      rcases List.mem_append.mp hk with hk | hk
      · exact hls k hk
      · rw [List.mem_singleton.mp hk]
        exact fun hmem => (List.mem_append.mp hmem).elim h.not_mem hl
    · simp
    · rw [List.foldlM_append,hfold,Option.bind_eq_bind,Option.bind_some,List.foldlM_cons,hs]
      rfl

/-- What a state says about the text split at its separators. -/
theorem splitOn_eq [BEq α] [LawfulBEq α] (h : Follows sep f init text s rest) : ∃ ls : List (List α),
    text.splitOn sep = ls ++ [rest] ∧ ls.foldlM f init = some s := by
  obtain ⟨ls,hls,rfl,hfold⟩ := h.exists_lines
  refine ⟨ls,?_,hfold⟩
  have hrest := h.not_mem
  clear h hfold
  induction ls with
  | nil => exact List.splitOn_eq_singleton hrest
  | cons l ls ih =>
    have hl := hls l List.mem_cons_self
    rw [List.flatMap_cons,List.append_assoc,List.append_assoc,List.singleton_append,
      List.splitOn_append_cons_self_of_not_mem hl,
      ih fun k hk => hls k (List.mem_cons_of_mem l hk)]
    rfl

end Follows

end Unworkable.Library
