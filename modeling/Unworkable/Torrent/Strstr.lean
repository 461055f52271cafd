import Unworkable.Torrent.State

/-! # Searching a C string

`strstr` on bytes that may lack a terminator: what it finds, and when what lies behind the
bytes does not matter.
-/
namespace Unworkable
open Library

/-- `strstr`, from the match on. It stops at the terminator, or leaves the allocation. -/
def strstr (needle : Bytes) : Bytes → Except Halt (Option Bytes)
  | [] => .error .wild
  | c :: cs =>
    if needle.isPrefixOf (c :: cs) then .ok (some (c :: cs))
    else if c = 0 then .ok none
    else strstr needle cs

section Search
variable {needle xs : Bytes}

theorem isPrefixOf_append (hshort : needle.length ≤ xs.length) (m : Bytes) :
    needle.isPrefixOf (xs ++ m) = true ↔ needle <+: xs := by
  rw [List.isPrefixOf_iff_prefix]
  constructor
  · exact fun h => List.prefix_of_prefix_length_le h (List.prefix_append xs m) hshort
  · exact fun h => h.trans (List.prefix_append xs m)

theorem strstr_here (hneedle : needle ≠ []) (h : needle <+: xs) : strstr needle xs = .ok (some xs) := by
  cases xs with
  | nil => exact absurd (List.prefix_nil.mp h) hneedle
  | cons c cs => exact if_pos (List.isPrefixOf_iff_prefix.mpr h)

/-- The text is not cut off at the end of bytes that settle a search. -/
theorem not_cut (hzero : 0 ∉ needle) (h : 0 ∈ xs ∨ needle <:+: xs) {m : Bytes} (hpre : needle <+: xs ++ m) :
    needle <+: xs := by
  by_cases hshort : needle.length ≤ xs.length
  · exact List.prefix_of_prefix_length_le hpre (List.prefix_append xs m) hshort
  · exfalso
    have hbegin : xs <+: needle := List.prefix_of_prefix_length_le (List.prefix_append xs m) hpre (by omega)
    rcases h with hmem | hin
    · exact hzero (hbegin.subset hmem)
    · exact hshort hin.length_le

/-- A search that meets a terminator or the text in the bytes given does not look further. -/
theorem strstr_settled (hneedle : needle ≠ []) (hzero : 0 ∉ needle) (h : 0 ∈ xs ∨ needle <:+: xs) :
    (∀ m, strstr needle (xs ++ m) = .ok none) ∨ ∃ head body, xs = head ++ needle ++ body ∧
      (∀ head' rest, xs = head' ++ needle ++ rest → head.length ≤ head'.length) ∧
        ∀ m, strstr needle (xs ++ m) = .ok (some (needle ++ (body ++ m))) := by
  induction xs with
  | nil =>
    rcases h with hmem | hin
    · cases hmem
    · exact absurd (List.infix_nil.mp hin) hneedle
  | cons c cs ih =>
    by_cases hhere : needle <+: c :: cs
    · obtain ⟨body,hbody⟩ := hhere
      refine .inr ⟨[],body,hbody.symm,fun _ _ _ => Nat.zero_le _,?_⟩
      intro m
      rw [← hbody,List.append_assoc]
      exact strstr_here hneedle (List.prefix_append needle (body ++ m))
    have hskip : ∀ m, ¬ needle.isPrefixOf (c :: (cs ++ m)) = true := by
      intro m hpre
      exact hhere (not_cut hzero h (m := m) (List.isPrefixOf_iff_prefix.mp hpre))
    by_cases hc : c = 0
    · left
      intro m
      rw [List.cons_append,strstr,if_neg (hskip m),if_pos hc]
    have hrest : 0 ∈ cs ∨ needle <:+: cs := by
      rcases h with hmem | hin
      · exact .inl ((List.mem_cons.mp hmem).resolve_left (fun h => hc h.symm))
      · exact .inr ((List.infix_cons_iff.mp hin).resolve_left hhere)
    have hnext : ∀ m, strstr needle (c :: cs ++ m) = strstr needle (cs ++ m) := by
      intro m
      rw [List.cons_append,strstr,if_neg (hskip m),if_neg hc]
    rcases ih hrest with hnone | ⟨head,body,hcs,hfirst,hfound⟩
    · exact .inl fun m => (hnext m).trans (hnone m)
    · refine .inr ⟨c :: head,body,by rw [hcs]; rfl,?_,fun m => (hnext m).trans (hfound m)⟩
      intro head' rest heq
      cases head' with
      | nil => exact absurd ⟨rest,heq.symm⟩ hhere
      | cons c' head' =>
        rw [List.cons_append,List.cons_append,List.cons.injEq] at heq
        exact Nat.succ_le_succ (hfirst head' rest heq.2)

/-- Bytes without a terminator and without the text are walked to their end, up to a beginning of the text. -/
theorem strstr_skip {c : UInt8} {cs m : Bytes} (hc : 0 ∉ c :: cs) (hnone : ¬ needle <:+: c :: cs) :
    needle.length ≤ (c :: cs).length ∨ ¬ needle <+: c :: cs ++ m → strstr needle (c :: cs ++ m) =
      strstr needle (cs ++ m) := by
  intro h
  have hskip : ¬ needle.isPrefixOf (c :: (cs ++ m)) = true := by
    intro hpre
    rcases h with hshort | hno
    · exact hnone ((isPrefixOf_append hshort m).mp hpre).isInfix
    · exact hno (List.isPrefixOf_iff_prefix.mp hpre)
  rw [List.cons_append,strstr,if_neg hskip,if_neg (fun h => hc (by rw [h]; exact List.mem_cons_self))]

/-- If the text itself comes next, it finds an occurrence that ends behind the bytes given. -/
theorem strstr_behind (hneedle : needle ≠ []) (hxs : 0 ∉ xs) (hnone : ¬ needle <:+: xs) (m : Bytes) :
    ∃ found, strstr needle (xs ++ (needle ++ m)) = .ok (some found) ∧ found.length < 2 * needle.length + m.length := by
  have hpos := List.length_pos_iff.mpr hneedle
  induction xs with
  | nil =>
    exact ⟨needle ++ m,strstr_here hneedle (List.prefix_append needle m),by rw [List.length_append]; omega⟩
  | cons c cs ih =>
    by_cases hgo : needle.length ≤ (c :: cs).length ∨ ¬ needle <+: c :: cs ++ (needle ++ m)
    · rw [strstr_skip hxs hnone hgo]
      exact ih (fun h => hxs (List.mem_cons_of_mem c h)) (fun h => hnone (h.trans (List.suffix_cons c cs).isInfix))
    · rw [not_or,not_not] at hgo
      exact ⟨c :: cs ++ (needle ++ m),strstr_here hneedle hgo.2,by rw [List.length_append,List.length_append]; omega⟩

/-- A text whose first character comes only once does not overlap itself. -/
theorem prefix_of_prefix_append {c : UInt8} {t m : Bytes} (hc : c ∉ t) (hxs : xs ≠ [])
    (h : c :: t <+: xs ++ (c :: t ++ m)) :
    c :: t <+: xs := by
  rcases Nat.lt_or_ge xs.length (c :: t).length with hlt | hle
  · exfalso
    have hbegin : xs <+: c :: t := List.prefix_of_prefix_length_le (List.prefix_append xs _) h (le_of_lt hlt)
    obtain ⟨r,hr⟩ := hbegin
    obtain ⟨b,xs,rfl⟩ := List.exists_cons_of_ne_nil hxs
    rw [← hr,List.prefix_append_right_inj] at h
    cases r with
    | nil =>
      rw [← hr,List.append_nil] at hlt
      exact lt_irrefl _ hlt
    | cons d r =>
      have hd : d = c := (List.cons_prefix_cons.mp (h.trans (by rw [hr]; exact List.prefix_refl _))).1
      rw [List.cons_append] at hr
      apply hc
      rw [← (List.cons.inj hr).2,← hd]
      exact List.mem_append_right xs List.mem_cons_self
  · exact List.prefix_of_prefix_length_le h (List.prefix_append xs _) hle

/-- It finds a given occurrence of such a text if nothing in front of it stops it. -/
theorem strstr_first {c : UInt8} {t m : Bytes} (hc : c ∉ t) :
    strstr (c :: t) (xs ++ (c :: t ++ m)) = .ok (some (c :: t ++ m)) ↔ 0 ∉ xs ∧ ¬ c :: t <:+: xs := by
  induction xs with
  | nil =>
    refine ⟨fun _ => ⟨List.not_mem_nil,fun h => List.cons_ne_nil c t (List.infix_nil.mp h)⟩,fun _ => ?_⟩
    exact strstr_here (List.cons_ne_nil c t) (List.prefix_append (c :: t) m)
  | cons b bs ih =>
    by_cases hhere : c :: t <+: b :: bs ++ (c :: t ++ m)
    · have hpre := prefix_of_prefix_append hc (List.cons_ne_nil b bs) hhere
      refine ⟨fun h => ?_,fun h => absurd hpre.isInfix h.2⟩
      rw [strstr_here (List.cons_ne_nil c t) hhere] at h
      have hlen := congrArg List.length (Option.some.inj (Except.ok.inj h))
      simp only [List.length_append,List.length_cons] at hlen
      omega
    · have hskip : ¬ (c :: t).isPrefixOf (b :: (bs ++ (c :: t ++ m))) = true :=
        fun h => hhere (List.isPrefixOf_iff_prefix.mp h)
      have hnot : ¬ c :: t <+: b :: bs := fun h => hhere (h.trans (List.prefix_append _ _))
      rw [List.cons_append,strstr,if_neg hskip,List.infix_cons_iff,List.mem_cons]
      by_cases hb : b = 0
      · rw [if_pos hb]
        exact ⟨nofun,fun h => absurd (.inl hb.symm) h.1⟩
      · rw [if_neg hb,ih]
        constructor
        · rintro ⟨hzero,hin⟩
          exact ⟨fun h => h.elim (fun h => hb h.symm) hzero,fun h => h.elim hnot hin⟩
        · rintro ⟨hzero,hin⟩
          exact ⟨fun h => hzero (.inr h),fun h => hin (.inr h)⟩

theorem strstr_suffix {found : Bytes} (h : strstr needle xs = .ok (some found)) : found <:+ xs ∧ needle <+: found := by
  induction xs with
  | nil => cases h
  | cons c cs ih =>
    unfold strstr at h
    split at h
    · rename_i hhere
      cases h
      exact ⟨List.suffix_refl _,List.isPrefixOf_iff_prefix.mp hhere⟩
    · split at h
      · cases h
      · exact ⟨(ih h).1.trans (List.suffix_cons c cs),(ih h).2⟩

/-- It finds something exactly if the text is in front of the terminator. -/
theorem strstr_some_iff (hneedle : needle ≠ []) (hzero : 0 ∉ needle) :
    (∃ found, strstr needle xs = .ok (some found)) ↔ needle <:+: xs.takeWhile (· ≠ 0) := by
  have hnonzero : ∀ c ∈ needle, decide (c ≠ 0) = true := fun c hc => by simpa using ne_of_mem_of_not_mem hc hzero
  induction xs with
  | nil =>
    constructor
    · rintro ⟨found,h⟩
      cases h
    · exact fun h => absurd (List.infix_nil.mp h) hneedle
  | cons c cs ih =>
    by_cases hhere : needle <+: c :: cs
    · refine iff_of_true ⟨_,strstr_here hneedle hhere⟩ ?_
      obtain ⟨rest,hrest⟩ := hhere
      rw [← hrest,List.takeWhile_append_of_pos hnonzero]
      exact (List.prefix_append _ _).isInfix
    rw [strstr,if_neg (fun h => hhere (List.isPrefixOf_iff_prefix.mp h))]
    by_cases hc : c = 0
    · rw [if_pos hc,hc]
      constructor
      · rintro ⟨found,h⟩
        cases h
      · exact fun h => absurd (List.infix_nil.mp h) hneedle
    · rw [if_neg hc,List.takeWhile_cons_of_pos (by simpa using hc),List.infix_cons_iff]
      refine ih.trans ?_
      constructor
      · exact .inr
      · rintro (hpre | hin)
        · exact absurd (hpre.trans (List.cons_prefix_cons.mpr ⟨rfl,List.takeWhile_prefix _⟩)) hhere
        · exact hin

end Search

end Unworkable
