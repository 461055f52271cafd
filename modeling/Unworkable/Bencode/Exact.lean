import Unworkable.Bencode.Accepts

/-! # Where the parser accepts exactly bencode

The parser refuses some bencode and accepts more than bencode: it takes exactly the lenient
spellings, and of bencode those that are not too much for it.
-/
namespace Unworkable
open Library

mutual
def Spelled.Modest : Spelled → Prop
  | .int _ text => ∃ n, readSigned text = some n ∧ -9223372036854775808 ≤ n ∧ n ≤ 9223372036854775807
  | .str s => s.content.length < 9223372036854775808
  | .list _ items => items ≠ [] ∧ ModestAll items
  | .dict _ entries => entries ≠ [] ∧ ModestEntries entries

def ModestAll : List Spelled → Prop
  | [] => True
  | x :: xs => x.Modest ∧ ModestAll xs

def ModestEntries : List (SpelledStr × Spelled) → Prop
  | [] => True
  | (k,x) :: es => k.content.length < 9223372036854775808 ∧ x.Modest ∧ ModestEntries es
end

mutual
def Spelled.Nests : ℕ → Spelled → Prop
  | _,.int _ _ => True
  | _,.str _ => True
  | 0,.list _ _ => False
  | d + 1,.list _ items => NestAll d items
  | 0,.dict _ _ => False
  | d + 1,.dict _ entries => NestEntries d entries

def NestAll (d : ℕ) : List Spelled → Prop
  | [] => True
  | x :: xs => x.Nests d ∧ NestAll d xs

def NestEntries (d : ℕ) : List (SpelledStr × Spelled) → Prop
  | [] => True
  | (_,x) :: es => x.Nests d ∧ NestEntries d es
end

def IsBencode (s : Bytes) : Prop := ∃ xs, s = bytesAll xs ∧ FormedAll xs

/-- The lists and dictionaries of bencode nest at most 15 deep. -/
def Shallow (s : Bytes) : Prop := ∀ xs, s = bytesAll xs → FormedAll xs → NestAll 15 xs

/-- Bencode that is not too much for the parser. -/
def ModestBencode (s : Bytes) : Prop := ∃ xs, s = bytesAll xs ∧ FormedAll xs ∧ ModestAll xs

section Modest
variable {text : Bytes}

theorem IsDecimal.readSigned (h : IsDecimal text) : ∃ n, readSigned text = some n := by
  obtain ⟨ds,n,hds,rfl | rfl⟩ := h
  · exact ⟨_,readSigned_of_readDecimal hds⟩
  · refine ⟨-n,?_⟩
    show (readDecimal ds).map _ = _
    rw [hds]
    rfl

theorem IsDecimal.isSome_numberOf (h : IsDecimal text) : (numberOf text).isSome ↔
    ∃ n, Library.readSigned text = some n ∧ -9223372036854775808 ≤ n ∧ n ≤ 9223372036854775807 := by
  obtain ⟨n,hn⟩ := h.readSigned
  rw [numberOf_eq (fun c hc => h.mem hc) hn,hn]
  split
  · rename_i hrange
    exact ⟨fun _ => ⟨n,rfl,hrange⟩,fun _ => rfl⟩
  · rename_i hrange
    refine ⟨fun h => (Bool.false_ne_true h).elim,?_⟩
    rintro ⟨_,⟨⟩,h⟩
    exact absurd h hrange

mutual
/-- What the parser reads of bencode. -/
theorem Spelled.Formed.ok_iff (x : Spelled) (d : ℕ) (h : x.Formed) : x.Ok d ↔ x.Nests d ∧ x.Modest := by
  cases x with
  | int junk text =>
    obtain ⟨rfl,htext⟩ := h
    refine Iff.trans ?_ (htext.isSome_numberOf.trans (and_iff_right trivial).symm)
    exact ⟨fun hok => hok.2.2,fun hn => ⟨List.forall_mem_nil _,htext.plain,hn⟩⟩
  | str s => exact (SpelledStr.Formed.later_iff h).trans (and_iff_right trivial).symm
  | list junk items =>
    obtain ⟨rfl,hitems⟩ := h
    cases d with
    | zero => exact ⟨False.elim,fun h => h.1.elim⟩
    | succ d =>
      have hall := okAll_iff items d hitems
      constructor
      · rintro ⟨-,hne,hok⟩
        exact ⟨(hall.mp hok).1,hne,(hall.mp hok).2⟩
      · rintro ⟨hnest,hne,hmodest⟩
        exact ⟨List.forall_mem_nil _,hne,hall.mpr ⟨hnest,hmodest⟩⟩
  | dict junk entries =>
    obtain ⟨rfl,hentries⟩ := h
    cases d with
    | zero => exact ⟨False.elim,fun h => h.1.elim⟩
    | succ d =>
      match entries with
      | [] => exact ⟨fun hok => hok.2.elim,fun hm => absurd rfl hm.2.1⟩
      | (k,x) :: es =>
        obtain ⟨hk,hx,hes⟩ := hentries
        have hfirst := hx.ok_iff x d
        have hlater := okLater_iff es d hes
        constructor
        · rintro ⟨-,hkey,hok,hoks⟩
          refine ⟨⟨(hfirst.mp hok).1,(hlater.mp hoks).1⟩,List.cons_ne_nil _ _,?_⟩
          exact ⟨hk.first_iff.mp hkey,(hfirst.mp hok).2,(hlater.mp hoks).2⟩
        · rintro ⟨⟨hnest,hnests⟩,-,hkey,hmodest,hmodests⟩
          exact ⟨List.forall_mem_nil _,hk.first_iff.mpr hkey,hfirst.mpr ⟨hnest,hmodest⟩,hlater.mpr ⟨hnests,hmodests⟩⟩

theorem okAll_iff (xs : List Spelled) (d : ℕ) (h : FormedAll xs) : OkAll d xs ↔ NestAll d xs ∧ ModestAll xs := by
  cases xs with
  | nil => exact (and_iff_right trivial).symm
  | cons x xs =>
    refine (and_congr (h.1.ok_iff x d) (okAll_iff xs d h.2)).trans ?_
    exact and_and_and_comm

theorem okLater_iff (es : List (SpelledStr × Spelled)) (d : ℕ) (h : FormedEntries es) :
    OkLater d es ↔ NestEntries d es ∧ ModestEntries es := by
  match es with
  | [] => exact (and_iff_right trivial).symm
  | (k,x) :: es =>
    have hx := h.2.1.ok_iff x d
    have hes := okLater_iff es d h.2.2
    constructor
    · rintro ⟨hkey,hok,hoks⟩
      exact ⟨⟨(hx.mp hok).1,(hes.mp hoks).1⟩,h.1.later_iff.mp hkey,(hx.mp hok).2,(hes.mp hoks).2⟩
    · rintro ⟨⟨hnest,hnests⟩,hkey,hmodest,hmodests⟩
      exact ⟨h.1.later_iff.mpr hkey,hx.mpr ⟨hnest,hmodest⟩,hes.mpr ⟨hnests,hmodests⟩⟩
end

end Modest

section Heads
variable {c : UInt8} {s : Bytes}

/-- The first byte of a value. -/
theorem Spelled.Formed.head {x : Spelled} (h : x.Formed) :
    ∃ c cs, x.bytes = c :: cs ∧ (c = 105 ∨ c = 108 ∨ c = 100 ∨ isDigit c = true) := by
  cases x with
  | int junk text =>
    obtain ⟨rfl,-⟩ := h
    exact ⟨105,_,rfl,.inl rfl⟩
  | str s =>
    have hs : s.Formed := h
    obtain ⟨c,cs,hcs⟩ := List.exists_cons_of_ne_nil (readDecimal_ne_nil hs.number)
    refine ⟨c,cs ++ 58 :: s.content,?_,.inr (.inr (.inr (hs.digits c (hcs ▸ List.mem_cons_self))))⟩
    show s.bytes = _
    rw [hs.bytes_eq,hcs,List.cons_append]
  | list junk items =>
    obtain ⟨rfl,-⟩ := h
    exact ⟨108,_,rfl,.inr (.inl rfl)⟩
  | dict junk entries =>
    obtain ⟨rfl,-⟩ := h
    exact ⟨100,_,rfl,.inr (.inr (.inl rfl))⟩

/-- Bytes that begin like no value. -/
theorem not_isBencode (hc : c ≠ 105 ∧ c ≠ 108 ∧ c ≠ 100 ∧ isDigit c = false) : ¬ IsBencode (c :: s) := by
  rintro ⟨xs,heq,hxs⟩
  cases xs with
  | nil => cases heq
  | cons x xs =>
    obtain ⟨b,bs,hbs,hb⟩ := hxs.1.head
    rw [bytesAll,hbs,List.cons_append] at heq
    obtain ⟨rfl,-⟩ := List.cons.inj heq
    obtain ⟨h1,h2,h3,h4⟩ := hc
    rcases hb with hb | hb | hb | hb
    · exact h1 hb
    · exact h2 hb
    · exact h3 hb
    · rw [h4] at hb
      cases hb

end Heads

/-- The parser accepts exactly bencode, but for bencode that is too much for it and for
lenient spellings that are not bencode. -/
theorem parses_bencode_iff (s : Bytes) (hs : Shallow s) : (Parses s ↔ IsBencode s) ↔
    (IsBencode s → ModestBencode s) ∧ (Lenient s → IsBencode s) := by
  rw [← parses_iff_lenient]
  constructor
  · intro h
    refine ⟨?_,h.mp⟩
    intro hb
    obtain ⟨root,lex,bstack,hparse⟩ := h.mpr hb
    obtain ⟨xs,rfl,hxs⟩ := hb
    rcases bencParseBuf_formed hxs with hok | hrefuses
    · exact ⟨xs,rfl,hxs,((okAll_iff xs 15 hxs).mp hok).2⟩
    · exact absurd hparse (hrefuses root lex bstack)
  · rintro ⟨hmodest,hlenient⟩
    refine ⟨hlenient,?_⟩
    intro hb
    obtain ⟨xs,rfl,hxs,hm⟩ := hmodest hb
    have hok := (okAll_iff xs 15 hxs).mpr ⟨hs xs rfl hxs,hm⟩
    exact (parses_iff_lenient _).mpr ⟨xs,[],(List.append_nil _).symm,hok,List.forall_mem_nil _⟩

section Depth

mutual
/-- A level of nesting takes two bytes. -/
theorem Spelled.nests_of_length (x : Spelled) (d : ℕ) (h : x.bytes.length ≤ 2 * d + 1) : x.Nests d := by
  cases x with
  | int junk text => trivial
  | str s => trivial
  | list junk items =>
    simp only [Spelled.bytes,List.length_append,List.length_cons] at h
    cases d with
    | zero => omega
    | succ d => exact nestAll_of_length items d (by omega)
  | dict junk entries =>
    simp only [Spelled.bytes,List.length_append,List.length_cons] at h
    cases d with
    | zero => omega
    | succ d => exact nestEntries_of_length entries d (by omega)

theorem nestAll_of_length (xs : List Spelled) (d : ℕ) (h : (bytesAll xs).length ≤ 2 * d + 1) : NestAll d xs := by
  cases xs with
  | nil => trivial
  | cons x xs =>
    rw [bytesAll,List.length_append] at h
    exact ⟨x.nests_of_length d (by omega),nestAll_of_length xs d (by omega)⟩

theorem nestEntries_of_length (es : List (SpelledStr × Spelled)) (d : ℕ) (h : (bytesEntries es).length ≤ 2 * d + 1) :
    NestEntries d es := by
  match es with
  | [] => trivial
  | (k,x) :: es =>
    rw [bytesEntries,List.length_append,List.length_append] at h
    exact ⟨x.nests_of_length d (by omega),nestEntries_of_length es d (by omega)⟩
end

theorem shallow_of_length (h : s.length ≤ 31) : Shallow s := by
  rintro xs rfl -
  exact nestAll_of_length xs 15 h

end Depth

/-- On a list with a dictionary in it the two agree. -/
theorem parses_bencode_nested : Parses (ascii "ld1:ai7eee") ↔ IsBencode (ascii "ld1:ai7eee") := by
  have hint : IsDecimal (ascii "7") := ⟨ascii "7",7,by decide,.inl rfl⟩
  have hkey : SpelledStr.Formed ⟨ascii "1",none,ascii "a"⟩ := ⟨by decide,rfl⟩
  have hformed : FormedAll [.list [] [.dict [] [(⟨ascii "1",none,ascii "a"⟩,.int [] (ascii "7"))]]] :=
    ⟨⟨rfl,⟨rfl,hkey,⟨rfl,hint⟩,trivial⟩,trivial⟩,trivial⟩
  refine (parses_bencode_iff _ (shallow_of_length (by decide))).mpr ⟨fun _ => ⟨_,by decide,hformed,?_⟩,fun _ =>
    ⟨_,by decide,hformed⟩⟩
  exact ⟨⟨List.cons_ne_nil _ _,⟨List.cons_ne_nil _ _,by decide,⟨7,by decide,by decide,by decide⟩,trivial⟩,trivial⟩,
    trivial⟩

/-- A stray byte in front of an integer. -/
theorem stray_accepted : Shallow (ascii "xi1e") ∧ Parses (ascii "xi1e") ∧ ¬ IsBencode (ascii "xi1e") := by
  have hnot : ¬ IsBencode (ascii "xi1e") := not_isBencode (by decide)
  refine ⟨fun xs heq hxs => (hnot ⟨xs,heq,hxs⟩).elim,?_,hnot⟩
  refine (parses_iff_lenient _).mpr ⟨[.int (ascii "x") (ascii "1")],[],rfl,?_,List.forall_mem_nil _⟩
  exact ⟨⟨by decide +kernel,by decide +kernel,by decide +kernel⟩,trivial⟩

end Unworkable
