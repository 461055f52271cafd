import Unworkable.Bencode.Strict

/-! # Bencode values

Values apart from how they are spelled, and their canonical encoding. Reading undoes
writing: the parser makes of the encodings of values the nodes of these values.
-/
namespace Unworkable
open Library

inductive Value where
  | int (n : ℤ)
  | str (s : Bytes)
  | list (items : List Value)
  | dict (entries : List (Bytes × Value))

def encodeStr (s : Bytes) : Bytes := decimal s.length ++ 58 :: s

mutual
def Value.encode : Value → Bytes
  | .int n => 105 :: (decimalInt n ++ [101])
  | .str s => encodeStr s
  | .list items => 108 :: (encodeAll items ++ [101])
  | .dict entries => 100 :: (encodeEntries entries ++ [101])

def encodeAll : List Value → Bytes
  | [] => []
  | v :: vs => v.encode ++ encodeAll vs

def encodeEntries : List (Bytes × Value) → Bytes
  | [] => []
  | (k,v) :: es => encodeStr k ++ (v.encode ++ encodeEntries es)
end

mutual
def Value.strings : Value → List Bytes
  | .int _ => []
  | .str s => [s]
  | .list items => stringsAll items
  | .dict entries => stringsEntries entries

def stringsAll : List Value → List Bytes
  | [] => []
  | v :: vs => v.strings ++ stringsAll vs

def stringsEntries : List (Bytes × Value) → List Bytes
  | [] => []
  | (k,v) :: es => k :: (v.strings ++ stringsEntries es)
end

mutual
def Value.keys : Value → List Bytes
  | .int _ => []
  | .str _ => []
  | .list items => keysAll items
  | .dict entries => keysEntries entries

def keysAll : List Value → List Bytes
  | [] => []
  | v :: vs => v.keys ++ keysAll vs

def keysEntries : List (Bytes × Value) → List Bytes
  | [] => []
  | (k,v) :: es => k :: (v.keys ++ keysEntries es)
end

mutual
/-- Integers of 64 bits, keys without a zero, and lists and dictionaries that are not empty
and nest at most so deep. -/
def Value.Wf : ℕ → Value → Prop
  | _,.int n => -9223372036854775808 ≤ n ∧ n ≤ 9223372036854775807
  | _,.str _ => True
  | 0,.list _ => False
  | d + 1,.list items => items ≠ [] ∧ WfAll d items
  | 0,.dict _ => False
  | d + 1,.dict entries => entries ≠ [] ∧ WfEntries d entries

def WfAll (d : ℕ) : List Value → Prop
  | [] => True
  | v :: vs => v.Wf d ∧ WfAll d vs

def WfEntries (d : ℕ) : List (Bytes × Value) → Prop
  | [] => True
  | (k,v) :: es => 0 ∉ k ∧ v.Wf d ∧ WfEntries d es
end

mutual
/-- The node of a value whose encoding starts at the given offset. A string has its bytes and
their number, a key is a C string, and a dictionary ends behind its last byte. -/
def Value.Shown (pos : ℕ) : Value → Node → Prop
  | .int n,.int number => number = n
  | .str s,.string len value => len = s.length ∧ value.text = s
  | .list items,.list ns => ShownAll (pos + 1) items ns
  | .dict entries,.dict ns stop =>
    stop = pos + (100 :: (encodeEntries entries ++ [101])).length ∧ ShownEntries (pos + 1) entries ns
  | _,_ => False

def ShownAll (pos : ℕ) : List Value → List Node → Prop
  | [],[] => True
  | v :: vs,n :: ns => v.Shown pos n ∧ ShownAll (pos + v.encode.length) vs ns
  | _,_ => False

def ShownEntries (pos : ℕ) : List (Bytes × Value) → List Node → Prop
  | [],[] => True
  | (k,v) :: es,.entry key n :: ns => key.cString = .ok k ∧ v.Shown (pos + (encodeStr k).length) n ∧
      ShownEntries (pos + (encodeStr k).length + v.encode.length) es ns
  | _,_ => False
end

/-- The parser makes of the encodings the nodes of the values. -/
def Undoes (vs : List Value) : Prop :=
  ∃ root lex bstack, bencParseBuf {} [] (encodeAll vs) = some (.accept root lex bstack) ∧ ShownAll 0 vs root.children

def spelledStr (s : Bytes) : SpelledStr := ⟨decimal s.length,none,s⟩

mutual
def Value.spelled : Value → Spelled
  | .int n => .int [] (decimalInt n)
  | .str s => .str (spelledStr s)
  | .list items => .list [] (spelledAll items)
  | .dict entries => .dict [] (spelledEntries entries)

def spelledAll : List Value → List Spelled
  | [] => []
  | v :: vs => v.spelled :: spelledAll vs

def spelledEntries : List (Bytes × Value) → List (SpelledStr × Spelled)
  | [] => []
  | (k,v) :: es => (spelledStr k,v.spelled) :: spelledEntries es
end

section Spelling

theorem spelledStr_formed (s : Bytes) : (spelledStr s).Formed := ⟨readDecimal_decimal _,rfl⟩

theorem spelledStr_bytes (s : Bytes) : (spelledStr s).bytes = encodeStr s := (spelledStr_formed s).bytes_eq

mutual
theorem Value.spelled_bytes (v : Value) : v.spelled.bytes = v.encode := by
  cases v with
  | int n => rfl
  | str s => exact spelledStr_bytes s
  | list items => rw [Value.spelled,Spelled.bytes,spelledAll_bytes items,List.nil_append,Value.encode]
  | dict entries => rw [Value.spelled,Spelled.bytes,spelledEntries_bytes entries,List.nil_append,Value.encode]

theorem spelledAll_bytes (vs : List Value) : bytesAll (spelledAll vs) = encodeAll vs := by
  cases vs with
  | nil => rfl
  | cons v vs => rw [spelledAll,bytesAll,v.spelled_bytes,spelledAll_bytes vs,encodeAll]

theorem spelledEntries_bytes (es : List (Bytes × Value)) : bytesEntries (spelledEntries es) = encodeEntries es := by
  match es with
  | [] => rfl
  | (k,v) :: es => rw [spelledEntries,bytesEntries,spelledStr_bytes,v.spelled_bytes,spelledEntries_bytes es,
    encodeEntries]
end

mutual
theorem Value.spelled_formed (v : Value) : v.spelled.Formed := by
  cases v with
  | int n => exact ⟨rfl,isDecimal_decimalInt n⟩
  | str s => exact spelledStr_formed s
  | list items => exact ⟨rfl,spelledAll_formed items⟩
  | dict entries => exact ⟨rfl,spelledEntries_formed entries⟩

theorem spelledAll_formed (vs : List Value) : FormedAll (spelledAll vs) := by
  cases vs with
  | nil => trivial
  | cons v vs => exact ⟨v.spelled_formed,spelledAll_formed vs⟩

theorem spelledEntries_formed (es : List (Bytes × Value)) : FormedEntries (spelledEntries es) := by
  match es with
  | [] => trivial
  | (k,v) :: es => exact ⟨spelledStr_formed k,v.spelled_formed,spelledEntries_formed es⟩
end

def Short (ss : List Bytes) : Prop := ∀ s ∈ ss, s.length < 9223372036854775808

theorem short_cons {s : Bytes} {ss : List Bytes} : Short (s :: ss) ↔ s.length < 9223372036854775808 ∧ Short ss :=
  List.forall_mem_cons

theorem short_append {ss ts : List Bytes} : Short (ss ++ ts) ↔ Short ss ∧ Short ts := List.forall_mem_append

theorem numberOf_decimalInt {n : ℤ} (h : -9223372036854775808 ≤ n ∧ n ≤ 9223372036854775807) :
    numberOf (decimalInt n) = some n := by
  rw [numberOf_eq (fun c hc => mem_decimalInt hc) (readSigned_decimalInt n),if_pos h]

mutual
theorem Value.spelled_ok (v : Value) {d : ℕ} (h : v.Wf d) : v.spelled.Ok d ↔ Short v.strings := by
  cases v with
  | int n =>
    refine ⟨fun _ => List.forall_mem_nil _,?_⟩
    intro _
    exact ⟨List.forall_mem_nil _,(isDecimal_decimalInt n).plain,by rw [numberOf_decimalInt h]; rfl⟩
  | str s =>
    rw [Value.strings,short_cons]
    exact (spelledStr_formed s).later_iff.trans (and_iff_left (List.forall_mem_nil _)).symm
  | list items =>
    cases d with
    | zero => exact h.elim
    | succ d =>
      obtain ⟨hne,hitems⟩ := h
      rw [Value.strings,← spelledAll_ok items hitems]
      refine ⟨fun hok => hok.2.2,fun hok => ⟨List.forall_mem_nil _,?_,hok⟩⟩
      cases items with
      | nil => exact absurd rfl hne
      | cons v vs => exact List.cons_ne_nil _ _
  | dict entries =>
    cases d with
    | zero => exact h.elim
    | succ d =>
      obtain ⟨hne,hentries⟩ := h
      rw [Value.strings]
      match entries with
      | [] => exact absurd rfl hne
      | (k,v) :: es =>
        obtain ⟨-,hv,hes⟩ := hentries
        rw [stringsEntries,short_cons,short_append,← v.spelled_ok hv,← spelledEntries_ok es hes]
        have hk : (spelledStr k).First ↔ k.length < 9223372036854775808 := (spelledStr_formed k).first_iff
        rw [← hk]
        exact ⟨fun hok => hok.2,fun hok => ⟨List.forall_mem_nil _,hok⟩⟩

theorem spelledAll_ok (vs : List Value) {d : ℕ} (h : WfAll d vs) : OkAll d (spelledAll vs) ↔ Short (stringsAll vs) := by
  cases vs with
  | nil => exact ⟨fun _ => List.forall_mem_nil _,fun _ => trivial⟩
  | cons v vs =>
    rw [stringsAll,short_append,← v.spelled_ok h.1,← spelledAll_ok vs h.2]
    exact Iff.rfl

theorem spelledEntries_ok (es : List (Bytes × Value)) {d : ℕ} (h : WfEntries d es) :
    OkLater d (spelledEntries es) ↔ Short (stringsEntries es) := by
  match es with
  | [] => exact ⟨fun _ => List.forall_mem_nil _,fun _ => trivial⟩
  | (k,v) :: es =>
    obtain ⟨-,hv,hes⟩ := h
    rw [stringsEntries,short_cons,short_append,← v.spelled_ok hv,← spelledEntries_ok es hes]
    exact and_congr_left' (spelledStr_formed k).later_iff
end

theorem bufSize_eq {n : ℕ} : bufSize n ≤ n ↔ ∃ j, n = 128 + 20480 * j := by
  unfold bufSize bencBufferSize bencBufferIncrement
  constructor
  · intro h
    exact ⟨(n - 128 + 20479) / 20480,by omega⟩
  · rintro ⟨j,rfl⟩
    omega

def Terminated (ks : List Bytes) : Prop := ∀ k ∈ ks, ∀ j, k.length ≠ 128 + 20480 * j

theorem terminated_cons {k : Bytes} {ks : List Bytes} :
    Terminated (k :: ks) ↔ (∀ j, k.length ≠ 128 + 20480 * j) ∧ Terminated ks := List.forall_mem_cons

theorem terminated_append {ks ls : List Bytes} : Terminated (ks ++ ls) ↔ Terminated ks ∧ Terminated ls :=
  List.forall_mem_append

theorem spelledStr_cString {k : Bytes} (h : 0 ∉ k) :
    (spelledStr k).buf.cString = .ok k ↔ ∀ j, k.length ≠ 128 + 20480 * j := by
  have hkey : k.takeWhile (· ≠ 0) = k := by
    apply List.takeWhile_eq_self_iff.mpr
    intro c hc
    apply decide_eq_true
    rintro rfl
    exact h hc
  show (if 0 ∈ k ∨ k.length < bufSize k.length then Except.ok (k.takeWhile (· ≠ 0)) else Except.error Halt.wild) = _ ↔ _
  rw [hkey]
  by_cases hfull : ∃ j, k.length = 128 + 20480 * j
  · have hle := bufSize_eq.mpr hfull
    rw [if_neg (by rintro (hz | hlt); exacts [h hz,absurd hlt (Nat.not_lt.mpr hle)])]
    obtain ⟨j,hj⟩ := hfull
    exact ⟨nofun,fun hall => absurd hj (hall j)⟩
  · have hlt : k.length < bufSize k.length := by
      rw [← Nat.not_le]
      exact fun hle => hfull (bufSize_eq.mp hle)
    rw [if_pos (.inr hlt)]
    exact ⟨fun _ j hj => hfull ⟨j,hj⟩,fun _ => rfl⟩

mutual
/-- The nodes of the canonical spelling show the value, as far as its keys are terminated. -/
theorem Value.spelled_shown (v : Value) (pos : ℕ) {d : ℕ} (h : v.Wf d) :
    v.Shown pos (v.spelled.node pos) ↔ Terminated v.keys := by
  cases v with
  | int n =>
    rw [Value.spelled,Spelled.node,numberOf_decimalInt h]
    exact ⟨fun _ => List.forall_mem_nil _,fun _ => rfl⟩
  | str s => exact ⟨fun _ => List.forall_mem_nil _,fun _ => ⟨rfl,rfl⟩⟩
  | list items =>
    cases d with
    | zero => exact h.elim
    | succ d => exact spelledAll_shown items (pos + 1) h.2
  | dict entries =>
    cases d with
    | zero => exact h.elim
    | succ d =>
      rw [Value.keys,← spelledEntries_shown entries (pos + 1) h.2]
      refine and_iff_right ?_
      rw [spelledEntries_bytes]
      simp only [List.length_nil,List.length_cons,List.length_append]
      omega

theorem spelledAll_shown (vs : List Value) (pos : ℕ) {d : ℕ} (h : WfAll d vs) :
    ShownAll pos vs (nodesAll pos (spelledAll vs)) ↔ Terminated (keysAll vs) := by
  cases vs with
  | nil => exact ⟨fun _ => List.forall_mem_nil _,fun _ => trivial⟩
  | cons v vs =>
    rw [keysAll,terminated_append,← v.spelled_shown pos h.1,
      ← spelledAll_shown vs (pos + v.encode.length) h.2,← v.spelled_bytes]
    rw [spelledAll,nodesAll,ShownAll,v.spelled_bytes]

theorem spelledEntries_shown (es : List (Bytes × Value)) (pos : ℕ) {d : ℕ} (h : WfEntries d es) :
    ShownEntries pos es (nodesEntries pos (spelledEntries es)) ↔ Terminated (keysEntries es) := by
  match es with
  | [] => exact ⟨fun _ => List.forall_mem_nil _,fun _ => trivial⟩
  | (k,v) :: es =>
    obtain ⟨hk,hv,hes⟩ := h
    rw [keysEntries,terminated_cons,terminated_append,← spelledStr_cString hk,
      ← v.spelled_shown (pos + (encodeStr k).length) hv,
      ← spelledEntries_shown es (pos + (encodeStr k).length + v.encode.length) hes,
      spelledEntries,nodesEntries,ShownEntries,v.spelled_bytes,spelledStr_bytes]
end

end Spelling

theorem bencParseBuf_encodeAll {vs : List Value} (h : OkAll 15 (spelledAll vs)) :
    bencParseBuf {} [] (encodeAll vs) = some (.accept (.list (nodesAll 0 (spelledAll vs))) {} []) := by
  have hreads : bencParseBuf {} [] (bytesAll (spelledAll vs) ++ []) = _ := bencParseBuf_reads h (List.forall_mem_nil _)
  rwa [List.append_nil,spelledAll_bytes] at hreads

theorem undoes_of_short {vs : List Value} (h : WfAll 15 vs) (hshort : Short (stringsAll vs)) :
    Undoes vs ↔ Terminated (keysAll vs) := by
  have hreads := bencParseBuf_encodeAll ((spelledAll_ok vs h).mpr hshort)
  rw [← spelledAll_shown vs 0 h]
  constructor
  · rintro ⟨root,lex,bstack,hparse,hshown⟩
    rw [hreads] at hparse
    cases hparse
    exact hshown
  · intro hshown
    exact ⟨_,_,_,hreads,hshown⟩

theorem Undoes.short {vs : List Value} (hd : Undoes vs) (h : WfAll 15 vs) : Short (stringsAll vs) := by
  obtain ⟨root,lex,bstack,hparse,-⟩ := hd
  rcases bencParseBuf_formed (spelledAll_formed vs) with hok | hrefuses
  · exact (spelledAll_ok vs h).mp hok
  · rw [spelledAll_bytes] at hrefuses
    exact absurd hparse (hrefuses root lex bstack)

/-- Reading undoes writing, except for lengths out of range and for keys that leave no byte of
the buffer for a terminator. -/
theorem undoes_iff (vs : List Value) (h : WfAll 15 vs) : Undoes vs ↔
    (∀ s ∈ stringsAll vs, s.length < 9223372036854775808) ∧ ∀ k ∈ keysAll vs, ∀ j, k.length ≠ 128 + 20480 * j := by
  constructor
  · intro hd
    exact ⟨hd.short h,(undoes_of_short h (hd.short h)).mp hd⟩
  · rintro ⟨hshort,hkeys⟩
    exact (undoes_of_short h hshort).mpr hkeys

/-- A list and an integer, under two keys. -/
theorem undoes_nested : Undoes [.dict [(ascii "4:",.list [.str [0,101],.int (-5)]),(ascii "ie",.int 7)]] := by
  refine (undoes_iff _ ?_).mpr ⟨?_,?_⟩
  · simp only [WfAll,Value.Wf,WfEntries]
    decide
  · decide
  · intro k hk j hj
    have hlen : ∀ k ∈ keysAll [.dict [(ascii "4:",.list [.str [0,101],.int (-5)]),(ascii "ie",.int 7)]],
        k.length = 2 := by
      decide
    rw [hlen k hk] at hj
    omega

/-- A key of 128 bytes. -/
theorem key_unterminated : WfAll 15 [.dict [(List.replicate 128 97,.int 0)]] ∧
    ¬ Undoes [.dict [(List.replicate 128 97,.int 0)]] := by
  have hwf : WfAll 15 [.dict [(List.replicate 128 97,.int 0)]] := by
    simp only [WfAll,Value.Wf,WfEntries]
    decide
  have hshort : Short (stringsAll [.dict [(List.replicate 128 97,.int 0)]]) := by
    intro s hs
    cases List.mem_singleton.mp hs
    rw [List.length_replicate]
    decide
  refine ⟨hwf,?_⟩
  rw [undoes_of_short hwf hshort]
  intro hkeys
  exact hkeys (List.replicate 128 97) List.mem_cons_self 0 List.length_replicate

end Unworkable
