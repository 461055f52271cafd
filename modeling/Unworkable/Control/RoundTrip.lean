import Unworkable.Control.Client
import Unworkable.Session.Census

/-! # What the control client makes of the first messages

The line of the peers has an ending only if there are peers, and the client takes their
number from no line at all, so the two sides agree at best while there are no peers. The
line of the pieces has its ending if the last index leaves room for one.
-/
namespace Unworkable
open Library

/-- The attributes of the client are those of the session. -/
structure CtlConnection.Agrees (c : CtlConnection) (cs : CtlServer) : Prop where
  numPeers : c.numPeers = cs.sc.numPeers
  numPieces : c.numPieces = cs.sc.tp.numPieces
  torrentSize : c.torrentSize = cs.sc.tp.mi.len
  torrentBytes : c.torrentBytes = cs.started
  pieces : ∀ t, t ∈ c.pieces ↔ ∃ i ∈ cs.sc.tp.verified, decimal i = t
  peers : ∀ t, t ∈ c.peers ↔ ∃ p ∈ cs.sc.peers, addrText (cs.sc.peer p).addr = t

/-- What is sent to a new connection leaves the client with the session's figures. -/
def CtlServer.RoundTrip (cs : CtlServer) (closed : Bool) : Prop :=
  ∃ bs, ctlServerConnBootstrap cs = .ok bs ∧ (CtlConnection.run closed bs).Agrees cs

section Items
variable {items : List Bytes}

theorem listItem_whole {t : Bytes} (h : t.length ≤ 5) :
    listItem 8 true t = t ++ [13,10] ∧ listItem 8 false t = t ++ [44] := by
  constructor
  · apply snprintf_of_lt
    simp [ascii]
    omega
  · apply snprintf_of_lt
    simp [ascii]
    omega

theorem listText_whole (hne : items ≠ []) (h : ∀ t ∈ items, t.length ≤ 5) :
    listText 8 items = [44].intercalate items ++ [13,10] := by
  induction items with
  | nil => exact (hne rfl).elim
  | cons t items ih =>
    obtain ⟨hlast,hfront⟩ := listItem_whole (h t List.mem_cons_self)
    cases items with
    | nil => simp [listText,hlast]
    | cons u items =>
      have ih := ih (List.cons_ne_nil _ _) (fun x hx => h x (List.mem_cons_of_mem t hx))
      simp [listText,hfront,ih,List.intercalate_cons_cons]

theorem length_listText (hne : items ≠ []) (h : ∀ t ∈ items, t.length ≤ 5) :
    (listText 8 items).length = (items.map List.length).sum + items.length + 1 := by
  induction items with
  | nil => exact (hne rfl).elim
  | cons t items ih =>
    obtain ⟨hlast,hfront⟩ := listItem_whole (h t List.mem_cons_self)
    cases items with
    | nil => simp [listText,hlast]
    | cons u items =>
      have ih := ih (List.cons_ne_nil _ _) (fun x hx => h x (List.mem_cons_of_mem t hx))
      simp only [listText,hfront,List.length_append,ih,List.map_cons,List.sum_cons,List.length_cons,List.length_nil]
      omega

/-- The line of the pieces ends only if its last index leaves room for the ending. -/
theorem newline_listText {l : List ℕ} (hl : l.Pairwise (· < ·)) (h : 10 ∈ listText 8 (l.map decimal)) :
    ∀ i ∈ l, i < 100000 := by
  induction l with
  | nil => exact nofun
  | cons i l ih =>
    have hdigits (last : Bool) (hmem : 10 ∈ listItem 8 last (decimal i)) : last = true ∧ i < 100000 := by
      by_contra hlarge
      have htext := List.mem_of_mem_take hmem
      rcases List.mem_append.mp htext with hd | hend
      · exact absurd (isDigit_of_mem_decimal hd) (by decide)
      cases last with
      | false => exact absurd hend (by decide)
      | true =>
        have hlen : 5 < (decimal i).length := lt_length_decimal (not_lt.mp fun hlt => hlarge ⟨rfl,hlt⟩)
        have htake : listItem 8 true (decimal i) = (decimal i ++ [13]).take 7 := by
          show (decimal i ++ [13,10]).take 7 = _
          rw [List.append_cons,List.take_append_of_le_length (by simp; omega)]
        rw [htake] at hmem
        rcases List.mem_append.mp (List.mem_of_mem_take hmem) with hd | hend
        · exact absurd (isDigit_of_mem_decimal hd) (by decide)
        · exact absurd hend (by decide)
    rw [List.pairwise_cons] at hl
    cases l with
    | nil =>
      intro j hj
      rw [List.mem_singleton.mp hj]
      exact (hdigits true h).2
    | cons k l =>
      rcases List.mem_append.mp h with hfront | hrest
      · cases (hdigits false hfront).1
      · have ih := ih hl.2 hrest
        intro j hj
        rcases List.mem_cons.mp hj with rfl | hj
        · exact lt_trans (hl.1 k List.mem_cons_self) (ih k List.mem_cons_self)
        · exact ih j hj

end Items

section Figures
variable {key text : Bytes} {c c' : CtlConnection}

theorem mem_intercalate {sep b : UInt8} {items : List Bytes} (h : b ∈ [sep].intercalate items) :
    b = sep ∨ ∃ t ∈ items, b ∈ t := by
  induction items with
  | nil => cases h
  | cons t items ih =>
    cases items with
    | nil => exact .inr ⟨t,List.mem_cons_self,by simpa using h⟩
    | cons u items =>
      rw [List.intercalate_cons_cons,List.append_assoc] at h
      rcases List.mem_append.mp h with ht | h
      · exact .inr ⟨t,List.mem_cons_self,ht⟩
      rcases List.mem_append.mp h with hsep | h
      · exact .inl (List.mem_singleton.mp hsep)
      · rcases ih h with hsep | ⟨v,hv,hb⟩
        · exact .inl hsep
        · exact .inr ⟨v,List.mem_cons_of_mem t hv,hb⟩

/-- Characters of a value that end neither a line nor a word. -/
def plain (b : UInt8) : Bool := isDigit b ∨ b = 44 ∨ b = 45

theorem isSpace_of_plain {b : UInt8} (h : plain b = true) : isSpace b = false := by
  rcases of_decide_eq_true h with hd | rfl | rfl
  · exact isSpace_of_isDigit hd
  · decide
  · decide

/-- A line of a key and a value, and how the client takes it apart. -/
theorem splitFirst_line (hkey : ∀ b ∈ key, isSpace b = false ∧ b ≠ 58) (htext : ∀ b ∈ text, plain b = true) :
    10 ∉ key ++ 58 :: text ++ [13] ∧ splitFirst 58 (strip (key ++ 58 :: text ++ [13])) = (key,some text) := by
  have hspace : ∀ b ∈ key ++ 58 :: text, isSpace b = false := by
    intro b hb
    rcases List.mem_append.mp hb with hk | hb
    · exact (hkey b hk).1
    rcases List.mem_cons.mp hb with rfl | ht
    · decide
    · exact isSpace_of_plain (htext b ht)
  constructor
  · intro hmem
    rcases List.mem_append.mp hmem with hb | hb
    · cases hspace 10 hb
    · cases List.mem_singleton.mp hb
  · rw [(strip_of_forall hspace).2]
    exact splitFirst_append fun hmem => (hkey 58 hmem).2 rfl

theorem plain_decimalInt (z : ℤ) : ∀ b ∈ decimalInt z, plain b = true := by
  intro b hb
  rcases mem_decimalInt hb with rfl | hd
  · decide
  · exact decide_eq_true (.inl hd)

theorem decimal_eq_decimalInt (n : ℕ) : decimal n = decimalInt n := rfl

theorem line_figures (c : CtlConnection) (z : ℤ) :
    c.line (ascii "num_peers" ++ 58 :: decimalInt z ++ [13]) = some c ∧
    c.line (ascii "num_pieces" ++ 58 :: decimalInt z ++ [13]) = some { c with numPieces := z } ∧
    c.line (ascii "torrent_size" ++ 58 :: decimalInt z ++ [13]) = some { c with torrentSize := z } ∧
    c.line (ascii "torrent_bytes" ++ 58 :: decimalInt z ++ [13]) = some { c with torrentBytes := z } := by
  refine ⟨?_,?_,?_,?_⟩
  all_goals
    rw [CtlConnection.line,(splitFirst_line (by decide +kernel) (plain_decimalInt z)).2]
    simp [ascii,pyInt_decimalInt]

/-- The lines of the four figures. -/
theorem run_figures (cs : CtlServer) (closed : Bool) (rest : Bytes) :
    CtlConnection.run closed (bootstrapText cs ++ rest) =
      ({ numPieces := cs.sc.tp.numPieces, torrentSize := cs.sc.tp.mi.len,
         torrentBytes := cs.started } : CtlConnection).lines (fileLines closed rest) := by
  have hshape : bootstrapText cs ++ rest =
      (ascii "num_peers" ++ 58 :: decimalInt cs.sc.numPeers ++ [13]) ++ 10 ::
      ((ascii "num_pieces" ++ 58 :: decimalInt cs.sc.tp.numPieces ++ [13]) ++ 10 ::
      ((ascii "torrent_size" ++ 58 :: decimalInt cs.sc.tp.mi.len ++ [13]) ++ 10 ::
      ((ascii "torrent_bytes" ++ 58 :: decimalInt cs.started ++ [13]) ++ 10 :: rest))) := by
    simp [bootstrapText,ascii,decimal_eq_decimalInt]
  rw [hshape,CtlConnection.run]
  rw [fileLines_cons (splitFirst_line (by decide +kernel) (plain_decimalInt _)).1,lines_cons (line_figures _ _).1]
  rw [fileLines_cons (splitFirst_line (by decide +kernel) (plain_decimalInt _)).1,lines_cons (line_figures _ _).2.1]
  rw [fileLines_cons (splitFirst_line (by decide +kernel) (plain_decimalInt _)).1,lines_cons (line_figures _ _).2.2.1]
  rw [fileLines_cons (splitFirst_line (by decide +kernel) (plain_decimalInt _)).1,lines_cons (line_figures _ _).2.2.2]

theorem length_decimalInt_le {z : ℤ} (h : OffT z) : (decimalInt z).length ≤ 20 := by
  have hlen : (decimal z.natAbs).length ≤ 19 := by
    apply length_decimal_le (by decide)
    obtain ⟨hlow,hhigh⟩ := h
    omega
  unfold decimalInt
  split
  · rw [List.length_cons]
    omega
  · omega

theorem length_bootstrapText (cs : CtlServer) : (bootstrapText cs).length < bootstrapLen := by
  have hpeers : (decimal cs.sc.numPeers).length ≤ 10 :=
    length_decimal_le (by decide) (lt_trans cs.numPeers_lt (by decide))
  have hpieces : (decimal cs.sc.tp.numPieces).length ≤ 10 :=
    length_decimal_le (by decide) (lt_trans cs.sc.tp.numPieces_lt (by decide))
  have hlen := length_decimalInt_le cs.len_off
  have hstarted := length_decimalInt_le cs.started_off
  simp [bootstrapText,ascii,bootstrapLen]
  omega

theorem bootstrap_ok {cs : CtlServer} {bs : Bytes} : ctlServerConnBootstrap cs = .ok bs ↔
    ∃ pieces peers, ctlServerPieces cs.sc.tp = .ok pieces ∧ ctlServerPeers cs.sc = .ok peers ∧
      bootstrapText cs ++ (pieces ++ peers) = bs := by
  have hlen := length_bootstrapText cs
  rw [ctlServerConnBootstrap,if_neg (not_le.mpr hlen),snprintf_of_lt hlen,bind_ok]
  constructor
  · rintro ⟨pieces,hpieces,h⟩
    obtain ⟨peers,hpeers,h⟩ := bind_ok.mp h
    cases h
    exact ⟨pieces,peers,hpieces,hpeers,(List.append_assoc _ _ _).symm⟩
  · rintro ⟨pieces,peers,hpieces,hpeers,rfl⟩
    refine ⟨pieces,hpieces,bind_ok.mpr ⟨peers,hpeers,?_⟩⟩
    rw [List.append_assoc]

end Figures

section Pieces
variable {cs : CtlServer} {c : CtlConnection}

/-- The room the verified indices need, digit by digit. -/
theorem piecesText_fits {tp : Torrent} (h : ∀ i ∈ tp.good, i < 100000) :
    (tp.good ≠ [] → tp.piecesText.length < piecesRoom tp.good.length) ↔
      ∑ i ∈ tp.verified, (decimal i).length < 56 + 4 * tp.verified.card := by
  have hsum : ∑ i ∈ tp.verified, (decimal i).length = ((tp.good.map decimal).map List.length).sum := by
    rw [← tp.toFinset_good,List.sum_toFinset _ tp.nodup_good,List.map_map]
    rfl
  by_cases hnil : tp.good = []
  · have hcard : tp.verified.card = 0 := by
      rw [← tp.length_good,hnil]
      rfl
    rw [hsum,hnil,hcard]
    simp
  have hle : tp.good.length ≤ 100000 := by
    have hsub : tp.good ⊆ List.range 100000 := fun i hi => List.mem_range.mpr (h i hi)
    simpa using (tp.nodup_good.subperm hsub).length_le
  have hroom : piecesRoom tp.good.length = 64 + 5 * tp.good.length := by
    unfold piecesRoom mul32 add32 ctlMessageLen wrap32
    omega
  have hshort : ∀ t ∈ tp.good.map decimal, t.length ≤ 5 := by
    intro t ht
    obtain ⟨i,hi,rfl⟩ := List.mem_map.mp ht
    exact length_decimal_le (by decide) (h i hi)
  have hlen : tp.piecesText.length = 7 + (listText 8 (tp.good.map decimal)).length := by
    rw [Torrent.piecesText,List.length_append]
    rfl
  rw [length_listText (by simpa using hnil) hshort,List.length_map] at hlen
  rw [hsum,← tp.length_good,hroom]
  constructor
  · intro hfit
    have hfit := hfit hnil
    omega
  · intro hfit _
    omega

/-- The line of a list of indices all of which fit. -/
theorem line_pieces {tp : Torrent} (hne : tp.good ≠ []) (h : ∀ i ∈ tp.good, i < 100000) : ∃ l, 10 ∉ l ∧
    tp.piecesText = l ++ [10] ∧ c.line l =
    some { c with pieces := sortedItems ([44].intercalate (tp.good.map decimal)) } := by
  have hplain : ∀ b ∈ [44].intercalate (tp.good.map decimal), plain b = true := by
    intro b hb
    rcases mem_intercalate hb with rfl | ⟨t,ht,hb⟩
    · decide
    · obtain ⟨i,-,rfl⟩ := List.mem_map.mp ht
      exact decide_eq_true (.inl (isDigit_of_mem_decimal hb))
  have hshort : ∀ t ∈ tp.good.map decimal, t.length ≤ 5 := by
    intro t ht
    obtain ⟨i,hi,rfl⟩ := List.mem_map.mp ht
    exact length_decimal_le (by decide) (h i hi)
  have hkey : ∀ b ∈ ascii "pieces", isSpace b = false ∧ b ≠ 58 := by decide +kernel
  obtain ⟨hline,hsplit⟩ := splitFirst_line hkey hplain
  refine ⟨_,hline,?_,?_⟩
  · rw [Torrent.piecesText,listText_whole (by simpa using hne) hshort]
    simp [ascii]
  · rw [CtlConnection.line,hsplit]
    simp [ascii]

theorem mem_pieces {tp : Torrent} (hne : tp.good ≠ []) (t : Bytes) :
    t ∈ sortedItems ([44].intercalate (tp.good.map decimal)) ↔ ∃ i ∈ tp.verified, decimal i = t := by
  rw [mem_sortedItems,List.splitOn_intercalate 44 _ (by simpa using hne),List.mem_map]
  · simp only [Torrent.mem_good]
  · intro l hl hmem
    obtain ⟨i,-,rfl⟩ := List.mem_map.mp hl
    exact absurd (isDigit_of_mem_decimal hmem) (by decide)

theorem newline_piecesText {tp : Torrent} (h : 10 ∈ listText 8 (tp.good.map decimal)) :
    tp.good ≠ [] ∧ ∀ i ∈ tp.good, i < 100000 := by
  constructor
  · intro hnil
    rw [hnil] at h
    cases h
  · exact newline_listText (List.pairwise_lt_range.filter _) h

/-- Without a line ending, the names of both messages are on one line. -/
theorem not_newline {tp : Torrent} (h : 10 ∉ listText 8 (tp.good.map decimal)) :
    10 ∉ tp.piecesText ++ ascii "peers:" := by
  intro hmem
  rw [Torrent.piecesText] at hmem
  rcases List.mem_append.mp hmem with hmem | hend
  · rcases List.mem_append.mp hmem with hstart | htext
    · exact absurd hstart (by decide)
    · exact h htext
  · exact absurd hend (by decide)

/-- While the connection is open the client has the pieces if their line has ended. -/
theorem open_agrees (hpeers : cs.sc.peers = []) (hnum : cs.sc.numPeers = 0) :
    (({ numPieces := cs.sc.tp.numPieces, torrentSize := cs.sc.tp.mi.len,
        torrentBytes := cs.started } : CtlConnection).lines
      (fileLines false (cs.sc.tp.piecesText ++ ascii "peers:"))).Agrees cs ↔ ∀ i ∈ cs.sc.tp.good, i < 100000 := by
  have hnone : ∀ t, t ∈ ([] : List Bytes) ↔ ∃ p ∈ cs.sc.peers, addrText (cs.sc.peer p).addr = t := by
    intro t
    simp [hpeers]
  have hend : fileLines false (ascii "peers:") = [] := fileLines_open (by decide)
  by_cases hnl : 10 ∈ listText 8 (cs.sc.tp.good.map decimal)
  · obtain ⟨hne,hlt⟩ := newline_piecesText hnl
    refine iff_of_true ?_ hlt
    obtain ⟨l,hl,htext,hline⟩ := line_pieces (c := _) hne hlt
    rw [htext,List.append_assoc,List.singleton_append,fileLines_cons hl,lines_cons hline,hend]
    exact ⟨by rw [hnum]; rfl,rfl,rfl,rfl,mem_pieces hne,hnone⟩
  · rw [fileLines_open (not_newline hnl),CtlConnection.lines]
    constructor
    · intro hagrees i hi
      have hno := (hagrees.pieces (decimal i)).mpr ⟨i,Torrent.mem_good.mp hi,rfl⟩
      cases hno
    · intro hlt
      have hnil : cs.sc.tp.good = [] := by
        by_contra hne
        obtain ⟨l,hl,htext,-⟩ := line_pieces (c := {}) hne hlt
        apply not_newline hnl
        rw [htext]
        simp
      refine ⟨by rw [hnum]; rfl,rfl,rfl,rfl,?_,hnone⟩
      intro t
      simp [← Torrent.mem_good,hnil]

theorem line_peers (c : CtlConnection) : c.line (ascii "peers:") = some { c with peers := [[]] } := by
  have hsorted : sortedItems [] = [[]] := by simp [sortedItems]
  rw [← hsorted]
  rfl

/-- Once the connection is closed the line of the peers, or what it has become, is read too. -/
theorem closed_disagrees (hpeers : cs.sc.peers = []) : ¬ (c.lines
      (fileLines true (cs.sc.tp.piecesText ++ ascii "peers:"))).Agrees cs := by
  intro hagrees
  by_cases hnl : 10 ∈ listText 8 (cs.sc.tp.good.map decimal)
  · obtain ⟨hne,hlt⟩ := newline_piecesText hnl
    obtain ⟨l,hl,htext,hline⟩ := line_pieces (c := c) hne hlt
    rw [htext,List.append_assoc,List.singleton_append,fileLines_cons hl,lines_cons hline] at hagrees
    rw [fileLines_closed (by decide) (by decide),lines_cons (line_peers _)] at hagrees
    obtain ⟨p,hp,-⟩ := (hagrees.peers []).mp (List.mem_singleton.mpr rfl)
    rw [hpeers] at hp
    cases hp
  · have hstrip : strip (cs.sc.tp.piecesText ++ ascii "peers:") = cs.sc.tp.piecesText ++ ascii "peers:" := by
      apply (strip_of_ends _ _).1
      · intro b hb
        have hhead : (cs.sc.tp.piecesText ++ ascii "peers:").head? = some 112 := rfl
        rw [hhead,Option.mem_def,Option.some.injEq] at hb
        rw [← hb]
        decide
      · intro b hb
        have hlast : (cs.sc.tp.piecesText ++ ascii "peers:").getLast? = some 58 := by
          rw [List.getLast?_append_of_ne_nil _ (by decide)]
          rfl
        rw [hlast,Option.mem_def,Option.some.injEq] at hb
        rw [← hb]
        decide
    have hsplit : splitFirst 58 (cs.sc.tp.piecesText ++ ascii "peers:") =
        (ascii "pieces",some (listText 8 (cs.sc.tp.good.map decimal) ++ ascii "peers:")) := by
      have hshape : cs.sc.tp.piecesText ++ ascii "peers:" =
          ascii "pieces" ++ 58 :: (listText 8 (cs.sc.tp.good.map decimal) ++ ascii "peers:") := by
        simp [Torrent.piecesText,ascii]
      rw [hshape]
      exact splitFirst_append (by decide)
    have hline : c.line (cs.sc.tp.piecesText ++ ascii "peers:") =
        some { c with pieces := sortedItems (listText 8 (cs.sc.tp.good.map decimal) ++ ascii "peers:") } := by
      rw [CtlConnection.line,hstrip,hsplit]
      simp [ascii]
    rw [fileLines_closed (not_newline hnl) (by simp [ascii]),lines_cons hline,CtlConnection.lines] at hagrees
    have hcolon : (58 : UInt8) ∈ [44].intercalate
        ((listText 8 (cs.sc.tp.good.map decimal) ++ ascii "peers:").splitOn 44) := by
      rw [List.intercalate_splitOn]
      exact List.mem_append_right _ (by decide)
    rcases mem_intercalate hcolon with h | ⟨t,ht,hmem⟩
    · cases h
    · obtain ⟨i,-,rfl⟩ := (hagrees.pieces t).mp (mem_sortedItems.mpr ht)
      exact absurd (isDigit_of_mem_decimal hmem) (by decide)

end Pieces

theorem CtlServer.RoundTrip.numPeers {cs : CtlServer} {closed : Bool} (h : cs.RoundTrip closed) :
    cs.sc.numPeers = 0 := by
  obtain ⟨bs,-,hagrees⟩ := h
  have heq := hagrees.numPeers
  rw [CtlConnection.run,lines_numPeers] at heq
  exact (Int.ofNat_inj.mp heq).symm

/-- The client ends up with the session's figures exactly while the connection stays open and
the session has no peers, if the verified indices fit their line: no more than five digits
each, and not too many digits together. -/
theorem control_round_trip_iff (sha1 : Bytes → Bytes) (b : Boot) (cs : CtlServer) (h : Reachable sha1 b cs.sc)
    (closed : Bool) : cs.RoundTrip closed ↔ closed = false ∧ cs.sc.peers = [] ∧
      (∀ i ∈ cs.sc.tp.verified, i < 100000) ∧
      ∑ i ∈ cs.sc.tp.verified, (decimal i).length < 56 + 4 * cs.sc.tp.verified.card := by
  have hcount : cs.sc.numPeers = wrap32 cs.sc.peers.length := h.census.1.count
  have htal : cs.sc.tp.Tallied := h.tallied
  constructor
  · intro hround
    have hnum := hround.numPeers
    obtain ⟨bs,hbs,hagrees⟩ := hround
    obtain ⟨pieces,peers,hpieces,hsent,rfl⟩ := bootstrap_ok.mp hbs
    have hnil : cs.sc.peers = [] := by
      by_contra hne
      have hpos := List.length_pos_iff.mpr hne
      rw [hcount] at hnum
      unfold wrap32 at hnum
      exact ctlServerPeers_wrapped (by omega) (by rw [hcount]; exact hnum) hsent
    obtain ⟨hfit,rfl⟩ := (ctlServerPieces_ok htal).mp hpieces
    cases (ctlServerPeers_nil hnil hnum).symm.trans hsent
    rw [run_figures] at hagrees
    cases closed with
    | true => exact (closed_disagrees hnil hagrees).elim
    | false =>
      have hlt := (open_agrees hnil hnum).mp hagrees
      exact ⟨rfl,hnil,fun i hi => hlt i (Torrent.mem_good.mpr hi),(piecesText_fits hlt).mp hfit⟩
  · rintro ⟨rfl,hnil,hlt,hsum⟩
    have hnum : cs.sc.numPeers = 0 := by
      rw [hcount,hnil]
      rfl
    have hgood : ∀ i ∈ cs.sc.tp.good, i < 100000 := fun i hi => hlt i (Torrent.mem_good.mp hi)
    refine ⟨_,bootstrap_ok.mpr ⟨_,_,(ctlServerPieces_ok htal).mpr ⟨(piecesText_fits hgood).mpr hsum,rfl⟩,
      ctlServerPeers_nil hnil hnum,rfl⟩,?_⟩
    rw [run_figures]
    exact (open_agrees hnil hnum).mpr hgood

/-- The last of the peers has gone after it delivered the only piece. -/
theorem control_round_trip_iff_one : ∃ cs : CtlServer, Reachable sha1ZeroByte (.oneByte zeroByteDigest 1) cs.sc ∧
    cs.sc.tp.verified = {0} ∧ cs.RoundTrip false := by
  have hrun : ((Boot.oneByte zeroByteDigest 1).run sha1ZeroByte (oneRequestRun ++
      inputs 1002 0 (messagePortions [msgPieceId,0,0,0,0,0,0,0,0,0]) ++
      [(.plain 1003,.error 0),(.plain 1003,.error 1),(.plain 1004,.scheduler)])
      ).toOption.map (fun s => decide (s.tp.verified = {0} ∧ s.peers = [] ∧ s.numPeers = 0 ∧ s.tp.mi.len = 1)) =
        some true := by decide +kernel
  obtain ⟨s,hs,hP⟩ := exists_reachable hrun
  obtain ⟨hverified,hpeers,hnum,hlen⟩ := of_decide_eq_true hP
  have hoff : OffT s.tp.mi.len := by
    rw [hlen]
    exact ⟨by decide,by decide⟩
  let cs : CtlServer := ⟨s,0,⟨by decide,by decide⟩,hoff,by rw [hnum]; decide⟩
  refine ⟨cs,hs,hverified,(control_round_trip_iff sha1ZeroByte _ cs hs false).mpr ⟨rfl,hpeers,?_,?_⟩⟩
  · intro i hi
    rw [show cs.sc.tp.verified = {0} from hverified,Finset.mem_singleton] at hi
    rw [hi]
    decide
  · rw [show cs.sc.tp.verified = {0} from hverified]
    decide

/-- One connected peer, and the client does not know. -/
theorem control_misses_peer : ∃ cs : CtlServer, Reachable sha1ZeroByte (.oneByte (List.replicate 20 0) 1) cs.sc ∧
    cs.sc.peers = [0] ∧ ∀ closed, ¬ cs.RoundTrip closed := by
  have hrun : ((Boot.oneByte (List.replicate 20 0) 1).run sha1ZeroByte [(.plain 1000,.accept 1)]).toOption.map
      (fun s => decide (s.peers = [0] ∧ s.numPeers = 1 ∧ s.tp.mi.len = 1)) = some true := by decide +kernel
  obtain ⟨s,hs,hP⟩ := exists_reachable hrun
  obtain ⟨hpeers,hnum,hlen⟩ := of_decide_eq_true hP
  have hoff : OffT s.tp.mi.len := by
    rw [hlen]
    exact ⟨by decide,by decide⟩
  refine ⟨⟨s,0,⟨by decide,by decide⟩,hoff,by rw [hnum]; decide⟩,hs,hpeers,?_⟩
  intro closed hround
  have hzero : s.numPeers = 0 := hround.numPeers
  rw [hnum] at hzero
  cases hzero

end Unworkable
