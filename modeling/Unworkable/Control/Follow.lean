import Unworkable.Library.LineReader
import Unworkable.Control.Session
import Unworkable.Session.Pair

/-! # What control clients know

A client reads the lines of its connection as they come. A list of pieces or peers that is empty has no line ending, so
the next message goes on with its line; but the pieces are only ever told right behind a number of bytes, which
ends whatever line there is. So a client that has read what it was sent has the pieces that are verified, from the
first one on, as long as no index is too long for its line.
-/
namespace Unworkable
open Library

/-- What a client has made of what it was sent, and the line that is not ended yet. -/
abbrev Reads : Bytes → CtlConnection → Bytes → Prop := Follows 10 CtlConnection.line {}

section Lines
variable {c c' : CtlConnection} {sent rest bs x : Bytes}

theorem lines_of_foldlM {ls : List Bytes} (h : ls.foldlM CtlConnection.line c = some c') : c.lines ls = c' := by
  induction ls generalizing c with
  | nil =>
    cases h
    rfl
  | cons l ls ih =>
    rw [List.foldlM_cons] at h
    obtain ⟨d,hd,h⟩ := Option.bind_eq_some_iff.mp h
    rw [lines_cons hd]
    exact ih h

theorem Library.Follows.run (h : Reads sent c rest) : CtlConnection.run false sent = c := by
  obtain ⟨ls,hls,hfold⟩ := h.splitOn_eq
  rw [CtlConnection.run,fileLines,hls,List.dropLast_concat]
  simpa using lines_of_foldlM hfold

theorem mem_rdropWhile {b : UInt8} (hb : b ∈ bs) (hspace : isSpace b = false) : b ∈ bs.rdropWhile isSpace := by
  rw [List.rdropWhile,List.mem_reverse]
  have hsplit := List.takeWhile_append_dropWhile (p := isSpace) (l := bs.reverse)
  rw [← List.mem_reverse,← hsplit] at hb
  rcases List.mem_append.mp hb with hb | hb
  · rw [List.mem_takeWhile_imp hb] at hspace
    cases hspace
  · exact hb

theorem strip_key {key : Bytes} (hkey : ∀ b ∈ key, isSpace b = false) (hne : key ≠ []) :
    strip (key ++ 58 :: x) = key ++ 58 :: x.rdropWhile isSpace := by
  obtain ⟨b,key,rfl⟩ := List.exists_cons_of_ne_nil hne
  rw [strip,List.cons_append,List.dropWhile_cons_of_neg (by rw [hkey b List.mem_cons_self]; decide),← List.cons_append]
  have hcolon : isSpace 58 = false := by decide
  unfold List.rdropWhile
  rw [List.reverse_append,List.reverse_cons,List.append_assoc,List.singleton_append]
  by_cases hx : ∀ y ∈ x.reverse, isSpace y = true
  · rw [List.dropWhile_append_of_pos hx,List.dropWhile_cons_of_neg (by rw [hcolon]; decide),
      List.dropWhile_eq_nil_iff.mpr hx]
    simp
  · have hrest : x.reverse.dropWhile isSpace ≠ [] := fun h => hx (List.dropWhile_eq_nil_iff.mp h)
    rw [List.dropWhile_append,if_neg (by simpa using hrest)]
    simp

/-- A line that a list of peers has begun. -/
theorem line_peers_begun (c : CtlConnection) (x : Bytes) :
    c.line (ascii "peers:" ++ x) = some { c with peers := sortedItems (x.rdropWhile isSpace) } := by
  have hshape : ascii "peers:" ++ x = ascii "peers" ++ 58 :: x := by simp [ascii]
  rw [hshape,CtlConnection.line,strip_key (by decide +kernel) (by decide),splitFirst_append (by decide)]
  simp [ascii]

/-- A line that a list of pieces has begun. -/
theorem line_pieces_begun (c : CtlConnection) (x : Bytes) :
    c.line (ascii "pieces:" ++ x) = some { c with pieces := sortedItems (x.rdropWhile isSpace) } := by
  have hshape : ascii "pieces:" ++ x = ascii "pieces" ++ 58 :: x := by simp [ascii]
  rw [hshape,CtlConnection.line,strip_key (by decide +kernel) (by decide),splitFirst_append (by decide)]
  simp [ascii]

/-- What comes behind a colon is no list of indices. -/
theorem colon_mem_sortedItems (h : (58 : UInt8) ∈ x) : ∃ t ∈ sortedItems (x.rdropWhile isSpace), (58 : UInt8) ∈ t := by
  have hcolon := mem_rdropWhile h (by decide)
  have hsplit : [44].intercalate ((x.rdropWhile isSpace).splitOn 44) = x.rdropWhile isSpace :=
    List.intercalate_splitOn 44
  rw [← hsplit] at hcolon
  rcases mem_intercalate hcolon with h | ⟨t,ht,hmem⟩
  · cases h
  · exact ⟨t,mem_sortedItems.mpr ht,hmem⟩

theorem line_bytes (c : CtlConnection) (n : ℤ) :
    c.line (ascii "bytes" ++ 58 :: decimalInt n ++ [13]) = some { c with bytes := n } := by
  rw [CtlConnection.line,(splitFirst_line (by decide +kernel) (plain_decimalInt n)).2]
  simp [ascii,pyInt_decimalInt]

theorem bytesText_eq (n : ℤ) : bytesText n = (ascii "bytes" ++ 58 :: decimalInt n ++ [13]) ++ [10] := by
  simp [bytesText,ascii]

end Lines

section Peers
variable {s : Session} {text : Bytes}

/-- A list whose items and endings fit the buffer of an item. -/
theorem listText_fits {size : ℕ} {items : List Bytes} (hne : items ≠ []) (h : ∀ t ∈ items, t.length + 2 < size) :
    listText size items = [44].intercalate items ++ [13,10] := by
  have hitem {t : Bytes} (ht : t.length + 2 < size) : listItem size true t = t ++ [13,10] ∧
      listItem size false t = t ++ [44] := by
    constructor
    · apply snprintf_of_lt
      simpa [ascii] using ht
    · apply snprintf_of_lt
      simp [ascii]
      omega
  induction items with
  | nil => exact (hne rfl).elim
  | cons t items ih =>
    obtain ⟨hlast,hfront⟩ := hitem (h t List.mem_cons_self)
    cases items with
    | nil => simp [listText,hlast]
    | cons u items =>
      have ih := ih (List.cons_ne_nil _ _) fun x hx => h x (List.mem_cons_of_mem t hx)
      simp [listText,hfront,ih,List.intercalate_cons_cons]

theorem mem_addrText {addr : ℕ} {b : UInt8} (h : b ∈ addrText addr) : isDigit b = true ∨ b = 46 ∨ b = 58 := by
  unfold addrText inetNtoa at h
  rcases List.mem_append.mp h with h | h
  · rcases mem_intercalate h with rfl | ⟨t,ht,hb⟩
    · exact .inr (.inl rfl)
    · obtain ⟨k,-,rfl⟩ := List.mem_map.mp ht
      exact .inl (isDigit_of_mem_decimal hb)
  · rcases List.mem_cons.mp h with rfl | h
    · exact .inr (.inr rfl)
    · exact .inl (isDigit_of_mem_decimal h)

theorem length_addrText (addr : ℕ) : (addrText addr).length ≤ 21 := by
  have hoctet (k : ℕ) : (decimal (addr / 2 ^ k % 256)).length ≤ 3 :=
    length_decimal_le (by decide) (lt_trans (Nat.mod_lt _ (by decide)) (by decide))
  have hport : (decimal (addr % 65536)).length ≤ 5 :=
    length_decimal_le (by decide) (lt_trans (Nat.mod_lt _ (by decide)) (by decide))
  have h₁ := hoctet 40
  have h₂ := hoctet 32
  have h₃ := hoctet 24
  have h₄ := hoctet 16
  simp only [addrText,inetNtoa,List.map_cons,List.map_nil,List.intercalate_cons_cons,List.intercalate_singleton,
    List.length_append,List.length_cons,List.length_nil]
  omega

/-- The list of the peers has its ending if there are peers. -/
theorem peers_text (hcount : s.numPeers = wrap32 s.peers.length) (h : ctlServerPeers s = .ok text) :
    text = ascii "peers:" ∨ ∃ x, text = (ascii "peers:" ++ x ++ [13]) ++ [10] ∧ 10 ∉ ascii "peers:" ++ x ++ [13] := by
  by_cases hnil : s.peers = []
  · have hnum : s.numPeers = 0 := by
      rw [hcount,hnil]
      rfl
    cases (ctlServerPeers_nil hnil hnum).symm.trans h
    exact .inl rfl
  have hpos := List.length_pos_iff.mpr hnil
  obtain ⟨w,hw,rfl⟩ := map_ok.mp h
  have hne : s.peers.map (fun p => addrText (s.peer p).addr) ≠ [] := by simpa using hnil
  obtain ⟨hle,hlt⟩ := length_foldlM_listTurn (by decide) hw
  have hlt := hlt hne
  rw [List.length_map] at hle
  have hroom : add32 ctlMessageLen (mul32 32 s.numPeers) < 4294967296 := Nat.mod_lt _ (by decide)
  have hfew : s.peers.length < 4294967296 := by omega
  rw [wrap32_of_lt hfew] at hcount
  -- the name of the list fits, or there would be no room for a peer
  have hname : snprintf (add32 ctlMessageLen (mul32 32 s.numPeers)) (ascii "peers:") = ascii "peers:" := by
    have hlen : (ascii "peers:").length = 6 := by decide
    apply snprintf_of_lt
    rw [snprintf,List.length_take,hlen] at hle
    omega
  rw [hname] at hw
  obtain ⟨-,rfl⟩ := (foldlM_listTurn (by rw [List.length_map]; omega) (by omega) hne).mp hw
  refine .inr ⟨[44].intercalate (s.peers.map fun p => addrText (s.peer p).addr),?_,?_⟩
  · have hfits : ∀ t ∈ s.peers.map (fun p => addrText (s.peer p).addr), t.length + 2 < 32 := by
      intro t ht
      obtain ⟨p,-,rfl⟩ := List.mem_map.mp ht
      have := length_addrText (s.peer p).addr
      omega
    simp [listText_fits hne hfits]
  · intro hmem
    rcases List.mem_append.mp hmem with hmem | hend
    · rcases List.mem_append.mp hmem with hkey | hitems
      · exact absurd hkey (by decide)
      · rcases mem_intercalate hitems with h | ⟨t,ht,hb⟩
        · cases h
        · obtain ⟨p,-,rfl⟩ := List.mem_map.mp ht
          rcases mem_addrText hb with hd | h | h
          · exact absurd hd (by decide)
          · cases h
          · cases h
    · exact absurd hend (by decide)

end Peers

def Torrent.Listed (tp : Torrent) : Prop := tp.verified.Nonempty ∧ ∀ i ∈ tp.verified, i < 100000

/-- The attributes that a client has from its first lines, and pieces that cannot be mistaken for others. -/
structure CtlConnection.Sane (c : CtlConnection) (mi : Metainfo) (started : ℤ) : Prop where
  numPieces : c.numPieces = mi.numPieces
  torrentSize : c.torrentSize = mi.len
  torrentBytes : c.torrentBytes = started
  pieces : (∃ t ∈ c.pieces, (58 : UInt8) ∈ t) ∨ ∀ t ∈ c.pieces, ∃ i < 100000, decimal i = t

def CtlConnection.Knows (c : CtlConnection) (tp : Torrent) : Prop := ∀ t, t ∈ c.pieces ↔
    ∃ i ∈ tp.verified, decimal i = t

/-- What may wait for its ending: nothing, or a list that the client can do without. -/
def Unended (tp : Torrent) (rest : Bytes) : Prop :=
  rest = [] ∨ (∃ x, rest = ascii "peers:" ++ x) ∨ ¬ tp.Listed ∧ ∃ x, rest = ascii "pieces:" ++ x

/-- A connection has been sent what its client has to know. -/
structure Informed (tp : Torrent) (started : ℤ) (sent : Bytes) (c : CtlConnection) (rest : Bytes) : Prop where
  reads : Reads sent c rest
  sane : c.Sane tp.mi started
  knows : tp.Listed → c.Knows tp
  waiting : Unended tp rest

section Informed
variable {tp tp' : Torrent} {started : ℤ} {sent rest text : Bytes} {c : CtlConnection} {s : Session}

theorem Informed.same (h : Informed tp started sent c rest) (hmi : tp'.mi = tp.mi) (hver : tp'.verified = tp.verified) :
    Informed tp' started sent c rest := by
  have hlisted : tp'.Listed ↔ tp.Listed := by rw [Torrent.Listed,Torrent.Listed,hver]
  refine ⟨h.reads,hmi ▸ h.sane,?_,?_⟩
  · intro hl t
    rw [hver]
    exact h.knows (hlisted.mp hl) t
  · rw [Unended,hlisted]
    exact h.waiting

/-- Any line with a colon in it ends what is waiting, and leaves the client as it would have left it, but for a
list that was begun. -/
theorem Informed.ended (h : Informed tp started sent c rest) {l : Bytes} {c' : CtlConnection}
    (hl : 10 ∉ l) (hcolon : 58 ∈ l)
    (hline : c.line l = some c') (hsane : c'.Sane tp.mi started) (hpieces : c'.pieces = c.pieces) :
    ∃ d, Informed tp started (sent ++ (l ++ [10])) d [] := by
  have hknows : tp.Listed → c'.Knows tp := by
    intro hl t
    rw [hpieces]
    exact h.knows hl t
  rcases h.waiting with rfl | ⟨x,rfl⟩ | ⟨hlisted,x,rfl⟩
  · exact ⟨c',.line h.reads hl hline,hsane,hknows,.inl rfl⟩
  · have hbegun := line_peers_begun c (x ++ l)
    rw [← List.append_assoc] at hbegun
    exact ⟨_,.line h.reads hl hbegun,⟨h.sane.numPieces,h.sane.torrentSize,h.sane.torrentBytes,h.sane.pieces⟩,
      h.knows,.inl rfl⟩
  · have hbegun := line_pieces_begun c (x ++ l)
    rw [← List.append_assoc] at hbegun
    exact ⟨_,.line h.reads hl hbegun,⟨h.sane.numPieces,h.sane.torrentSize,h.sane.torrentBytes,
      .inl (colon_mem_sortedItems (List.mem_append_right _ hcolon))⟩,fun hl => (hlisted hl).elim,.inl rfl⟩

theorem Informed.bytes (h : Informed tp started sent c rest) (n : ℤ) : ∃ d, Informed tp started
    (sent ++ bytesText n) d [] := by
  rw [bytesText_eq]
  exact h.ended (splitFirst_line (by decide +kernel) (plain_decimalInt n)).1 (by simp) (line_bytes c n)
    ⟨h.sane.numPieces,h.sane.torrentSize,h.sane.torrentBytes,h.sane.pieces⟩ rfl

/-- The pieces, told at the start of a line. -/
theorem informed_pieces (h : Reads sent c []) (hs : c.Sane tp.mi started) (ht : tp.Tallied)
    (htext : ctlServerPieces tp = .ok text) :
    ∃ d rest, Informed tp started (sent ++ text) d rest := by
  obtain ⟨-,rfl⟩ := (ctlServerPieces_ok ht).mp htext
  have hgood : tp.good ≠ [] ↔ tp.verified.Nonempty := by
    rw [← tp.toFinset_good,List.toFinset_nonempty_iff]
  by_cases hnl : 10 ∈ listText 8 (tp.good.map decimal)
  · obtain ⟨hne,hlt⟩ := newline_piecesText hnl
    obtain ⟨l,hl,heq,hline⟩ := line_pieces (c := c) hne hlt
    rw [heq]
    refine ⟨_,[],.line h hl hline,⟨hs.numPieces,hs.torrentSize,hs.torrentBytes,.inr ?_⟩,fun _ =>
      mem_pieces hne,.inl rfl⟩
    intro t ht
    obtain ⟨i,hi,rfl⟩ := (mem_pieces hne t).mp ht
    exact ⟨i,hlt i (Torrent.mem_good.mpr hi),rfl⟩
  · have hunlisted : ¬ tp.Listed := by
      rintro ⟨hne,hlt⟩
      obtain ⟨l,hl,heq,-⟩ := line_pieces (c := c) (hgood.mpr hne) fun i hi => hlt i (Torrent.mem_good.mp hi)
      apply not_newline hnl
      rw [heq]
      simp
    refine ⟨c,tp.piecesText,?_,hs,fun hl => (hunlisted hl).elim,.inr (.inr ⟨hunlisted,_,rfl⟩)⟩
    exact .part h fun hmem => not_newline hnl (List.mem_append_left _ hmem)

theorem Informed.peers (h : Informed tp started sent c rest) (hcount : s.numPeers = wrap32 s.peers.length)
    (htext : ctlServerPeers s = .ok text) : ∃ d rest', Informed tp started (sent ++ text) d rest' := by
  rcases peers_text hcount htext with rfl | ⟨x,rfl,hx⟩
  · refine ⟨c,rest ++ ascii "peers:",.part h.reads (by decide),h.sane,h.knows,?_⟩
    rcases h.waiting with rfl | ⟨x,rfl⟩ | ⟨hlisted,x,rfl⟩
    · exact .inr (.inl ⟨[],rfl⟩)
    · exact .inr (.inl ⟨x ++ ascii "peers:",List.append_assoc _ _ _⟩)
    · exact .inr (.inr ⟨hlisted,x ++ ascii "peers:",List.append_assoc _ _ _⟩)
  · rw [List.append_assoc (ascii "peers:")] at hx ⊢
    have hcolon : (58 : UInt8) ∈ ascii "peers:" ++ (x ++ [13]) := List.mem_append_left _ (by decide)
    obtain ⟨d,hd⟩ := h.ended hx hcolon (line_peers_begun c (x ++ [13]))
      ⟨h.sane.numPieces,h.sane.torrentSize,h.sane.torrentBytes,h.sane.pieces⟩ rfl
    exact ⟨d,[],hd⟩

/-- A new connection. -/
theorem informed_bootstrap (hcount : s.numPeers = wrap32 s.peers.length) (ht : s.tp.Tallied)
    (htext : ctlServerBootstrap s started = .ok text) : ∃ c rest, Informed s.tp started text c rest := by
  simp only [ctlServerBootstrap] at htext
  split at htext
  · cases htext
  rename_i hshort
  obtain ⟨pieces,hpieces,htext⟩ := bind_ok.mp htext
  obtain ⟨peers,hpeers,htext⟩ := bind_ok.mp htext
  cases htext
  rw [snprintf_of_lt (not_le.mp hshort)]
  have hline (key : Bytes) (z : ℤ) (hkey : ∀ b ∈ key, isSpace b = false ∧ b ≠ 58) :
      10 ∉ key ++ 58 :: decimalInt z ++ [13] :=
    (splitFirst_line hkey (plain_decimalInt z)).1
  have hfigures : Reads ([] ++ ((ascii "num_peers" ++ 58 :: decimalInt s.numPeers ++ [13]) ++ [10]) ++
      ((ascii "num_pieces" ++ 58 :: decimalInt s.tp.numPieces ++ [13]) ++ [10]) ++
      ((ascii "torrent_size" ++ 58 :: decimalInt s.tp.mi.len ++ [13]) ++ [10]) ++
      ((ascii "torrent_bytes" ++ 58 :: decimalInt started ++ [13]) ++ [10]))
      { numPieces := s.tp.numPieces, torrentSize := s.tp.mi.len, torrentBytes := started } [] :=
    .line (.line (.line (.line .nil (hline _ _ (by decide +kernel)) (line_figures _ _).1)
      (hline _ _ (by decide +kernel))
      (line_figures _ _).2.1) (hline _ _ (by decide +kernel)) (line_figures _ _).2.2.1) (hline _ _ (by decide +kernel))
      (line_figures _ _).2.2.2
  obtain ⟨c,rest,hc⟩ := informed_pieces hfigures ⟨rfl,rfl,rfl,.inr nofun⟩ ht hpieces
  obtain ⟨d,rest',hd⟩ := hc.peers hcount hpeers
  refine ⟨d,rest',?_⟩
  convert hd using 2
  simp [ascii,decimal_eq_decimalInt]

theorem Informed.notices (h : Informed tp started sent c rest) (hmi : tp'.mi = tp.mi) (ht : tp'.Tallied)
    (hn : Notices tp tp' text) : ∃ d rest', Informed tp' started (sent ++ text) d rest' := by
  cases hn with
  | nothing hver =>
    rw [List.append_nil]
    exact ⟨c,rest,h.same hmi hver⟩
  | bytes n hver =>
    obtain ⟨d,hd⟩ := h.bytes n
    exact ⟨d,[],hd.same hmi hver⟩
  | pieces n hpieces =>
    obtain ⟨d,hd⟩ := h.bytes n
    rw [← List.append_assoc]
    exact informed_pieces hd.reads (hmi ▸ hd.sane) ht hpieces

end Informed

section Runs
variable {sha1 : Bytes → Bytes} {b : Boot} {c c' : Controlled}

/-- States of the session and its control server that some run of the event loop reaches. -/
def CtlReachable (sha1 : Bytes → Bytes) (b : Boot) (c : Controlled) : Prop := ∃ gui es, b.ctlRun sha1 gui es = .ok c

def Controlled.Informs (c : Controlled) : Prop :=
  ∀ conns, c.server = some conns → ∀ sent ∈ conns, ∃ d rest, Informed c.sc.tp c.started sent d rest

/-- A callback of the session is one of the session with its server, and tells the connections what belongs to it. -/
theorem ctlStep_session {env : Env} {e : Event} (h : ctlStep sha1 c (env,.session e) = .ok c') :
    step sha1 c.sc (env,e) = .ok c'.sc ∧ c'.started = c.started ∧
      (Told (Notices c.sc.tp c'.sc.tp) c.server c'.server ∨
        (¬ ∃ p avail, e = .response p avail) ∧ Told (fun t => t = [] ∨ ctlServerPeers c'.sc = .ok t)
          c.server c'.server) := by
  have hquiet {e : Event} (he : ¬ ∃ p avail, e = .response p avail)
      (h : (step sha1 c.sc (env,e)).map (fun s => ({ c with sc := s } : Controlled)) = .ok c') :
      step sha1 c.sc (env,e) = .ok c'.sc ∧ c'.started = c.started ∧
        (Told (Notices c.sc.tp c'.sc.tp) c.server c'.server ∨
          (¬ ∃ p avail, e = .response p avail) ∧ Told (fun t => t = [] ∨ ctlServerPeers c'.sc = .ok t)
              c.server c'.server) := by
    obtain ⟨s,hs,rfl⟩ := map_ok.mp h
    exact ⟨hs,rfl,.inr ⟨he,.same (.inl rfl)⟩⟩
  cases e with
  | response p avail =>
    simp only [ctlStep] at h
    simp only [step]
    split at h
    · rw [if_pos ‹_›]
      obtain ⟨hs,hstarted,htold⟩ := ctlReader_invoke_ok h
      exact ⟨hs,hstarted,.inl htold⟩
    · cases h
      rw [if_neg ‹_›]
      exact ⟨rfl,rfl,.inl (.same (.nothing rfl))⟩
  | tracker addrs =>
    cases addrs with
    | none => exact hquiet (by simp) h
    | some addrs =>
      obtain ⟨t,ht,h⟩ := bind_ok.mp h
      obtain ⟨u,hu,h⟩ := bind_ok.mp h
      obtain ⟨conns,hconns,rfl⟩ := notified_ok hu
      cases h
      exact ⟨bind_ok.mpr ⟨t,ht,rfl⟩,rfl,.inr ⟨by simp,(ctlServerNotify_ok hconns).mono fun t ht => .inr ht⟩⟩
  | error p => exact hquiet (by simp) h
  | keepalive p => exact hquiet (by simp) h
  | accept addr => exact hquiet (by simp) h
  | announceTimer => exact hquiet (by simp) h
  | scheduler => exact hquiet (by simp) h

/-- Only input from a peer verifies pieces. -/
theorem Reachable.verified_of_quiet {s s' : Session} {env : Env} {e : Event} (h : Reachable sha1 b s)
    (he : ¬ ∃ p avail, e = .response p avail) (hs : Unworkable.step sha1 s (env,e) = .ok s') :
    s'.tp.verified = s.tp.verified := by
  have hpeered : s.core.Peered := by
    obtain ⟨es,hes⟩ := h
    obtain ⟨s₀,hs₀,hrun⟩ := bind_ok.mp hes
    obtain ⟨tp,-,rfl⟩ := Boot.session_ok hs₀
    exact (initial_peered tp b.maxfds b.peerid b.seed b.now).moves (run_moves (initial_peered _ _ _ _ _) hrun)
  rcases step_counters hpeered hs with hk | ⟨_,_,⟨p,avail,_,_,heq,-⟩,-,-⟩
  · exact hk.verified
  · exact (he ⟨p,avail,heq⟩).elim

theorem ctlStep_informs {e : Env × CtlEvent} (hr : Reachable sha1 b c.sc) (hi : c.Informs)
    (h : ctlStep sha1 c e = .ok c') : Reachable sha1 b c'.sc ∧ c'.Informs := by
  have hcount : c.sc.numPeers = wrap32 c.sc.peers.length := hr.census.1.count
  obtain ⟨env,e⟩ := e
  cases e with
  | session e =>
    obtain ⟨hs,hstarted,htold⟩ := ctlStep_session h
    have hr' := hr.step hs
    have hmi : c'.sc.tp.mi = c.sc.tp.mi := hr'.sound.2.trans hr.sound.2.symm
    have hcount' : c'.sc.numPeers = wrap32 c'.sc.peers.length := hr'.census.1.count
    refine ⟨hr',?_⟩
    intro conns' hconns' sent' hsent'
    rw [hstarted]
    rcases htold with (⟨-,hnone⟩ | ⟨conns,text,hconns,hserver,hnotices⟩) |
      ⟨hquiet,⟨-,hnone⟩ | ⟨conns,text,hconns,hserver,htext⟩⟩
    · rw [hnone] at hconns'
      cases hconns'
    · cases hconns'.symm.trans hserver
      obtain ⟨sent,hsent,rfl⟩ := List.mem_map.mp hsent'
      obtain ⟨d,rest,hd⟩ := hi conns hconns sent hsent
      exact hd.notices hmi hr'.tallied hnotices
    · rw [hnone] at hconns'
      cases hconns'
    · cases hconns'.symm.trans hserver
      obtain ⟨sent,hsent,rfl⟩ := List.mem_map.mp hsent'
      obtain ⟨d,rest,hd⟩ := hi conns hconns sent hsent
      have hd' := hd.same hmi (hr.verified_of_quiet hquiet hs)
      rcases htext with rfl | htext
      · rw [List.append_nil]
        exact ⟨d,rest,hd'⟩
      · exact hd'.peers hcount' htext
  | connect accepted =>
    simp only [ctlStep,ctlServerHandleConnect] at h
    split at h
    · cases h
      exact ⟨hr,hi⟩
    rename_i conns hconns
    split at h
    · obtain ⟨text,htext,rfl⟩ := map_ok.mp h
      refine ⟨hr,?_⟩
      intro conns' hconns' sent hsent
      cases hconns'
      rcases List.mem_append.mp hsent with hsent | hsent
      · exact hi conns hconns sent hsent
      · rw [List.mem_singleton.mp hsent]
        exact informed_bootstrap hcount hr.tallied htext
    · cases h
      exact ⟨hr,hi⟩
  | disconnect k =>
    cases h
    refine ⟨hr,?_⟩
    intro conns' hconns' sent hsent
    obtain ⟨conns,hconns,rfl⟩ := Option.map_eq_some_iff.mp hconns'
    exact hi conns hconns sent (List.mem_of_mem_eraseIdx hsent)

theorem CtlReachable.informs (h : CtlReachable sha1 b c) : Reachable sha1 b c.sc ∧ c.Informs := by
  obtain ⟨gui,es,hes⟩ := h
  obtain ⟨c₀,hc₀,hrun⟩ := bind_ok.mp hes
  obtain ⟨tp,htp,hc₀⟩ := bind_ok.mp hc₀
  obtain ⟨s,hs,hc₀⟩ := bind_ok.mp hc₀
  cases hc₀
  have hall := foldlM_rel (R := fun c c' : Controlled => Reachable sha1 b c.sc ∧ c.Informs →
    Reachable sha1 b c'.sc ∧ c'.Informs)
    (fun _ h => h) (fun hab hbc h => hbc (hab h)) es (fun t t' e _ hstep ht => ctlStep_informs ht.1 ht.2 hstep) hrun
  apply hall
  refine ⟨⟨[],bind_ok.mpr ⟨s,hs,rfl⟩⟩,?_⟩
  intro conns hconns sent hsent
  cases gui with
  | true =>
    cases hconns
    cases hsent
  | false => cases hconns

theorem decimal_injective {i j : ℕ} (h : decimal i = decimal j) : i = j := by
  have hread := readDecimal_decimal i
  rw [h,readDecimal_decimal] at hread
  exact (Option.some.inj hread).symm

/-- A client that has pieces that can be told for the verified ones is told them. -/
theorem Informed.knows_iff {tp : Torrent} {started : ℤ} {sent rest : Bytes} {d : CtlConnection}
    (h : Informed tp started sent d rest)
    (hne : tp.verified.Nonempty) : d.Knows tp ↔ ∀ i ∈ tp.verified, i < 100000 := by
  constructor
  · intro hk i hi
    have hmem := (hk (decimal i)).mpr ⟨i,hi,rfl⟩
    rcases h.sane.pieces with ⟨t,ht,hcolon⟩ | hall
    · obtain ⟨j,-,rfl⟩ := (hk t).mp ht
      exact absurd (isDigit_of_mem_decimal hcolon) (by decide)
    · obtain ⟨j,hj,heq⟩ := hall _ hmem
      rwa [← decimal_injective heq]
  · intro hlt
    exact h.knows ⟨hne,hlt⟩

end Runs

/-- Whenever, and however often, control clients connect and disconnect: a client that has read all it was sent
has the number of pieces, the size of the torrent and what the session started with, and as soon as a piece is
verified it has exactly the verified pieces if and only if none of them has an index of more than five digits. -/
theorem control_clients_informed (sha1 : Bytes → Bytes) (b : Boot) (c : Controlled) (h : CtlReachable sha1 b c)
    (conns : List Bytes)
    (hconns : c.server = some conns) (sent : Bytes) (hsent : sent ∈ conns) :
    (CtlConnection.run false sent).numPieces = b.mi.numPieces ∧ (CtlConnection.run false sent).torrentSize = b.mi.len ∧
      (CtlConnection.run false sent).torrentBytes = c.started ∧
      (c.sc.tp.verified.Nonempty → ((∀ t, t ∈ (CtlConnection.run false sent).pieces ↔
        ∃ i ∈ c.sc.tp.verified, decimal i = t) ↔
        ∀ i ∈ c.sc.tp.verified, i < 100000)) := by
  obtain ⟨hr,hi⟩ := h.informs
  obtain ⟨d,rest,hd⟩ := hi conns hconns sent hsent
  rw [hd.reads.run,← hr.sound.2]
  exact ⟨hd.sane.numPieces,hd.sane.torrentSize,hd.sane.torrentBytes,hd.knows_iff⟩

/-- A client that connects before there is a piece or a peer has the only piece when it has been delivered. -/
theorem control_clients_informed_one : ∃ c sent, CtlReachable sha1ZeroByte (.oneByte zeroByteDigest 1) c ∧
    c.server = some [sent] ∧
    c.sc.tp.verified = {0} ∧ ∀ t, t ∈ (CtlConnection.run false sent).pieces ↔ t = ascii "0" := by
  have hrun : ((Boot.oneByte zeroByteDigest 1).ctlRun sha1ZeroByte true ((.plain 1000,.connect true) ::
      (oneRequestRun ++ inputs 1002 0 (messagePortions [msgPieceId,0,0,0,0,0,0,0,0,0])).map fun e => (e.1,.session e.2))
      ).toOption.map (fun c => decide (c.sc.tp.verified = {0} ∧ ∃ sent ∈ c.server.getD [], c.server =
          some [sent])) = some true := by
    decide +kernel
  obtain ⟨c,hc,hP⟩ := exists_ok hrun
  obtain ⟨hver,sent,-,hserver⟩ := of_decide_eq_true hP
  obtain ⟨-,-,-,hpieces⟩ := control_clients_informed sha1ZeroByte _ c ⟨true,_,hc⟩ _ hserver sent
    (List.mem_singleton.mpr rfl)
  refine ⟨c,sent,⟨true,_,hc⟩,hserver,hver,?_⟩
  rw [hver] at hpieces
  have hknows := (hpieces ⟨0,Finset.mem_singleton_self 0⟩).mpr (by simp)
  intro t
  rw [hknows t]
  simp [show decimal 0 = ascii "0" by decide,eq_comm]

end Unworkable
