import Unworkable.Library.Decimal
import Unworkable.Session.Tally

/-! # The control server

The messages a control connection is sent when it is made. A buffer of characters is the
text in front of its terminator, so `snprintf` into a buffer keeps what fits before that.
-/
namespace Unworkable
open Library

def ctlMessageLen : ℕ := 64
def bootstrapLen : ℕ := 1024

/-- Values of `off_t`. -/
def OffT (z : ℤ) : Prop := -9223372036854775808 ≤ z ∧ z < 9223372036854775808

/-- `struct ctl_server`, with the bounds of the figures it sends. -/
structure CtlServer where
  sc : Session
  started : ℤ
  started_off : OffT started
  len_off : OffT sc.tp.mi.len
  numPeers_lt : sc.numPeers < 4294967296

def snprintf (size : ℕ) (text : Bytes) : Bytes := text.take (size - 1)

/-- `strlcat` with its caller's check for truncation. -/
def strlcat (msg : String) (size : ℕ) (dst src : Bytes) : Except Halt Bytes :=
  if dst.length + src.length ≥ size then .error (.errx msg) else .ok (dst ++ src)

/-- An item of a list message in its buffer: a line ending behind the last one, a comma
behind the others. -/
def listItem (size : ℕ) (last : Bool) (item : Bytes) : Bytes :=
  snprintf size (item ++ if last then ascii "\r\n" else ascii ",")

/-- The turn of both list loops, on the items counted and the text so far. -/
def listTurn (msg : String) (size total msglen : ℕ) (w : ℕ × Bytes) (item : Bytes) : Except Halt (ℕ × Bytes) :=
  let count := add32 w.1 1
  (strlcat msg msglen w.2 (listItem size (count = total) item)).map (count,·)

def piecesTurn (tp : Torrent) (msglen : ℕ) (w : ℕ × Bytes) (i : ℕ) : Except Halt (ℕ × Bytes) := do
  let tpp ← torrentPieceFind tp i
  if tpp.cksumok then listTurn "ctl_server_pieces() string truncation" 8 tp.goodPieces msglen w (decimal i)
  else .ok w

def ctlServerPieces (tp : Torrent) : Except Halt Bytes :=
  let msglen := add32 ctlMessageLen (mul32 5 tp.goodPieces)
  ((List.range tp.numPieces).foldlM (piecesTurn tp msglen) (0,snprintf msglen (ascii "pieces:"))).map Prod.snd

/-- `inet_ntoa`, of the four octets in front of the port. -/
def inetNtoa (addr : ℕ) : Bytes :=
  [46].intercalate ([40,32,24,16].map (fun k => decimal (addr / 2 ^ k % 256)))

/-- `"%s:%d"`, of a socket address. -/
def addrText (addr : ℕ) : Bytes := inetNtoa addr ++ 58 :: decimal (addr % 65536)

def ctlServerPeers (s : Session) : Except Halt Bytes :=
  let msglen := add32 ctlMessageLen (mul32 32 s.numPeers)
  ((s.peers.map (fun p => addrText (s.peer p).addr)).foldlM
    (listTurn "ctl_server_peers() string truncation" 32 s.numPeers msglen) (0,snprintf msglen (ascii "peers:"))).map
      Prod.snd

def bootstrapText (cs : CtlServer) : Bytes :=
  ascii "num_peers:" ++ decimal cs.sc.numPeers ++ ascii "\r\nnum_pieces:" ++ decimal cs.sc.tp.numPieces ++
    ascii "\r\ntorrent_size:" ++ decimalInt cs.sc.tp.mi.len ++ ascii "\r\ntorrent_bytes:" ++ decimalInt cs.started ++
    ascii "\r\n"

/-- `ctl_server_conn_bootstrap`: everything it writes to the connection. -/
def ctlServerConnBootstrap (cs : CtlServer) : Except Halt Bytes := do
  if (bootstrapText cs).length ≥ bootstrapLen then .error (.errx "ctl_server_conn_bootstrap() string truncation")
  else
    let pieces ← ctlServerPieces cs.sc.tp
    let peers ← ctlServerPeers cs.sc
    .ok (snprintf bootstrapLen (bootstrapText cs) ++ pieces ++ peers)

def listText (size : ℕ) : List Bytes → Bytes
  | [] => []
  | [item] => listItem size true item
  | item :: next :: items => listItem size false item ++ listText size (next :: items)

section Lists
variable {msg : String} {size total msglen : ℕ}

theorem snprintf_of_lt {text : Bytes} (h : text.length < size) : snprintf size text = text := by
  apply List.take_of_length_le
  omega

theorem strlcat_ok {dst src bs : Bytes} : strlcat msg msglen dst src = .ok bs ↔
    dst.length + src.length < msglen ∧ dst ++ src = bs := by
  unfold strlcat
  split
  · simp only [reduceCtorEq,false_iff,not_and]
    intro h
    omega
  · simp only [Except.ok.injEq,iff_and_self]
    intro _
    omega

theorem listTurn_ok {c : ℕ} {text item : Bytes} {w : ℕ × Bytes} : listTurn msg size total msglen (c,text) item = .ok w ↔
    text.length + (listItem size (add32 c 1 = total) item).length < msglen ∧
      (add32 c 1,text ++ listItem size (add32 c 1 = total) item) = w := by
  rw [listTurn,map_ok]
  constructor
  · rintro ⟨bs,hbs,rfl⟩
    obtain ⟨hlt,rfl⟩ := strlcat_ok.mp hbs
    exact ⟨hlt,rfl⟩
  · rintro ⟨hlt,rfl⟩
    exact ⟨_,strlcat_ok.mpr ⟨hlt,rfl⟩,rfl⟩

/-- A list of which the right total is known is written item by item, unless the text
outgrows the message. -/
theorem foldlM_listTurn {items : List Bytes} {c : ℕ} {text : Bytes} {w : ℕ × Bytes} (htotal : c + items.length = total)
    (hlt : total < 4294967296) (hne : items ≠ []) :
    items.foldlM (listTurn msg size total msglen) (c,text) = .ok w ↔
      (text ++ listText size items).length < msglen ∧ (total,text ++ listText size items) = w := by
  induction items generalizing c text with
  | nil => exact (hne rfl).elim
  | cons item items ih =>
    rw [List.length_cons] at htotal
    have hcount : add32 c 1 = c + 1 := add32_of_lt (by omega)
    rw [List.foldlM_cons,bind_ok]
    cases items with
    | nil =>
      have hlast : decide (c + 1 = total) = true := by simpa using htotal
      have hstep : c + 1 = total := by simpa using htotal
      constructor
      · rintro ⟨v,hv,hw⟩
        obtain ⟨hfit,rfl⟩ := listTurn_ok.mp hv
        cases hw
        simp only [hcount,hlast] at hfit ⊢
        simp only [listText,List.length_append,hstep]
        exact ⟨hfit,trivial⟩
      · rintro ⟨hfit,rfl⟩
        refine ⟨_,listTurn_ok.mpr ⟨?_,rfl⟩,?_⟩
        · simpa only [hcount,hlast,listText,List.length_append] using hfit
        · simp only [hcount,hstep,listText]
          rfl
    | cons next items =>
      have hnot : decide (c + 1 = total) = false := by
        rw [decide_eq_false_iff_not]
        rw [List.length_cons] at htotal
        omega
      have ih' := fun text => @ih (c + 1) text (by omega) (List.cons_ne_nil _ _)
      simp only [listText,← List.append_assoc]
      constructor
      · rintro ⟨v,hv,hw⟩
        obtain ⟨-,rfl⟩ := listTurn_ok.mp hv
        simp only [hcount,hnot] at hw
        exact (ih' _).mp hw
      · intro hfit
        have hlen := hfit.1
        simp only [List.length_append] at hlen
        refine ⟨_,listTurn_ok.mpr ⟨?_,rfl⟩,?_⟩
        · simp only [hcount,hnot]
          omega
        · simp only [hcount,hnot]
          exact (ih' _).mpr hfit

theorem listItem_ne_nil (last : Bool) (item : Bytes) (hsize : 2 ≤ size) : listItem size last item ≠ [] := by
  unfold listItem snprintf
  rw [Ne,List.take_eq_nil_iff,not_or]
  refine ⟨by omega,?_⟩
  cases last <;> simp [ascii]

/-- Every item takes room in the message. -/
theorem length_foldlM_listTurn {items : List Bytes} {v w : ℕ × Bytes} (hsize : 2 ≤ size)
    (h : items.foldlM (listTurn msg size total msglen) v = .ok w) :
    v.2.length + items.length ≤ w.2.length ∧ (items ≠ [] → w.2.length < msglen) := by
  induction items generalizing v with
  | nil =>
    cases h
    exact ⟨le_refl _,fun hne => (hne rfl).elim⟩
  | cons item items ih =>
    rw [List.foldlM_cons,bind_ok] at h
    obtain ⟨u,hu,h⟩ := h
    obtain ⟨hfit,rfl⟩ := listTurn_ok.mp hu
    obtain ⟨hlen,hlt⟩ := ih h
    have hpos := List.length_pos_iff.mpr (listItem_ne_nil (add32 v.1 1 = total) item hsize)
    rw [List.length_append] at hlen
    refine ⟨by rw [List.length_cons]; omega,?_⟩
    intro _
    by_cases hitems : items = []
    · subst hitems
      cases h
      rwa [List.length_append]
    · exact hlt hitems

end Lists

def Torrent.good (tp : Torrent) : List ℕ := (List.range tp.numPieces).filter (fun i => (tp.piece i).cksumok)

def piecesRoom (n : ℕ) : ℕ := add32 ctlMessageLen (mul32 5 n)

def Torrent.piecesText (tp : Torrent) : Bytes := ascii "pieces:" ++ listText 8 (tp.good.map decimal)

section Pieces
variable {tp : Torrent} {bs : Bytes}

theorem Torrent.mem_good {i : ℕ} : i ∈ tp.good ↔ i ∈ tp.verified := by
  simp [Torrent.good,Torrent.mem_verified]

theorem Torrent.nodup_good (tp : Torrent) : tp.good.Nodup := List.nodup_range.filter _

theorem Torrent.toFinset_good (tp : Torrent) : tp.good.toFinset = tp.verified := by
  apply Finset.ext
  intro i
  rw [List.mem_toFinset,Torrent.mem_good]

theorem Torrent.length_good (tp : Torrent) : tp.good.length = tp.verified.card := by
  rw [← tp.toFinset_good,List.toFinset_card_of_nodup tp.nodup_good]

theorem foldlM_piecesTurn {msglen : ℕ} {w : ℕ × Bytes} {l : List ℕ} (hl : ∀ i ∈ l, i < tp.numPieces) :
    l.foldlM (piecesTurn tp msglen) w = ((l.filter (fun i => (tp.piece i).cksumok)).map decimal).foldlM
      (listTurn "ctl_server_pieces() string truncation" 8 tp.goodPieces msglen) w := by
  induction l generalizing w with
  | nil => rfl
  | cons i l ih =>
    have hfind : torrentPieceFind tp i = .ok (tp.piece i) := torrentPieceFind_ok.mpr ⟨hl i List.mem_cons_self,rfl⟩
    have ih' := fun w => ih (w := w) (fun j hj => hl j (List.mem_cons_of_mem i hj))
    rw [List.foldlM_cons,piecesTurn,hfind,ok_bind,List.filter_cons]
    split
    · rw [List.map_cons,List.foldlM_cons]
      exact congrArg _ (funext ih')
    · exact ih' w

theorem ctlServerPieces_ok (h : tp.Tallied) : ctlServerPieces tp = .ok bs ↔
    (tp.good ≠ [] → tp.piecesText.length < piecesRoom tp.good.length) ∧ tp.piecesText = bs := by
  have hlen : tp.goodPieces = tp.good.length := h.trans tp.length_good.symm
  have hlt : tp.good.length < 4294967296 := by
    rw [tp.length_good]
    exact lt_of_le_of_lt tp.card_verified_le tp.numPieces_lt
  have hfold : ctlServerPieces tp = ((tp.good.map decimal).foldlM (listTurn "ctl_server_pieces() string truncation" 8
      tp.good.length (piecesRoom tp.good.length)) (0,snprintf (piecesRoom tp.good.length) (ascii "pieces:"))).map
          Prod.snd := by
    rw [ctlServerPieces,foldlM_piecesTurn (fun i hi => List.mem_range.mp hi),hlen]
    rfl
  by_cases hnil : tp.good = []
  · have hnone : ctlServerPieces tp = .ok (ascii "pieces:") := by
      rw [hfold,hnil]
      rfl
    have htext : tp.piecesText = ascii "pieces:" := by
      rw [Torrent.piecesText,hnil]
      rfl
    rw [hnone,htext,Except.ok.injEq]
    exact (and_iff_right fun hne => (hne hnil).elim).symm
  have hpos := List.length_pos_iff.mpr hnil
  have hmap : tp.good.map decimal ≠ [] := by simpa using hnil
  have hsome (room : ℕ) (hroom : 8 ≤ room) : snprintf room (ascii "pieces:") = ascii "pieces:" :=
    snprintf_of_lt (lt_of_lt_of_le (by decide) hroom)
  have htext : ∀ w : ℕ × Bytes, 8 ≤ piecesRoom tp.good.length →
      ((tp.good.map decimal).foldlM (listTurn "ctl_server_pieces() string truncation" 8 tp.good.length
        (piecesRoom tp.good.length)) (0,snprintf (piecesRoom tp.good.length) (ascii "pieces:")) = .ok w ↔
        tp.piecesText.length < piecesRoom tp.good.length ∧ (tp.good.length,tp.piecesText) = w) := by
    intro w hroom
    rw [hsome _ hroom]
    exact foldlM_listTurn (by simp) hlt hmap
  rw [hfold,map_ok]
  constructor
  · rintro ⟨w,hw,rfl⟩
    have hroom : 8 ≤ piecesRoom tp.good.length := by
      obtain ⟨hle,hfit⟩ := length_foldlM_listTurn (by decide) hw
      have hfit := hfit hmap
      rw [List.length_map] at hle
      by_contra hsmall
      have hroom : piecesRoom tp.good.length = 64 + 5 * tp.good.length := by
        unfold piecesRoom mul32 add32 ctlMessageLen wrap32
        omega
      omega
    obtain ⟨hfit,rfl⟩ := (htext w hroom).mp hw
    exact ⟨fun _ => hfit,rfl⟩
  · rintro ⟨hfit,rfl⟩
    have hfit := hfit hnil
    have hroom : 8 ≤ piecesRoom tp.good.length := by
      have hlen : 7 ≤ tp.piecesText.length := by
        rw [Torrent.piecesText,List.length_append]
        exact Nat.le_add_right_of_le (by decide)
      omega
    exact ⟨_,(htext _ hroom).mpr ⟨hfit,rfl⟩,rfl⟩

end Pieces

section Peers
variable {s : Session} {bs : Bytes}

theorem ctlServerPeers_nil (hpeers : s.peers = []) (hnum : s.numPeers = 0) : ctlServerPeers s =
    .ok (ascii "peers:") := by
  rw [ctlServerPeers,hpeers,hnum]
  rfl

/-- A count that has wrapped to zero leaves no room for the peers. -/
theorem ctlServerPeers_wrapped (hpeers : 64 ≤ s.peers.length) (hnum : s.numPeers = 0) : ctlServerPeers s ≠ .ok bs := by
  intro h
  obtain ⟨w,hw,-⟩ := map_ok.mp h
  obtain ⟨hle,hlt⟩ := length_foldlM_listTurn (by decide) hw
  rw [List.length_map] at hle
  have hroom : add32 ctlMessageLen (mul32 32 s.numPeers) = 64 := by
    rw [hnum]
    rfl
  rw [hroom] at hlt
  have hfit := hlt (by intro hnil; rw [List.map_eq_nil_iff] at hnil; simp [hnil] at hpeers)
  omega

end Peers

end Unworkable
