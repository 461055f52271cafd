import Unworkable.Control.RoundTrip
import Unworkable.Library.Query
import Unworkable.Tracker.Url

/-! # The announce request

`announce` writes what the session is and has done into the query of a GET request, in a buffer of 2048 bytes. It is
read here as a web server reads it: the request line up to the first carriage return, the target up to a space, the
path up to a question mark. The parameters that no session ever sets (`ip`, `numwant`, `key` and `trackerid`)
are left out.
-/
namespace Unworkable
open Library

def peerIdLen : ℕ := 20
def getStringLen : ℕ := 2048

/-- `network_peer_id_create`, from a random number: `-UL-0001-0%010ld`. -/
def networkPeerIdCreate (r : ℕ) : Bytes :=
  (ascii "-UL-0001-0" ++ (List.replicate (10 - (decimal r).length) 48 ++ decimal r)).take peerIdLen

inductive AnnounceEvent where
  | started
  | completed
  deriving DecidableEq, Repr

def AnnounceEvent.text : AnnounceEvent → Bytes
  | .started => ascii "started"
  | .completed => ascii "completed"

/-- `snprintf` into one of the buffers of `announce`, which gives up on truncation. -/
def announcePrint (text : Bytes) : Option Bytes := if getStringLen ≤ text.length then none else some text

/-- What a request tells about the session. -/
structure AnnounceReport where
  infoHash : Bytes
  peerid : Bytes
  port : Bytes
  uploaded : ℤ
  downloaded : ℤ
  left : ℤ

def AnnounceReport.params (r : AnnounceReport) : Bytes :=
  ascii "?info_hash=" ++ percentEncode r.infoHash ++ ascii "&peer_id=" ++ percentEncode r.peerid ++
    ascii "&port=" ++ r.port ++
    ascii "&uploaded=" ++ decimalInt r.uploaded ++ ascii "&downloaded=" ++ decimalInt r.downloaded ++ ascii "&left=" ++
    decimalInt r.left ++ ascii "&compact=1"

def getRequest (path params host : Bytes) : Bytes :=
  ascii "GET " ++ path ++ params ++ ascii " HTTP/1.0\r\nHost: " ++ host ++
    ascii "\r\nUser-agent: Unworkable/0.5\r\n\r\n"

/-- The request that `announce` sends, unless a buffer is too small. -/
def announceRequest (u : UrlArrays) (r : AnnounceReport) (event : Option AnnounceEvent) : Option Bytes := do
  let params ← announcePrint r.params
  let params ← match event with
    | none => some params
    | some e => announcePrint (params ++ ascii "&event=" ++ e.text)
  announcePrint (getRequest u.path params u.host)

/-- What goes over the wire: `strlen(request) + 1` bytes. -/
def announceSent (u : UrlArrays) (r : AnnounceReport) (event : Option AnnounceEvent) : Option Bytes :=
  (announceRequest u r event).map (· ++ [0])

structure AnnounceSeen where
  path : Bytes
  host : Bytes
  fields : List (Bytes × Bytes)
  deriving DecidableEq

def stripFront (front bs : Bytes) : Option Bytes := if front.isPrefixOf bs then some (bs.drop front.length) else none

def readAnnounce (bs : Bytes) : Option AnnounceSeen := do
  let line ← stripFront (ascii "GET ") (bs.takeWhile (· ≠ 13))
  let target := line.takeWhile (· ≠ 32)
  let _ ← stripFront (ascii " HTTP/1.") (line.dropWhile (· ≠ 32))
  let header ← stripFront (ascii "\r\nHost: ") (bs.dropWhile (· ≠ 13))
  let fields ← readFields ((target.dropWhile (· ≠ 63)).drop 1)
  some ⟨target.takeWhile (· ≠ 63),header.takeWhile (· ≠ 13),fields⟩

def AnnounceReport.fields (r : AnnounceReport) (event : Option AnnounceEvent) : List (Bytes × Bytes) :=
  [(ascii "info_hash",r.infoHash),(ascii "peer_id",r.peerid),(ascii "port",r.port),
    (ascii "uploaded",decimalInt r.uploaded),
    (ascii "downloaded",decimalInt r.downloaded),(ascii "left",decimalInt r.left),(ascii "compact",ascii "1")] ++
    event.toList.map fun e => (ascii "event",e.text)

section Params
variable {r : AnnounceReport} {event : Option AnnounceEvent}

def AnnounceReport.written (r : AnnounceReport) (event : Option AnnounceEvent) : List (Bytes × Bytes) :=
  [(ascii "info_hash",percentEncode r.infoHash),(ascii "peer_id",percentEncode r.peerid),(ascii "port",r.port),
    (ascii "uploaded",decimalInt r.uploaded),(ascii "downloaded",decimalInt r.downloaded),(ascii "left",
      decimalInt r.left),
    (ascii "compact",ascii "1")] ++ event.toList.map fun e => (ascii "event",e.text)

def AnnounceReport.query (r : AnnounceReport) (event : Option AnnounceEvent) : Bytes :=
  r.params ++ event.elim [] fun e => ascii "&event=" ++ e.text

theorem query_eq (r : AnnounceReport) (event : Option AnnounceEvent) : r.query event = 63 :: writeFields
    (r.written event) := by
  cases event with
  | none =>
    simp [AnnounceReport.query,AnnounceReport.params,AnnounceReport.written,writeFields,writeField,
      List.intercalate,ascii,
      List.intersperse]
  | some e =>
    simp [AnnounceReport.query,AnnounceReport.params,AnnounceReport.written,writeFields,writeField,
      List.intercalate,ascii,
      List.intersperse]

theorem not_mem_decimalInt {z : ℤ} {b : UInt8} (hb : isDigit b = false) (hne : b ≠ 45) : b ∉ decimalInt z := by
  intro h
  rcases mem_decimalInt h with rfl | h
  · exact hne rfl
  · rw [hb] at h
    cases h

def AnnounceReport.ids (r : AnnounceReport) : List (Bytes × Bytes) :=
  [(ascii "info_hash",percentEncode r.infoHash),(ascii "peer_id",percentEncode r.peerid)]

theorem encodes_ids (r : AnnounceReport) : Encodes r.ids
    [(ascii "info_hash",r.infoHash),(ascii "peer_id",r.peerid)] := by
  have hamp (bs : Bytes) : (38 : UInt8) ∉ percentEncode bs := not_mem_percentEncode (by decide) (by decide)
  refine .cons (by decide) (by decide) (hamp _) (percentDecode_percentEncode _) ?_
  exact .cons (by decide) (by decide) (hamp _) (percentDecode_percentEncode _) .nil

def AnnounceReport.Plain (r : AnnounceReport) : Prop := ∀ b ∈ r.port, b ≠ 13 ∧ b ≠ 32 ∧ b ≠ 37 ∧ b ≠ 38

theorem encodes_written (hport : r.Plain) : Encodes (r.written event) (r.fields event) := by
  have hampersand : (38 : UInt8) ∉ r.port := fun h => (hport 38 h).2.2.2 rfl
  have hpercent : (37 : UInt8) ∉ r.port := fun h => (hport 37 h).2.2.1 rfl
  have hint (z : ℤ) : (38 : UInt8) ∉ decimalInt z ∧ percentDecode (decimalInt z) = some (decimalInt z) :=
    ⟨not_mem_decimalInt rfl (by decide),percentDecode_plain (not_mem_decimalInt rfl (by decide))⟩
  have hamp (bs : Bytes) : (38 : UInt8) ∉ percentEncode bs := not_mem_percentEncode (by decide) (by decide)
  have hevent : Encodes (event.toList.map fun e => (ascii "event",e.text)) (event.toList.map fun e =>
      (ascii "event",e.text)) := by
    cases event with
    | none => exact .nil
    | some e =>
      refine .cons (by decide) (by decide) ?_ (percentDecode_plain ?_) .nil
      · cases e <;> decide
      · cases e <;> decide
  refine .cons (by decide) (by decide) (hamp _) (percentDecode_percentEncode _) ?_
  refine .cons (by decide) (by decide) (hamp _) (percentDecode_percentEncode _) ?_
  refine .cons (by decide) (by decide) hampersand (percentDecode_plain hpercent) ?_
  refine .cons (by decide) (by decide) (hint _).1 (hint _).2 ?_
  refine .cons (by decide) (by decide) (hint _).1 (hint _).2 ?_
  refine .cons (by decide) (by decide) (hint _).1 (hint _).2 ?_
  exact .cons (by decide) (by decide) (by decide) (percentDecode_plain (by decide)) hevent

end Params

section Read
variable {r : AnnounceReport} {event : Option AnnounceEvent} {path host : Bytes}

/-- Neither a carriage return nor a space is in the parameters. -/
theorem not_mem_query (hport : r.Plain) : (13 : UInt8) ∉ r.query event ∧ (32 : UInt8) ∉ r.query event := by
  have hevent {b : UInt8} (hb : b ∉ ascii "&event=") (hs : b ∉ ascii "started") (hc : b ∉ ascii "completed") :
      b ∉ event.elim [] fun e => ascii "&event=" ++ e.text := by
    cases event with
    | none => nofun
    | some e =>
      rw [Option.elim_some,List.mem_append,not_or]
      cases e with
      | started => exact ⟨hb,hs⟩
      | completed => exact ⟨hb,hc⟩
  have hout {b : UInt8} (hmem : b ∉ r.port) (hlow : b.toNat < 48) (hpercent : b ≠ 37) (hdigit : isDigit b =
    false) (hminus : b ≠ 45)
      (htext : ∀ t ∈ ["?info_hash=","&peer_id=","&port=","&uploaded=","&downloaded=","&left=",
        "&compact=1","&event=","started",
        "completed"],b ∉ ascii t) : b ∉ r.query event := by
    have hencode (bs : Bytes) : b ∉ percentEncode bs := not_mem_percentEncode hlow hpercent
    have hint (z : ℤ) : b ∉ decimalInt z := not_mem_decimalInt hdigit hminus
    simp only [List.forall_mem_cons] at htext
    obtain ⟨h₁,h₂,h₃,h₄,h₅,h₆,h₇,h₈,h₉,h₁₀,-⟩ := htext
    unfold AnnounceReport.query AnnounceReport.params
    simp only [List.mem_append,not_or]
    exact ⟨⟨⟨⟨⟨⟨⟨⟨⟨⟨⟨⟨⟨h₁,hencode _⟩,h₂⟩,hencode _⟩,h₃⟩,hmem⟩,h₄⟩,hint _⟩,h₅⟩,hint _⟩,h₆⟩,hint _⟩,h₇⟩,hevent h₈ h₉ h₁₀⟩
  exact ⟨hout (fun h => (hport 13 h).1 rfl) (by decide) (by decide) rfl (by decide) (by decide),
    hout (fun h => (hport 32 h).2.1 rfl) (by decide) (by decide) rfl (by decide) (by decide)⟩

theorem stripFront_append (front bs : Bytes) : stripFront front (front ++ bs) = some bs := by
  rw [stripFront,if_pos (List.isPrefixOf_iff_prefix.mpr ⟨bs,rfl⟩),List.drop_left]

theorem forall_ne {b : UInt8} {bs : Bytes} (h : b ∉ bs) : ∀ c ∈ bs, decide (c ≠ b) = true := by
  intro c hc
  apply decide_eq_true
  rintro rfl
  exact h hc

theorem takeWhile_stop {b : UInt8} {bs : Bytes} (cs : Bytes) (h : b ∉ bs) : (bs ++ b :: cs).takeWhile (· ≠ b) = bs := by
  rw [List.takeWhile_append_of_pos (forall_ne h),List.takeWhile_cons_of_neg (by simp),List.append_nil]

theorem dropWhile_stop {b : UInt8} {bs : Bytes} (cs : Bytes) (h : b ∉ bs) : (bs ++ b :: cs).dropWhile
    (· ≠ b) = b :: cs := by
  rw [List.dropWhile_append_of_pos (forall_ne h),List.dropWhile_cons_of_neg (by simp)]

/-- A request with its terminator, by what ends its parts. -/
theorem getRequest_parts (path query host : Bytes) : getRequest path query host ++ [0] =
    (ascii "GET " ++ (path ++ query ++ 32 :: ascii "HTTP/1.0")) ++ 13 :: (ascii "\nHost: " ++
      (host ++ 13 :: (ascii "\nUser-agent: Unworkable/0.5\r\n\r\n" ++ [0]))) := by
  have hmiddle : ascii " HTTP/1.0\r\nHost: " = 32 :: ascii "HTTP/1.0" ++ 13 :: ascii "\nHost: " := by decide
  have hend : ascii "\r\nUser-agent: Unworkable/0.5\r\n\r\n" = 13 :: ascii "\nUser-agent: Unworkable/0.5\r\n\r\n" :=
    by decide
  unfold getRequest
  rw [hmiddle,hend]
  simp only [List.append_assoc,List.cons_append]

/-- A request with a clean path is read to its parts. -/
theorem readAnnounce_clean (hport : r.Plain) (hpath : ∀ b ∈ path, b ≠ 13 ∧ b ≠ 32 ∧ b ≠ 63) :
    readAnnounce (getRequest path (r.query event) host ++ [0]) =
      some ⟨path,host.takeWhile (· ≠ 13),r.fields event⟩ := by
  obtain ⟨hreturn,hspace⟩ := @not_mem_query r event hport
  have hline : (13 : UInt8) ∉ ascii "GET " ++ (path ++ r.query event ++ 32 :: ascii "HTTP/1.0") := by
    simp only [List.mem_append,not_or]
    exact ⟨by decide,⟨fun h => (hpath 13 h).1 rfl,hreturn⟩,by decide⟩
  have htarget : (32 : UInt8) ∉ path ++ r.query event := by
    simp only [List.mem_append,not_or]
    exact ⟨fun h => (hpath 32 h).2.1 rfl,hspace⟩
  have hquestion : (63 : UInt8) ∉ path := fun h => (hpath 63 h).2.2 rfl
  have hhost : stripFront (ascii "\r\nHost: ")
    (13 :: (ascii "\nHost: " ++ (host ++ 13 :: (ascii "\nUser-agent: Unworkable/0.5\r\n\r\n" ++ [0])))) =
      some (host ++ 13 :: (ascii "\nUser-agent: Unworkable/0.5\r\n\r\n" ++ [0])) := stripFront_append _ _
  have hversion : stripFront (ascii " HTTP/1.") (32 :: ascii "HTTP/1.0") = some [48] := by decide
  have hhostname : (host ++ 13 :: (ascii "\nUser-agent: Unworkable/0.5\r\n\r\n" ++ [0])).takeWhile (· ≠ 13) =
      host.takeWhile (· ≠ 13) := by
    rw [List.takeWhile_append]
    split
    · rename_i hall
      rw [List.takeWhile_cons_of_neg (by simp),List.append_nil]
      exact ((List.takeWhile_sublist _).eq_of_length hall).symm
    · rfl
  have hfields : readFields (((path ++ 63 :: writeFields (r.written event)).dropWhile (· ≠ 63)).drop 1) =
      some (r.fields event) := by
    rw [dropWhile_stop _ hquestion,List.drop_one,List.tail_cons]
    exact readFields_writeFields (encodes_written hport) (List.cons_ne_nil _ _)
  rw [getRequest_parts]
  unfold readAnnounce
  simp only [Option.bind_eq_bind]
  rw [takeWhile_stop _ hline,dropWhile_stop _ hline,stripFront_append,Option.bind_some,takeWhile_stop _ htarget,
    dropWhile_stop _ htarget,
    hversion,Option.bind_some,hhost,Option.bind_some,query_eq,hfields,Option.bind_some,takeWhile_stop
      _ hquestion,hhostname]

theorem takeWhile_stops (c : UInt8) (bs rest : Bytes) :
    (((bs ++ c :: rest).takeWhile (· ≠ 13)).takeWhile (· ≠ 32)).takeWhile (· ≠ c) =
      bs.takeWhile fun b => decide (b ≠ 13 ∧ b ≠ 32 ∧ b ≠ c) := by
  rw [List.takeWhile_takeWhile,List.takeWhile_takeWhile]
  induction bs with
  | nil =>
    rw [List.nil_append,List.takeWhile_cons_of_neg (by simp)]
    rfl
  | cons b bs ih =>
    rw [List.cons_append,List.takeWhile_cons,List.takeWhile_cons,ih]
    congr 1
    simp only [decide_eq_true_eq,eq_iff_iff]
    tauto

/-- Whatever is read as a path is the part of it in front of the first byte that ends one. -/
theorem readAnnounce_path {seen : AnnounceSeen}
    (h : readAnnounce (getRequest path (r.query event) host ++ [0]) = some seen) :
    seen.path = path.takeWhile fun b => decide (b ≠ 13 ∧ b ≠ 32 ∧ b ≠ 63) := by
  have hget : ∀ b ∈ ascii "GET ", decide (b ≠ 13) = true := by decide +kernel
  rw [getRequest_parts,List.append_assoc] at h
  unfold readAnnounce at h
  simp only [Option.bind_eq_bind] at h
  rw [List.takeWhile_append_of_pos hget,stripFront_append,Option.bind_some] at h
  obtain ⟨_,-,h⟩ := Option.bind_eq_some_iff.mp h
  obtain ⟨_,-,h⟩ := Option.bind_eq_some_iff.mp h
  obtain ⟨_,-,h⟩ := Option.bind_eq_some_iff.mp h
  cases h
  rw [query_eq]
  simp only [List.append_assoc,List.cons_append]
  exact takeWhile_stops 63 path _

/-- The parameters around the port. -/
theorem query_port (r : AnnounceReport) (event : Option AnnounceEvent) :
    ∃ tail, r.query event = 63 :: (writeFields r.ids ++ 38 :: (ascii "port" ++ 61 :: (r.port ++ 38 :: tail))) := by
  refine ⟨ascii "uploaded=" ++ decimalInt r.uploaded ++ ascii "&downloaded=" ++ decimalInt r.downloaded ++
    ascii "&left=" ++
    decimalInt r.left ++ ascii "&compact=1" ++ event.elim [] fun e => ascii "&event=" ++ e.text,?_⟩
  simp [AnnounceReport.query,AnnounceReport.params,AnnounceReport.ids,writeFields,writeField,
    List.intercalate,ascii,List.intersperse]

theorem clean_ids (r : AnnounceReport) : ∀ b ∈ writeFields r.ids, b ≠ 13 ∧ b ≠ 32 := by
  have hout {c : UInt8} (hlow : c.toNat < 48) (hpercent : c ≠ 37) (hinfo : c ∉ ascii "info_hash=")
    (hpeer : c ∉ ascii "&peer_id=") :
      c ∉ writeFields r.ids := by
    have hencode (bs : Bytes) : c ∉ percentEncode bs := not_mem_percentEncode hlow hpercent
    have hshape : writeFields r.ids =
        ascii "info_hash=" ++ percentEncode r.infoHash ++ ascii "&peer_id=" ++ percentEncode r.peerid := by
      simp [AnnounceReport.ids,writeFields,writeField,List.intercalate,ascii,List.intersperse]
    rw [hshape]
    simp only [List.mem_append,not_or]
    exact ⟨⟨⟨hinfo,hencode _⟩,hpeer⟩,hencode _⟩
  intro b hb
  constructor
  · rintro rfl
    exact hout (by decide) (by decide) (by decide) (by decide) hb
  · rintro rfl
    exact hout (by decide) (by decide) (by decide) (by decide) hb

/-- Behind a clean path the port is read as the part of it in front of the first byte that ends a value. -/
theorem readAnnounce_port {seen : AnnounceSeen} (hpath : ∀ b ∈ path, b ≠ 13 ∧ b ≠ 32 ∧ b ≠ 63)
    (h : readAnnounce (getRequest path (r.query event) host ++ [0]) = some seen) :
    ∃ value more, percentDecode (r.port.takeWhile fun b => decide (b ≠ 13 ∧ b ≠ 32 ∧ b ≠ 38)) = some value ∧
      seen.fields = [(ascii "info_hash",r.infoHash),(ascii "peer_id",r.peerid)] ++ (ascii "port",value) :: more := by
  obtain ⟨tail,hquery⟩ := query_port r event
  have hget : ∀ b ∈ ascii "GET ", decide (b ≠ 13) = true := by decide +kernel
  have hfront : ∀ b ∈ path ++ 63 :: (writeFields r.ids ++ 38 :: (ascii "port" ++ [61])), b ≠ 13 ∧ b ≠ 32 := by
    intro b hb
    simp only [List.mem_append,List.mem_cons,List.not_mem_nil,or_false] at hb
    rcases hb with hb | rfl | hb | rfl | hb | rfl
    · exact ⟨(hpath b hb).1,(hpath b hb).2.1⟩
    · decide
    · exact clean_ids r b hb
    · decide
    · exact (show ∀ b ∈ ascii "port", b ≠ 13 ∧ b ≠ 32 by decide +kernel) b hb
    · decide
  rw [getRequest_parts,List.append_assoc] at h
  unfold readAnnounce at h
  simp only [Option.bind_eq_bind] at h
  rw [List.takeWhile_append_of_pos hget,stripFront_append,Option.bind_some] at h
  obtain ⟨_,-,h⟩ := Option.bind_eq_some_iff.mp h
  obtain ⟨_,-,h⟩ := Option.bind_eq_some_iff.mp h
  obtain ⟨fields,hfields,h⟩ := Option.bind_eq_some_iff.mp h
  cases h
  generalize 13 :: (ascii "\nHost: " ++ (host ++ 13 :: (ascii "\nUser-agent: Unworkable/0.5\r\n\r\n" ++ [0]))) =
    header at hfields
  have hsplit : path ++ r.query event ++ 32 :: ascii "HTTP/1.0" ++ header =
      (path ++ 63 :: (writeFields r.ids ++ 38 :: (ascii "port" ++ [61]))) ++
          (r.port ++ 38 :: (tail ++ 32 :: ascii "HTTP/1.0" ++ header)) := by
    rw [hquery]
    simp
  rw [hsplit,List.takeWhile_append_of_pos (fun b hb => decide_eq_true (hfront b hb).1),
    List.takeWhile_append_of_pos (fun b hb => decide_eq_true (hfront b hb).2),List.append_assoc,List.cons_append,
    dropWhile_stop _ (fun h => (hpath 63 h).2.2 rfl),List.drop_one,List.tail_cons,List.append_assoc,List.cons_append,
    List.append_assoc,List.singleton_append] at hfields
  obtain ⟨value,more,hvalue,rfl⟩ := readFields_append (encodes_ids r) (List.cons_ne_nil _ _) (by decide)
    (by decide) hfields
  rw [takeWhile_stops] at hvalue
  exact ⟨value,more,hvalue,rfl⟩

/-- A port is read as it is only if it is plain. -/
theorem plain_of_readAnnounce {seen : AnnounceSeen} (hpath : ∀ b ∈ path, b ≠ 13 ∧ b ≠ 32 ∧ b ≠ 63)
    (h : readAnnounce (getRequest path (r.query event) host ++ [0]) = some seen)
    (hfields : seen.fields = r.fields event) : r.Plain := by
  obtain ⟨value,more,hvalue,hseen⟩ := readAnnounce_port hpath h
  have hself : value = r.port := by
    rw [hfields] at hseen
    exact (by simpa [AnnounceReport.fields] using hseen : r.port = value ∧ _).1.symm
  rw [hself] at hvalue
  have hlen := (length_percentDecode _ _ hvalue).1
  have hall : r.port.takeWhile (fun b => decide (b ≠ 13 ∧ b ≠ 32 ∧ b ≠ 38)) = r.port :=
    (List.takeWhile_sublist _).eq_of_length_le hlen
  rw [hall] at hvalue
  intro b hb
  have hstop := of_decide_eq_true (List.takeWhile_eq_self_iff.mp hall b hb)
  refine ⟨hstop.1,hstop.2.1,?_,hstop.2.2⟩
  rintro rfl
  exact absurd ((length_percentDecode _ _ hvalue).2 hb) (Nat.lt_irrefl _)

end Read

section Length
variable {r : AnnounceReport} {event : Option AnnounceEvent} {u : UrlArrays}

/-- The buffers overflow if the whole request does. -/
theorem announceRequest_eq (u : UrlArrays) (r : AnnounceReport) (event : Option AnnounceEvent) :
    announceRequest u r event = announcePrint (getRequest u.path (r.query event) u.host) := by
  have hlong {params : Bytes} (h : getStringLen ≤ params.length) :
      announcePrint (getRequest u.path params u.host) = none := by
    apply if_pos
    unfold getRequest
    simp only [List.length_append]
    omega
  unfold announceRequest AnnounceReport.query
  by_cases hparams : getStringLen ≤ r.params.length
  · rw [announcePrint,if_pos hparams,hlong]
    · rfl
    · rw [List.length_append]
      omega
  · rw [announcePrint,if_neg hparams]
    cases event with
    | none => simp
    | some e =>
      simp only [Option.bind_eq_bind,Option.bind_some,Option.elim_some]
      by_cases hevent : getStringLen ≤ (r.params ++ ascii "&event=" ++ e.text).length
      · rw [announcePrint,if_pos hevent,hlong (by rwa [← List.append_assoc])]
        rfl
      · rw [announcePrint,if_neg hevent,Option.bind_some,List.append_assoc]

def AnnounceReport.size (r : AnnounceReport) (event : Option AnnounceEvent) : ℕ :=
  3 * (r.infoHash.length + r.peerid.length) + r.port.length + (decimalInt r.uploaded).length +
    (decimalInt r.downloaded).length +
    (decimalInt r.left).length + (event.elim 0 fun e => 7 + e.text.length) + 117

theorem length_getRequest (u : UrlArrays) (r : AnnounceReport) (event : Option AnnounceEvent) :
    (getRequest u.path (r.query event) u.host).length = u.path.length + u.host.length + r.size event := by
  have hevent : (event.elim ([] : Bytes) fun e => ascii "&event=" ++ e.text).length = event.elim 0 fun e =>
      7 + e.text.length := by
    cases event with
    | none => rfl
    | some e => exact List.length_append
  have hconst : (ascii "GET ").length = 4 ∧ (ascii " HTTP/1.0\r\nHost: ").length = 17 ∧
      (ascii "\r\nUser-agent: Unworkable/0.5\r\n\r\n").length = 32 ∧ (ascii "?info_hash=").length = 11 ∧
      (ascii "&peer_id=").length = 9 ∧ (ascii "&port=").length = 6 ∧ (ascii "&uploaded=").length = 10 ∧
      (ascii "&downloaded=").length = 12 ∧ (ascii "&left=").length = 6 ∧ (ascii "&compact=1").length = 10 := by decide
  obtain ⟨h₁,h₂,h₃,h₄,h₅,h₆,h₇,h₈,h₉,h₁₀⟩ := hconst
  unfold getRequest AnnounceReport.query AnnounceReport.params AnnounceReport.size
  simp only [List.length_append,hevent,length_percentEncode,h₁,h₂,h₃,h₄,h₅,h₆,h₇,h₈,h₉,h₁₀]
  omega

end Length

/-- A tracker is told the path and the host of the announce URL and what the session is and has done, if and only if the
request fits its buffer, the path has no carriage return, space or question mark, the host no carriage return, and the
port is plain. -/
theorem announce_read_iff (u : UrlArrays) (r : AnnounceReport) (event : Option AnnounceEvent) :
    (∃ sent, announceSent u r event = some sent ∧ readAnnounce sent = some ⟨u.path,u.host,r.fields event⟩) ↔
      u.path.length + u.host.length + r.size event < 2048 ∧ (∀ b ∈ u.path, b ≠ 13 ∧ b ≠ 32 ∧ b ≠ 63) ∧
        (13 : UInt8) ∉ u.host ∧
        r.Plain := by
  unfold announceSent
  rw [announceRequest_eq,announcePrint,length_getRequest,getStringLen]
  by_cases hfits : u.path.length + u.host.length + r.size event < 2048
  · rw [if_neg (Nat.not_le.mpr hfits)]
    simp only [Option.map_some,Option.some_inj,exists_eq_left',hfits,true_and]
    constructor
    · intro h
      have hpath : u.path = u.path.takeWhile fun b => decide (b ≠ 13 ∧ b ≠ 32 ∧ b ≠ 63) := readAnnounce_path h
      have hclean : ∀ b ∈ u.path, b ≠ 13 ∧ b ≠ 32 ∧ b ≠ 63 := by
        intro b hb
        exact of_decide_eq_true (List.takeWhile_eq_self_iff.mp hpath.symm b hb)
      have hport := plain_of_readAnnounce hclean h rfl
      rw [readAnnounce_clean hport hclean] at h
      have hhost := congrArg AnnounceSeen.host (Option.some.inj h)
      refine ⟨hclean,fun hmem => ?_,hport⟩
      have hkeep := List.takeWhile_eq_self_iff.mp hhost 13 hmem
      exact absurd (of_decide_eq_true hkeep) (by decide)
    · rintro ⟨hclean,hhost,hport⟩
      rw [readAnnounce_clean hport hclean]
      have hself : u.host.takeWhile (· ≠ 13) = u.host := List.takeWhile_eq_self_iff.mpr (forall_ne hhost)
      rw [hself]
  · rw [if_pos (Nat.not_lt.mp hfits)]
    simp [hfits]

/-- The announce of a session that has just started. -/
example : (announceSent ⟨ascii "tracker.test",ascii "6969",ascii "/announce"⟩
      ⟨List.replicate 20 255,networkPeerIdCreate 42,ascii "6668",0,0,1000000⟩ (some .started)).bind readAnnounce =
    some ⟨ascii "/announce",ascii "tracker.test",[(ascii "info_hash",List.replicate 20 255),
      (ascii "peer_id",ascii "-UL-0001-00000000042"),(ascii "port",ascii "6668"),(ascii "uploaded",ascii "0"),
      (ascii "downloaded",ascii "0"),(ascii "left",ascii "1000000"),(ascii "compact",ascii "1"),(ascii "event",
        ascii "started")]⟩ := by
  decide +kernel

section PeerId

/-- A peer id has 20 characters, for any random number of ten digits at most. -/
theorem length_networkPeerIdCreate {k : ℕ} (hk : k < 10000000000) : (networkPeerIdCreate k).length = 20 := by
  have hlen : (decimal k).length ≤ 10 := length_decimal_le (by decide) hk
  have hfront : (ascii "-UL-0001-0").length = 10 := by decide
  unfold networkPeerIdCreate peerIdLen
  simp only [List.length_take,List.length_append,List.length_replicate,hfront]
  omega

/-- With 64-bit counters a request fits, unless the announce URL is long. -/
theorem announce_fits {r : AnnounceReport} {event : Option AnnounceEvent} {u : UrlArrays} {k : ℕ}
    (hhash : r.infoHash.length = 20)
    (hid : r.peerid = networkPeerIdCreate k) (hk : k < 10000000000)
    (hcounters : ∀ z ∈ [r.uploaded,r.downloaded,r.left],OffT z)
    (hurl : u.path.length + u.host.length + r.port.length ≤ 1734) :
    u.path.length + u.host.length + r.size event < 2048 := by
  simp only [List.forall_mem_cons] at hcounters
  obtain ⟨hup,hdown,hleft,-⟩ := hcounters
  have hevent : (event.elim 0 fun e => 7 + e.text.length) ≤ 16 := by
    cases event with
    | none => exact Nat.zero_le _
    | some e => cases e <;> decide
  have hlen := length_networkPeerIdCreate hk
  have h₁ := length_decimalInt_le hup
  have h₂ := length_decimalInt_le hdown
  have h₃ := length_decimalInt_le hleft
  unfold AnnounceReport.size
  rw [hid,hlen,hhash]
  omega

end PeerId

end Unworkable
