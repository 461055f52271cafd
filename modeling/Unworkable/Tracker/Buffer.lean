import Unworkable.Library.Region
import Unworkable.Torrent.State

/-! # The response buffer

What the tracker sends waits in the input buffer of its connection. A read callback moves up to 256
bytes of it behind the bytes read before, and the buffer there grows whenever fewer might be left.
When the connection is closed the callback is repeated until it moves nothing.
-/
namespace Unworkable
open Library

def resbuflen : ℕ := 1024

/-- `struct http_response`, with what the memory at `rxmsg` holds. -/
structure HttpResponse where
  rxmsg : Bytes
  rxread : ℕ
  rxmsglen : ℕ

/-- The announce connection: the response, the input buffer, and for each read so far its offset and
the length of the buffer then. -/
structure AnnounceConn where
  res : HttpResponse
  input : Bytes
  reads : List (ℕ × ℕ)

section Read
variable (stale : ℕ → UInt8)

def allocated (off n : ℕ) : Bytes := (List.range n).map fun i => stale (off + i)

def xrealloc (mem : Bytes) (size : ℕ) : Bytes := mem.take size ++ allocated stale mem.length (size - mem.length)

/-- The connection as `announce` leaves it. -/
def AnnounceConn.initial : AnnounceConn := ⟨⟨allocated stale 0 resbuflen,0,resbuflen⟩,[],[]⟩

/-- `handle_announce_response`, up to the read: grow when within 256 bytes of filling up the buffer. -/
def HttpResponse.grow (r : HttpResponse) : HttpResponse :=
  if r.rxmsglen ≤ add32 r.rxread 256 then
    let rxmsglen := add32 r.rxmsglen resbuflen
    { r with rxmsg := xrealloc stale r.rxmsg rxmsglen, rxmsglen := rxmsglen }
  else r

def handleAnnounceResponse (c : AnnounceConn) : Except Halt AnnounceConn :=
  let r := c.res.grow stale
  let data := c.input.take 256
  if r.rxmsg.length < r.rxread + data.length then .error .wild
  else .ok {
    res := { r with rxmsg := splice r.rxmsg r.rxread data, rxread := add32 r.rxread data.length }
    input := c.input.drop 256
    reads := c.reads ++ [(r.rxread,r.rxmsglen)] }

/-- A read callback, with the bytes that have come since the one before. -/
def readEvent (c : AnnounceConn) (bs : Bytes) : Except Halt AnnounceConn :=
  handleAnnounceResponse stale { c with input := c.input ++ bs }

/-- The loop at the start of `handle_announce_error`, unless it takes more turns. -/
def drain : ℕ → AnnounceConn → Option (Except Halt AnnounceConn)
  | 0,_ => none
  | turns + 1,c => match handleAnnounceResponse stale c with
    | .error h => some (.error h)
    | .ok c' => if 0 < sub32 c'.res.rxread c.res.rxread then drain turns c' else some (.ok c')

end Read

/-- The bytes sent so far are those read and those that wait, and the next read will fit. -/
structure AnnounceConn.Buffers (c : AnnounceConn) (sent : Bytes) : Prop where
  sent : c.res.rxmsg.take c.res.rxread ++ c.input = sent
  allocated : c.res.rxmsg.length = c.res.rxmsglen
  room : c.res.rxread < c.res.rxmsglen
  grown : c.res.rxmsglen ≤ c.res.rxread + 1280
  reads : ∀ r ∈ c.reads, r.1 + 256 ≤ r.2

section Buffers
variable {stale : ℕ → UInt8} {c : AnnounceConn} {sent : Bytes}

theorem length_allocated (off n : ℕ) : (allocated stale off n).length = n := by simp [allocated]

theorem buffers_initial : (AnnounceConn.initial stale).Buffers [] := by
  refine ⟨?_,?_,?_,?_,fun r hr => by cases hr⟩
  · show List.take 0 _ ++ [] = []
    rw [List.take_zero,List.append_nil]
  · rw [AnnounceConn.initial,length_allocated]
  · show 0 < resbuflen
    decide
  · show resbuflen ≤ 0 + 1280
    decide

theorem AnnounceConn.Buffers.rxread_le (h : c.Buffers sent) : c.res.rxread + c.input.length = sent.length := by
  have hread := h.room
  rw [← h.sent,List.length_append,List.length_take,h.allocated]
  omega

theorem AnnounceConn.Buffers.arrive (h : c.Buffers sent) (bs : Bytes) :
    { c with input := c.input ++ bs }.Buffers (sent ++ bs) := by
  refine ⟨?_,h.allocated,h.room,h.grown,h.reads⟩
  rw [← h.sent,List.append_assoc]

/-- Growing keeps what has been read, and there is room for 256 bytes more. -/
theorem AnnounceConn.Buffers.grow (h : c.Buffers sent) (hsent : sent.length < 4294967296 - 2048) :
    { c with res := c.res.grow stale }.Buffers sent ∧ (c.res.grow stale).rxread = c.res.rxread ∧
      c.res.rxread + 256 < (c.res.grow stale).rxmsglen := by
  have hle := h.rxread_le
  have hroom := h.room
  have hgrown := h.grown
  have hnext : add32 c.res.rxread 256 = c.res.rxread + 256 := add32_of_lt (by omega)
  unfold HttpResponse.grow
  rw [hnext]
  split
  · rename_i hfull
    have hlen : add32 c.res.rxmsglen resbuflen = c.res.rxmsglen + 1024 := add32_of_lt (by unfold resbuflen; omega)
    have hmem : xrealloc stale c.res.rxmsg (c.res.rxmsglen + 1024) =
        c.res.rxmsg ++ Unworkable.allocated stale c.res.rxmsglen 1024 := by
      rw [xrealloc,List.take_of_length_le (by rw [h.allocated]; omega),h.allocated,Nat.add_sub_cancel_left]
    simp only [hlen,hmem]
    refine ⟨⟨?_,?_,?_,?_,h.reads⟩,trivial,?_⟩
    · show List.take c.res.rxread (c.res.rxmsg ++ _) ++ c.input = sent
      rw [List.take_append_of_le_length (by rw [h.allocated]; omega)]
      exact h.sent
    · simp [length_allocated,h.allocated]
    · show c.res.rxread < c.res.rxmsglen + 1024
      omega
    · show c.res.rxmsglen + 1024 ≤ c.res.rxread + 1280
      omega
    · omega
  · exact ⟨h,rfl,by omega⟩

/-- A read callback moves the next 256 bytes, or all that wait. -/
theorem AnnounceConn.Buffers.read (h : c.Buffers sent) (hsent : sent.length < 4294967296 - 2048) :
    ∃ c', handleAnnounceResponse stale c = .ok c' ∧ c'.Buffers sent ∧ c'.input = c.input.drop 256 ∧
      c'.res.rxread = c.res.rxread + min 256 c.input.length ∧ c.res.rxread + 256 < c'.res.rxmsglen := by
  obtain ⟨hgrow,hsame,hfits⟩ := @AnnounceConn.Buffers.grow stale c sent h hsent
  have hle := h.rxread_le
  have hgrown := hgrow.grown
  have hmem : (c.res.grow stale).rxmsg.length = (c.res.grow stale).rxmsglen := hgrow.allocated
  have hsplit : (c.res.grow stale).rxmsg.take c.res.rxread ++ c.input = sent := by
    rw [← hsame]
    exact hgrow.sent
  simp only [hsame] at hgrown
  have hdata : (c.input.take 256).length = min 256 c.input.length := List.length_take
  have hread : add32 c.res.rxread (c.input.take 256).length = c.res.rxread + (c.input.take 256).length :=
    add32_of_lt (by omega)
  unfold handleAnnounceResponse
  simp only [hsame]
  rw [if_neg (by omega)]
  refine ⟨_,rfl,⟨?_,?_,?_,?_,?_⟩,rfl,?_,hfits⟩
  · show List.take (add32 _ _) _ ++ _ = sent
    rw [hread,take_splice _ (by omega),List.append_assoc,List.take_append_drop]
    exact hsplit
  · rw [length_splice (by omega)]
    exact hmem
  · simp only [hread]
    omega
  · simp only [hread]
    omega
  · intro r hr
    rcases List.mem_append.mp hr with hr | hr
    · exact h.reads r hr
    · rw [List.mem_singleton.mp hr]
      exact hfits.le
  · show add32 _ _ = _
    rw [hread,hdata]

theorem AnnounceConn.Buffers.run {events : List Bytes} (h : c.Buffers sent)
    (hsent : (sent ++ events.flatten).length < 4294967296 - 2048) :
    ∃ c', events.foldlM (readEvent stale) c = .ok c' ∧ c'.Buffers (sent ++ events.flatten) := by
  induction events generalizing c sent with
  | nil => exact ⟨c,rfl,by simpa using h⟩
  | cons bs events ih =>
    rw [List.flatten_cons,← List.append_assoc] at hsent ⊢
    have hbs : (sent ++ bs).length < 4294967296 - 2048 := by
      rw [List.length_append] at hsent
      omega
    obtain ⟨c₁,hc₁,h₁,-⟩ := (h.arrive bs).read hbs
    obtain ⟨c',hc',h'⟩ := ih h₁ hsent
    exact ⟨c',by rw [List.foldlM_cons,readEvent,hc₁]; exact hc',h'⟩

/-- The loop ends when nothing waits any more. Its last turn has made room all the same. -/
theorem AnnounceConn.Buffers.drain (h : c.Buffers sent) (hsent : sent.length < 4294967296 - 2048) :
    ∃ turns c', Unworkable.drain stale turns c = some (.ok c') ∧ c'.Buffers sent ∧ c'.input = [] ∧
      c'.res.rxread + 256 < c'.res.rxmsglen := by
  induction hn : c.input.length using Nat.strong_induction_on generalizing c with
  | _ n ih =>
    obtain ⟨c₁,hc₁,h₁,hinput,hread,hroom⟩ := @AnnounceConn.Buffers.read stale c sent h hsent
    have hle := h₁.rxread_le
    have hsub : sub32 c₁.res.rxread c.res.rxread = c₁.res.rxread - c.res.rxread := sub32_of_le (by omega) (by omega)
    cases hempty : c.input with
    | nil =>
      rw [hempty,List.length_nil,Nat.min_zero] at hread
      refine ⟨1,c₁,?_,h₁,by rw [hinput,hempty]; rfl,by omega⟩
      rw [Unworkable.drain,hc₁]
      exact if_neg (by rw [hsub,hread]; simp)
    | cons b bs =>
      have hshorter : c₁.input.length < n := by
        rw [hinput,List.length_drop,hn]
        rw [hempty,List.length_cons] at hn
        omega
      obtain ⟨turns,c',hturns,h',hdone⟩ := ih _ hshorter h₁ rfl
      refine ⟨turns + 1,c',?_,h',hdone⟩
      rw [Unworkable.drain,hc₁]
      have hpos : 0 < sub32 c₁.res.rxread c.res.rxread := by
        rw [hsub,hread,hempty,List.length_cons]
        omega
      simp only [if_pos hpos,hturns]

end Buffers

/-- Whatever the tracker sends and however it comes, it is read completely and in order when the
connection is closed: the loop ends, every read had room for 256 bytes, and nothing was lost. -/
theorem response_buffered (stale : ℕ → UInt8) (events : List Bytes) (last : Bytes)
    (hsent : (events.flatten ++ last).length < 4294967296 - 2048) :
    ∃ c, events.foldlM (readEvent stale) (AnnounceConn.initial stale) = .ok c ∧
      ∃ turns c', drain stale turns { c with input := c.input ++ last } = some (.ok c') ∧
        c'.res.rxread = (events.flatten ++ last).length ∧ c'.res.rxmsg.take c'.res.rxread = events.flatten ++ last ∧
        c'.res.rxmsg.length = c'.res.rxmsglen ∧ c'.res.rxread + 256 < c'.res.rxmsglen ∧
        ∀ r ∈ c'.reads, r.1 + 256 ≤ r.2 := by
  have hfirst : ([] ++ events.flatten).length < 4294967296 - 2048 := by
    rw [List.length_append] at hsent
    rw [List.nil_append]
    omega
  obtain ⟨c,hc,h⟩ := (@buffers_initial stale).run hfirst
  obtain ⟨turns,c',hturns,h',hinput,hroom⟩ := @AnnounceConn.Buffers.drain stale _ _ (h.arrive last)
    (by simpa using hsent)
  have hread := h'.rxread_le
  have hall := h'.sent
  rw [hinput] at hread hall
  refine ⟨c,hc,turns,c',hturns,?_,?_,h'.allocated,hroom,h'.reads⟩
  · simpa using hread
  · simpa using hall

/-- Three hundred bytes twice, of which the last 88 wait when the connection is closed. -/
theorem response_buffered_twice : ∃ c, [List.replicate 300 1,List.replicate 300 2].foldlM (readEvent fun _ => 0)
    (AnnounceConn.initial fun _ => 0) = .ok c ∧ ∃ turns c', drain (fun _ => 0) turns { c with input := c.input ++ [] } =
      some (.ok c') ∧ c'.res.rxmsg.take c'.res.rxread = List.replicate 300 1 ++ List.replicate 300 2 := by
  have hsent : ([List.replicate 300 1,List.replicate 300 2].flatten ++ [] : Bytes).length < 4294967296 - 2048 := by
    simp only [List.flatten_cons,List.flatten_nil,List.length_append,List.length_replicate,List.length_nil]
    omega
  obtain ⟨c,hc,turns,c',hturns,-,hall,-⟩ := response_buffered (fun _ => 0) _ [] hsent
  refine ⟨c,hc,turns,c',hturns,?_⟩
  rw [hall,List.flatten_cons,List.flatten_cons,List.flatten_nil,List.append_nil,List.append_nil]

end Unworkable
