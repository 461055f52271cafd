import Unworkable.Session.System

/-! # Framing does not depend on chunking

The read callback is a lawful resumable reader in every state in which the bit field is
not waiting to be sent, which is every state between two entries. The calls of the
message processor and the state it is left in are therefore functions of the stream.
-/
namespace Unworkable
open Library

section Laws
variable (sha1 : Bytes → Bytes) (env : Env) (p : PeerId)

/-- Nothing waits to be sent at the label `out`. -/
def Quiet (s : Session) : Prop := (s.peer p).state.sendbitfield = false

theorem armRead_pending (q : Peer) : 0 < (armRead env q).rxpending := by
  unfold armRead
  split
  · split <;> simp
  · omega

theorem armRead_of_pending {q : Peer} (h : 0 < q.rxpending) : armRead env q = q := by
  simp [armRead,Nat.pos_iff_ne_zero.mp h]

theorem armRead_sendbitfield (q : Peer) : (armRead env q).state.sendbitfield = q.state.sendbitfield := by
  unfold armRead
  split
  · split <;> rfl
  · rfl

theorem pushRead_pushRead (a b : Bytes) (q : Peer) : pushRead b (pushRead a q) = pushRead (a ++ b) q := by
  simp [pushRead,Nat.add_assoc,Nat.sub_sub]

theorem sendBitfield_of_quiet {s : Session} (h : Quiet p s) : sendBitfield env p s = .ok s := by
  simp [sendBitfield,show (s.peer p).state.sendbitfield = false from h]

theorem quiet_of_sendBitfield {s s' : Session} (h : sendBitfield env p s = .ok s') : Quiet p s' := by
  unfold sendBitfield at h
  cases hb : (s.peer p).state.sendbitfield with
  | false =>
    simp only [hb,Bool.false_eq_true,if_false] at h
    cases h
    exact hb
  | true =>
    simp only [hb,if_true] at h
    obtain ⟨t,-,ht⟩ := bind_ok.mp h
    cases ht
    simp [Quiet,Session.setState]

/-- The read callback of a peer obeys the laws of a resumable reader. -/
theorem peerReader_lawful : (peerReader sha1 env p).Lawful (Quiet p) where
  pending_arm s _ := by simpa [peerReader] using armRead_pending env (s.peer p)
  arm_pending s _ h := s.setPeer_eq_self p _ (armRead_of_pending env h)
  quiet_arm s h := by simpa [peerReader,Quiet,armRead_sendbitfield] using h
  quiet_push s bs h := by simpa [peerReader,Quiet,pushRead] using h
  pending_push s bs := by simp [peerReader,pushRead]
  push_push s a b := by simp [peerReader,pushRead_pushRead]
  settle_quiet s h := sendBitfield_of_quiet env p h
  quiet_settle s s' h := quiet_of_sendBitfield env p h

end Laws

def feedPeer (sha1 : Bytes → Bytes) (env : Env) (p : PeerId) (s : Session) (bs : Bytes) :
    Traced Call Halt Session := (peerReader sha1 env p).feed s bs

/-- Two ways of cutting a stream into non-empty portions give the same calls of
`network_peer_process_message` with the same bytes, the same session at the end and an
empty input buffer; neither runs out of entries. -/
theorem responses_chunking (sha1 : Bytes → Bytes) (env : Env) (p : PeerId) (s : Session)
    (hs : (s.peer p).state.sendbitfield = false) (chunks chunks' : List Bytes)
    (hne : ∀ c ∈ chunks, c ≠ []) (hne' : ∀ c ∈ chunks', c ≠ []) (hflat : chunks.flatten = chunks'.flatten) :
    ∃ t : Traced Call Halt Session,
      networkHandlePeerResponses sha1 env p s chunks = some (t.bind Reader.drained) ∧
      networkHandlePeerResponses sha1 env p s chunks' = some (t.bind Reader.drained) := by
  have hl := peerReader_lawful sha1 env p
  refine ⟨feedPeer sha1 env p s chunks.flatten,hl.handles_eq_feed hs hne,?_⟩
  rw [hflat]
  exact hl.handles_eq_feed hs hne'

/-- A handshake, a bit field, and INTERESTED with the start of a message behind it. -/
def openingBytes : Bytes := handshakePortions.flatten ++ (messagePortions [msgBitfieldId,0x80]).flatten ++
  (messagePortions [msgInterestedId]).flatten ++ [0,0]

/-- A peer that has just connected sends them byte by byte, or cut within the handshake and within a
length: both messages are processed, and the start of the third waits. -/
theorem responses_chunking_connect : ∃ s t, Reachable sha1ZeroByte (.oneByte (List.replicate 20 0) 1) s ∧
    networkHandlePeerResponses sha1ZeroByte (.plain 1000) 0 s (openingBytes.map (fun b => [b])) = some t ∧
    networkHandlePeerResponses sha1ZeroByte (.plain 1000) 0 s
      [openingBytes.take 30,(openingBytes.drop 30).take 40,openingBytes.drop 70] = some t ∧
    t.calls.map Call.msg = [[msgBitfieldId,0x80],[msgInterestedId]] := by
  have hrun : ((Boot.oneByte (List.replicate 20 0) 1).run sha1ZeroByte [(.plain 1000,.accept 1)]).toOption.map
      (fun s => decide ((s.peer 0).state.sendbitfield = false ∧
        (networkHandlePeerResponses sha1ZeroByte (.plain 1000) 0 s (openingBytes.map (fun b => [b]))).map
          (fun t => t.calls.map Call.msg) = some [[msgBitfieldId,0x80],[msgInterestedId]])) = some true :=
            by decide +kernel
  obtain ⟨s,hs,hP⟩ := exists_reachable hrun
  obtain ⟨hquiet,hcalls⟩ := of_decide_eq_true hP
  obtain ⟨t,hbytes,hcut⟩ := responses_chunking sha1ZeroByte (.plain 1000) 0 s hquiet (openingBytes.map (fun b => [b]))
    [openingBytes.take 30,(openingBytes.drop 30).take 40,openingBytes.drop 70] (by decide) (by decide) (by decide)
  rw [hbytes] at hcalls
  exact ⟨s,_,hs,hbytes,hcut,Option.some.inj hcalls⟩

end Unworkable
