import Unworkable.Session.System

/-! # Where the message processor reads its message

`network_peer_process_message` with every copy out of the receive buffer recorded: where it
starts and how many bytes it takes. "XXX: safety-check for correct message lengths" is all the
source has on the subject, so a field is read wherever its kind has it, and a body that is too
short is read beyond its end.
-/
namespace Unworkable
open Library

/-- A copy out of the receive buffer: its start and its length. -/
abbrev Access := ℕ × ℕ

section Recorded
variable (sha1 : Bytes → Bytes) (env : Env) (s : Session) (p : PeerId) (msg : Bytes)

/-- `memcpy` and `ntohl` of a field. -/
def readField (i : ℕ) : Traced Access Halt ℕ := ⟨[(i,4)],.ok (msgField env msg i)⟩

def unread {σ : Type} (x : Except Halt σ) : Traced Access Halt σ := ⟨[],x⟩

def haveAt (idx : ℕ) : Traced Access Halt Session :=
  if indexRefused s idx then .pure s
  else unread do
    let s := match (s.peer p).bitfield with
      | none => installBitfield s p (List.replicate (bitfieldLen s.tp.numPieces) 0)
      | some _ => s
    let bf ← utilSetbit ((s.peer p).bitfield.getD []) idx
    expressInterest env (s.setPeer p (fun q => { q with bitfield := some bf })) p

def readHave : Traced Access Halt Session := (readField env msg 1).bind (haveAt env s p)

/-- BITFIELD: the whole of an accepted bit field is copied. -/
def readBitfield : Traced Access Halt Session :=
  if !(s.peer p).state.bitfield then .pure s
  else if msg.length - 1 ≠ bitfieldLen s.tp.numPieces then .pure (killPeer s p)
  else ⟨[(1,msg.length - 1)],expressInterest env (installBitfield s p (msg.drop 1)) p⟩

def requestBlock (idx off : ℕ) (tpp : TorrentPiece) (blocklen : ℕ) : Traced Access Halt Session :=
  if !tpp.cksumok then
    if (s.peer p).state.fast then .pure (networkPeerRejectBlock env s p idx off blocklen) else .pure s
  else .pure (networkPieceUlEnqueue s p idx off blocklen)

def requestFound (idx off : ℕ) (tpp : TorrentPiece) : Traced Access Halt Session :=
  if off > tpp.len then .pure s else (readField env msg 9).bind (requestBlock env s p idx off tpp)

def requestOff (idx off : ℕ) : Traced Access Halt Session :=
  (unread (torrentPieceFind s.tp idx)).bind (requestFound env s p msg idx off)

def requestAt (idx : ℕ) : Traced Access Halt Session :=
  if indexRefused s idx then .pure s else (readField env msg 5).bind (requestOff env s p msg idx)

def readRequest : Traced Access Halt Session := (readField env msg 1).bind (requestAt env s p msg)

/-- The payload of a PIECE is copied if it is on request, has the length asked for and belongs to a
piece that is not verified. -/
def blockAccess (idx off : ℕ) : List Access :=
  if indexRefused s idx then []
  else match torrentPieceFind s.tp idx with
    | .error _ => []
    | .ok tpp =>
      if off > tpp.len then []
      else match networkPieceDlFind s.store (some p) idx off with
        | none => []
        | some d =>
          if msg.length < 9 ∨ msg.length - 9 ≠ (s.store.get d).len ∨ (s.tp.piece idx).cksumok then []
          else [(9,msg.length - 9)]

def pieceOff (idx off : ℕ) : Traced Access Halt Session :=
  ⟨blockAccess s p msg idx off,pieceAt sha1 env s p idx off msg⟩

def readPiece : Traced Access Halt Session :=
  (readField env msg 1).bind fun idx => (readField env msg 5).bind (pieceOff sha1 env s p msg idx)

def cancelBlock (idx off blocklen : ℕ) : Traced Access Halt Session :=
  .pure (s.setPeer p (fun q => { q with uls := q.uls.filter (· ≠ ⟨idx,off,blocklen⟩) }))

def cancelAt (idx : ℕ) : Traced Access Halt Session :=
  if indexRefused s idx then .pure s
  else (readField env msg 5).bind fun off => (readField env msg 9).bind (cancelBlock s p idx off)

def readCancel : Traced Access Halt Session := (readField env msg 1).bind (cancelAt env s p msg)

/-- REJECT with all its fields; the length is not used. -/
def rejectBlock (idx off _blocklen : ℕ) : Traced Access Halt Session :=
  match networkPieceDlFind s.store (some p) idx off with
  | none => .pure s
  | some d => .pure { s.setPeer p (fun q => { q with dlQueueLen := sub32 q.dlQueueLen 1 }) with
    store := networkPieceDlFree s.store d }

def rejectAt (idx : ℕ) : Traced Access Halt Session :=
  if indexRefused s idx then .pure s
  else (readField env msg 5).bind fun off => (readField env msg 9).bind (rejectBlock s p idx off)

def readReject : Traced Access Halt Session :=
  if !(s.peer p).state.fast then .pure (killPeer s p) else (readField env msg 1).bind (rejectAt env s p msg)

/-- SUGGEST: the index is read and checked, and nothing is done. -/
def readSuggest : Traced Access Halt Session := (readField env msg 1).bind fun _ => .pure s

/-- ALLOWEDFAST, once the index is read: without a `break` an accepted one goes on to SUGGEST. -/
def allowedfastAt (idx : ℕ) : Traced Access Halt Session :=
  if indexRefused s idx then .pure s else readSuggest env s msg

def readAllowedfast : Traced Access Halt Session := (readField env msg 1).bind (allowedfastAt env s msg)

/-- `network_peer_process_message` with its copies out of the buffer. -/
def readMessage (id : UInt8) : Traced Access Halt Session :=
  if id = msgHaveId then readHave env s p msg
  else if id = msgBitfieldId then readBitfield env s p msg
  else if id = msgRequestId then readRequest env s p msg
  else if id = msgPieceId then readPiece sha1 env s p msg
  else if id = msgCancelId then readCancel env s p msg
  else if id = msgRejectId then readReject env s p msg
  else if id = msgAllowedfastId then readAllowedfast env s msg
  else if id = msgSuggestId then readSuggest env s msg
  else unread (networkPeerProcessMessage sha1 env s p id msg)

end Recorded

section Result
variable {sha1 : Bytes → Bytes} {env : Env} {s : Session} {p : PeerId} {msg : Bytes}

theorem readField_result (i : ℕ) {σ : Type} (f : ℕ → Traced Access Halt σ) :
    ((readField env msg i).bind f).result = (f (msgField env msg i)).result := rfl

theorem readField_calls (i : ℕ) {σ : Type} (f : ℕ → Traced Access Halt σ) :
    ((readField env msg i).bind f).calls = (i,4) :: (f (msgField env msg i)).calls := rfl

theorem readHave_result : (readHave env s p msg).result = msgHave env s p msg := by
  rw [readHave,readField_result]
  unfold msgHave
  generalize msgField env msg 1 = idx
  simp only [haveAt]
  split
  · rfl
  · rfl

theorem readBitfield_result : (readBitfield env s p msg).result = msgBitfield env s p msg := by
  unfold readBitfield msgBitfield
  split
  · rfl
  · split
    · rfl
    · rfl

theorem requestOff_result (idx off : ℕ) : (requestOff env s p msg idx off).result = (do
    let tpp ← torrentPieceFind s.tp idx
    if off > tpp.len then .ok s
    else (requestBlock env s p idx off tpp (msgField env msg 9)).result) := by
  unfold requestOff unread
  cases torrentPieceFind s.tp idx with
  | error e => rfl
  | ok tpp =>
    simp only [Traced.bind,ok_bind,requestFound]
    split
    · rfl
    · rfl

theorem readRequest_result : (readRequest env s p msg).result = msgRequest env s p msg := by
  rw [readRequest,readField_result,requestAt]
  unfold msgRequest
  generalize msgField env msg 1 = idx
  split
  · rename_i href
    simp only [href,if_true,Traced.pure]
  · rename_i href
    rw [readField_result,requestOff_result]
    generalize msgField env msg 5 = off
    generalize msgField env msg 9 = blocklen
    simp only [href,if_false,Bool.false_eq_true]
    refine congrArg (torrentPieceFind s.tp idx >>= ·) (funext fun tpp => ?_)
    refine if_congr Iff.rfl rfl ?_
    unfold requestBlock
    split
    · split
      · rfl
      · rfl
    · rfl

theorem readCancel_result : (readCancel env s p msg).result = .ok (msgCancel env s p msg) := by
  rw [readCancel,readField_result,cancelAt]
  unfold msgCancel
  generalize msgField env msg 1 = idx
  split
  · rename_i href
    simp only [href,if_true,Traced.pure]
  · rename_i href
    rw [readField_result,readField_result]
    generalize msgField env msg 5 = off
    generalize msgField env msg 9 = blocklen
    simp only [href,if_false,Bool.false_eq_true,cancelBlock,Traced.pure]

theorem readReject_result : (readReject env s p msg).result = .ok (msgReject env s p msg) := by
  unfold readReject msgReject
  split
  · rfl
  · rw [readField_result,rejectAt]
    generalize msgField env msg 1 = idx
    split
    · rename_i href
      simp only [href,if_true,Traced.pure]
    · rename_i href
      rw [readField_result,readField_result]
      generalize msgField env msg 5 = off
      generalize msgField env msg 9 = blocklen
      simp only [href,if_false,Bool.false_eq_true,rejectBlock]
      cases networkPieceDlFind s.store (some p) idx off with
      | none => rfl
      | some d => rfl

theorem readAllowedfast_result : (readAllowedfast env s msg).result = .ok s := by
  rw [readAllowedfast,readField_result,allowedfastAt]
  split
  · rfl
  · rfl

/-- The recorded processor computes what the processor does. -/
theorem readMessage_result (id : UInt8) :
    (readMessage sha1 env s p msg id).result = networkPeerProcessMessage sha1 env s p id msg := by
  unfold readMessage
  split_ifs with h₁ h₂ h₃ h₄ h₅ h₆ h₇ h₈
  · rw [h₁,networkPeerProcessMessage_have,readHave_result]
  · rw [h₂,networkPeerProcessMessage_bitfield,readBitfield_result]
  · rw [h₃,networkPeerProcessMessage_request,readRequest_result]
  · rw [h₄,networkPeerProcessMessage_piece]
    rfl
  · rw [h₅,networkPeerProcessMessage_cancel,readCancel_result]
  · rw [h₆,networkPeerProcessMessage_reject,readReject_result]
  · rw [h₇,readAllowedfast_result,networkPeerProcessMessage_other (by decide)]
  · rw [h₈,networkPeerProcessMessage_other (by decide)]
    rfl
  · rfl

end Result

def InBounds (len : ℕ) (reads : List Access) : Prop := ∀ a ∈ reads, a.1 + a.2 ≤ len

def shortest (id : UInt8) : ℕ :=
  if id = msgHaveId ∨ id = msgAllowedfastId ∨ id = msgSuggestId then 5
  else if id = msgPieceId then 9
  else if id = msgRequestId ∨ id = msgCancelId ∨ id = msgRejectId then 13
  else 1

section Safe
variable (sha1 : Bytes → Bytes) (env : Env) (s : Session) (p : PeerId) (id : UInt8) (msg : Bytes)

/-- The body is read in bounds, the lengths of a bit field and of a payload are not negative, and a body
that is too short for its kind changes nothing. -/
structure ReadSafely : Prop where
  bounds : InBounds msg.length (readMessage sha1 env s p msg id).calls
  bitfield : id = msgBitfieldId → 1 ≤ msg.length
  payload : id = msgPieceId → 9 ≤ msg.length
  short : msg.length < shortest id → networkPeerProcessMessage sha1 env s p id msg = .ok s

/-- The body reaches as far as the fields that this state makes the processor read. -/
structure LongEnough : Prop where
  index : id = msgHaveId ∨ id = msgAllowedfastId ∨ id = msgSuggestId → 5 ≤ msg.length
  piece : id = msgPieceId → 9 ≤ msg.length
  request : id = msgRequestId → 13 ≤ msg.length ∨ 5 ≤ msg.length ∧ indexRefused s (msgField env msg 1) = true ∨
    9 ≤ msg.length ∧ ∃ tpp, torrentPieceFind s.tp (msgField env msg 1) = .ok tpp ∧ msgField env msg 5 > tpp.len
  cancel : id = msgCancelId → 13 ≤ msg.length ∨ 5 ≤ msg.length ∧ indexRefused s (msgField env msg 1) = true
  reject : id = msgRejectId → 13 ≤ msg.length ∨ (s.peer p).state = .deadOnly ∨
    (s.peer p).state.fast = true ∧ 5 ≤ msg.length ∧ indexRefused s (msgField env msg 1) = true

end Safe

section Kinds
variable {sha1 : Bytes → Bytes} {env : Env} {s : Session} {p : PeerId} {msg : Bytes}

@[simp] theorem inBounds_nil (len : ℕ) : InBounds len [] := nofun

@[simp] theorem inBounds_cons (len : ℕ) (a : Access) (reads : List Access) :
    InBounds len (a :: reads) ↔ a.1 + a.2 ≤ len ∧ InBounds len reads := List.forall_mem_cons

theorem inBounds_readHave : InBounds msg.length (readHave env s p msg).calls ↔ 5 ≤ msg.length := by
  rw [readHave,readField_calls,haveAt,inBounds_cons]
  split
  · simp [Traced.pure]
  · simp [unread]

theorem inBounds_readBitfield (h : 1 ≤ msg.length) : InBounds msg.length (readBitfield env s p msg).calls := by
  unfold readBitfield
  split
  · exact inBounds_nil _
  · split
    · exact inBounds_nil _
    · rw [inBounds_cons]
      exact ⟨by simp only; omega,inBounds_nil _⟩

theorem calls_requestBlock (idx off : ℕ) (tpp : TorrentPiece) (blocklen : ℕ) :
    (requestBlock env s p idx off tpp blocklen).calls = [] := by
  unfold requestBlock
  split
  · split
    · rfl
    · rfl
  · rfl

theorem unread_bind_calls {σ τ : Type} (x : Except Halt σ) (f : σ → Traced Access Halt τ) :
    ((unread x).bind f).calls = match x with
      | .ok a => (f a).calls
      | .error _ => [] := by
  cases x with
  | error e => rfl
  | ok a => exact List.nil_append _

def requestReads (s : Session) (idx off : ℕ) : List Access :=
  (1,4) :: if indexRefused s idx then [] else
    (5,4) :: match torrentPieceFind s.tp idx with
      | .ok tpp => if off > tpp.len then [] else [(9,4)]
      | .error _ => []

theorem calls_requestFound (idx off : ℕ) (tpp : TorrentPiece) :
    (requestFound env s p msg idx off tpp).calls = if off > tpp.len then [] else [(9,4)] := by
  unfold requestFound
  by_cases hoff : off > tpp.len
  · rw [if_pos hoff,if_pos hoff]
    rfl
  · rw [if_neg hoff,if_neg hoff,readField_calls,calls_requestBlock]

theorem calls_requestOff (idx off : ℕ) : (requestOff env s p msg idx off).calls =
    match torrentPieceFind s.tp idx with
    | .ok tpp => if off > tpp.len then [] else [(9,4)]
    | .error _ => [] := by
  rw [requestOff,unread_bind_calls]
  cases torrentPieceFind s.tp idx with
  | error e => rfl
  | ok tpp => exact calls_requestFound idx off tpp

theorem calls_requestAt (idx : ℕ) : (requestAt env s p msg idx).calls =
    if indexRefused s idx then [] else (5,4) :: (requestOff env s p msg idx (msgField env msg 5)).calls := by
  unfold requestAt
  by_cases href : indexRefused s idx = true
  · rw [if_pos href,if_pos href]
    rfl
  · rw [if_neg href,if_neg href,readField_calls]

theorem calls_readRequest :
    (readRequest env s p msg).calls = requestReads s (msgField env msg 1) (msgField env msg 5) := by
  rw [readRequest,readField_calls,calls_requestAt,calls_requestOff,requestReads]

def requestResult (env : Env) (s : Session) (p : PeerId) (idx off blocklen : ℕ) : Except Halt Session :=
  if indexRefused s idx then .ok s
  else do
    let tpp ← torrentPieceFind s.tp idx
    if off > tpp.len then .ok s else (requestBlock env s p idx off tpp blocklen).result

theorem result_requestAt (idx : ℕ) : (requestAt env s p msg idx).result =
    if indexRefused s idx then .ok s else (requestOff env s p msg idx (msgField env msg 5)).result := by
  unfold requestAt
  by_cases href : indexRefused s idx = true
  · rw [if_pos href,if_pos href]
    rfl
  · rw [if_neg href,if_neg href,readField_result]

theorem result_readRequest : (readRequest env s p msg).result =
    requestResult env s p (msgField env msg 1) (msgField env msg 5) (msgField env msg 9) := by
  rw [readRequest,readField_result,result_requestAt,requestOff_result,requestResult]

/-- A REQUEST is read in bounds, and has no effect if it is short, just when its fields are there as far
as they are looked at. -/
theorem request_safe (env : Env) (p : PeerId) (n idx off blocklen : ℕ) : (InBounds n (requestReads s idx off) ∧
    (n < 13 → requestResult env s p idx off blocklen = .ok s)) ↔
    13 ≤ n ∨ 5 ≤ n ∧ indexRefused s idx = true ∨ 9 ≤ n ∧ ∃ tpp, torrentPieceFind s.tp idx = .ok tpp ∧
      off > tpp.len := by
  unfold requestReads requestResult
  by_cases href : indexRefused s idx = true
  · rw [if_pos href,if_pos href,inBounds_cons]
    constructor
    · rintro ⟨⟨hn,-⟩,-⟩
      exact .inr (.inl ⟨hn,href⟩)
    · intro hn
      exact ⟨⟨by omega,inBounds_nil n⟩,fun _ => rfl⟩
  · rw [if_neg href,if_neg href,inBounds_cons,inBounds_cons]
    cases torrentPieceFind s.tp idx with
    | error e =>
      constructor
      · rintro ⟨-,hn⟩
        refine .inl ?_
        by_contra hlt
        have hnone := hn (by omega)
        cases hnone
      · rintro (hn | ⟨-,hn⟩ | ⟨-,tpp,htpp,-⟩)
        · exact ⟨⟨by omega,by omega,inBounds_nil n⟩,fun hlt => by omega⟩
        · exact (href hn).elim
        · cases htpp
    | ok tpp =>
      simp only [ok_bind]
      by_cases hoff : off > tpp.len
      · rw [if_pos hoff,if_pos hoff]
        constructor
        · rintro ⟨⟨-,hn,-⟩,-⟩
          exact .inr (.inr ⟨hn,tpp,rfl,hoff⟩)
        · intro hn
          have hnine : 9 ≤ n := by
            rcases hn with hn | ⟨-,hn⟩ | ⟨hn,-⟩
            · omega
            · exact (href hn).elim
            · exact hn
          exact ⟨⟨by omega,hnine,inBounds_nil n⟩,fun _ => rfl⟩
      · rw [if_neg hoff,if_neg hoff,inBounds_cons]
        constructor
        · rintro ⟨⟨-,-,hn,-⟩,-⟩
          exact .inl hn
        · rintro (hn | ⟨-,hn⟩ | ⟨-,tpp',htpp,hoff'⟩)
          · exact ⟨⟨by omega,by omega,hn,inBounds_nil n⟩,fun hlt => by omega⟩
          · exact (href hn).elim
          · cases htpp
            exact (hoff hoff').elim

def blockReads (s : Session) (idx : ℕ) : List Access :=
  (1,4) :: if indexRefused s idx then [] else [(5,4),(9,4)]

theorem block_bounds (n idx : ℕ) : InBounds n (blockReads s idx) ↔ 13 ≤ n ∨ 5 ≤ n ∧ indexRefused s idx = true := by
  unfold blockReads
  by_cases href : indexRefused s idx = true
  · rw [if_pos href,inBounds_cons]
    constructor
    · rintro ⟨hn,-⟩
      exact .inr ⟨hn,href⟩
    · intro hn
      exact ⟨by omega,inBounds_nil n⟩
  · rw [if_neg href,inBounds_cons,inBounds_cons,inBounds_cons]
    constructor
    · rintro ⟨-,-,hn,-⟩
      exact .inl hn
    · rintro (hn | ⟨-,hn⟩)
      · exact ⟨by omega,by omega,hn,inBounds_nil n⟩
      · exact (href hn).elim

theorem calls_cancelAt (idx : ℕ) : (cancelAt env s p msg idx).calls = if indexRefused s idx then
    [] else [(5,4),(9,4)] := by
  unfold cancelAt
  by_cases href : indexRefused s idx = true
  · rw [if_pos href,if_pos href]
    rfl
  · rw [if_neg href,if_neg href,readField_calls,readField_calls]
    rfl

theorem calls_readCancel : (readCancel env s p msg).calls = blockReads s (msgField env msg 1) := by
  rw [readCancel,readField_calls,calls_cancelAt,blockReads]

theorem calls_rejectBlock (idx off blocklen : ℕ) : (rejectBlock s p idx off blocklen).calls = [] := by
  unfold rejectBlock
  cases networkPieceDlFind s.store (some p) idx off with
  | none => rfl
  | some d => rfl

theorem calls_rejectAt (idx : ℕ) : (rejectAt env s p msg idx).calls = if indexRefused s idx then
    [] else [(5,4),(9,4)] := by
  unfold rejectAt
  by_cases href : indexRefused s idx = true
  · rw [if_pos href,if_pos href]
    rfl
  · rw [if_neg href,if_neg href,readField_calls,readField_calls,calls_rejectBlock]

theorem calls_readReject : (readReject env s p msg).calls =
    if (s.peer p).state.fast then blockReads s (msgField env msg 1) else [] := by
  unfold readReject
  cases (s.peer p).state.fast with
  | true =>
    rw [if_neg (by decide),if_pos rfl,readField_calls,calls_rejectAt,blockReads]
  | false => rfl

theorem inBounds_readAllowedfast : InBounds msg.length (readAllowedfast env s msg).calls ↔ 5 ≤ msg.length := by
  rw [readAllowedfast,readField_calls,inBounds_cons]
  constructor
  · rintro ⟨hlen,-⟩
    exact hlen
  · intro hlen
    refine ⟨hlen,?_⟩
    unfold allowedfastAt
    split
    · exact inBounds_nil _
    · rw [readSuggest,readField_calls,inBounds_cons]
      exact ⟨hlen,inBounds_nil _⟩

theorem inBounds_readSuggest : InBounds msg.length (readSuggest env s msg).calls ↔ 5 ≤ msg.length := by
  rw [readSuggest,readField_calls,inBounds_cons]
  exact and_iff_left (inBounds_nil _)

theorem inBounds_blockAccess (idx off : ℕ) (h : 9 ≤ msg.length) : InBounds msg.length
    (blockAccess s p msg idx off) := by
  unfold blockAccess
  split
  · exact inBounds_nil _
  · split
    · exact inBounds_nil _
    · split
      · exact inBounds_nil _
      · split
        · exact inBounds_nil _
        · split
          · exact inBounds_nil _
          · rw [inBounds_cons]
            exact ⟨by simp only; omega,inBounds_nil _⟩

theorem inBounds_readPiece : InBounds msg.length (readPiece sha1 env s p msg).calls ↔ 9 ≤ msg.length := by
  rw [readPiece,readField_calls,readField_calls,inBounds_cons,inBounds_cons]
  constructor
  · rintro ⟨-,hlen,-⟩
    exact hlen
  · intro hlen
    exact ⟨by simp only; omega,hlen,inBounds_blockAccess _ _ hlen⟩

theorem killPeer_eq_self : killPeer s p = s ↔ (s.peer p).state = .deadOnly := by
  constructor
  · intro h
    have hpeer := congrArg (fun t : Session => (t.peer p).state) h
    simpa [killPeer,Session.setState] using hpeer.symm
  · intro h
    unfold killPeer Session.setState
    apply s.setPeer_eq_self
    rw [← h]

theorem msgReject_safe : (InBounds msg.length (readReject env s p msg).calls ∧
    (msg.length < 13 → msgReject env s p msg = s)) ↔ 13 ≤ msg.length ∨ (s.peer p).state = .deadOnly ∨
      (s.peer p).state.fast = true ∧ 5 ≤ msg.length ∧ indexRefused s (msgField env msg 1) = true := by
  rw [calls_readReject]
  cases hfast : (s.peer p).state.fast with
  | false =>
    have hkill : msgReject env s p msg = killPeer s p := by
      unfold msgReject
      rw [hfast]
      rfl
    rw [if_neg Bool.false_ne_true,hkill,killPeer_eq_self]
    constructor
    · rintro ⟨-,hdead⟩
      by_cases hlen : 13 ≤ msg.length
      · exact .inl hlen
      · exact .inr (.inl (hdead (by omega)))
    · rintro (hlen | hdead | ⟨hfalse,-⟩)
      · exact ⟨inBounds_nil _,fun hlt => by omega⟩
      · exact ⟨inBounds_nil _,fun _ => hdead⟩
      · cases hfalse
  | true =>
    have halive : (s.peer p).state ≠ .deadOnly := by
      intro hdead
      rw [hdead] at hfast
      cases hfast
    rw [if_pos rfl,block_bounds]
    constructor
    · rintro ⟨hlen | hlen,-⟩
      · exact .inl hlen
      · exact .inr (.inr ⟨rfl,hlen⟩)
    · rintro (hlen | hdead | ⟨-,hlen,href⟩)
      · exact ⟨.inl hlen,fun hlt => by omega⟩
      · exact (halive hdead).elim
      · refine ⟨.inr ⟨hlen,href⟩,fun _ => ?_⟩
        unfold msgReject
        rw [hfast]
        simp only [href,Bool.not_true,Bool.false_eq_true,if_false,if_true]

theorem msgCancel_refused (href : indexRefused s (msgField env msg 1) = true) : msgCancel env s p msg = s := by
  unfold msgCancel
  simp only [href,if_true]

end Kinds

/-- A message is read inside its body, and does nothing if it is too short for its kind, just when its body
reaches as far as the fields that are looked at. -/
theorem message_read_safely_iff (sha1 : Bytes → Bytes) (env : Env) (s : Session) (p : PeerId) (id : UInt8) (msg : Bytes)
    (hlen : 1 ≤ msg.length) : ReadSafely sha1 env s p id msg ↔ LongEnough env s p id msg := by
  constructor
  · rintro ⟨hbounds,-,hpayload,hshort⟩
    constructor
    · rintro (rfl | rfl | rfl)
      · exact inBounds_readHave.mp hbounds
      · exact inBounds_readAllowedfast.mp hbounds
      · exact inBounds_readSuggest.mp hbounds
    · exact hpayload
    · rintro rfl
      have hresult : networkPeerProcessMessage sha1 env s p msgRequestId msg = (readRequest env s p msg).result := by
        rw [networkPeerProcessMessage_request,readRequest_result]
      refine (request_safe env p msg.length _ _ (msgField env msg 9)).mp ⟨?_,?_⟩
      · rw [← calls_readRequest]
        exact hbounds
      · intro hlt
        rw [← result_readRequest,← hresult]
        exact hshort hlt
    · rintro rfl
      refine (block_bounds _ _).mp ?_
      rw [← calls_readCancel]
      exact hbounds
    · rintro rfl
      refine msgReject_safe.mp ⟨hbounds,?_⟩
      intro hlt
      have hnone := hshort hlt
      rw [networkPeerProcessMessage_reject] at hnone
      exact Except.ok.inj hnone
  · intro h
    refine ⟨?_,fun _ => hlen,h.piece,?_⟩
    · unfold readMessage
      split_ifs with h₁ h₂ h₃ h₄ h₅ h₆ h₇ h₈
      · exact inBounds_readHave.mpr (h.index (.inl h₁))
      · exact inBounds_readBitfield hlen
      · rw [calls_readRequest]
        exact ((request_safe env p _ _ _ (msgField env msg 9)).mpr (h.request h₃)).1
      · exact inBounds_readPiece.mpr (h.piece h₄)
      · rw [calls_readCancel]
        exact (block_bounds _ _).mpr (h.cancel h₅)
      · exact (msgReject_safe.mpr (h.reject h₆)).1
      · exact inBounds_readAllowedfast.mpr (h.index (.inr (.inl h₇)))
      · exact inBounds_readSuggest.mpr (h.index (.inr (.inr h₈)))
      · exact inBounds_nil _
    · unfold shortest
      intro hlt
      split_ifs at hlt with h₁ h₂ h₃
      · have hindex := h.index h₁
        omega
      · have hpiece := h.piece h₂
        omega
      · rcases h₃ with rfl | rfl | rfl
        · rw [networkPeerProcessMessage_request,← readRequest_result,result_readRequest]
          exact ((request_safe _ _ _ _ _ _).mpr (h.request rfl)).2 hlt
        · rw [networkPeerProcessMessage_cancel]
          rcases h.cancel rfl with hlong | ⟨-,href⟩
          · omega
          · rw [msgCancel_refused href]
        · rw [networkPeerProcessMessage_reject,(msgReject_safe.mpr (h.reject rfl)).2 hlt]
      · omega

/-- A HAVE of two bytes from a peer of a running client: three bytes of its index lie behind the body. -/
theorem message_read_unsafely : ∃ s, Reachable sha1ZeroByte (.oneByte zeroByteDigest 1) s ∧ 0 ∈ s.peers ∧
    ¬ ReadSafely sha1ZeroByte (.plain 1001) s 0 msgHaveId [msgHaveId,0] := by
  have hrun : ((Boot.oneByte zeroByteDigest 1).run sha1ZeroByte oneRequestRun).toOption.map
      (fun s => decide (0 ∈ s.peers)) = some true := by decide +kernel
  obtain ⟨s,hs,hpeer⟩ := exists_reachable hrun
  refine ⟨s,hs,of_decide_eq_true hpeer,?_⟩
  intro hsafe
  have hlong := inBounds_readHave.mp hsafe.bounds
  simp at hlong

theorem message_read_safely_cancel : ∃ s, Reachable sha1ZeroByte (.oneByte zeroByteDigest 1) s ∧
    ReadSafely sha1ZeroByte (.plain 1001) s 0 msgCancelId (msgCancelId :: (be32 0 ++ be32 0 ++ be32 1)) := by
  have hrun : ((Boot.oneByte zeroByteDigest 1).run sha1ZeroByte oneRequestRun).toOption.map
      (fun _ => true) = some true := by decide +kernel
  obtain ⟨s,hs,-⟩ := exists_reachable hrun
  refine ⟨s,hs,(message_read_safely_iff _ _ s 0 _ _ (by decide)).mpr ?_⟩
  constructor
  · exact fun h => absurd h (by decide)
  · exact fun h => absurd h (by decide)
  · exact fun h => absurd h (by decide)
  · exact fun _ => .inl (by decide)
  · exact fun h => absurd h (by decide)

end Unworkable
