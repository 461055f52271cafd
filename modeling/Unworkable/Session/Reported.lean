import Unworkable.Session.Serving

/-! # What the tracker is told

`announce` prints `uploaded`, `downloaded` and `left` as the torrent has them. `downloaded` counts
the payload that was taken. `left` drops by the length of each piece that gets verified, but a
session resumed from partial data starts with the whole length. Nothing ever adds to `uploaded`.
-/
namespace Unworkable
open Library

/-- The three numbers in the query string of an announce. -/
structure Report where
  uploaded : ℤ
  downloaded : ℤ
  left : ℤ
  deriving DecidableEq, Repr

/-- What an announce reports. Nothing that follows it in the same callback touches these. -/
def reported (tp : Torrent) : Report := ⟨tp.uploaded,tp.downloaded,tp.left⟩

def Metainfo.wholeLength (mi : Metainfo) : ℤ := if mi.type = .singlefile then mi.fileLength else mi.totalLength

def Torrent.verifiedLength (tp : Torrent) : ℤ := ∑ i ∈ tp.verified, (pieceLen tp.mi i : ℤ)

/-- The payload of the PIECE messages written so far; it follows thirteen bytes of header. -/
def Session.uploadedPayload (s : Session) : ℕ := (s.uploads.map (fun m => m.2.length - 13)).sum

def takes (env : Env) (s : Session) (p : PeerId) (msg : Bytes) : Bool :=
  match networkPieceDlFind s.store (some p) (msgField env msg 1) (msgField env msg 5) with
  | none => false
  | some d => decide (Accepts env s p msg d)

def Event.payload (env : Env) (s : Session) : Event → ℕ
  | .response p avail => match completed env (s.peer p) avail with
    | none => 0
    | some msg => if p ∈ s.peers ∧ msg.headD 0 = msgPieceId ∧ takes env s p msg = true then msg.length - 9 else 0
  | _ => 0

/-- The payload taken in the course of a run. -/
def acceptedPayload (sha1 : Bytes → Bytes) : Session → List (Env × Event) → ℕ
  | _,[] => 0
  | s,(env,e) :: es => e.payload env s + match step sha1 s (env,e) with
    | .ok s' => acceptedPayload sha1 s' es
    | .error _ => 0

/-- What should be reported in a state, with the payload taken so far. -/
def Session.trueReport (s : Session) (accepted : ℕ) : Report :=
  ⟨s.uploadedPayload,accepted,s.tp.mi.wholeLength - s.tp.verifiedLength⟩

section Payload
variable {sha1 : Bytes → Bytes} {env : Env} {s s' : Session} {e : Event} {idx n : ℕ}

theorem takes_iff {p : PeerId} {msg : Bytes} : takes env s p msg = true ↔ ∃ d, Accepts env s p msg d := by
  unfold takes
  constructor
  · intro h
    split at h
    · cases h
    · exact ⟨_,of_decide_eq_true h⟩
  · rintro ⟨d,hacc⟩
    have hfind := hacc.found
    split
    · rename_i hnone
      rw [hnone] at hfind
      cases hfind
    · rename_i d' hsome
      rw [hsome] at hfind
      cases hfind
      exact decide_eq_true hacc

theorem Event.payload_of_accepts (h : e.accepts env s idx n) : e.payload env s = n := by
  obtain ⟨p,avail,msg,d,rfl,hp,hmsg,hid,hacc,-,rfl⟩ := h
  have htakes : takes env s p msg = true := takes_iff.mpr ⟨d,hacc⟩
  rw [Event.payload,hmsg]
  dsimp only
  rw [if_pos ⟨hp,hid,htakes⟩,List.length_drop]

theorem Event.payload_of_not (h : ¬ ∃ idx n, e.accepts env s idx n) : e.payload env s = 0 := by
  cases e with
  | response p avail =>
    rw [Event.payload]
    cases hmsg : completed env (s.peer p) avail with
    | none => rfl
    | some msg =>
      refine if_neg ?_
      rintro ⟨hp,hid,htakes⟩
      obtain ⟨d,hacc⟩ := takes_iff.mp htakes
      exact h ⟨_,_,p,avail,msg,d,rfl,hp,hmsg,hid,hacc,rfl,rfl⟩
  | _ => rfl

/-- A block that is taken is counted. -/
theorem step_accepts (h : e.accepts env s idx n) (hstep : step sha1 s (env,e) = .ok s') :
    Received idx n s.tp s'.tp := by
  obtain ⟨p,avail,msg,d,rfl,hp,hmsg,hid,hacc,rfl,rfl⟩ := h
  simp only [step,if_pos hp] at hstep
  rcases peerResponse_cases hstep with ⟨hnone,-⟩ | ⟨msg',t,hmsg',hcore,ht⟩
  · rw [hnone] at hmsg
    cases hmsg
  · rw [hmsg'] at hmsg
    cases hmsg
    have hacc' : Accepts env (s.setPeer p (afterRead env · avail)) p msg d :=
      ⟨hacc.idx_lt,hacc.off_le,hacc.unverified,hacc.found,hacc.header,hacc.length⟩
    rw [hid,networkPeerProcessMessage_piece] at ht
    obtain ⟨u,hu,hcore'⟩ := AcceptsAt.receives hacc' ht
    have hrec := receiveBlock_received hacc'.found hu
    rw [← show s'.tp = u.tp from congrArg Core.tp (hcore.trans hcore')] at hrec
    exact hrec

/-- Every event adds the payload it brings to `downloaded`. -/
theorem step_downloaded (hs : s.core.Peered) (hstep : step sha1 s (env,e) = .ok s') :
    s'.tp.downloaded = s.tp.downloaded + e.payload env s := by
  by_cases hacc : ∃ idx n, e.accepts env s idx n
  · obtain ⟨idx,n,hacc⟩ := hacc
    rw [Event.payload_of_accepts hacc]
    exact (step_accepts hacc hstep).downloaded
  · rcases step_counters hs hstep with hk | ⟨idx,n,hacc',-⟩
    · rw [hk.downloaded,Event.payload_of_not hacc]
      simp
    · exact (hacc ⟨idx,n,hacc'⟩).elim

theorem run_downloaded {es : List (Env × Event)} (hs : s.core.Peered) (hrun : run sha1 s es = .ok s') :
    s'.tp.downloaded = s.tp.downloaded + acceptedPayload sha1 s es := by
  induction es generalizing s with
  | nil =>
    cases hrun
    simp [acceptedPayload]
  | cons x es ih =>
    obtain ⟨env,e⟩ := x
    rw [run,List.foldlM_cons,bind_ok] at hrun
    obtain ⟨t,ht,hrun⟩ := hrun
    rw [ih (hs.moves (step_moves hs ht)) hrun,step_downloaded hs ht,acceptedPayload,ht]
    push_cast
    ring

end Payload

/-- Mapping a piece of a multi-file torrent gives it the length it has by the metainfo. -/
def Metainfo.MapsWhole (mi : Metainfo) : Prop := mi.type = .multifile → ∀ i < mi.numPieces, ∀ tp mmaps w,
  mapFiles ((List.range mi.files.length).zip mi.files) ⟨tp,(mi.pieceLength * i : ℕ),pieceLen mi i,0,mmaps,false⟩ =
    .ok w → w.plen = pieceLen mi i

def PiecesWhole (tp : Torrent) : Prop :=
  tp.mi.MapsWhole ∧ ∀ i < tp.numPieces, (tp.piece i).len = pieceLen tp.mi i ∧ (tp.piece i).index = i

namespace PiecesWhole
variable {sha1 : Bytes → Bytes} {tp tp' : Torrent}

theorem congr (h : PiecesWhole tp) (hmi : tp'.mi = tp.mi)
    (hpiece : ∀ i, (tp'.piece i).len = (tp.piece i).len ∧ (tp'.piece i).index = (tp.piece i).index) :
    PiecesWhole tp' := by
  refine ⟨hmi ▸ h.1,?_⟩
  intro i hi
  rw [Torrent.numPieces,hmi] at hi
  rw [hmi,(hpiece i).1,(hpiece i).2]
  exact h.2 i hi

theorem setPiece (h : PiecesWhole tp) (idx : ℕ) {f : TorrentPiece → TorrentPiece}
    (hlen : (f (tp.piece idx)).len = (tp.piece idx).len) (hindex : (f (tp.piece idx)).index = (tp.piece idx).index) :
    PiecesWhole (tp.setPiece idx f) := by
  refine h.congr rfl ?_
  intro i
  by_cases hi : i = idx
  · rw [hi,Torrent.setPiece_self]
    exact ⟨hlen,hindex⟩
  · rw [Torrent.setPiece_ne _ _ hi]
    exact ⟨rfl,rfl⟩

theorem map {idx : ℕ} (h : PiecesWhole tp) (hmap : torrentPieceMap tp idx = .ok tp') : PiecesWhole tp' := by
  have hmi := torrentPieceMap_mi hmap
  refine ⟨hmi ▸ h.1,?_⟩
  intro i hi
  rw [Torrent.numPieces,hmi] at hi
  obtain ⟨hlen,hindex⟩ := h.2 i hi
  by_cases hidx : i = idx
  · subst hidx
    rw [hmi]
    cases htype : tp.mi.type with
    | singlefile =>
      obtain ⟨-,rfl⟩ := (torrentPieceMap_singlefile htype).mp hmap
      rw [Torrent.setPiece_self]
      exact ⟨hlen,hindex⟩
    | multifile =>
      simp only [torrentPieceMap,htype] at hmap
      obtain ⟨w,hw,hmap⟩ := bind_ok.mp hmap
      cases hmap
      rw [Torrent.setPiece_self,(mapFiles_frame hw).2]
      rw [hindex,hlen] at hw
      exact ⟨h.1 htype i hi _ _ w hw,hindex⟩
  · rw [torrentPieceMap_other hmap hidx,hmi]
    exact ⟨hlen,hindex⟩

theorem move (h : PiecesWhole tp) (hmove : TorrentMove sha1 tp tp') : PiecesWhole tp' := by
  cases hmove with
  | counters hmi hpiece _ => exact h.congr hmi (fun i => by rw [hpiece]; exact ⟨rfl,rfl⟩)
  | map hmap => exact h.map hmap
  | unmap idx =>
    obtain ⟨hmi,hpiece,-⟩ := Intact.foldl_unmapTurn (tp.piece idx).mmaps tp
    have hfold : PiecesWhole ((tp.piece idx).mmaps.foldl unmapTurn tp) :=
      h.congr hmi (fun i => by rw [hpiece]; exact ⟨rfl,rfl⟩)
    exact hfold.setPiece idx rfl rfl
  | verify _ hcheck =>
    rcases torrentPieceCheckhash_cases hcheck with ⟨-,rfl⟩ | ⟨-,rfl⟩
    · exact h.setPiece _ rfl rfl
    · exact h

theorem steady : Steady sha1 PiecesWhole where
  move h hmove := h.move hmove
  write idx off len d h := h.congr (torrentBlockWrite_mi _ _ _ _ _)
    (fun i => by rw [torrentBlockWrite_piece]; exact ⟨rfl,rfl⟩)
  resume i n d h := (h.setPiece i (f := fun t => { t with cksumok := true }) rfl rfl).congr rfl (fun _ => ⟨rfl,rfl⟩)

end PiecesWhole

/-- What is left when a session starts is right: either no byte of it is verified, or all pieces are
and their lengths add up to the length of the torrent. -/
def StartsExact (tp : Torrent) : Prop :=
  tp.verifiedLength = if tp.goodPieces = tp.numPieces then tp.mi.wholeLength else 0

/-- The tick has nothing to upload: the requests at the heads of the queues ask for no byte. -/
def UploadsNothing (s : Session) : Env × Event → Prop
  | (env,.scheduler) => ∀ p ∈ s.peers, attended env s p = true → ∀ pu, (s.peer p).uls.head? = some pu → pu.len = 0
  | _ => True

instance (s : Session) : (e : Env × Event) → Decidable (UploadsNothing s e)
  | (env,.scheduler) => inferInstanceAs (Decidable (∀ p ∈ s.peers, attended env s p = true →
      ∀ pu, (s.peer p).uls.head? = some pu → pu.len = 0))
  | (_,.response _ _) | (_,.error _) | (_,.keepalive _) | (_,.accept _) | (_,.tracker _) | (_,.announceTimer) =>
    isTrue trivial

structure Reporting (s : Session) : Prop where
  peered : s.core.Peered
  whole : PiecesWhole s.tp
  left : s.tp.left = s.tp.mi.wholeLength - s.tp.verifiedLength
  uploaded : s.tp.uploaded = 0
  payload : s.uploadedPayload = 0

section Runs
variable {sha1 : Bytes → Bytes} {env : Env} {s s' : Session} {e : Event} {tp tp' : Torrent}

theorem Kept.verifiedLength (h : Kept tp tp') : tp'.verifiedLength = tp.verifiedLength := by
  rw [Torrent.verifiedLength,Torrent.verifiedLength,h.verified,h.mi]

theorem Verifies.verifiedLength {idx : ℕ} (h : Verifies idx tp tp') (hnew : (tp.piece idx).cksumok = false) :
    tp'.verifiedLength = tp.verifiedLength + pieceLen tp.mi idx := by
  have hnot : idx ∉ tp.verified := by
    intro hmem
    rw [(Torrent.mem_verified.mp hmem).2] at hnew
    cases hnew
  rw [Torrent.verifiedLength,Torrent.verifiedLength,h.verified,h.mi,Finset.sum_insert hnot]
  ring

/-- What the reader gives for a request for no byte. -/
theorem blockReadLoop_zero {l : List Mmap} {off cntlen cntbase : ℕ} {d : Bytes} {hint : Bool}
    (h : blockReadLoop tp off l cntlen cntbase 0 none = .ok (some (d,hint))) : d = [] := by
  induction l generalizing cntlen cntbase with
  | nil => cases h
  | cons m rest ih =>
    simp only [blockReadLoop] at h
    split_ifs at h
    · exact ih h
    · rename_i hlt
      exact (Nat.not_lt_zero _ hlt).elim
    · cases h
      exact List.take_zero

theorem Uploads.empty {u u' : Torrent} {pu : PieceUl} {msg : Bytes} (h : Uploads env u u' pu msg) (hlen : pu.len = 0) :
    msg.length - 13 = 0 := by
  obtain ⟨d,hint,hread,rfl⟩ := h.read
  rw [hlen] at hread
  rw [blockReadLoop_zero hread,pieceMessage,hlen]
  rfl

theorem Reporting.step (h : Reporting s) (hnothing : UploadsNothing s (env,e))
    (hstep : step sha1 s (env,e) = .ok s') : Reporting s' := by
  have hmoves := step_moves h.peered hstep
  have hwhole : PiecesWhole s'.tp := PiecesWhole.steady.moves hmoves h.whole
  have hmi : s'.tp.mi = s.tp.mi := Core.Sound.mi hmoves
  have hcounters : s'.tp.left = s'.tp.mi.wholeLength - s'.tp.verifiedLength ∧ s'.tp.uploaded = s.tp.uploaded := by
    rcases step_counters h.peered hstep with hk | ⟨idx,n,-,hnew,hrec⟩
    · exact ⟨by rw [hk.left,hk.verifiedLength,hk.mi]; exact h.left,hk.uploaded⟩
    · refine ⟨?_,hrec.uploaded⟩
      rcases hrec.outcome with hk | ⟨hv,hleft⟩
      · rw [hk.left,hk.verifiedLength,hk.mi]
        exact h.left
      · have hlen : (s'.tp.piece idx).len = pieceLen s'.tp.mi idx := by
          refine (hwhole.2 idx ?_).1
          rw [Torrent.numPieces,hmi]
          exact hv.idx_lt
        rw [hleft,hv.verifiedLength hnew,h.left,hlen,hmi]
        ring
  refine ⟨h.peered.moves hmoves,hwhole,hcounters.1,hcounters.2.trans h.uploaded,?_⟩
  obtain ⟨served,hserved,hsched,hall⟩ := (step_uploads h.peered hstep).uploaded
  rw [Session.uploadedPayload,hserved,List.map_append,List.sum_append]
  have hzero : (served.map (fun m => m.2.length - 13)).sum = 0 := by
    refine List.sum_eq_zero ?_
    intro x hx
    obtain ⟨m,hm,rfl⟩ := List.mem_map.mp hx
    obtain ⟨hatt,pu,rest,huls,u,u',-,hup,-⟩ := hall.heads m hm
    have he : e = .scheduler := hsched (List.ne_nil_of_mem hm)
    subst he
    exact hup.empty (hnothing m.1 (hall.once.subset (List.mem_map_of_mem hm)) hatt pu (by rw [huls]; rfl))
  rw [hzero,Nat.add_zero]
  exact h.payload

/-- Both ways of starting leave `left` and `uploaded` as they were parsed. -/
theorem Boot.torrent_left {b : Boot} (h : b.torrent sha1 = .ok tp) : tp.left = b.mi.wholeLength ∧ tp.uploaded = 0 := by
  have hall : tp.left = (torrentPiecesCreate b.pagesize b.mi b.disk).left ∧ tp.uploaded =
      (torrentPiecesCreate b.pagesize b.mi b.disk).uploaded := by
    unfold Boot.torrent at h
    cases hr : b.resume with
    | none =>
      rw [hr] at h
      refine foldlM_rel (R := fun t t' : Torrent => t'.left = t.left ∧ t'.uploaded = t.uploaded) (fun _ => ⟨rfl,rfl⟩)
        (fun hab hbc => ⟨hbc.1.trans hab.1,hbc.2.trans hab.2⟩) _ ?_ h
      intro t t' i _ ht
      exact startupPiece_left ht
    | some contents =>
      rw [hr] at h
      refine foldlM_rel (R := fun t t' : Torrent => t'.left = t.left ∧ t'.uploaded = t.uploaded) (fun _ => ⟨rfl,rfl⟩)
        (fun hab hbc => ⟨hbc.1.trans hab.1,hbc.2.trans hab.2⟩) _ ?_ h
      intro t t' i _ ht
      unfold fastresumeTurn at ht
      obtain ⟨tpp,-,ht⟩ := bind_ok.mp ht
      obtain ⟨bit,-,ht⟩ := bind_ok.mp ht
      cases ht
      cases bit <;> exact ⟨rfl,rfl⟩
  exact ⟨hall.1,hall.2⟩

theorem Boot.session_reporting {b : Boot} (h : b.session sha1 = .ok s) (hmaps : b.mi.MapsWhole)
    (hstart : StartsExact s.tp) : Reporting s ∧ s.tp.downloaded = 0 := by
  have hwhole : PiecesWhole s.tp := PiecesWhole.steady.session ⟨hmaps,fun i _ => ⟨rfl,rfl⟩⟩ h
  obtain ⟨tp,htp,rfl⟩ := Boot.session_ok h
  obtain ⟨hleft,hup⟩ := Boot.torrent_left htp
  have hmi : tp.mi = b.mi := (Boot.torrent_tallied htp).mi
  refine ⟨⟨initial_peered _ _ _ _ _,hwhole,?_,hup,rfl⟩,rfl⟩
  have hlen : (networkStartTorrent tp).verifiedLength =
      if tp.goodPieces = tp.numPieces then tp.mi.wholeLength else 0 := hstart
  rw [show (Session.initial tp b.maxfds b.peerid b.seed b.now).tp = networkStartTorrent tp from rfl,hlen]
  simp only [networkStartTorrent]
  split
  · ring
  · rw [hleft,hmi]
    ring

/-- In a run that starts from nothing or from everything and in which nothing is uploaded, the
numbers an announce reports are right in every state. -/
theorem tracker_report_exact (sha1 : Bytes → Bytes) (b : Boot) (s₀ s : Session) (es : List (Env × Event))
    (hboot : b.session sha1 = .ok s₀) (hmaps : b.mi.MapsWhole) (hstart : StartsExact s₀.tp)
    (hmeets : RunMeets sha1 UploadsNothing s₀ es) (hrun : run sha1 s₀ es = .ok s) :
    reported s.tp = s.trueReport (acceptedPayload sha1 s₀ es) := by
  obtain ⟨hs₀,hzero⟩ := Boot.session_reporting hboot hmaps hstart
  have hs : Reporting s := by
    refine hmeets.invariant ?_ hs₀ hrun
    rintro t ⟨env,e⟩ t' ht hnothing hstep
    exact ht.step hnothing hstep
  have hdown := run_downloaded hs₀.peered hrun
  rw [hzero,zero_add] at hdown
  simp only [reported,Session.trueReport,hs.uploaded,hs.payload,hs.left,hdown]
  rfl

end Runs

instance (tp : Torrent) : Decidable (StartsExact tp) := inferInstanceAs (Decidable (_ = _))

/-- A first start, and a peer that delivers the only piece. -/
theorem tracker_report_exact_delivered : ∃ s₀ s, (Boot.oneByte zeroByteDigest 1).session sha1ZeroByte = .ok s₀ ∧
    run sha1ZeroByte s₀ answeredRun = .ok s ∧ s.tp.downloaded = 1 ∧
    reported s.tp = s.trueReport (acceptedPayload sha1ZeroByte s₀ answeredRun) := by
  have hcheck : ((Boot.oneByte zeroByteDigest 1).session sha1ZeroByte).toOption.map (fun s₀ =>
      (decide (StartsExact s₀.tp) && runMeets sha1ZeroByte UploadsNothing s₀ answeredRun) &&
        decide ((run sha1ZeroByte s₀ answeredRun).toOption.map (fun s => decide (s.tp.downloaded = 1)) = some true)) =
      some true := by decide +kernel
  obtain ⟨s₀,h₀,hP⟩ := exists_ok hcheck
  obtain ⟨hbefore,hend⟩ := Bool.and_eq_true_iff.mp hP
  obtain ⟨hstart,hmeets⟩ := Bool.and_eq_true_iff.mp hbefore
  obtain ⟨s,hrun,hdown⟩ := exists_ok (of_decide_eq_true hend)
  refine ⟨s₀,s,h₀,hrun,of_decide_eq_true hdown,?_⟩
  exact tracker_report_exact sha1ZeroByte _ s₀ s _ h₀ (fun h => by cases h) (of_decide_eq_true hstart)
    (runMeets_iff.mp hmeets) hrun

/-- A torrent of two one-byte pieces, the first of which is there. -/
def Boot.halfSeeded : Boot :=
  { Boot.oneByte (zeroByteDigest ++ List.replicate 20 0) 2 with disk := fun _ => ⟨false,0,some [0,1],false⟩ }

/-- One byte is uploaded and none is reported; one byte is missing and two are reported. -/
theorem tracker_report_wrong :
    (∃ s, Reachable sha1ZeroByte .seeded s ∧ (reported s.tp).uploaded = 0 ∧ s.uploadedPayload = 1) ∧
    ∃ s, Reachable sha1ZeroByte .halfSeeded s ∧ (reported s.tp).left = 2 ∧
      s.tp.mi.wholeLength - s.tp.verifiedLength = 1 := by
  constructor
  · have hrun : (Boot.seeded.run sha1ZeroByte (requestRun 1 ++ [(.plain 1001,.scheduler)])).toOption.map (fun s =>
        decide ((reported s.tp).uploaded = 0 ∧ s.uploadedPayload = 1)) = some true := by decide +kernel
    obtain ⟨s,hs,hP⟩ := exists_reachable hrun
    exact ⟨s,hs,of_decide_eq_true hP⟩
  · have hrun : (Boot.halfSeeded.run sha1ZeroByte []).toOption.map (fun s =>
        decide ((reported s.tp).left = 2 ∧ s.tp.mi.wholeLength - s.tp.verifiedLength = 1)) = some true := by
      decide +kernel
    obtain ⟨s,hs,hP⟩ := exists_reachable hrun
    exact ⟨s,hs,of_decide_eq_true hP⟩

end Unworkable
