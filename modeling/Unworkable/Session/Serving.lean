import Unworkable.Session.QueueLength
import Unworkable.Session.Uploads
import Unworkable.Session.Verified
import Unworkable.Torrent.Contents
import Unworkable.Torrent.Walks

/-! # Which bytes uploads carry

A PIECE message answers the head of the upload queue of its receiver. Queued requests are for
verified pieces, but nothing bounds their length; as long as a request lies inside its piece, the
message carries exactly the bytes of the piece it asks for. The choke state of the receiver is
looked at nowhere on this way.
-/
namespace Unworkable
open Library

section Torrent
variable {sha1 : Bytes → Bytes} {tp tp' : Torrent} {idx : ℕ}

/-- A piece gets the same length whatever happened to the other ones. -/
theorem ensureMapped_len_congr {t t' : Torrent} (hmi : t.mi = tp.mi) (hpiece : t.piece idx = tp.piece idx)
    (h : ensureMapped tp idx = .ok tp') (ht : ensureMapped t idx = .ok t') : (t'.piece idx).len =
      (tp'.piece idx).len := by
  unfold ensureMapped at h ht
  rw [hpiece] at ht
  split at h
  · rename_i hm
    rw [if_pos hm] at ht
    cases h
    cases ht
    rw [hpiece]
  · rename_i hm
    rw [if_neg hm] at ht
    cases htype : tp.mi.type with
    | singlefile =>
      obtain ⟨-,rfl⟩ := (torrentPieceMap_singlefile htype).mp h
      obtain ⟨-,rfl⟩ := (torrentPieceMap_singlefile (hmi ▸ htype)).mp ht
      rw [Torrent.setPiece_self,Torrent.setPiece_self,mmapCreated_piece,mmapCreated_piece,hpiece]
    | multifile =>
      simp only [torrentPieceMap,htype,zip_range_zero] at h
      simp only [torrentPieceMap,hmi,htype,hpiece,zip_range_zero] at ht
      obtain ⟨w,hw,h⟩ := bind_ok.mp h
      obtain ⟨w',hw',ht⟩ := bind_ok.mp ht
      cases h
      cases ht
      rw [Torrent.setPiece_self,Torrent.setPiece_self]
      exact mapFiles_plen_congr hw hw'

/-- Also after other pieces got mapped. -/
theorem Remapped.mappedLen_le {u u' : Torrent} (h : Remapped tp u) (hu : ensureMapped u idx = .ok u') :
    mappedLen tp idx ≤ (u'.piece idx).len := by
  cases hmap : ensureMapped tp idx with
  | error e => simp [mappedLen,hmap]
  | ok tp' =>
    have hsame : mappedLen tp idx = (tp'.piece idx).len := by simp only [mappedLen,hmap]
    have hinv : (u.mi = tp.mi ∧ u.piece idx = tp.piece idx) ∨
        ((u.piece idx).mapped = true ∧ (u.piece idx).len = (tp'.piece idx).len) := by
      clear hu
      induction h with
      | refl => exact .inl ⟨rfl,rfl⟩
      | @tail v w _ hstep ih =>
        obtain ⟨i,hi⟩ := hstep
        by_cases hidx : idx = i
        · subst hidx
          refine .inr ⟨(ensureMapped_mapped hi).1,?_⟩
          rcases ih with ⟨hmi,hpiece⟩ | ⟨hmapped,hlen⟩
          · exact ensureMapped_len_congr hmi hpiece hmap hi
          · rw [ensureMapped_mapped_piece hi hmapped]
            exact hlen
        · rw [ensureMapped_piece hi hidx,(Kept.ensureMapped hi).mi]
          exact ih
    rcases hinv with ⟨hmi,hpiece⟩ | ⟨hmapped,hlen⟩
    · exact (hsame.trans (ensureMapped_len_congr hmi hpiece hmap hu).symm).le
    · rw [ensureMapped_mapped_piece hu hmapped]
      exact (hsame.trans hlen.symm).le

def Placed (tp : Torrent) : Prop := Backed tp ∧ Viewed tp

theorem Placed.move (h : Placed tp) (hmove : TorrentMove sha1 tp tp') : Placed tp' := ⟨h.1.move hmove,h.2.move hmove⟩

theorem Placed.moves (h : Placed tp) (hmoves : TorrentMoves sha1 tp tp') : Placed tp' := by
  induction hmoves with
  | refl => exact h
  | tail _ hmove ih => exact ih.move hmove

theorem Placed.ensureMapped (h : Placed tp) (hmap : ensureMapped tp idx = .ok tp') : Placed tp' :=
  h.moves (@ensureMapped_moves (fun bs => bs) _ _ _ hmap)

theorem Placed.remapped (h : Placed tp) (hr : Remapped tp tp') : Placed tp' := by
  induction hr with
  | refl => exact h
  | tail _ hmap ih =>
    obtain ⟨i,hmap⟩ := hmap
    exact ih.ensureMapped hmap

theorem Placed.steady : Steady sha1 Placed where
  move h hmove := h.move hmove
  write idx off len d h := ⟨h.1.write idx off len d,h.2.write idx off len d⟩
  resume i n d h := by
    constructor
    · refine h.1.grow ?_ (fun _ => le_refl _)
      intro j
      by_cases hj : j = i
      · simp [hj]
      · simp [Torrent.setPiece_ne _ _ hj]
    · exact (h.2.setPiece i (f := fun t => { t with cksumok := true }) rfl rfl (fun _ hm => hm)).congr rfl
        (fun _ => ⟨rfl,rfl,fun _ hm => hm⟩)

end Torrent

/-- The uploads a tick is about to make lie inside their pieces. -/
def UploadsFit (s : Session) : Env × Event → Prop
  | (env,.scheduler) => ∀ p ∈ s.peers, attended env s p = true → ∀ pu, (s.peer p).uls.head? = some pu →
      pu.off + pu.len ≤ mappedLen s.tp pu.idx
  | _ => True

instance (s : Session) : (e : Env × Event) → Decidable (UploadsFit s e)
  | (env,.scheduler) => inferInstanceAs (Decidable (∀ p ∈ s.peers, attended env s p = true →
      ∀ pu, (s.peer p).uls.head? = some pu → pu.off + pu.len ≤ mappedLen s.tp pu.idx))
  | (_,.response _ _) | (_,.error _) | (_,.keepalive _) | (_,.accept _) | (_,.tracker _) | (_,.announceTimer) =>
    isTrue trivial

/-- A PIECE message that answers the request `pu` with the bytes of a verified piece. -/
structure Answers (tp : Torrent) (pu : PieceUl) (msg : Bytes) : Prop where
  idx_lt : pu.idx < tp.numPieces
  verified : (tp.piece pu.idx).cksumok = true
  inside : pu.off + pu.len ≤ (tp.piece pu.idx).len
  short : 9 + pu.len < 4294967296
  bytes : msg = be32 (9 + pu.len) ++ msgPieceId ::
    (be32 pu.idx ++ be32 pu.off ++ window (tp.contents pu.idx) pu.off pu.len)
  length : (window (tp.contents pu.idx) pu.off pu.len).length = pu.len
  place : tp.mi.type = .singlefile → window (tp.contents pu.idx) pu.off pu.len =
    window (tp.fileData 0) (tp.mi.pieceLength * pu.idx + pu.off) pu.len

/-- Every PIECE message a step writes answers the head of the queue of its receiver. -/
def UploadsSound (s : Session) (_ : Env × Event) (s' : Session) : Prop :=
  ∃ served, s'.uploads = s.uploads ++ served ∧ ∀ m ∈ served, m.1 ∈ s.peers ∧
    ∃ pu, (s.peer m.1).uls.head? = some pu ∧ Answers s'.tp pu m.2

/-- What holds between events: mappings are in place and queued requests are for verified pieces. -/
structure Serving (s : Session) : Prop where
  peered : s.core.Peered
  placed : Placed s.tp
  queued : ∀ p, ∀ pu ∈ (s.peer p).uls, pu.idx < s.tp.numPieces ∧ (s.tp.piece pu.idx).cksumok = true

section Runs
variable {sha1 : Bytes → Bytes} {env : Env} {s s' : Session}

theorem Boot.session_serving {b : Boot} (h : b.session sha1 = .ok s) : Serving s := by
  have hplaced := Placed.steady.session ⟨.create _ _ _,.create _ _ _⟩ h
  obtain ⟨tp,htp,rfl⟩ := Boot.session_ok h
  refine ⟨initial_peered _ _ _ _ _,hplaced,?_⟩
  intro p pu hpu
  cases hpu

theorem Serving.step (h : Serving s) {e : Event} (hstep : step sha1 s (env,e) = .ok s') : Serving s' := by
  have hmoves := step_moves h.peered hstep
  have hmi : s'.tp.mi = s.tp.mi := Core.Sound.mi hmoves
  have hkeep : ∀ i, i < s.tp.numPieces ∧ (s.tp.piece i).cksumok = true →
      i < s'.tp.numPieces ∧ (s'.tp.piece i).cksumok = true := by
    rintro i ⟨hi,hck⟩
    refine ⟨?_,Moves.cksumok hmoves hck⟩
    rwa [Torrent.numPieces,hmi]
  refine ⟨h.peered.moves hmoves,Placed.steady.moves hmoves h.placed,?_⟩
  intro p pu hpu
  rcases (step_uploads h.peered hstep).queued p pu hpu with hpu | ⟨avail,msg,-,-,-,-,hq,rfl⟩
  · exact hkeep pu.idx (h.queued p pu hpu)
  · exact hkeep _ ⟨hq.idx_lt,hq.verified⟩

theorem length_padded_of_le {stale : ℕ → UInt8} {bs : Bytes} {len : ℕ} (h : bs.length = len) :
    padded stale bs len = bs := by
  simp [padded,h]

/-- An upload inside its piece carries the bytes asked for. -/
theorem TickUpload.answers {tp tp' : Torrent} {pu : PieceUl} {msg : Bytes} (h : TickUpload env tp tp' pu msg)
    (hp : Placed tp) (hidx : pu.idx < tp.numPieces) (hck : (tp.piece pu.idx).cksumok = true)
    (hfit : pu.off + pu.len ≤ mappedLen tp pu.idx) : Answers tp' pu msg := by
  obtain ⟨u,u',hu,hup,hu'⟩ := h
  obtain ⟨d,hint,hread,rfl⟩ := hup.read
  have hshort := hup.short
  have hpu' : Placed u' := (hp.remapped hu).ensureMapped hup.mapped
  have hmapped : (u'.piece pu.idx).mapped = true := (ensureMapped_mapped hup.mapped).1
  have hfit' : pu.off + pu.len ≤ (u'.piece pu.idx).len := hfit.trans (hu.mappedLen_le hup.mapped)
  obtain ⟨hb,hpiece,hcontents⟩ := hu'.contents hpu'.1 hmapped
  obtain ⟨hd,hdlen⟩ := hpu'.1.torrentBlockRead hmapped hfit' hread
  have hkept : Kept tp tp' := (hu.trans (.single hup.mapped)).kept.trans hu'.kept
  have hnum : tp'.numPieces = tp.numPieces := congrArg Metainfo.numPieces hkept.mi
  have hinside : pu.off + pu.len ≤ (tp'.piece pu.idx).len := by
    rwa [hpiece]
  have hwindow : d = window (tp'.contents pu.idx) pu.off pu.len := by rw [hcontents]; exact hd
  refine ⟨by rwa [hnum],(hkept.flags pu.idx).trans hck,hinside,by omega,?_,hwindow ▸ hdlen,?_⟩
  · rw [pieceMessage,length_padded_of_le hdlen,message,← hwindow]
    have hfields : (be32 pu.idx ++ be32 pu.off ++ d).length + 1 = 9 + pu.len := by
      simp only [List.length_append,hdlen,be32,List.length_cons,List.length_nil]
      omega
    rw [hfields]
  · intro hs
    have hp' : Placed tp' := hpu'.remapped hu'
    exact hp'.2.window_contents hp'.1 hs (by rw [hpiece]; exact hmapped) hinside

theorem Serving.uploadsSound (h : Serving s) {e : Event} (hfit : UploadsFit s (env,e))
    (hstep : Unworkable.step sha1 s (env,e) = .ok s') : UploadsSound s (env,e) s' := by
  obtain ⟨served,hserved,hsched,hall⟩ := (step_uploads h.peered hstep).uploaded
  refine ⟨served,hserved,?_⟩
  intro m hm
  obtain ⟨hatt,pu,rest,huls,hup⟩ := hall.heads m hm
  have hmem : m.1 ∈ s.peers := hall.once.subset (List.mem_map_of_mem hm)
  have he : e = .scheduler := hsched (List.ne_nil_of_mem hm)
  subst he
  have hpu : pu ∈ (s.peer m.1).uls := by rw [huls]; exact List.mem_cons_self
  have hhead : (s.peer m.1).uls.head? = some pu := by rw [huls]; rfl
  obtain ⟨hidx,hck⟩ := h.queued m.1 pu hpu
  exact ⟨hmem,pu,hhead,hup.answers h.placed hidx hck (hfit m.1 hmem hatt pu hhead)⟩

/-- In a run whose ticks find only requests inside their pieces at the heads of the queues they
serve, every PIECE message carries exactly the bytes of a verified piece it was asked for. -/
theorem uploads_carry_verified_bytes (sha1 : Bytes → Bytes) (b : Boot) (s₀ : Session) (es : List (Env × Event))
    (hboot : b.session sha1 = .ok s₀) (hmeets : RunMeets sha1 UploadsFit s₀ es) : RunShows sha1 UploadsSound s₀ es := by
  refine hmeets.shows (I := Serving) ?_ (Boot.session_serving hboot)
  rintro s ⟨env,e⟩ s' hs hfit hstep
  exact ⟨hs.uploadsSound hfit hstep,hs.step hstep⟩

end Runs

section Small

def Boot.seeded : Boot := { Boot.oneByte zeroByteDigest 1 with disk := fun _ => ⟨false,0,some [0],false⟩ }

/-- A peer connects, shakes hands and asks for `len` bytes of piece 0. -/
def requestRun (len : UInt8) : List (Env × Event) :=
  [(.plain 1000,.accept 1)] ++ inputs 1000 0 handshakePortions ++
    inputs 1000 0 (messagePortions [msgRequestId,0,0,0,0,0,0,0,0,0,0,0,len])

/-- The one byte is asked for and sent. -/
theorem uploads_carry_verified_bytes_one : ∃ s₀ s, Boot.seeded.session sha1ZeroByte = .ok s₀ ∧
    run sha1ZeroByte s₀ (requestRun 1 ++ [(.plain 1001,.scheduler)]) = .ok s ∧ s.uploads ≠ [] ∧
    RunShows sha1ZeroByte UploadsSound s₀ (requestRun 1 ++ [(.plain 1001,.scheduler)]) := by
  have hcheck : (Boot.seeded.session sha1ZeroByte).toOption.map (fun s₀ =>
      runMeets sha1ZeroByte UploadsFit s₀ (requestRun 1 ++ [(.plain 1001,.scheduler)]) &&
        decide ((run sha1ZeroByte s₀ (requestRun 1 ++ [(.plain 1001,.scheduler)])).toOption.map
          (fun s => decide (s.uploads ≠ [])) = some true)) = some true := by decide +kernel
  obtain ⟨s₀,h₀,hP⟩ := exists_ok hcheck
  obtain ⟨hmeets,hend⟩ := Bool.and_eq_true_iff.mp hP
  obtain ⟨s,hrun,hup⟩ := exists_ok (of_decide_eq_true hend)
  exact ⟨s₀,s,h₀,hrun,of_decide_eq_true hup,
    uploads_carry_verified_bytes sha1ZeroByte _ s₀ _ h₀ (runMeets_iff.mp hmeets)⟩

/-- Two bytes are asked for and two are sent, though the piece has only one. -/
theorem upload_past_piece_end : ∃ s s', Reachable sha1ZeroByte .seeded s ∧
    step sha1ZeroByte s (.plain 1001,.scheduler) = .ok s' ∧ s.uploads = [] ∧ (s.peer 0).uls = [⟨0,0,2⟩] ∧
    (s'.tp.piece 0).len = 1 ∧ s'.uploads = [(0,[0,0,0,11,msgPieceId,0,0,0,0,0,0,0,0,0,0])] ∧
    ¬ UploadsSound s (.plain 1001,.scheduler) s' := by
  have hrun : (Boot.seeded.run sha1ZeroByte (requestRun 2)).toOption.map (fun s =>
      decide (s.uploads = [] ∧ (s.peer 0).uls = [⟨0,0,2⟩]) &&
        decide ((step sha1ZeroByte s (.plain 1001,.scheduler)).toOption.map (fun s' =>
          decide ((s'.tp.piece 0).len = 1 ∧ s'.uploads = [(0,[0,0,0,11,msgPieceId,0,0,0,0,0,0,0,0,0,0])])) =
            some true)) = some true := by decide +kernel
  obtain ⟨s,hs,hP⟩ := exists_reachable hrun
  obtain ⟨hbefore,hend⟩ := Bool.and_eq_true_iff.mp hP
  obtain ⟨hnone,huls⟩ := of_decide_eq_true hbefore
  obtain ⟨s',hstep,hafter⟩ := exists_ok (of_decide_eq_true hend)
  obtain ⟨hlen,hup⟩ := of_decide_eq_true hafter
  refine ⟨s,s',hs,hstep,hnone,huls,hlen,hup,?_⟩
  rintro ⟨served,hserved,hall⟩
  rw [hup,hnone,List.nil_append] at hserved
  obtain ⟨-,pu,hpu,hans⟩ := hall (0,_) (by rw [← hserved]; exact List.mem_cons_self)
  rw [huls] at hpu
  cases hpu
  have hinside : 0 + 2 ≤ 1 := hlen ▸ hans.inside
  omega

/-- In every run a PIECE message is written by ticks only, at most one for each peer and tick, to
peers that are on the list, not marked dead and not silent for too long, and it answers the
oldest request in the queue of its receiver, which got there by a REQUEST from that peer for a
verified piece. -/
theorem pieces_answer_requests (sha1 : Bytes → Bytes) (b : Boot) (s s' : Session) (env : Env) (e : Event)
    (hs : Reachable sha1 b s) (hstep : step sha1 s (env,e) = .ok s') :
    (∃ served, s'.uploads = s.uploads ++ served ∧ (served ≠ [] → e = .scheduler) ∧ (served.map Prod.fst).Nodup ∧
      ∀ m ∈ served, m.1 ∈ s.peers ∧ (s.peer m.1).state.dead = false ∧ attended env s m.1 = true ∧
        ∃ pu rest d, (s.peer m.1).uls = pu :: rest ∧ m.2 = pieceMessage env pu d) ∧
    ∀ q, ∀ pu ∈ (s'.peer q).uls, pu ∈ (s.peer q).uls ∨ ∃ avail msg, e = .response q avail ∧ q ∈ s.peers ∧
      completed env (s.peer q) avail = some msg ∧ msg.headD 0 = msgRequestId ∧ Queued env s msg ∧
      pu = requestedUl env msg := by
  obtain ⟨es,hes⟩ := hs
  obtain ⟨s₀,hs₀,hes⟩ := bind_ok.mp hes
  obtain ⟨tp,htp,rfl⟩ := Boot.session_ok hs₀
  have hpeered := (initial_peered tp b.maxfds b.peerid b.seed b.now).moves (run_moves (initial_peered _ _ _ _ _) hes)
  obtain ⟨⟨served,hserved,hsched,hall⟩,hqueued⟩ := step_uploads hpeered hstep
  refine ⟨⟨served,hserved,hsched,hpeered.nodup.sublist hall.once,?_⟩,hqueued⟩
  intro m hm
  obtain ⟨hatt,pu,rest,huls,u,u',-,hup,-⟩ := hall.heads m hm
  obtain ⟨d,hint,-,hmsg⟩ := hup.read
  have hdead : (s.peer m.1).state.dead = false := by
    cases hd : (s.peer m.1).state.dead with
    | false => rfl
    | true => simp [attended,hd] at hatt
  exact ⟨hall.once.subset (List.mem_map_of_mem hm),hdead,hatt,pu,rest,d,huls,hmsg⟩

/-- A peer that was never unchoked asks for the one byte and gets it. -/
theorem piece_sent_while_choking : ∃ s s', Reachable sha1ZeroByte .seeded s ∧
    step sha1ZeroByte s (.plain 1001,.scheduler) = .ok s' ∧ s.uploads = [] ∧
    s'.uploads = [(0,[0,0,0,10,msgPieceId,0,0,0,0,0,0,0,0,0])] ∧ (s.peer 0).state.amchoking = true ∧
    (s'.peer 0).state.amchoking = true ∧ ∀ m ∈ s'.out, m.2 ≠ message msgUnchokeId [] := by
  have hrun : (Boot.seeded.run sha1ZeroByte (requestRun 1)).toOption.map (fun s =>
      decide (s.uploads = [] ∧ (s.peer 0).state.amchoking = true) &&
        decide ((step sha1ZeroByte s (.plain 1001,.scheduler)).toOption.map (fun s' =>
          decide (s'.uploads = [(0,[0,0,0,10,msgPieceId,0,0,0,0,0,0,0,0,0])] ∧ (s'.peer 0).state.amchoking = true ∧
            ∀ m ∈ s'.out, m.2 ≠ message msgUnchokeId [])) = some true)) = some true := by decide +kernel
  obtain ⟨s,hs,hP⟩ := exists_reachable hrun
  obtain ⟨hbefore,hend⟩ := Bool.and_eq_true_iff.mp hP
  obtain ⟨hnone,hchoking⟩ := of_decide_eq_true hbefore
  obtain ⟨s',hstep,hafter⟩ := exists_ok (of_decide_eq_true hend)
  obtain ⟨hup,hstill,hout⟩ := of_decide_eq_true hafter
  exact ⟨s,s',hs,hstep,hnone,hup,hchoking,hstill,hout⟩

/-- The same tick as an instance. -/
theorem pieces_answer_requests_choked : ∃ s s', Reachable sha1ZeroByte .seeded s ∧
    step sha1ZeroByte s (.plain 1001,.scheduler) = .ok s' ∧ ∃ served, s'.uploads = s.uploads ++ served ∧
      served ≠ [] ∧ ∀ m ∈ served, m.1 ∈ s.peers ∧ (s.peer m.1).state.dead = false := by
  have hrun : (Boot.seeded.run sha1ZeroByte (requestRun 1)).toOption.map (fun s =>
      decide ((step sha1ZeroByte s (.plain 1001,.scheduler)).toOption.map (fun s' =>
        decide (s'.uploads ≠ s.uploads)) = some true)) = some true := by decide +kernel
  obtain ⟨s,hs,hP⟩ := exists_reachable hrun
  obtain ⟨s',hstep,hne⟩ := exists_ok (of_decide_eq_true hP)
  obtain ⟨⟨served,hserved,-,-,hall⟩,-⟩ := pieces_answer_requests sha1ZeroByte _ s s' _ _ hs hstep
  refine ⟨s,s',hs,hstep,served,hserved,?_,fun m hm => ⟨(hall m hm).1,(hall m hm).2.1⟩⟩
  rintro rfl
  rw [List.append_nil] at hserved
  exact of_decide_eq_true hne hserved

end Small

end Unworkable
