import Unworkable.Torrent.Resume
import Unworkable.Torrent.Startup
import Unworkable.Session.Tally
import Unworkable.Session.Verified

/-! # From one process to the next

A process takes the verified pieces from the resume file that it finds, and does not check them again. The file is
written whenever a piece has passed its check, so at any time it tells which pieces are verified. What it tells
stays true over any number of processes, whether they are killed or terminate on a signal.
-/
namespace Unworkable
open Library

/-- The resume file that is there, the one found if none has been written yet. -/
def Torrent.resumeFile (tp : Torrent) (found : Option Bytes) : Option Bytes := tp.funresume.or found

def Torrent.Recorded (found : Option Bytes) (tp : Torrent) : Prop :=
  ∀ bits, tp.resumeFile found = some bits → ∀ i < tp.numPieces, bitAt bits i = (tp.piece i).cksumok

structure SameRecord (tp tp' : Torrent) : Prop where
  mi : tp'.mi = tp.mi
  flags : ∀ i, (tp'.piece i).cksumok = (tp.piece i).cksumok
  file : tp'.funresume = tp.funresume

namespace SameRecord
variable {tp tp' tp'' : Torrent} {idx : ℕ}

theorem refl (tp : Torrent) : SameRecord tp tp := ⟨rfl,fun _ => rfl,rfl⟩

theorem trans (h : SameRecord tp tp') (h' : SameRecord tp' tp'') : SameRecord tp tp'' :=
  ⟨h'.mi.trans h.mi,fun i => (h'.flags i).trans (h.flags i),h'.file.trans h.file⟩

theorem recorded {found : Option Bytes} (h : SameRecord tp tp') (hr : tp.Recorded found) : tp'.Recorded found := by
  intro bits hbits i hi
  unfold Torrent.resumeFile at hbits
  rw [h.file] at hbits
  rw [Torrent.numPieces,h.mi] at hi
  rw [h.flags]
  exact hr bits hbits i hi

theorem of_kept (h : Kept tp tp') (hfile : tp'.funresume = tp.funresume) : SameRecord tp tp' := ⟨h.mi,h.flags,hfile⟩

theorem torrentPieceMap (h : torrentPieceMap tp idx = .ok tp') : SameRecord tp tp' := by
  apply of_kept (.torrentPieceMap h)
  exact torrentPieceMap_keeps (P := fun u => u.funresume = tp.funresume) (fun _ _ _ _ hu =>
    hu) (fun _ _ _ hu => hu) rfl h

theorem ensureMapped (h : ensureMapped tp idx = .ok tp') : SameRecord tp tp' := by
  unfold Unworkable.ensureMapped at h
  split at h
  · cases h
    exact .refl tp
  · exact torrentPieceMap h

theorem remapped (h : Remapped tp tp') : SameRecord tp tp' := by
  induction h with
  | refl => exact .refl _
  | tail _ hmap ih =>
    obtain ⟨idx,hmap⟩ := hmap
    exact ih.trans (ensureMapped hmap)

theorem torrentPieceUnmap (tp : Torrent) (idx : ℕ) : SameRecord tp (torrentPieceUnmap tp idx) := by
  apply of_kept (.torrentPieceUnmap tp idx)
  exact foldl_rel (R := fun a b : Torrent => b.funresume = a.funresume) (fun _ => rfl) (fun hab hbc => hbc.trans hab) _
    (fun t m _ => show (unmapTurn t m).funresume = t.funresume from rfl) tp

theorem blockWriteLoop (off len : ℕ) (d : Bytes) (l : List Mmap) (cntlen cntbase bytesleft : ℕ) (tp : Torrent) :
    (blockWriteLoop off len d l cntlen cntbase bytesleft tp).funresume = tp.funresume := by
  induction l generalizing cntlen cntbase bytesleft tp with
  | nil => rfl
  | cons m rest ih =>
    simp only [Unworkable.blockWriteLoop]
    split
    · split
      · exact ih _ _ _ _
      · rfl
    · split
      · exact ih _ _ _ _
      · split
        · exact ih _ _ _ _
        · rfl

theorem torrentBlockWrite (tp : Torrent) (idx off len : ℕ) (d : Bytes) :
    SameRecord tp (torrentBlockWrite tp idx off len d) :=
  of_kept (.torrentBlockWrite tp idx off len d) (blockWriteLoop off len d _ 0 0 len tp)

end SameRecord

section Record
variable {sha1 : Bytes → Bytes} {env : Env} {tp : Torrent} {bits : Bytes} {s s' : Session} {p : PeerId} {idx : ℕ}

theorem packed_of_get (hn : tp.numPieces < 4294967289) (h : torrentBitfieldGet tp = .ok bits) :
    Packed tp tp.numPieces bits := by
  obtain ⟨bits',hget,hpacked⟩ := torrentBitfieldGet_packed hn
  rw [h] at hget
  cases hget
  exact hpacked

theorem Packed.recorded {found : Option Bytes} (h : Packed tp tp.numPieces bits) (hfile : tp.funresume = some bits) :
    tp.Recorded found := by
  intro bits' hbits i hi
  unfold Torrent.resumeFile at hbits
  rw [hfile,Option.some_or] at hbits
  cases hbits
  rw [h.bits,decide_eq_true hi,Bool.true_and]

/-- What a verified piece does to the resume file. -/
theorem pieceVerified_dump (h : pieceVerified env s idx = .ok s') :
    ∃ bits, torrentBitfieldGet s.tp = .ok bits ∧ s'.tp.funresume = some bits := by
  unfold pieceVerified at h
  obtain ⟨tp,htp,h⟩ := bind_ok.mp h
  obtain ⟨t,ht,h⟩ := bind_ok.mp h
  cases h
  unfold torrentFastresumeDump at htp
  obtain ⟨bits,hbits,htp⟩ := bind_ok.mp htp
  cases htp
  refine ⟨bits,hbits,?_⟩
  have hfold : (t.peers.foldl (fun s q => networkPeerWriteHave env s q idx) t).core = t.core :=
    core_foldl t (fun s q => core_networkPeerWrite env s q _) t.peers
  rw [show (t.peers.foldl (fun s q => networkPeerWriteHave env s q idx) t).tp = t.tp from congrArg Core.tp hfold,
    show t.tp = _ from congrArg Core.tp (core_announceCompleted ht)]
  rfl

/-- The file is as it was, with the flags, or has been written with the flags as they are. -/
def Records (tp tp' : Torrent) : Prop :=
  SameRecord tp tp' ∨ tp'.mi = tp.mi ∧ ∃ bits, tp'.funresume = some bits ∧ Packed tp' tp'.numPieces bits

theorem Records.before {tp' tp'' : Torrent} (hq : SameRecord tp tp') (h : Records tp' tp'') : Records tp tp'' := by
  rcases h with h | ⟨hmi,h⟩
  · exact .inl (hq.trans h)
  · exact .inr ⟨hmi.trans hq.mi,h⟩

theorem Records.recorded {tp' : Torrent} {found : Option Bytes} (h : Records tp tp') (hr : tp.Recorded found) :
    tp'.Recorded found := by
  rcases h with h | ⟨-,bits,hfile,hpacked⟩
  · exact h.recorded hr
  · exact hpacked.recorded hfile

theorem checkPiece_records (hn : s.tp.numPieces < 4294967289) (h : checkPiece sha1 env s idx = .ok s') :
    Records s.tp s'.tp := by
  obtain ⟨st,rfl | ⟨u,hu,rfl⟩⟩ := checkPiece_cases h
  · exact .inl (.torrentPieceUnmap s.tp idx)
  · have hmi : (s.tp.passed idx).mi = s.tp.mi := (SameRecord.torrentPieceUnmap _ idx).mi
    obtain ⟨bits,hget,hfile⟩ := pieceVerified_dump hu
    obtain ⟨humi,hpiece,-⟩ := pieceVerified_tp hu
    have hpacked := packed_of_get (by rwa [Torrent.numPieces,hmi]) hget
    refine .inr ⟨humi.trans hmi,bits,hfile,?_,?_⟩
    · show bits.length = (u.tp.mi.numPieces + 7) / 8
      rw [humi]
      exact hpacked.size
    · intro j
      show bitAt bits j = (decide (j < u.tp.mi.numPieces) && (u.tp.piece j).cksumok)
      rw [humi,hpiece]
      exact hpacked.bits j

theorem receiveBlock_records {off : ℕ} {data : Bytes} {d : DlId} (hn : s.tp.numPieces < 4294967289)
    (hfind : networkPieceDlFind s.store (some p) idx off = some d)
    (h : receiveBlock sha1 env s p idx off data = .ok s') : Records s.tp s'.tp := by
  simp only [receiveBlock] at h
  obtain ⟨tp₁,hmap,h⟩ := bind_ok.mp h
  obtain ⟨t,hread,h⟩ := bind_ok.mp h
  obtain ⟨found,-,h⟩ := bind_ok.mp h
  simp only [networkPeerReadPiece,Session.setPeer_store,hfind] at hread
  obtain ⟨tpp,-,hread⟩ := bind_ok.mp hread
  cases hread
  have hwrite : SameRecord s.tp (torrentBlockWrite tp₁ idx off data.length data) :=
    (SameRecord.ensureMapped hmap).trans (.torrentBlockWrite tp₁ idx off data.length data)
  have hq : SameRecord s.tp { torrentBlockWrite tp₁ idx off data.length data with
      downloaded := (torrentBlockWrite tp₁ idx off data.length data).downloaded + data.length } :=
    ⟨hwrite.mi,hwrite.flags,hwrite.file⟩
  cases found with
  | false =>
    cases h
    exact .inl hq
  | true =>
    refine .before hq (checkPiece_records ?_ h)
    show (torrentBlockWrite tp₁ idx off data.length data).mi.numPieces < 4294967289
    rwa [hwrite.mi]

/-- Every event leaves the resume file with the flags. -/
theorem step_records (hs : s.core.Peered) (hn : s.tp.numPieces < 4294967289) {e : Event}
    (h : step sha1 s (env,e) = .ok s') :
    Records s.tp s'.tp := by
  have hsame {t : Session} (ht : t.tp = s.tp) : Records s.tp t.tp := by
    rw [ht]
    exact .inl (.refl _)
  cases e with
  | response p avail =>
    simp only [step] at h
    split at h
    · rcases peerResponse_cases h with ⟨-,hcore⟩ | ⟨msg,t,-,hcore,ht⟩
      · exact hsame (congrArg Core.tp hcore)
      · have hread : (s.setPeer p (afterRead env · avail)).core = s.core := core_afterRead avail
        have htp : s'.tp = t.tp := congrArg Core.tp hcore
        rw [htp]
        rcases networkPeerProcessMessage_cases ht with hc | ⟨-,hfast,hc⟩ | ⟨-,hc⟩ | ⟨-,d,u,hacc,hu,hc⟩
        · exact hsame (congrArg Core.tp (hc.trans hread))
        · rw [core_msgChoke_slow hfast] at hc
          exact hsame (congrArg Core.tp hc)
        · rcases msgReject_cases env (s.setPeer p (afterRead env · avail)) p msg with hr | ⟨e,-,-,-,hr⟩
          · exact hsame (congrArg Core.tp ((hc.trans hr).trans hread))
          · exact hsame (congrArg Core.tp (hc.trans hr))
        · rw [show t.tp = u.tp from congrArg Core.tp hc]
          have hrec : Records (s.setPeer p (afterRead env · avail)).tp u.tp := receiveBlock_records hn hacc.found hu
          exact hrec
    · cases h
      exact hsame rfl
  | scheduler => exact .inl (.remapped (scheduler_remapped hs h))
  | _ => exact hsame (step_attends (by simp) (by simp) h).tp

theorem run_recorded {s₀ : Session} {found : Option Bytes} (hs : s₀.core.Peered) (hn : s₀.tp.numPieces < 4294967289)
    (hr : s₀.tp.Recorded found) {es : List (Env × Event)} (h : run sha1 s₀ es = .ok s) : s.tp.Recorded found := by
  have hall := foldlM_rel (R := fun t t' : Session => t.core.Peered ∧ t.tp.numPieces < 4294967289 ∧
    t.tp.Recorded found →
    t'.core.Peered ∧ t'.tp.numPieces < 4294967289 ∧ t'.tp.Recorded found) (fun _ h => h) (fun hab hbc h =>
      hbc (hab h)) es ?_ h
  · exact (hall ⟨hs,hn,hr⟩).2.2
  · rintro t t' ⟨env,e⟩ - hstep ⟨hp,hfew,hrec⟩
    have hmoves := step_moves hp hstep
    have hmi : t'.tp.mi = t.tp.mi := Core.Sound.mi hmoves
    refine ⟨hp.moves hmoves,?_,(step_records hp hfew hstep).recorded hrec⟩
    rwa [Torrent.numPieces,hmi]

end Record

section Start
variable {sha1 : Bytes → Bytes} {b : Boot} {tp : Torrent} {bits : Bytes}

def wholeField (n : ℕ) (contents : Bytes) : Bytes :=
  contents.take (bitfieldLen n) ++ List.replicate (bitfieldLen n - contents.length) 0

theorem length_wholeField (n : ℕ) (contents : Bytes) : (wholeField n contents).length = bitfieldLen n := by
  unfold wholeField
  rw [List.length_append,List.length_take,List.length_replicate]
  omega

theorem wholeField_whole (n : ℕ) (contents : Bytes) : wholeField n (wholeField n contents) = wholeField n contents := by
  have hlen := length_wholeField n contents
  rw [wholeField,hlen,← hlen,List.take_length,Nat.sub_self,List.replicate_zero,List.append_nil]

theorem bitAt_wholeField {n i : ℕ} (hn : n < 4294967289) (hi : i < n) (contents : Bytes) :
    bitAt (wholeField n contents) i = bitAt contents i := by
  have hlen := (bitfieldLen_eq_iff (show n < 4294967296 by omega)).mpr hn
  have hbyte : i / 8 < bitfieldLen n := by omega
  unfold bitAt wholeField
  congr 2
  by_cases hin : i / 8 < contents.length
  · rw [List.getElem?_append_left (by rw [List.length_take]; omega),List.getElem?_take_of_lt hbyte]
  · rw [List.getElem?_append_right (by rw [List.length_take]; omega),List.getElem?_eq_none (Nat.not_lt.mp hin),
      List.getElem?_replicate]
    split <;> rfl

/-- Loading a resume file sets the flags that it tells. -/
theorem load_loaded {mi : Metainfo} {disk : ℕ → FileState} (hn : mi.numPieces < 4294967289) (contents : Bytes) :
    ∃ tp, torrentFastresumeLoad (torrentPiecesCreate pagesize mi disk) contents = .ok tp ∧
      Loaded mi (wholeField mi.numPieces contents) mi.numPieces tp := by
  have hsize : (wholeField mi.numPieces contents).length = (mi.numPieces + 7) / 8 := by
    rw [length_wholeField,(bitfieldLen_eq_iff mi.numPieces_lt).mpr hn]
  obtain ⟨tp,hload,hloaded⟩ := torrentFastresumeLoad_loaded disk hn hsize
  refine ⟨tp,?_,hloaded⟩
  have hwhole : torrentFastresumeLoad (torrentPiecesCreate pagesize mi disk) (wholeField mi.numPieces contents) =
      torrentFastresumeLoad (torrentPiecesCreate pagesize mi disk) contents := by
    show List.foldlM (fastresumeTurn (wholeField mi.numPieces (wholeField mi.numPieces contents))) _ _ = _
    rw [wholeField_whole]
    rfl
  rw [← hwhole]
  exact hload

theorem startupPiece_file {stale : ℕ → UInt8} {tp' : Torrent} {i : ℕ} (h : startupPiece sha1 stale tp i = .ok tp') :
    tp'.funresume = tp.funresume := by
  unfold startupPiece at h
  obtain ⟨tpp,-,h⟩ := bind_ok.mp h
  obtain ⟨tp₁,hmap,h⟩ := bind_ok.mp h
  have hfile := (SameRecord.torrentPieceMap hmap).file
  split at h
  · cases h
    exact (SameRecord.torrentPieceUnmap tp₁ i).file.trans hfile
  · obtain ⟨⟨tp₂,good⟩,hcheck,h⟩ := bind_ok.mp h
    cases h
    refine (SameRecord.torrentPieceUnmap _ i).file.trans ?_
    rcases torrentPieceCheckhash_cases hcheck with ⟨rfl,rfl⟩ | ⟨rfl,rfl⟩
    · exact hfile
    · exact hfile

structure Flagged (tp tp' : Torrent) : Prop where
  mi : tp'.mi = tp.mi
  disk : tp'.disk = tp.disk
  file : tp'.funresume = tp.funresume
  pieces : ∀ i, tp'.piece i = { tp.piece i with cksumok := (tp'.piece i).cksumok }

theorem Flagged.load {contents : Bytes} {mi : Metainfo} {disk : ℕ → FileState}
    (h : torrentFastresumeLoad (torrentPiecesCreate pagesize mi disk) contents = .ok tp) :
    Flagged (torrentPiecesCreate pagesize mi disk) tp := by
  refine foldlM_rel (R := Flagged) (fun t => ⟨rfl,rfl,rfl,fun _ => rfl⟩) ?_ _ ?_ h
  · intro t₁ t₂ t₃ h h'
    refine ⟨h'.mi.trans h.mi,h'.disk.trans h.disk,h'.file.trans h.file,fun i => ?_⟩
    rw [h'.pieces i,h.pieces i]
  · intro t t' i _ hturn
    unfold fastresumeTurn at hturn
    obtain ⟨tpp,-,hturn⟩ := bind_ok.mp hturn
    obtain ⟨bit,-,hturn⟩ := bind_ok.mp hturn
    cases hturn
    cases bit with
    | false => exact ⟨rfl,rfl,rfl,fun _ => rfl⟩
    | true =>
      refine ⟨rfl,rfl,rfl,fun j => ?_⟩
      by_cases hj : j = i
      · simp [hj]
      · simp [Torrent.setPiece_ne _ _ hj]

/-- A process starts with the pieces that the resume file tells. -/
theorem Boot.torrent_recorded (hn : b.mi.numPieces < 4294967289) (h : b.torrent sha1 = .ok tp) :
    tp.Recorded b.resume := by
  unfold Boot.torrent at h
  cases hr : b.resume with
  | none =>
    rw [hr] at h
    have hfile : tp.funresume = none := by
      refine foldlM_rel (R := fun t t' : Torrent => t.funresume = none → t'.funresume = none) (fun _ h => h)
        (fun hab hbc h => hbc (hab h)) _ ?_ h rfl
      intro t t' i _ hturn ht
      exact (startupPiece_file hturn).trans ht
    intro bits hbits
    unfold Torrent.resumeFile at hbits
    rw [hfile] at hbits
    cases hbits
  | some contents =>
    rw [hr] at h
    dsimp only at h
    obtain ⟨tp',hload,hloaded⟩ := @load_loaded b.pagesize b.mi b.disk hn contents
    rw [hload] at h
    cases h
    intro bits hbits i hi
    unfold Torrent.resumeFile at hbits
    rw [(Flagged.load hload).file] at hbits
    cases hbits
    rw [Torrent.numPieces,hloaded.same] at hi
    rw [hloaded.flags,decide_eq_true hi,Bool.true_and,bitAt_wholeField hn hi]

theorem Reachable.recorded {s : Session} (hn : b.mi.numPieces < 4294967289) (h : Reachable sha1 b s) :
    s.tp.Recorded b.resume := by
  obtain ⟨es,hes⟩ := h
  obtain ⟨s₀,hs₀,hes⟩ := bind_ok.mp hes
  obtain ⟨tp,htp,rfl⟩ := Boot.session_ok hs₀
  have hmi := (Boot.torrent_frame htp).1
  have hrec := Boot.torrent_recorded hn htp
  refine run_recorded (initial_peered _ _ _ _ _) ?_ hrec hes
  show tp.mi.numPieces < 4294967289
  rwa [hmi]

end Start

section Growth
variable {sha1 : Bytes → Bytes} {tp tp' : Torrent} {c c' : Core} {i n : ℕ}

theorem fileData_mmapCreated_le (tp : Torrent) (file off len i : ℕ) :
    (tp.fileData i).length ≤ ((mmapCreated tp file off len).1.fileData i).length := by
  obtain ⟨more,hmore⟩ := extends_mmapCreated tp file off len i
  rw [hmore,List.length_append]
  exact Nat.le_add_right _ _

theorem fileData_pieceMap_le {idx : ℕ} (h : torrentPieceMap tp idx = .ok tp') (i : ℕ) :
    (tp.fileData i).length ≤ (tp'.fileData i).length :=
  torrentPieceMap_keeps (P := fun u => (tp.fileData i).length ≤ (u.fileData i).length)
    (fun _ _ _ _ hu => hu.trans (fileData_mmapCreated_le _ _ _ _ i)) (fun _ _ _ hu => hu) (le_refl _) h

theorem TorrentMove.fileData_le (h : TorrentMove sha1 tp tp') (i : ℕ) : (tp.fileData i).length ≤
    (tp'.fileData i).length := by
  cases h with
  | counters _ _ hdisk =>
    unfold Torrent.fileData
    rw [hdisk]
  | map hmap => exact fileData_pieceMap_le hmap i
  | unmap idx => rw [torrentPieceUnmap_fileData]
  | verify _ hcheck => rcases torrentPieceCheckhash_cases hcheck with ⟨-,rfl⟩ | ⟨-,rfl⟩ <;> exact le_refl _

/-- No file ever gets shorter. -/
theorem Move.fileData_le (h : Move sha1 c c') (i : ℕ) : (c.tp.fileData i).length ≤ (c'.tp.fileData i).length := by
  cases h with
  | routine hr =>
    cases hr with
    | torrent htm => exact htm.fileData_le i
    | ask p ha => rw [ha.frame.1]
    | attend ha => rw [ha.tp]
  | deliver _ _ _ _ _ => exact Backed.blockWriteLoop_grows _ _ _ _ _ _ _ _ i
  | _ => exact le_refl _

theorem Moves.fileData_le (h : Moves sha1 c c') (i : ℕ) : (c.tp.fileData i).length ≤ (c'.tp.fileData i).length := by
  induction h with
  | refl => exact le_refl _
  | tail _ hmove ih => exact ih.trans (hmove.fileData_le i)

theorem TorrentMoves.fileData_le (h : TorrentMoves sha1 tp tp') (i : ℕ) : (tp.fileData i).length ≤
    (tp'.fileData i).length := by
  induction h with
  | refl => exact le_refl _
  | tail _ hmove ih => exact ih.trans (hmove.fileData_le i)

theorem TorrentMoves.mi (h : TorrentMoves sha1 tp tp') : tp'.mi = tp.mi := by
  induction h with
  | refl => rfl
  | tail _ hmove ih => exact hmove.mi.trans ih

def Complete (tp : Torrent) : Prop :=
  ∀ i < tp.numPieces, tp.mi.pieceLength * i + pieceLen tp.mi i ≤ (tp.fileData 0).length

/-- A turn of the start-up loop leaves the file long enough for its piece. -/
theorem startupPiece_covers {stale : ℕ → UInt8} (h : Intact sha1 tp) (hturn : startupPiece sha1 stale tp i = .ok tp') :
    tp.mi.pieceLength * i + pieceLen tp.mi i ≤ (tp'.fileData 0).length := by
  unfold startupPiece at hturn
  obtain ⟨tpp,hfind,hturn⟩ := bind_ok.mp hturn
  obtain ⟨tp₁,hmap,hturn⟩ := bind_ok.mp hturn
  have hmapped := h.map hmap
  have hmi := torrentPieceMap_mi hmap
  have hcover : tp.mi.pieceLength * i + pieceLen tp.mi i ≤ (tp₁.fileData 0).length := by
    have hb := hmapped.backed i (.inl (hmapped.mapped i (torrentPieceMap_frame hmap).2.2))
    rwa [hmi] at hb
  split at hturn
  · cases hturn
    rwa [torrentPieceUnmap_fileData]
  · obtain ⟨⟨tp₂,good⟩,hcheck,hturn⟩ := bind_ok.mp hturn
    cases hturn
    rw [torrentPieceUnmap_fileData]
    rcases torrentPieceCheckhash_cases hcheck with ⟨rfl,rfl⟩ | ⟨rfl,rfl⟩
    · exact hcover
    · exact hcover

/-- The start-up loop leaves the file long enough for all pieces. -/
theorem startup_covers {stale : ℕ → UInt8} (h : Intact sha1 tp) (hstart : startup sha1 stale tp = .ok tp') :
    Complete tp' := by
  have hall := foldlM_range (P := fun k t => Intact sha1 t ∧ t.mi = tp.mi ∧
    ∀ i < k, tp.mi.pieceLength * i + pieceLen tp.mi i ≤ (t.fileData 0).length) ?_
    ⟨h,rfl,fun i hi => absurd hi (Nat.not_lt_zero i)⟩ hstart
  · obtain ⟨-,hmi,hcover⟩ := hall
    intro i hi
    rw [Torrent.numPieces,hmi] at hi
    rw [hmi]
    exact hcover i hi
  · rintro k - t t' ⟨ht,hmi,hcover⟩ hturn
    have hmoves := startupPiece_moves hturn
    refine ⟨ht.moves hmoves,hmoves.mi.trans hmi,fun i hi => ?_⟩
    rcases Nat.lt_succ_iff_lt_or_eq.mp hi with hi | rfl
    · exact (hcover i hi).trans (hmoves.fileData_le 0)
    · rw [← hmi]
      exact startupPiece_covers ht hturn

end Growth

section Chain
variable {sha1 : Bytes → Bytes} {b : Boot} {s : Session} {tp : Torrent}

/-- What the files hold when the process is gone. -/
def Torrent.files (tp : Torrent) (i : ℕ) : FileState := ⟨false,0,(tp.disk i).data,false⟩

/-- Files and resume file as one process leaves them to the next. A process starts without a resume file, is killed
between two events, or dumps its flags on SIGINT or SIGTERM and exits. -/
inductive Left (sha1 : Bytes → Bytes) (mi : Metainfo) : (ℕ → FileState) → Option Bytes → Prop
  | first (disk : ℕ → FileState) : Left sha1 mi disk none
  | killed {b : Boot} {s : Session} (hmi : b.mi = mi) (h : Left sha1 mi b.disk b.resume) (hs : Reachable sha1 b s) :
      Left sha1 mi s.tp.files (s.tp.resumeFile b.resume)
  | terminated {b : Boot} {s : Session} {tp : Torrent} (hmi : b.mi = mi) (h : Left sha1 mi b.disk b.resume)
    (hs : Reachable sha1 b s)
      (hdump : torrentFastresumeDump s.tp = .ok tp) : Left sha1 mi tp.files (tp.resumeFile b.resume)

def Honest (sha1 : Bytes → Bytes) (mi : Metainfo) (data bits : Bytes) : Prop :=
  ∀ i < mi.numPieces, bitAt bits i = true → mi.pieceLength * i + pieceLen mi i ≤ data.length ∧
    sha1 (window data (mi.pieceLength * i) (pieceLen mi i)) = window mi.pieces (mul32 digestLength i) digestLength

/-- A resume file that is honest can be relied on. -/
theorem Intact.load {contents : Bytes} (hs : b.mi.type = .singlefile) (hn : b.mi.numPieces < 4294967289)
    (hhonest : Honest sha1 b.mi ((b.disk 0).data.getD []) contents)
    (h : torrentFastresumeLoad (torrentPiecesCreate b.pagesize b.mi b.disk) contents = .ok tp) : Intact sha1 tp := by
  have hf := Flagged.load h
  obtain ⟨tp',hload,hloaded⟩ := @load_loaded b.pagesize b.mi b.disk hn contents
  rw [hload] at h
  cases h
  have hmi : tp.mi = b.mi := hf.mi
  have hdata : tp.fileData 0 = (b.disk 0).data.getD [] := by
    unfold Torrent.fileData
    rw [hf.disk]
    rfl
  have hbit {i : ℕ} (hc : (tp.piece i).cksumok = true) : i < b.mi.numPieces ∧ bitAt contents i = true := by
    rw [hloaded.flags,Bool.and_eq_true,decide_eq_true_eq] at hc
    rwa [bitAt_wholeField hn hc.1] at hc
  have hmmaps (i : ℕ) : (tp.piece i).mmaps = [] := by rw [hf.pieces i]; rfl
  constructor
  · rwa [hmi]
  · intro i
    rw [hmi,hf.pieces i]
    exact ⟨rfl,rfl⟩
  · intro i m hm
    rw [hmmaps] at hm
    cases hm
  · intro i hm
    rw [hf.pieces i] at hm
    cases hm
  · rintro i (hm | hc)
    · exact absurd (hmmaps i) hm
    · obtain ⟨hi,hb⟩ := hbit hc
      rw [hmi,hdata]
      exact (hhonest i hi hb).1
  · intro i _ hc
    obtain ⟨hi,hb⟩ := hbit hc
    unfold Torrent.pieceBytes
    rw [hmi,hdata]
    exact (hhonest i hi hb).2

/-- The data invariant in every state reached from an honest resume file, or none. -/
theorem Reachable.intact_of_honest (hs : b.mi.type = .singlefile) (hn : b.mi.numPieces < 4294967289)
    (hhonest : ∀ bits, b.resume = some bits → Honest sha1 b.mi ((b.disk 0).data.getD []) bits)
    (h : Reachable sha1 b s) :
    Intact sha1 s.tp := by
  obtain ⟨tp,htp,hmoves⟩ := h.moves
  obtain ⟨-,hlen⟩ := Boot.torrent_frame htp
  have hsound : (Session.initial tp b.maxfds b.peerid b.seed b.now).core.Sound :=
    ⟨DlStore.wf_empty,hlen,fun _ d pd hd => by cases hd⟩
  have hstart : Intact sha1 tp := by
    unfold Boot.torrent at htp
    cases hr : b.resume with
    | none =>
      rw [hr] at htp
      exact (Intact.create b.pagesize b.mi hs b.disk).moves (startup_moves htp)
    | some contents =>
      rw [hr] at htp
      exact .load hs hn (hhonest contents hr) htp
  exact Intact.ledgerMoves (c := (Session.initial tp b.maxfds b.peerid b.seed b.now).core)
    (hstart.counters rfl rfl rfl) hsound hmoves

theorem Intact.honest {bits : Bytes} {found : Option Bytes} (h : Intact sha1 tp) (hr : tp.Recorded found)
    (hbits : tp.resumeFile found = some bits) : Honest sha1 tp.mi (tp.fileData 0) bits := by
  intro i hi hb
  rw [hr bits hbits i hi] at hb
  exact ⟨h.backed i (.inr hb),h.checked i hi hb⟩

/-- Every process leaves an honest resume file, or none. -/
theorem Left.honest {mi : Metainfo} {disk : ℕ → FileState} {resume : Option Bytes} (hs : mi.type = .singlefile)
    (hn : mi.numPieces < 4294967289) (h : Left sha1 mi disk resume) :
    ∀ bits, resume = some bits → Honest sha1 mi ((disk 0).data.getD []) bits := by
  induction h with
  | first disk => nofun
  | @killed b s hmi h hreach ih =>
    subst hmi
    have hintact := hreach.intact_of_honest hs hn ih
    have hsame := hreach.sound.2
    intro bits hbits
    rw [← hsame]
    exact hintact.honest (hreach.recorded hn) hbits
  | @terminated b s tp hmi h hreach hdump ih =>
    subst hmi
    have hintact := hreach.intact_of_honest hs hn ih
    have hsame := hreach.sound.2
    obtain ⟨bits',hget,hdump⟩ := bind_ok.mp hdump
    cases hdump
    have hpacked := packed_of_get (by rwa [Torrent.numPieces,hsame]) hget
    have hdumped : Intact sha1 { s.tp with funresume := some bits' } := hintact.counters rfl rfl rfl
    have hpacked' : Packed { s.tp with funresume := some bits' } s.tp.numPieces bits' := ⟨hpacked.size,hpacked.bits⟩
    have hrecorded : Torrent.Recorded b.resume { s.tp with funresume := some bits' } := hpacked'.recorded rfl
    intro bits hbits
    rw [← hsame]
    exact hdumped.honest hrecorded hbits

/-- A process that checks all pieces can map them. -/
theorem Reachable.mappable (hr : b.resume = none) (h : Reachable sha1 b s) : ∀ i < b.mi.numPieces,
    b.mi.Mappable b.pagesize i := by
  obtain ⟨tp,htp,-⟩ := h.moves
  unfold Boot.torrent at htp
  rw [hr] at htp
  exact startup_mappable sha1 b.pagesize b.mi b.disk b.stale htp

theorem Reachable.complete (hs : b.mi.type = .singlefile) (hr : b.resume = none) (h : Reachable sha1 b s) :
    Complete s.tp := by
  obtain ⟨tp,htp,hmoves⟩ := h.moves
  have hmi : s.tp.mi = tp.mi := Core.Sound.mi hmoves
  have hcover : Complete tp := by
    unfold Boot.torrent at htp
    rw [hr] at htp
    exact startup_covers (Intact.create b.pagesize b.mi hs b.disk) htp
  intro i hi
  rw [Torrent.numPieces,hmi] at hi
  rw [hmi]
  exact (hcover i hi).trans (hmoves.fileData_le 0)

/-- A process that finds a resume file has the pieces verified that it tells. -/
theorem Boot.resumes {found : Option Bytes} (hn : b.mi.numPieces < 4294967289) (hr : tp.Recorded found)
    (hmi : b.mi = tp.mi)
    (hresume : b.resume = tp.resumeFile found) {bits : Bytes} (hbits : b.resume = some bits) :
    ∃ tp', b.torrent sha1 = .ok tp' ∧ tp'.verified = tp.verified := by
  obtain ⟨tp',hload,hloaded⟩ := @load_loaded b.pagesize b.mi b.disk hn bits
  refine ⟨tp',?_,?_⟩
  · unfold Boot.torrent
    rw [hbits]
    exact hload
  · ext i
    rw [Torrent.mem_verified,Torrent.mem_verified,Torrent.numPieces,Torrent.numPieces,hloaded.same,← hmi]
    refine and_congr_right fun hi => ?_
    rw [hloaded.flags,decide_eq_true hi,Bool.true_and,bitAt_wholeField hn hi]
    have hflag := hr bits (hresume.symm.trans hbits) i (by rwa [Torrent.numPieces,← hmi])
    rw [hflag]

/-- A process that finds no resume file checks the whole file, and finds all pieces that are intact. -/
theorem Boot.rechecks (hs : b.mi.type = .singlefile) (hmap : ∀ i < b.mi.numPieces, b.mi.Mappable b.pagesize i)
    (hintact : Intact sha1 tp)
    (hcomplete : Complete tp) (hmi : b.mi = tp.mi) (hdisk : b.disk = tp.files) (hresume : b.resume = none) :
    ∃ tp', b.torrent sha1 = .ok tp' ∧ tp.verified ⊆ tp'.verified := by
  have hend : ∀ i < b.mi.numPieces, b.mi.pieceLength * i + pieceLen b.mi i ≤ (diskData b.disk 0).length := by
    intro i hi
    rw [hdisk,hmi]
    exact hcomplete i (by rwa [Torrent.numPieces,← hmi])
  obtain ⟨tp',hstart,hck⟩ := startup_recognised sha1 b.pagesize b.mi b.disk b.stale hmap (fun hm =>
    by rw [hs] at hm; cases hm)
  have htorrent : b.torrent sha1 = .ok tp' := by
    unfold Boot.torrent
    rw [hresume]
    exact hstart
  refine ⟨tp',htorrent,?_⟩
  intro i hi
  obtain ⟨hi,hc⟩ := Torrent.mem_verified.mp hi
  have hdigest := hintact.checked i hi hc
  rw [Torrent.numPieces,← hmi] at hi
  have hbytes := (Metainfo.present_singlefile hs (hend i hi)).2
  have hmapped : ¬ b.mi.Unmapped i := fun hu => absurd (hs.symm.trans hu.1) (by decide)
  refine Torrent.mem_verified.mpr ⟨?_,(hck i hi).mpr ⟨?_,hmapped,?_⟩⟩
  · rwa [Torrent.numPieces,(Boot.torrent_frame htorrent).1]
  · exact fun j hj => (Metainfo.present_singlefile hs (hend j (hj.trans_lt hi))).1
  · rw [hbytes,hdisk,hmi]
    exact hdigest

end Chain

/-- Between two events the resume file, as soon as there is one, has the bits of exactly those pieces that are
verified. -/
theorem resume_file_current (sha1 : Bytes → Bytes) (b : Boot) (hn : b.mi.numPieces < 4294967289)
    (s : Session) (h : Reachable sha1 b s)
    (bits : Bytes) (hbits : s.tp.resumeFile b.resume = some bits) :
    ∀ i < b.mi.numPieces, bitAt bits i = (s.tp.piece i).cksumok := by
  intro i hi
  apply h.recorded hn bits hbits
  rwa [Torrent.numPieces,h.sound.2]

/-- The only piece arrives, and is on record. -/
theorem resume_file_current_one : ∃ s, Reachable sha1ZeroByte (.oneByte zeroByteDigest 1) s ∧
    s.tp.funresume = some [128] ∧ (s.tp.piece 0).cksumok = true := by
  have hrun : ((Boot.oneByte zeroByteDigest 1).run sha1ZeroByte (oneRequestRun ++
      inputs 1002 0 (messagePortions [msgPieceId,0,0,0,0,0,0,0,0,0]))).toOption.map
      (fun s => decide (s.tp.funresume = some [128])) = some true := by decide +kernel
  obtain ⟨s,hs,hP⟩ := exists_reachable hrun
  have hfile := of_decide_eq_true hP
  have hbits : s.tp.resumeFile (Boot.oneByte zeroByteDigest 1).resume = some [128] := by
    rw [Torrent.resumeFile,hfile]
    rfl
  exact ⟨s,hs,hfile,(resume_file_current sha1ZeroByte _ (by decide) s hs [128] hbits 0 (by decide)).symm⟩

/-- Over any number of processes on the same files, the first of which found no resume file and each of which is gone
between two events: what is verified is on disk with its digest, and the next one starts with all pieces verified that
were, and with no others if there is a resume file. -/
theorem restarts_keep_verified (sha1 : Bytes → Bytes) (b : Boot) (hs : b.mi.type = .singlefile)
    (hn : b.mi.numPieces ≤ 214748365)
    (hleft : Left sha1 b.mi b.disk b.resume) (s : Session) (h : Reachable sha1 b s) :
    (∀ i < s.tp.numPieces, (s.tp.piece i).cksumok = true →
      (s.tp.pieceBytes i).length = (s.tp.piece i).len ∧ sha1 (s.tp.pieceBytes i) = b.mi.digest i) ∧
    ∀ b' : Boot, b'.mi = b.mi → b'.pagesize = b.pagesize → b'.disk = s.tp.files → b'.resume = s.tp.resumeFile b.resume →
      ∃ tp, b'.torrent sha1 = .ok tp ∧ s.tp.verified ⊆ tp.verified ∧
        (b'.resume.isSome = true → tp.verified = s.tp.verified) := by
  have hfew : b.mi.numPieces < 4294967289 := by omega
  have hintact := h.intact_of_honest hs hfew (hleft.honest hs hfew)
  have hmi := h.sound.2
  constructor
  · intro i hi hck
    constructor
    · rw [(hintact.shape i).1]
      exact length_window (hintact.backed i (.inr hck))
    · rw [hintact.checked i hi hck,← hmi]
      rw [← hmi] at hn
      exact window_digest hn hi
  · intro b' hmi' hpage hdisk hresume
    have hsame : b'.mi = s.tp.mi := hmi'.trans hmi.symm
    cases hfile : b'.resume with
    | some bits =>
      obtain ⟨tp,htp,hverified⟩ := @Boot.resumes sha1 b' s.tp _ (by rwa [hmi']) (h.recorded hfew)
        hsame hresume bits hfile
      exact ⟨tp,htp,hverified.ge,fun _ => hverified⟩
    | none =>
      have hnone : b.resume = none := by
        rw [hfile,Torrent.resumeFile] at hresume
        exact (Option.or_eq_none_iff.mp hresume.symm).2
      have hmap : ∀ i < b'.mi.numPieces, b'.mi.Mappable b'.pagesize i := by
        rw [hmi',hpage]
        exact h.mappable hnone
      obtain ⟨tp,htp,hsub⟩ := Boot.rechecks (hmi'.symm ▸ hs) hmap hintact (h.complete hs hnone) hsame hdisk hfile
      exact ⟨tp,htp,hsub,fun h => by cases h⟩

/-- The only piece arrives, the process is killed, and the next one has the piece. -/
theorem restarts_keep_verified_one : ∃ s tp, Reachable sha1ZeroByte (.oneByte zeroByteDigest 1) s ∧
    Boot.torrent sha1ZeroByte
      { Boot.oneByte zeroByteDigest 1 with disk := s.tp.files, resume := s.tp.resumeFile none } = .ok tp ∧
    0 ∈ tp.verified := by
  have hrun : ((Boot.oneByte zeroByteDigest 1).run sha1ZeroByte (oneRequestRun ++
      inputs 1002 0 (messagePortions [msgPieceId,0,0,0,0,0,0,0,0,0]))).toOption.map
      (fun s => decide (0 < s.tp.numPieces ∧ (s.tp.piece 0).cksumok = true)) = some true := by decide +kernel
  obtain ⟨s,hs,hP⟩ := exists_reachable hrun
  have hmem := Torrent.mem_verified.mpr (of_decide_eq_true hP)
  obtain ⟨-,hnext⟩ := restarts_keep_verified sha1ZeroByte (.oneByte zeroByteDigest 1) rfl (by decide) (.first _) s hs
  obtain ⟨tp,htp,hsub,-⟩ := hnext
    { Boot.oneByte zeroByteDigest 1 with disk := s.tp.files, resume := s.tp.resumeFile none } rfl rfl rfl rfl
  exact ⟨s,tp,hs,htp,hsub hmem⟩

end Unworkable
