import Unworkable.Session.Tally

/-! # The piece and block that `scheduler_piece_gimme` chooses

Each of the three ways to choose a piece skips those that are verified or fully assigned, so
that the search for a block in the piece always ends with one.
-/
namespace Unworkable
open Library

def Indexed (tp : Torrent) : Prop := ∀ i, (tp.piece i).index = i

section Indexed
variable {sha1 : Bytes → Bytes} {tp : Torrent}

theorem Indexed.setPiece (h : Indexed tp) (i : ℕ) {f : TorrentPiece → TorrentPiece} (hf : ∀ t, (f t).index = t.index) :
    Indexed (tp.setPiece i f) := by
  intro j
  by_cases hj : j = i
  · rw [hj,Torrent.setPiece_self,hf]
    exact h i
  · rw [Torrent.setPiece_ne _ _ hj]
    exact h j

theorem Indexed.congr {tp' : Torrent} (h : Indexed tp) (hpiece : tp'.piece = tp.piece) : Indexed tp' := by
  intro i
  rw [hpiece]
  exact h i

theorem indexed_steady (sha1 : Bytes → Bytes) : Steady sha1 Indexed where
  move {tp tp'} h hmove := by
    cases hmove with
    | counters _ hpiece _ => exact h.congr hpiece
    | @map _ idx hmap =>
      exact torrentPieceMap_keeps (P := Indexed) (fun u file off len hu => hu.congr (mmapCreated_piece u file off len))
        (fun u f hf hu => hu.setPiece idx (fun t => (hf t).2)) h hmap
    | unmap idx =>
      obtain ⟨-,hpiece,-⟩ := Intact.foldl_unmapTurn (tp.piece idx).mmaps tp
      exact (h.congr hpiece).setPiece idx (fun _ => rfl)
    | @verify _ idx _ _ _ hcheck =>
      rcases torrentPieceCheckhash_cases hcheck with ⟨-,rfl⟩ | ⟨-,rfl⟩
      · exact h.setPiece idx (fun _ => rfl)
      · exact h
  write idx off len d h := h.congr (torrentBlockWrite_piece ..)
  resume i n d h := (h.setPiece (f := fun t => { t with cksumok := true }) i (fun _ => rfl)).congr rfl

theorem Indexed.ensureMapped (h : Indexed tp) {tp' : Torrent} {idx : ℕ}
    (hmap : Unworkable.ensureMapped tp idx = .ok tp') : Indexed tp' := by
  unfold Unworkable.ensureMapped at hmap
  split at hmap
  · cases hmap
    exact h
  · exact (indexed_steady (fun _ => [])).move h (.map hmap)

theorem Indexed.remapped (h : Indexed tp) {tp' : Torrent} (hr : Remapped tp tp') : Indexed tp' := by
  induction hr with
  | refl => exact h
  | tail _ hmap ih =>
    obtain ⟨idx,hmap⟩ := hmap
    exact ih.ensureMapped hmap

theorem indexed_create (mi : Metainfo) (disk : ℕ → FileState) : Indexed (torrentPiecesCreate pagesize mi disk) :=
  fun _ => rfl

end Indexed

/-- Piece `idx` is worth asking for: it is not verified, and a block of it has no request or
an orphaned one that is not complete. -/
def Wanted (tp : Torrent) (st : DlStore) (idx : ℕ) : Prop :=
  idx < tp.numPieces ∧ (tp.piece idx).cksumok = false ∧ ∃ off ∈ blockOffs (tp.piece idx).len,
    ∀ d, networkPieceDlFind st none idx off = some d → (st.get d).pc = none ∧ (st.get d).outstanding = true

theorem Wanted.of_free {tp : Torrent} {st : DlStore} {idx off : ℕ} (hidx : idx < tp.numPieces)
    (hck : (tp.piece idx).cksumok = false) (hoff : off ∈ blockOffs (tp.piece idx).len)
    (hfree : networkPieceDlFind st none idx off = none) : Wanted tp st idx :=
  ⟨hidx,hck,off,hoff,fun d hd => (Option.some_ne_none d (hd.symm.trans hfree)).elim⟩

section Wanted
variable {env : Env} {s s' : Session} {p : PeerId} (hix : Indexed s.tp)
include hix

theorem wanted_of_unassigned {i : ℕ} {tpp : TorrentPiece} (hfind : torrentPieceFind s.tp i = .ok tpp)
    (hck : ¬ tpp.cksumok = true) (h : schedulerPieceAssigned s.store tpp = .ok false) :
    tpp.index = i ∧ Wanted s.tp s.store i := by
  obtain ⟨hi,rfl⟩ := torrentPieceFind_ok.mp hfind
  refine ⟨hix i,hi,by simpa using hck,?_⟩
  simp only [schedulerPieceAssigned,hix i] at h
  split at h
  · split at h <;> cases h
  · rename_i hall
    simp only [List.all_eq_true,not_forall] at hall
    obtain ⟨off,hoff,htaken⟩ := hall
    refine ⟨off,hoff,?_⟩
    intro d hd
    rw [hd] at htaken
    simpa [and_comm] using htaken

theorem gimmeScan_wanted {bf : Option Bytes} {ns : List PieceDlIdxnode} {idx : ℕ}
    (h : gimmeScan s bf ns = .ok (some idx)) : Wanted s.tp s.store idx := by
  induction ns with
  | nil => cases h
  | cons n rest ih =>
    simp only [gimmeScan] at h
    obtain ⟨tpp,htpp,h⟩ := bind_ok.mp h
    split at h
    · exact ih h
    · rename_i hck
      obtain ⟨assigned,hassigned,h⟩ := bind_ok.mp h
      cases assigned with
      | true => exact ih h
      | false =>
        cases bf with
        | none => exact ih h
        | some bf =>
          obtain ⟨has,-,h⟩ := bind_ok.mp h
          cases has with
          | false => exact ih h
          | true =>
            cases h
            exact (wanted_of_unassigned hix htpp hck hassigned).2

theorem usefulPieces_wanted {bf : Option Bytes} {l pieces : List ℕ} (h : usefulPieces s bf l = .ok pieces) :
    ∀ idx ∈ pieces, Wanted s.tp s.store idx := by
  induction l generalizing pieces with
  | nil =>
    cases h
    nofun
  | cons i rest ih =>
    cases bf with
    | none => exact ih h
    | some bf =>
      simp only [usefulPieces] at h
      obtain ⟨has,-,h⟩ := bind_ok.mp h
      split at h
      · exact ih h
      · obtain ⟨tpp,htpp,h⟩ := bind_ok.mp h
        split at h
        · exact ih h
        · rename_i hck
          obtain ⟨assigned,hassigned,h⟩ := bind_ok.mp h
          cases assigned with
          | true => exact ih h
          | false =>
            obtain ⟨more,hmore,h⟩ := bind_ok.mp h
            cases h
            intro idx hidx
            rcases List.mem_cons.mp hidx with rfl | hidx
            · exact (wanted_of_unassigned hix htpp hck hassigned).2
            · exact ih hmore idx hidx

theorem rarestFrom_wanted {bf : Option Bytes} {l : List (ℕ × PieceCounter)} {idx : ℕ}
    (h : rarestFrom s bf l = .ok (some idx)) : Wanted s.tp s.store idx := by
  induction l with
  | nil => cases h
  | cons c rest ih =>
    obtain ⟨i,c⟩ := c
    -- whatever the bit says, the piece is skipped or checked
    have hrest : ∀ has : Bool, (if !has then rarestFrom s bf rest
        else do
          let tpp ← torrentPieceFind s.tp c.idx
          if tpp.cksumok then rarestFrom s bf rest
          else if ← schedulerPieceAssigned s.store tpp then rarestFrom s bf rest
          else .ok (some tpp.index)) = .ok (some idx) → Wanted s.tp s.store idx := by
      intro has h
      split at h
      · exact ih h
      · obtain ⟨tpp,htpp,h⟩ := bind_ok.mp h
        split at h
        · exact ih h
        · rename_i hck
          obtain ⟨assigned,hassigned,h⟩ := bind_ok.mp h
          cases assigned with
          | true => exact ih h
          | false =>
            cases h
            obtain ⟨hindex,hwanted⟩ := wanted_of_unassigned hix htpp hck hassigned
            rwa [hindex]
    cases bf with
    | none =>
      simp only [rarestFrom] at h
      obtain ⟨has,-,h⟩ := bind_ok.mp h
      exact hrest has h
    | some bf =>
      simp only [rarestFrom] at h
      obtain ⟨has,-,h⟩ := bind_ok.mp h
      exact hrest has h

/-- Whichever way a piece is chosen, it is worth asking for. -/
theorem gimmePiece_wanted {idx : ℕ} (h : gimmePiece env s p = .ok (s',some idx)) : Wanted s.tp s.store idx := by
  unfold gimmePiece at h
  obtain ⟨begun,hbegun,h⟩ := bind_ok.mp h
  cases begun with
  | some i =>
    cases h
    exact gimmeScan_wanted hix hbegun
  | none =>
    dsimp only at h
    split at h
    · obtain ⟨pieces,hpieces,h⟩ := bind_ok.mp h
      obtain ⟨-,hget⟩ := Prod.mk.inj (Except.ok.inj h)
      exact usefulPieces_wanted hix hpieces idx (List.mem_of_getElem? hget)
    · unfold schedulerPieceFindRarest at h
      obtain ⟨t,ht,h⟩ := bind_ok.mp h
      have hcore : t.core = s.core := by
        split at ht
        · exact core_schedulerPieceRarityarray ht
        · cases ht
          rfl
      have htp : t.tp = s.tp := congrArg Core.tp hcore
      have hstore : t.store = s.store := congrArg Core.store hcore
      split at h
      · cases h
      · obtain ⟨found,hfound,h⟩ := bind_ok.mp h
        cases h
        rw [← htp,← hstore]
        exact rarestFrom_wanted (by rwa [htp]) hfound

end Wanted

/-- The block search succeeds in a piece that has such a block. -/
theorem gimmeBlock_ok {st : DlStore} {p : PeerId} {idx plen : ℕ} {offs : List ℕ}
    (h : ∃ off ∈ offs, ∀ d, networkPieceDlFind st none idx off = some d →
      (st.get d).pc = none ∧ (st.get d).outstanding = true) : ∃ r, gimmeBlock st p idx plen offs = .ok r := by
  induction offs with
  | nil =>
    obtain ⟨off,hoff,-⟩ := h
    cases hoff
  | cons o rest ih =>
    obtain ⟨off,hoff,hopen⟩ := h
    simp only [gimmeBlock]
    cases hf : networkPieceDlFind st none idx o with
    | none => exact ⟨_,rfl⟩
    | some d =>
      dsimp only
      split
      · exact ⟨_,rfl⟩
      · rename_i htaken
        rcases List.mem_cons.mp hoff with rfl | hoff
        · exact (htaken (by simpa using hopen d hf)).elim
        · exact ih ⟨off,hoff,hopen⟩

section Search
variable {ι : Type} [RbIndex ι] {st : DlStore ι} {idx off plen : ℕ}

/-- A block that the search of `scheduler_piece_gimme` passes. -/
def Passed (st : DlStore ι) (idx off : ℕ) : Prop :=
  ∃ d, networkPieceDlFind st none idx off = some d ∧ ¬ ((st.get d).pc.isNone = true ∧ (st.get d).outstanding = true)

/-- The search stops at a block without a request, and hands it out. -/
theorem gimmeBlock_of_none (q : PeerId) {before after : List ℕ} (hbefore : ∀ o ∈ before, Passed st idx o)
    (hnone : networkPieceDlFind st none idx off = none) : gimmeBlock st q idx plen (before ++ off :: after) =
      .ok (networkPieceDlCreate st q idx off (blockLen plen off)) := by
  induction before with
  | nil => rw [List.nil_append,gimmeBlock,hnone]
  | cons o before ih =>
    obtain ⟨d,hd,hpass⟩ := hbefore o List.mem_cons_self
    rw [List.cons_append,gimmeBlock,hd]
    dsimp only
    rw [if_neg hpass]
    exact ih (fun o ho => hbefore o (List.mem_cons_of_mem _ ho))

/-- So does `scheduler_piece_gimme`, in the piece it has chosen. -/
theorem schedulerPieceGimme_of_none {env : Env} {s t : Session ι} {q : PeerId} {tpp : TorrentPiece}
    {before after : List ℕ}
    (ht : gimmePiece env s q = .ok (t,some idx)) (htpp : torrentPieceFind s.tp idx = .ok tpp)
    (hsplit : blockOffs tpp.len = before ++ off :: after) (hbefore : ∀ o ∈ before, Passed s.store idx o)
    (hnone : networkPieceDlFind s.store none idx off = none) : schedulerPieceGimme env s q false =
      .ok ({ t with store := (networkPieceDlCreate s.store q idx off (blockLen tpp.len off)).1 },
        some s.store.next,false) := by
  rw [schedulerPieceGimme,ht,ok_bind]
  obtain ⟨array,last,rfl⟩ := gimmePiece_frame ht
  dsimp only
  rw [htpp,ok_bind,if_neg (by simp),hsplit,gimmeBlock_of_none q hbefore hnone,ok_bind]
  rfl

end Search

/-- The abort of `scheduler_piece_gimme` when its block search runs past the piece. -/
def badOffset : Halt := .errx "gone to a bad offset %u in idx %u, len %u"

section BadOffset
variable {sha1 : Bytes → Bytes} {env : Env} {s : Session} {p : PeerId}

theorem torrentPieceFind_avoids (tp : Torrent) (i : ℕ) : Avoids badOffset (torrentPieceFind tp i) := by
  unfold torrentPieceFind
  split_ifs <;> simp [badOffset]

theorem utilGetbit_avoids (bf : Bytes) (i : ℕ) : Avoids badOffset (utilGetbit bf i) := by
  unfold utilGetbit
  split <;> simp [badOffset]

theorem utilSetbit_avoids (bf : Bytes) (i : ℕ) : Avoids badOffset (utilSetbit bf i) := by
  unfold utilSetbit
  split <;> simp [badOffset]

theorem announce_avoids (env : Env) (s : Session) : Avoids badOffset (announce env s) := by
  unfold announce
  dsimp only
  split <;> simp [badOffset]

theorem torrentBitfieldGet_avoids (tp : Torrent) : Avoids badOffset (torrentBitfieldGet tp) := by
  refine Avoids.foldlM (P := fun _ => True) _ ?_ (fun _ _ _ _ _ _ => trivial) trivial
  intro bf i _ _
  refine (torrentPieceFind_avoids tp i).bind ?_
  intro tpp _
  split
  · exact utilSetbit_avoids bf i
  · exact avoids_ok bf

theorem torrentMmapCreate_avoids (tp : Torrent) (file off len : ℕ) : Avoids badOffset
    (torrentMmapCreate tp file off len) := by
  unfold torrentMmapCreate mmapError
  split_ifs <;> simp [badOffset]

theorem create_avoids (w : MapWalk) (file : ℕ) (off n : ℤ) : Avoids badOffset (w.create file off n) :=
  (torrentMmapCreate_avoids _ _ _ _).bind (fun _ _ => avoids_ok _)

theorem mapFiles_avoids (l : List (ℕ × FileInfo)) (w : MapWalk) : Avoids badOffset (mapFiles l w) := by
  induction l generalizing w with
  | nil => exact avoids_ok w
  | cons f rest ih =>
    obtain ⟨i,f⟩ := f
    simp only [mapFiles]
    split_ifs
    all_goals first
      | exact ih _
      | exact create_avoids _ _ _ _
      | exact (create_avoids _ _ _ _).bind (fun _ _ => ih _)
      | refine (create_avoids _ _ _ _).bind (fun v _ => ?_)
    all_goals
      split
      · simp [badOffset]
      · split_ifs
        all_goals first
          | exact ih _
          | exact create_avoids _ _ _ _
          | exact (create_avoids _ _ _ _).bind (fun _ _ => ih _)

theorem ensureMapped_avoids (tp : Torrent) (idx : ℕ) : Avoids badOffset (ensureMapped tp idx) := by
  unfold ensureMapped
  split
  · exact avoids_ok tp
  · unfold torrentPieceMap
    cases tp.mi.type with
    | singlefile => exact (torrentMmapCreate_avoids _ _ _ _).bind (fun _ _ => avoids_ok _)
    | multifile => exact (mapFiles_avoids _ _).bind (fun _ _ => avoids_ok _)

theorem torrentBlockRead_avoids (tp : Torrent) (idx off len : ℕ) : Avoids badOffset
    (torrentBlockRead tp idx off len) := by
  have hall : ∀ (l : List Mmap) (cntlen cntbase tlen : ℕ) (block : Option Bytes),
      Avoids badOffset (blockReadLoop tp off l cntlen cntbase tlen block) := by
    intro l
    induction l with
    | nil =>
      intro cntlen cntbase tlen block
      exact avoids_ok _
    | cons m rest ih =>
      intro cntlen cntbase tlen block
      simp only [blockReadLoop]
      split_ifs
      · exact ih _ _ _ _
      · simp [badOffset]
      · exact ih _ _ _ _
      · split <;> exact avoids_ok _
  exact hall _ _ _ _ _

theorem schedulerPieceAssigned_avoids (st : DlStore) (tpp : TorrentPiece) :
    Avoids badOffset (schedulerPieceAssigned st tpp) := by
  unfold schedulerPieceAssigned
  dsimp only
  split_ifs <;> simp [badOffset]

section Choice

theorem gimmeScan_avoids (s : Session) (bf : Option Bytes) (ns : List PieceDlIdxnode) :
    Avoids badOffset (gimmeScan s bf ns) := by
  induction ns with
  | nil => exact avoids_ok none
  | cons n rest ih =>
    simp only [gimmeScan]
    refine (torrentPieceFind_avoids _ _).bind ?_
    intro tpp _
    split
    · exact ih
    · refine (schedulerPieceAssigned_avoids _ _).bind ?_
      intro assigned _
      split
      · exact ih
      · cases bf with
        | none => exact ih
        | some bf =>
          refine (utilGetbit_avoids _ _).bind ?_
          intro has _
          split
          · exact avoids_ok _
          · exact ih

theorem usefulPieces_avoids (s : Session) (bf : Option Bytes) (l : List ℕ) :
    Avoids badOffset (usefulPieces s bf l) := by
  induction l with
  | nil => exact avoids_ok []
  | cons i rest ih =>
    cases bf with
    | none => exact ih
    | some bf =>
      simp only [usefulPieces]
      refine (utilGetbit_avoids _ _).bind ?_
      intro has _
      split
      · exact ih
      · refine (torrentPieceFind_avoids _ _).bind ?_
        intro tpp _
        split
        · exact ih
        · refine (schedulerPieceAssigned_avoids _ _).bind ?_
          intro assigned _
          split
          · exact ih
          · exact ih.bind (fun _ _ => avoids_ok _)

theorem rarestFrom_avoids (s : Session) (bf : Option Bytes) (l : List (ℕ × PieceCounter)) :
    Avoids badOffset (rarestFrom s bf l) := by
  induction l with
  | nil => exact avoids_ok none
  | cons c rest ih =>
    obtain ⟨i,c⟩ := c
    have hrest : ∀ has : Bool, Avoids badOffset (if !has then rarestFrom s bf rest
        else do
          let tpp ← torrentPieceFind s.tp c.idx
          if tpp.cksumok then rarestFrom s bf rest
          else if ← schedulerPieceAssigned s.store tpp then rarestFrom s bf rest
          else .ok (some tpp.index)) := by
      intro has
      split
      · exact ih
      · refine (torrentPieceFind_avoids _ _).bind ?_
        intro tpp _
        split
        · exact ih
        · refine (schedulerPieceAssigned_avoids _ _).bind ?_
          intro assigned _
          split
          · exact ih
          · exact avoids_ok _
    cases bf with
    | none =>
      simp only [rarestFrom]
      exact (avoids_ok true).bind (fun has _ => hrest has)
    | some bf =>
      simp only [rarestFrom]
      exact (utilGetbit_avoids _ _).bind (fun has _ => hrest has)

theorem rarityCount_avoids (s : Session) (i : ℕ) (ps : List PeerId) (n : ℕ) :
    Avoids badOffset (rarityCount s i ps n) := by
  induction ps generalizing n with
  | nil => exact avoids_ok n
  | cons p rest ih =>
    simp only [rarityCount]
    split
    · exact ih n
    · cases (s.peer p).bitfield with
      | none => exact ih n
      | some bf =>
        refine (utilGetbit_avoids _ _).bind ?_
        intro has _
        split
        · exact ih _
        · exact ih _

theorem gimmePiece_avoids (env : Env) (s : Session) (p : PeerId) : Avoids badOffset (gimmePiece env s p) := by
  unfold gimmePiece
  refine (gimmeScan_avoids _ _ _).bind ?_
  intro begun _
  cases begun with
  | some idx => exact avoids_ok _
  | none =>
    dsimp only
    split
    · exact (usefulPieces_avoids _ _ _).bind (fun _ _ => avoids_ok _)
    · unfold schedulerPieceFindRarest
      refine Avoids.bind ?_ ?_
      · split
        · unfold schedulerPieceRarityarray
          refine (Avoids.mapM ?_ _).bind (fun _ _ => avoids_ok _)
          intro i
          exact (rarityCount_avoids _ _ _ _).bind (fun _ _ => avoids_ok _)
        · exact avoids_ok s
      · intro t _
        split
        · simp [badOffset]
        · exact (rarestFrom_avoids _ _ _).bind (fun _ _ => avoids_ok _)

end Choice

/-- The block search never runs past the piece, since the piece chosen has a block to ask for. -/
theorem schedulerPieceGimme_avoids (hix : Indexed s.tp) (nocreate : Bool) :
    Avoids badOffset (schedulerPieceGimme env s p nocreate) := by
  unfold schedulerPieceGimme
  refine (gimmePiece_avoids env s p).bind ?_
  rintro ⟨t,found⟩ ht
  have hcore := core_gimmePiece ht
  have htp : t.tp = s.tp := congrArg Core.tp hcore
  have hstore : t.store = s.store := congrArg Core.store hcore
  cases found with
  | none => exact avoids_ok _
  | some idx =>
    obtain ⟨-,-,hopen⟩ := gimmePiece_wanted hix ht
    refine (torrentPieceFind_avoids _ _).bind ?_
    intro tpp htpp
    obtain ⟨-,rfl⟩ := torrentPieceFind_ok.mp htpp
    split
    · exact avoids_ok _
    · obtain ⟨r,hr⟩ : ∃ r, gimmeBlock t.store p idx (t.tp.piece idx).len (blockOffs (t.tp.piece idx).len) = .ok r := by
        rw [htp,hstore]
        exact gimmeBlock_ok hopen
      rw [hr]
      exact avoids_ok _

section Tick

theorem schedulerPieceGimme_tp {s' : Session} {r : Option DlId × Bool}
    (h : schedulerPieceGimme env s p false = .ok (s',r)) : s'.tp = s.tp := by
  obtain ⟨array,last,store,rfl⟩ := schedulerPieceGimme_frame h
  rfl

theorem fillLoop_avoids {n : ℕ} (hix : Indexed s.tp) : Avoids badOffset (fillLoop env p n s) := by
  induction n generalizing s with
  | zero => exact avoids_ok s
  | succ n ih =>
    simp only [fillLoop]
    refine (schedulerPieceGimme_avoids hix false).bind ?_
    rintro ⟨t,r,hint⟩ ht
    have htp : t.tp = s.tp := schedulerPieceGimme_tp ht
    cases r with
    | none => exact ih (by rwa [htp])
    | some d =>
      refine ih ?_
      rw [Session.setPeer_tp]
      exact hix.congr (congrArg Torrent.piece htp)

theorem networkPeerWritePiece_avoids (env : Env) (s : Session) (p : PeerId) (idx off len : ℕ) :
    Avoids badOffset (networkPeerWritePiece env s p idx off len) := by
  unfold networkPeerWritePiece
  refine (torrentPieceFind_avoids _ _).bind ?_
  intro tpp _
  refine (ensureMapped_avoids _ _).bind ?_
  intro tp _
  refine (torrentBlockRead_avoids _ _ _ _).bind ?_
  intro d _
  cases d with
  | none => exact avoids_ok _
  | some d =>
    dsimp only
    split
    · simp [badOffset]
    · exact avoids_ok _

theorem schedulerPeer_avoids (hix : Indexed s.tp) : Avoids badOffset (schedulerPeer env s p) := by
  unfold schedulerPeer
  split
  · exact avoids_ok _
  · rcases hk : schedulerThresholdKill env s p with ⟨t,_ | _⟩
    · dsimp only
      have hts : t = s := by
        simp only [schedulerThresholdKill] at hk
        split at hk
        · cases hk
        · cases hk
          rfl
      subst hts
      refine Avoids.bind ?_ ?_
      · unfold schedulerDequeueUploads
        split
        · exact avoids_ok _
        · exact networkPeerWritePiece_avoids _ _ _ _ _ _
      · intro u hu
        have hu' : Indexed u.tp := by
          rcases schedulerDequeueUploads_core hu with hcore | ⟨idx,tp,htp,hcore⟩
          · rwa [show u.tp = t.tp from congrArg Core.tp hcore]
          · rw [show u.tp = tp from congrArg Core.tp hcore]
            exact hix.ensureMapped htp
        unfold schedulerFillRequests
        dsimp only
        split
        · exact fillLoop_avoids hu'
        · exact avoids_ok _
    · exact avoids_ok _

theorem schedulerChokeAlgorithm_avoids (env : Env) (s : Session) : Avoids badOffset
    (schedulerChokeAlgorithm env s) := by
  unfold schedulerChokeAlgorithm
  split
  · exact avoids_ok _
  · refine Avoids.bind ?_ ?_
    · unfold schedulerPeerSpeedrank
      split
      · simp [badOffset]
      · exact avoids_ok _
    · intro pc _
      refine Avoids.bind ?_ (fun _ _ => avoids_ok _)
      split
      · unfold optimisticPick
        dsimp only
        split_ifs
        · exact avoids_ok _
        · exact avoids_ok _
        · simp [badOffset]
        · split
          · exact avoids_ok _
          · simp [badOffset]
      · exact avoids_ok _

theorem endgameFrom_avoids (s : Session) (l : List ℕ) : Avoids badOffset (endgameFrom s l) := by
  induction l with
  | nil => exact avoids_ok _
  | cons i rest ih =>
    simp only [endgameFrom]
    refine (torrentPieceFind_avoids _ _).bind ?_
    intro tpp _
    split
    · exact ih
    · refine (schedulerPieceAssigned_avoids _ _).bind ?_
      intro assigned _
      split
      · exact ih
      · exact avoids_ok _

theorem schedulerEndgameAlgorithm_avoids (env : Env) (s : Session) :
    Avoids badOffset (schedulerEndgameAlgorithm env s) := by
  refine Avoids.foldlM (P := fun _ => True) _ ?_ (fun _ _ _ _ _ _ => trivial) trivial
  intro t i _ _
  unfold endgamePiece
  refine (torrentPieceFind_avoids _ _).bind ?_
  intro tpp _
  split
  · exact avoids_ok _
  · refine Avoids.foldlM (P := fun _ => True) _ ?_ (fun _ _ _ _ _ _ => trivial) trivial
    intro u p _ _
    unfold endgamePeer
    split
    · exact avoids_ok _
    · refine (utilGetbit_avoids _ _).bind ?_
      intro has _
      split_ifs
      · exact avoids_ok _
      · exact avoids_ok _
      · simp [badOffset]
      · exact avoids_ok _

theorem scheduler_avoids (hp : s.core.Peered) (hix : Indexed s.tp) : Avoids badOffset (scheduler env s) := by
  unfold scheduler
  refine Avoids.bind ?_ ?_
  · refine Avoids.foldlM (P := fun t : Session => Indexed t.tp ∧ t.nextPeer = s.nextPeer) _ ?_ ?_ ⟨hix,rfl⟩
    · rintro t q - ⟨ht,-⟩
      exact schedulerPeer_avoids ht
    · rintro t t' q hq ⟨ht,hnext⟩ hpeer
      have hpart := schedulerPeer_part (by rw [hnext]; exact hp.lt q hq) hpeer
      exact ⟨ht.remapped hpart.torrent,hpart.nextPeer.trans hnext⟩
  · intro s₁ _
    refine (schedulerChokeAlgorithm_avoids _ _).bind ?_
    intro s₂ _
    refine (endgameFrom_avoids _ _).bind ?_
    intro endgame _
    refine Avoids.bind ?_ ?_
    · split
      · exact schedulerEndgameAlgorithm_avoids _ _
      · exact avoids_ok _
    · intro s₃ _
      split
      · exact announce_avoids _ _
      · exact avoids_ok _

end Tick

section Messages
variable {msg : Bytes}

theorem expressInterest_avoids (hix : Indexed s.tp) : Avoids badOffset (expressInterest env s p) := by
  unfold expressInterest
  refine (schedulerPieceGimme_avoids hix true).bind ?_
  rintro ⟨t,r,res⟩ _
  dsimp only
  split <;> exact avoids_ok _

theorem msgHave_avoids (hix : Indexed s.tp) : Avoids badOffset (msgHave env s p msg) := by
  simp only [msgHave]
  split
  · exact avoids_ok _
  · refine (utilSetbit_avoids _ _).bind ?_
    intro bf _
    refine expressInterest_avoids ?_
    rw [Session.setPeer_tp]
    split <;> exact hix

theorem receiveBlock_avoids {idx off : ℕ} {data : Bytes} : Avoids badOffset
    (receiveBlock sha1 env s p idx off data) := by
  unfold receiveBlock
  refine (ensureMapped_avoids _ _).bind ?_
  intro tp _
  refine Avoids.bind ?_ ?_
  · unfold networkPeerReadPiece
    refine (torrentPieceFind_avoids _ _).bind ?_
    intro tpp _
    split <;> exact avoids_ok _
  · intro t _
    refine Avoids.bind ?_ ?_
    · unfold everyBlock
      split_ifs <;> simp [badOffset]
    · intro found _
      split
      · unfold checkPiece
        refine Avoids.bind ?_ ?_
        · unfold torrentPieceCheckhash
          dsimp only
          split
          · simp [badOffset]
          · refine (torrentBlockRead_avoids _ _ _ _).bind ?_
            intro d _
            cases d with
            | none => exact avoids_ok _
            | some d =>
              dsimp only
              split <;> exact avoids_ok _
        · rintro ⟨tp',good⟩ _
          refine Avoids.bind ?_ ?_
          · split
            · unfold pieceVerified
              refine Avoids.bind ((torrentBitfieldGet_avoids _).bind (fun _ _ => avoids_ok _)) ?_
              intro tp'' _
              refine Avoids.bind ?_ (fun _ _ => avoids_ok _)
              unfold announceCompleted
              split_ifs
              · simp [badOffset]
              · exact announce_avoids _ _
              · exact avoids_ok _
              · exact avoids_ok _
            · exact avoids_ok _
          · intro u _
            refine Avoids.bind ?_ (fun _ _ => avoids_ok _)
            unfold cleanupDls
            split
            · simp [badOffset]
            · exact avoids_ok _
      · exact avoids_ok _

theorem pieceAt_avoids {idx off : ℕ} : Avoids badOffset (pieceAt sha1 env s p idx off msg) := by
  unfold pieceAt
  split
  · exact avoids_ok _
  · refine (torrentPieceFind_avoids _ _).bind ?_
    intro tpp _
    split
    · exact avoids_ok _
    · split
      · exact avoids_ok _
      · unfold takeBlock
        split
        · exact avoids_ok _
        · refine Avoids.bind ?_ (fun _ _ => avoids_ok _)
          split
          · exact avoids_ok _
          · exact receiveBlock_avoids

theorem msgBitfield_avoids (hix : Indexed s.tp) : Avoids badOffset (msgBitfield env s p msg) := by
  unfold msgBitfield
  split_ifs
  · exact avoids_ok _
  · exact avoids_ok _
  · exact expressInterest_avoids hix

theorem msgHaveFill_avoids (hix : Indexed s.tp) (fill : UInt8) : Avoids badOffset (msgHaveFill env s p fill) := by
  unfold msgHaveFill
  split
  · exact avoids_ok _
  · exact expressInterest_avoids hix

theorem msgRequest_avoids : Avoids badOffset (msgRequest env s p msg) := by
  simp only [msgRequest]
  split
  · exact avoids_ok _
  · refine (torrentPieceFind_avoids _ _).bind ?_
    intro tpp _
    split_ifs <;> exact avoids_ok _

theorem networkPeerProcessMessage_avoids {id : UInt8} (hix : Indexed s.tp) :
    Avoids badOffset (networkPeerProcessMessage sha1 env s p id msg) := by
  unfold networkPeerProcessMessage
  refine .ite (avoids_ok _) (.ite (avoids_ok _)
    (.ite (avoids_ok _) (.ite (avoids_ok _) (.ite (msgHave_avoids hix) ?_))))
  refine .ite (msgBitfield_avoids hix) (.ite msgRequest_avoids (.ite pieceAt_avoids (.ite (avoids_ok _) ?_)))
  exact .ite (avoids_ok _) (.ite (msgHaveFill_avoids hix 0) (.ite (msgHaveFill_avoids hix 0xFF) (avoids_ok _)))

theorem sendBitfield_avoids : Avoids badOffset (sendBitfield env p s) := by
  have hbitfield : Avoids badOffset (networkPeerWriteBitfield env s p) :=
    (torrentBitfieldGet_avoids _).bind (fun _ _ => avoids_ok _)
  unfold sendBitfield
  split
  · refine Avoids.bind ?_ (fun _ _ => avoids_ok _)
    unfold writePieces
    split_ifs
    · exact avoids_ok _
    · exact avoids_ok _
    · exact hbitfield
    · exact avoids_ok _
    · exact hbitfield
  · exact avoids_ok _

theorem peerResponse_avoids {avail : Bytes} (hix : Indexed s.tp) :
    Avoids badOffset (peerResponse sha1 env p s avail).result := by
  rw [peerResponse_eq]
  refine Traced.avoids_bind ?_ (fun _ _ => sendBitfield_avoids)
  split
  · exact avoids_ok _
  · have hmsg : ∀ id msg, Avoids badOffset
        (networkPeerProcessMessage sha1 env (s.setPeer p (afterRead env · avail)) p id msg) :=
      fun _ _ => networkPeerProcessMessage_avoids hix
    unfold finishRead
    dsimp only
    split_ifs
    · exact avoids_ok _
    · exact avoids_ok _
    · exact avoids_ok _
    · exact (hmsg _ _).map _

end Messages

theorem networkPeerlistUpdate_avoids (addrs : List ℕ) : Avoids badOffset (networkPeerlistUpdate env s addrs) := by
  refine Avoids.foldlM (P := fun _ => True) _ ?_ (fun _ _ _ _ _ _ => trivial) trivial
  intro t p _ _
  exact Avoids.ite (avoids_error.mpr (by decide)) (avoids_ok _)

/-- No callback ends in the abort. -/
theorem step_avoids (hp : s.core.Peered) (hix : Indexed s.tp) (e : Env × Event) : Avoids badOffset (step sha1 s e) := by
  obtain ⟨env,e⟩ := e
  cases e with
  | response p avail =>
    simp only [step]
    split
    · exact peerResponse_avoids hix
    · exact avoids_ok _
  | scheduler => exact scheduler_avoids hp hix
  | announceTimer =>
    simp only [step]
    split
    · exact avoids_ok _
    · exact announce_avoids _ _
  | tracker addrs =>
    refine Avoids.bind ?_ (fun _ _ => avoids_ok _)
    cases addrs with
    | none => exact avoids_ok _
    | some as => exact networkPeerlistUpdate_avoids as
  | _ => exact avoids_ok _

end BadOffset

end Unworkable
