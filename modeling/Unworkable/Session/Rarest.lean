import Unworkable.Session.Fields
import Unworkable.Session.Assignment

/-! # The rarest piece

The rarity array lists the pieces by how many peers have announced them. The loop over it tests
the bit of the peer at the rank in the array, not at the piece that has the rank, and takes a
peer without a bit field for one that has every piece.
-/
namespace Unworkable
open Library

/-- The peer has announced piece `i`. -/
def Announces (bitfield : Option Bytes) (i : ℕ) : Prop := ∃ bf, bitfield = some bf ∧ bitAt bf i = true

/-- What the loop over the rarity array tests at rank `r`. -/
def RankPasses (bitfield : Option Bytes) (r : ℕ) : Prop := ∀ bf, bitfield = some bf → bitAt bf r = true

/-- A piece still to be verified, all of whose blocks are assigned, at which the loop over its
blocks does not end. -/
def Hangs (tp : Torrent) (st : DlStore) (idx : ℕ) : Prop :=
  idx < tp.numPieces ∧ (tp.piece idx).cksumok = false ∧ ¬ Wanted tp st idx ∧ blockLoopWraps (tp.piece idx).len = true

section Assigned
variable {s : Session} {i : ℕ} (hix : Indexed s.tp)
include hix

/-- A piece is fully assigned exactly if nothing in it is to be asked for. -/
theorem schedulerPieceAssigned_wanted (h : Wanted s.tp s.store i) :
    schedulerPieceAssigned s.store (s.tp.piece i) = .ok false := by
  obtain ⟨-,-,off,hoff,hopen⟩ := h
  unfold schedulerPieceAssigned
  dsimp only
  rw [if_neg]
  intro hall
  have htaken := List.all_eq_true.mp hall off hoff
  rw [hix i] at htaken
  cases hf : networkPieceDlFind s.store none i off with
  | none => simp [hf] at htaken
  | some d =>
    obtain ⟨hpc,hout⟩ := hopen d hf
    simp [hf,hpc,hout] at htaken

theorem schedulerPieceAssigned_not_wanted (hi : i < s.tp.numPieces) (hck : (s.tp.piece i).cksumok = false)
    (h : ¬ Wanted s.tp s.store i) : schedulerPieceAssigned s.store (s.tp.piece i) =
      if blockLoopWraps (s.tp.piece i).len = true then .error .hang else .ok true := by
  unfold schedulerPieceAssigned
  dsimp only
  rw [if_pos]
  rw [List.all_eq_true]
  intro off hoff
  rw [hix i]
  by_contra htaken
  refine h ⟨hi,hck,off,hoff,?_⟩
  intro d hd
  rw [hd] at htaken
  simpa [and_comm] using htaken

end Assigned

section Loop
variable {s : Session} {bitfield : Option Bytes}

def rarestAt (s : Session) (bitfield : Option Bytes) (c : PieceCounter) (rest : List (ℕ × PieceCounter)) :
    Except Halt (Option ℕ) := do
  let tpp ← torrentPieceFind s.tp c.idx
  if tpp.cksumok then rarestFrom s bitfield rest
  else if ← schedulerPieceAssigned s.store tpp then rarestFrom s bitfield rest
  else .ok (some tpp.index)

theorem rarestFrom_cons {r : ℕ} {c : PieceCounter} {rest : List (ℕ × PieceCounter)}
    (hbits : ∀ bf, bitfield = some bf → r / 8 < bf.length) :
    (RankPasses bitfield r → rarestFrom s bitfield ((r,c) :: rest) = rarestAt s bitfield c rest) ∧
      (¬ RankPasses bitfield r → rarestFrom s bitfield ((r,c) :: rest) = rarestFrom s bitfield rest) := by
  cases bitfield with
  | none =>
    refine ⟨fun _ => ?_,fun h => (h nofun).elim⟩
    simp only [rarestFrom]
    rw [ok_bind,if_neg (by decide),rarestAt]
  | some bf =>
    have hget : utilGetbit bf r = .ok (bitAt bf r) := utilGetbit_eq (hbits bf rfl)
    have hpasses : RankPasses (some bf) r ↔ bitAt bf r = true := by simp [RankPasses]
    simp only [rarestFrom]
    rw [hget,ok_bind,hpasses]
    cases bitAt bf r with
    | false =>
      rw [if_pos (by decide)]
      exact ⟨fun h => (Bool.false_ne_true h).elim,fun _ => rfl⟩
    | true =>
      rw [if_neg (by decide),rarestAt]
      exact ⟨fun _ => rfl,fun h => (h rfl).elim⟩

section At
variable {c : PieceCounter} {rest : List (ℕ × PieceCounter)} (hix : Indexed s.tp)
include hix

theorem rarestAt_skip (hidx : c.idx < s.tp.numPieces) (hw : ¬ Wanted s.tp s.store c.idx)
    (hh : ¬ Hangs s.tp s.store c.idx) : rarestAt s bitfield c rest = rarestFrom s bitfield rest := by
  have hfind : torrentPieceFind s.tp c.idx = .ok (s.tp.piece c.idx) := torrentPieceFind_ok.mpr ⟨hidx,rfl⟩
  unfold rarestAt
  rw [hfind,ok_bind]
  cases hck : (s.tp.piece c.idx).cksumok with
  | true => rw [if_pos rfl]
  | false =>
    rw [if_neg Bool.false_ne_true,schedulerPieceAssigned_not_wanted hix hidx hck hw,
      if_neg (fun hl => hh ⟨hidx,hck,hw,hl⟩),ok_bind,if_pos rfl]

theorem rarestAt_wanted (hw : Wanted s.tp s.store c.idx) : rarestAt s bitfield c rest = .ok (some c.idx) := by
  have hfind : torrentPieceFind s.tp c.idx = .ok (s.tp.piece c.idx) := torrentPieceFind_ok.mpr ⟨hw.1,rfl⟩
  unfold rarestAt
  rw [hfind,ok_bind,hw.2.1,if_neg Bool.false_ne_true,schedulerPieceAssigned_wanted hix hw,ok_bind,
    if_neg Bool.false_ne_true,hix c.idx]

theorem rarestAt_hangs (hh : Hangs s.tp s.store c.idx) : rarestAt s bitfield c rest = .error .hang := by
  obtain ⟨hidx,hck,hw,hwraps⟩ := hh
  have hfind : torrentPieceFind s.tp c.idx = .ok (s.tp.piece c.idx) := torrentPieceFind_ok.mpr ⟨hidx,rfl⟩
  unfold rarestAt
  rw [hfind,ok_bind,hck,if_neg Bool.false_ne_true,schedulerPieceAssigned_not_wanted hix hidx hck hw,if_pos hwraps]
  rfl

end At

def RankStops (s : Session) (bitfield : Option Bytes) (x : ℕ × PieceCounter) : Prop :=
  RankPasses bitfield x.1 ∧ (Wanted s.tp s.store x.2.idx ∨ Hangs s.tp s.store x.2.idx)

/-- The loop passes over all entries, or it stops at the first one where it can: with the piece if
that is wanted, or else for good. -/
theorem rarestFrom_cases (hix : Indexed s.tp) (l : List (ℕ × PieceCounter))
    (hbits : ∀ x ∈ l, ∀ bf, bitfield = some bf → x.1 / 8 < bf.length) (hidx : ∀ x ∈ l, x.2.idx < s.tp.numPieces) :
    ((∀ x ∈ l, ¬ RankStops s bitfield x) ∧ rarestFrom s bitfield l = .ok none) ∨
      ∃ l₁ x l₂, l = l₁ ++ x :: l₂ ∧ (∀ y ∈ l₁, ¬ RankStops s bitfield y) ∧ RankPasses bitfield x.1 ∧
        (Wanted s.tp s.store x.2.idx ∧ rarestFrom s bitfield l = .ok (some x.2.idx) ∨
          Hangs s.tp s.store x.2.idx ∧ rarestFrom s bitfield l = .error .hang) := by
  induction l with
  | nil => exact .inl ⟨nofun,rfl⟩
  | cons x rest ih =>
    obtain ⟨r,c⟩ := x
    obtain ⟨hpass,hfail⟩ := rarestFrom_cons (s := s) (c := c) (hbits (r,c) List.mem_cons_self)
    by_cases hstop : RankStops s bitfield (r,c)
    · obtain ⟨hp,hstop⟩ := hstop
      refine .inr ⟨[],(r,c),rest,rfl,nofun,hp,?_⟩
      rw [hpass hp]
      rcases hstop with hw | hh
      · exact .inl ⟨hw,rarestAt_wanted hix hw⟩
      · exact .inr ⟨hh,rarestAt_hangs hix hh⟩
    · have hskip : rarestFrom s bitfield ((r,c) :: rest) = rarestFrom s bitfield rest := by
        by_cases hp : RankPasses bitfield r
        · rw [hpass hp]
          refine rarestAt_skip hix (hidx (r,c) List.mem_cons_self) ?_ ?_
          · exact fun hw => hstop ⟨hp,.inl hw⟩
          · exact fun hh => hstop ⟨hp,.inr hh⟩
        · exact hfail hp
      rw [hskip]
      rcases ih (fun y hy => hbits y (List.mem_cons_of_mem _ hy)) (fun y hy => hidx y (List.mem_cons_of_mem _ hy)) with
        ⟨hnone,hres⟩ | ⟨l₁,y,l₂,rfl,hnone,hy⟩
      · exact .inl ⟨List.forall_mem_cons.mpr ⟨hstop,hnone⟩,hres⟩
      · exact .inr ⟨(r,c) :: l₁,y,l₂,rfl,List.forall_mem_cons.mpr ⟨hstop,hnone⟩,hy⟩

end Loop

section Ranking
variable {env : Env} {s : Session} {p : PeerId}

/-- The peer is established and has announced piece `i`. -/
def countsFor (i : ℕ) (q : Peer) : Bool :=
  q.state.established && match q.bitfield with
    | none => false
    | some bf => bitAt bf i

/-- How many of the peers count for piece `i`. -/
def announcers (s : Session) (i : ℕ) (ps : List PeerId) : ℕ := (ps.filter (fun p => countsFor i (s.peer p))).length

theorem rarityCount_ok (hfull : FullFields s) {i : ℕ} (hi : i < s.tp.numPieces) {ps : List PeerId}
    (hps : ∀ p ∈ ps, p ∈ s.peers) (n : ℕ) : rarityCount s i ps n = .ok (n + announcers s i ps) := by
  induction ps generalizing n with
  | nil => rfl
  | cons p rest ih =>
    have hrest := ih (fun q hq => hps q (List.mem_cons_of_mem p hq))
    have hskip : countsFor i (s.peer p) = false → announcers s i (p :: rest) = announcers s i rest := by
      intro h
      simp [announcers,h]
    have hcount : countsFor i (s.peer p) = true → announcers s i (p :: rest) = announcers s i rest + 1 := by
      intro h
      simp [announcers,h]
    unfold rarityCount
    cases hest : (s.peer p).state.established with
    | false =>
      rw [hskip (by simp [countsFor,hest]),if_pos (by decide)]
      exact hrest n
    | true =>
      rw [if_neg (by decide)]
      cases hbf : (s.peer p).bitfield with
      | none =>
        rw [hskip (by simp [countsFor,hbf])]
        exact hrest n
      | some bf =>
        simp only [hfull.getbit (hps p List.mem_cons_self) hbf hi]
        rw [ok_bind]
        by_cases hbit : bitAt bf i = true
        · rw [if_pos hbit,hrest (n + 1),hcount (by simp [countsFor,hest,hbf,hbit]),Nat.add_right_comm,Nat.add_assoc]
        · rw [if_neg hbit,hskip (by simpa [countsFor,hbf] using fun _ => hbit)]
          exact hrest n

/-- The rarity array that `qsort` makes for the announcements on record. -/
def Session.counted (env : Env) (s : Session) : List PieceCounter :=
  env.qsortPieces.sort schedulerPieceCmp
    ((List.range s.tp.numPieces).map fun i => (⟨announcers s i s.peers,i⟩ : PieceCounter))

/-- The rarity array in use: a new one if the old one has aged. -/
def Session.ranking (env : Env) (s : Session) : List PieceCounter :=
  if (env.now : ℤ) - s.lastRarity > rarityAge then s.counted env else s.rarityArray

theorem mapM_eq_map {ε α β : Type} {f : α → Except ε β} {g : α → β} {l : List α} (h : ∀ a ∈ l, f a = .ok (g a)) :
    l.mapM f = .ok (l.map g) := by
  induction l with
  | nil => rfl
  | cons a l ih =>
    rw [List.mapM_cons,h a List.mem_cons_self,ih (fun b hb => h b (List.mem_cons_of_mem a hb))]
    rfl

theorem schedulerPieceRarityarray_eq (hfull : FullFields s) :
    schedulerPieceRarityarray env s = .ok { s with lastRarity := env.now, rarityArray := s.counted env } := by
  unfold schedulerPieceRarityarray
  rw [mapM_eq_map (g := fun i => (⟨announcers s i s.peers,i⟩ : PieceCounter)),ok_bind]
  · rfl
  · intro i hi
    rw [rarityCount_ok hfull (List.mem_range.mp hi) (fun _ hp => hp),Nat.zero_add]
    rfl

theorem rarestFrom_congr {t : Session} (htp : t.tp = s.tp) (hstore : t.store = s.store) (bitfield : Option Bytes)
    (l : List (ℕ × PieceCounter)) : rarestFrom t bitfield l = rarestFrom s bitfield l := by
  induction l with
  | nil => rfl
  | cons x rest ih =>
    obtain ⟨r,c⟩ := x
    simp only [rarestFrom,htp,hstore,ih]

/-- The search, as a loop over the ranking. -/
theorem schedulerPieceFindRarest_eq (env : Env) (hfull : FullFields s) (p : PeerId) :
    ∃ t : Session, schedulerPieceFindRarest env s p =
      if (s.ranking env).length < s.tp.numPieces then .error .wild
      else rarestFrom s (s.peer p).bitfield ((List.range s.tp.numPieces).zip (s.ranking env)) >>= fun r =>
        .ok (t,r) := by
  unfold schedulerPieceFindRarest Session.ranking
  by_cases hage : (env.now : ℤ) - s.lastRarity > rarityAge
  · rw [if_pos hage,if_pos hage,schedulerPieceRarityarray_eq hfull,ok_bind]
    refine ⟨{ s with lastRarity := env.now, rarityArray := s.counted env },?_⟩
    rw [← rarestFrom_congr (s := s) (t := { s with lastRarity := env.now, rarityArray := s.counted env }) rfl rfl]
  · rw [if_neg hage,if_neg hage,ok_bind]
    exact ⟨s,rfl⟩

end Ranking

/-- A rarity array that `scheduler_piece_rarityarray` builds for a torrent of `n` pieces. -/
def BuiltRarity (n : ℕ) (pieces : List PieceCounter) : Prop :=
  ∃ (env : Env) (s u : Session), schedulerPieceRarityarray env s = .ok u ∧ s.tp.numPieces = n ∧ u.rarityArray = pieces

theorem mapM_idx {g : ℕ → Except Halt ℕ} {l : List ℕ} {pieces : List PieceCounter}
    (h : l.mapM (fun i => do
      let count ← g i
      pure (⟨count,i⟩ : PieceCounter)) = .ok pieces) : pieces.map PieceCounter.idx = l := by
  induction l generalizing pieces with
  | nil =>
    cases h
    rfl
  | cons i l ih =>
    rw [List.mapM_cons] at h
    obtain ⟨c,hc,h⟩ := bind_ok.mp h
    obtain ⟨rest,hrest,h⟩ := bind_ok.mp h
    obtain ⟨count,-,hc⟩ := bind_ok.mp hc
    cases hc
    cases h
    rw [List.map_cons,ih hrest]

/-- Every piece has one rank. -/
theorem BuiltRarity.perm {n : ℕ} {pieces : List PieceCounter} (h : BuiltRarity n pieces) :
    (pieces.map PieceCounter.idx).Perm (List.range n) := by
  obtain ⟨env,s,u,hu,rfl,rfl⟩ := h
  unfold schedulerPieceRarityarray at hu
  obtain ⟨counted,hcounted,hu⟩ := bind_ok.mp hu
  cases hu
  rw [← mapM_idx hcounted]
  exact (env.qsortPieces.sorts.perm _ _).map _

theorem Reachable.indexed {sha1 : Bytes → Bytes} {b : Boot} {s : Session} (h : Reachable sha1 b s) : Indexed s.tp := by
  obtain ⟨es,hes⟩ := h
  obtain ⟨s₀,hs₀,hrun⟩ := bind_ok.mp hes
  have hpeered : s₀.core.Peered := by
    obtain ⟨tp,-,rfl⟩ := Boot.session_ok hs₀
    exact initial_peered _ _ _ _ _
  exact (indexed_steady sha1).moves (run_moves hpeered hrun)
    ((indexed_steady sha1).session (indexed_create b.mi b.disk) hs₀)

section Choice
variable (s : Session) (pieces : List PieceCounter) (bitfield : Option Bytes)

/-- What rarest-first selection is for: a piece is found exactly if the peer has announced one that
is wanted, and then one of these that the fewest peers have. -/
structure RarestRight (found : Option ℕ) : Prop where
  hint : found.isSome = true ↔ ∃ i, Announces bitfield i ∧ Wanted s.tp s.store i
  rarest : ∀ i, found = some i → Announces bitfield i ∧ Wanted s.tp s.store i ∧
    ∀ c ∈ pieces, c.idx = i → ∀ c' ∈ pieces, Announces bitfield c'.idx → Wanted s.tp s.store c'.idx → c.count ≤ c'.count

/-- Rank `r` is the first that the loop stops at. -/
def FirstStop (r : ℕ) : Prop := ∀ r' c', r' < r → pieces[r']? = some c' → ¬ RankStops s bitfield (r',c')

/-- The ranks lead to the piece that the announcements call for. Either nothing is found at any rank,
and nothing announced is wanted; or the first rank that passes and has a wanted piece has one that
is announced, and no announced piece that is wanted is rarer. -/
def RanksAgree : Prop :=
  (∀ r c, pieces[r]? = some c → ¬ RankStops s bitfield (r,c)) ∧ (∀ i, Announces bitfield i → ¬ Wanted s.tp s.store i) ∨
  ∃ r c, pieces[r]? = some c ∧ FirstStop s pieces bitfield r ∧ RankPasses bitfield r ∧ Wanted s.tp s.store c.idx ∧
    Announces bitfield c.idx ∧
    ∀ c' ∈ pieces, Announces bitfield c'.idx → Wanted s.tp s.store c'.idx → c.count ≤ c'.count

variable {s pieces bitfield}

theorem ranked_getElem? {n k : ℕ} (hlen : pieces.length = n) :
    ((List.range n).zip pieces)[k]? = pieces[k]?.map (fun c => (k,c)) := by
  by_cases hk : k < n
  · have hk' : k < pieces.length := hlen ▸ hk
    simp [hk,hk']
  · have hk' : pieces.length ≤ k := by omega
    rw [List.getElem?_eq_none hk',List.getElem?_eq_none]
    · rfl
    · simp only [List.length_zip,List.length_range]
      omega

/-- The loop over a built rarity array. -/
theorem rarestFrom_built (hix : Indexed s.tp) (hbuilt : BuiltRarity s.tp.numPieces pieces)
    (hbits : ∀ bf, bitfield = some bf → bf.length = (s.tp.numPieces + 7) / 8) :
    ((∀ r c, pieces[r]? = some c → ¬ RankStops s bitfield (r,c)) ∧
      rarestFrom s bitfield ((List.range s.tp.numPieces).zip pieces) = .ok none) ∨
    ∃ r c, pieces[r]? = some c ∧ FirstStop s pieces bitfield r ∧ RankPasses bitfield r ∧
      (Wanted s.tp s.store c.idx ∧ rarestFrom s bitfield ((List.range s.tp.numPieces).zip pieces) = .ok (some c.idx) ∨
        Hangs s.tp s.store c.idx ∧ rarestFrom s bitfield ((List.range s.tp.numPieces).zip pieces) = .error .hang) := by
  have hlen : pieces.length = s.tp.numPieces := by simpa using hbuilt.perm.length_eq
  have hget : ∀ {k : ℕ} {x : ℕ × PieceCounter}, ((List.range s.tp.numPieces).zip pieces)[k]? = some x ↔
      x.1 = k ∧ pieces[k]? = some x.2 := by
    rintro k ⟨r,c⟩
    rw [ranked_getElem? hlen,Option.map_eq_some_iff]
    constructor
    · rintro ⟨c',hc',heq⟩
      cases heq
      exact ⟨rfl,hc'⟩
    · rintro ⟨rfl,hc⟩
      exact ⟨c,hc,rfl⟩
  have hmem : ∀ x ∈ (List.range s.tp.numPieces).zip pieces, x.1 < s.tp.numPieces ∧ x.2.idx < s.tp.numPieces := by
    rintro ⟨r,c⟩ hx
    obtain ⟨hr,hc⟩ := List.of_mem_zip hx
    refine ⟨List.mem_range.mp hr,?_⟩
    exact List.mem_range.mp (hbuilt.perm.mem_iff.mp (List.mem_map_of_mem hc))
  have hreads : ∀ x ∈ (List.range s.tp.numPieces).zip pieces, ∀ bf, bitfield = some bf → x.1 / 8 < bf.length := by
    intro x hx bf hbf
    rw [hbits bf hbf]
    have hlt := (hmem x hx).1
    omega
  rcases rarestFrom_cases hix _ hreads (fun x hx => (hmem x hx).2) with
    ⟨hnone,hres⟩ | ⟨l₁,⟨r,c⟩,l₂,hsplit,hnone,hp,hres⟩
  · refine .inl ⟨?_,hres⟩
    intro r c hc
    exact hnone (r,c) (List.mem_of_getElem? (hget.mpr ⟨rfl,hc⟩))
  · have hat : ((List.range s.tp.numPieces).zip pieces)[l₁.length]? = some (r,c) := by rw [hsplit]; simp
    obtain ⟨rfl,hc⟩ := hget.mp hat
    refine .inr ⟨l₁.length,c,hc,?_,hp,hres⟩
    intro r' c' hlt hc'
    refine hnone (r',c') ?_
    have hat' : ((List.range s.tp.numPieces).zip pieces)[r']? = some (r',c') := hget.mpr ⟨rfl,hc'⟩
    rw [hsplit,List.getElem?_append_left hlt] at hat'
    exact List.mem_of_getElem? hat'

/-- The loop finds the right piece exactly if the ranks agree. -/
theorem rarestFrom_right_iff (hix : Indexed s.tp) (hbuilt : BuiltRarity s.tp.numPieces pieces)
    (hbits : ∀ bf, bitfield = some bf → bf.length = (s.tp.numPieces + 7) / 8) :
    (∃ found, rarestFrom s bitfield ((List.range s.tp.numPieces).zip pieces) = .ok found ∧
      RarestRight s pieces bitfield found) ↔ RanksAgree s pieces bitfield := by
  have huniq : ∀ c ∈ pieces, ∀ c' ∈ pieces, c.idx = c'.idx → c = c' := by
    have hnodup : (pieces.map PieceCounter.idx).Nodup := hbuilt.perm.nodup_iff.mpr List.nodup_range
    exact fun c hc c' hc' heq => List.inj_on_of_nodup_map hnodup hc hc' heq
  rcases rarestFrom_built hix hbuilt hbits with ⟨hnone,hres⟩ | ⟨r,c,hc,hfirst,hp,hres⟩
  · rw [hres]
    constructor
    · rintro ⟨found,hfound,hright⟩
      cases hfound
      refine .inl ⟨hnone,?_⟩
      intro i ha hw
      exact Bool.false_ne_true (hright.hint.mpr ⟨i,ha,hw⟩)
    · rintro (⟨-,hno⟩ | ⟨r,c,hc,-,hp,hw,-⟩)
      · refine ⟨none,rfl,⟨fun h => (Bool.false_ne_true h).elim,?_⟩,nofun⟩
        rintro ⟨i,ha,hw⟩
        exact (hno i ha hw).elim
      · exact (hnone r c hc ⟨hp,.inl hw⟩).elim
  · have hstop : RankStops s bitfield (r,c) := by
      rcases hres with ⟨hw,-⟩ | ⟨hh,-⟩
      · exact ⟨hp,.inl hw⟩
      · exact ⟨hp,.inr hh⟩
    constructor
    · rintro ⟨found,hfound,hright⟩
      rcases hres with ⟨hw,hres⟩ | ⟨-,hres⟩
      · cases hres.symm.trans hfound
        obtain ⟨ha,-,hmin⟩ := hright.rarest c.idx rfl
        exact .inr ⟨r,c,hc,hfirst,hp,hw,ha,hmin c (List.mem_of_getElem? hc) rfl⟩
      · cases hres.symm.trans hfound
    · rintro (⟨hno,-⟩ | ⟨r',c',hc',hfirst',hp',hw',ha',hmin'⟩)
      · exact (hno r c hc hstop).elim
      · have hstop' : RankStops s bitfield (r',c') := ⟨hp',.inl hw'⟩
        have hrr : r = r' := by
          rcases Nat.lt_trichotomy r r' with hlt | heq | hgt
          · exact (hfirst' r c hlt hc hstop).elim
          · exact heq
          · exact (hfirst r' c' hgt hc' hstop').elim
        subst hrr
        cases hc.symm.trans hc'
        rcases hres with ⟨hw,hres⟩ | ⟨hh,-⟩
        · refine ⟨some c.idx,hres,⟨fun _ => ⟨c.idx,ha',hw⟩,fun _ => rfl⟩,?_⟩
          rintro i ⟨⟩
          refine ⟨ha',hw,?_⟩
          intro d hd hdc
          rw [huniq d hd c (List.mem_of_getElem? hc) hdc]
          exact hmin'
        · exact (hh.2.2.1 hw').elim

end Choice

section Test

/-- The only peer of a torrent with two pieces announces the first. -/
def firstPieceRun : List (Env × Event) :=
  (.plain 1000,.accept 1) :: inputs 1000 0 handshakePortions ++ inputs 1000 0 (messagePortions [msgBitfieldId,0x80])

theorem firstPieceRun_reaches : ∃ s, Reachable sha1ZeroByte (.oneByte (List.replicate 40 0) 2) s ∧
    BuiltRarity s.tp.numPieces s.rarityArray ∧ 0 ∈ s.peers ∧ (s.peer 0).bitfield = some [0x80] ∧
    ∃ t, schedulerPieceFindRarest (.plain 1002) s 0 = .ok (t,some 1) := by
  have hrun : ((Boot.oneByte (List.replicate 40 0) 2).run sha1ZeroByte firstPieceRun).toOption.map (fun s =>
      decide (0 ∈ s.peers ∧ (s.peer 0).bitfield = some [0x80]) &&
      ((schedulerPieceRarityarray (.plain 1002) s).toOption.map (fun u =>
        decide (u.rarityArray = s.rarityArray)) == some true) &&
      ((schedulerPieceFindRarest (.plain 1002) s 0).toOption.map (fun x =>
        decide (x.2 = some 1)) == some true)) = some true := by decide +kernel
  obtain ⟨s,hs,hP⟩ := exists_reachable hrun
  obtain ⟨hstate,hfound⟩ := Bool.and_eq_true_iff.mp hP
  obtain ⟨hstate,hbuilt⟩ := Bool.and_eq_true_iff.mp hstate
  obtain ⟨hp,hbf⟩ := of_decide_eq_true hstate
  obtain ⟨u,hu,hcounted⟩ := exists_ok (eq_of_beq hbuilt)
  obtain ⟨⟨t,found⟩,ht,hone⟩ := exists_ok (eq_of_beq hfound)
  cases of_decide_eq_true hone
  exact ⟨s,hs,⟨.plain 1002,s,u,hu,rfl,of_decide_eq_true hcounted⟩,hp,hbf,t,ht⟩

end Test

end Unworkable
