import Unworkable.Session.Rarest
import Unworkable.Session.Uploads

/-! # Interest in a peer

Whether a peer has anything we want is asked of `scheduler_piece_gimme`. Its searches look for a
piece to download now, so they pass over the pieces that other peers have been asked for in full,
and the last of them tests bits at ranks of the rarity array.
-/
namespace Unworkable
open Library

def HasUnverified (s : Session) (p : PeerId) : Prop :=
  ∃ i < s.tp.numPieces, Announces (s.peer p).bitfield i ∧ (s.tp.piece i).cksumok = false

section Searches
variable {env : Env} {s s' : Session} {p : PeerId}

def BegunWanted (s : Session) (p : PeerId) : Prop :=
  ∃ n ∈ s.store.index, Announces (s.peer p).bitfield n.idx ∧ Wanted s.tp s.store n.idx

def SomeWanted (s : Session) (p : PeerId) : Prop :=
  ∃ i, Announces (s.peer p).bitfield i ∧ Wanted s.tp s.store i

def RankWanted (env : Env) (s : Session) (p : PeerId) : Prop :=
  ∃ x ∈ (List.range s.tp.numPieces).zip (s.ranking env), RankPasses (s.peer p).bitfield x.1 ∧
    Wanted s.tp s.store x.2.idx

theorem utilGetbit_ok {bf : Bytes} {i : ℕ} {has : Bool} (h : utilGetbit bf i = .ok has) : has = bitAt bf i := by
  by_cases hi : i / 8 < bf.length
  · rw [utilGetbit_eq hi] at h
    exact (Except.ok.inj h).symm
  · simp [utilGetbit,hi] at h

theorem announces_some {bf : Bytes} {i : ℕ} : Announces (some bf) i ↔ bitAt bf i = true := by simp [Announces]

theorem not_wanted_of_verified {i : ℕ} {tpp : TorrentPiece} (hfind : torrentPieceFind s.tp i = .ok tpp)
    (hck : tpp.cksumok = true) : ¬ Wanted s.tp s.store i := by
  obtain ⟨-,rfl⟩ := torrentPieceFind_ok.mp hfind
  intro hw
  exact Bool.false_ne_true (hw.2.1.symm.trans hck)

section Indexed
variable (hix : Indexed s.tp)
include hix

/-- An unverified piece is wanted exactly if it is not fully assigned. -/
theorem assigned_wanted {i : ℕ} {tpp : TorrentPiece} (hfind : torrentPieceFind s.tp i = .ok tpp)
    (hck : ¬ tpp.cksumok = true) {assigned : Bool} (h : schedulerPieceAssigned s.store tpp = .ok assigned) :
    assigned = false ↔ Wanted s.tp s.store i := by
  obtain ⟨-,rfl⟩ := torrentPieceFind_ok.mp hfind
  constructor
  · rintro rfl
    exact (wanted_of_unassigned hix hfind hck h).2
  · intro hw
    cases h.symm.trans (schedulerPieceAssigned_wanted hix hw)
    rfl

theorem gimmeScan_found {bitfield : Option Bytes} {ns : List PieceDlIdxnode} {r : Option ℕ}
    (h : gimmeScan s bitfield ns = .ok r) :
    r.isSome = true ↔ ∃ n ∈ ns, Announces bitfield n.idx ∧ Wanted s.tp s.store n.idx := by
  induction ns with
  | nil =>
    cases h
    simp
  | cons n rest ih =>
    have hskip : ¬ (Announces bitfield n.idx ∧ Wanted s.tp s.store n.idx) → gimmeScan s bitfield rest = .ok r →
        (r.isSome = true ↔ ∃ m ∈ n :: rest, Announces bitfield m.idx ∧ Wanted s.tp s.store m.idx) := by
      intro hn hrest
      rw [ih hrest,List.exists_mem_cons_iff,or_iff_right hn]
    simp only [gimmeScan] at h
    obtain ⟨tpp,htpp,h⟩ := bind_ok.mp h
    split at h
    · rename_i hck
      exact hskip (fun hn => not_wanted_of_verified htpp hck hn.2) h
    · rename_i hck
      obtain ⟨assigned,hassigned,h⟩ := bind_ok.mp h
      have hwanted := assigned_wanted hix htpp hck hassigned
      cases assigned with
      | true => exact hskip (fun hn => Bool.false_ne_true (hwanted.mpr hn.2).symm) h
      | false =>
        cases bitfield with
        | none =>
          refine hskip ?_ h
          rintro ⟨⟨bf,hbf,-⟩,-⟩
          cases hbf
        | some bf =>
          obtain ⟨has,hhas,h⟩ := bind_ok.mp h
          have hbit := utilGetbit_ok hhas
          cases has with
          | false => exact hskip (fun hn => Bool.false_ne_true (hbit.trans (announces_some.mp hn.1))) h
          | true =>
            cases h
            exact iff_of_true rfl ⟨n,List.mem_cons_self,announces_some.mpr hbit.symm,hwanted.mp rfl⟩

theorem usefulPieces_found {bitfield : Option Bytes} {l pieces : List ℕ} (h : usefulPieces s bitfield l = .ok pieces) :
    pieces ≠ [] ↔ ∃ i ∈ l, Announces bitfield i ∧ Wanted s.tp s.store i := by
  induction l generalizing pieces with
  | nil =>
    cases h
    simp
  | cons i rest ih =>
    have hskip : ¬ (Announces bitfield i ∧ Wanted s.tp s.store i) → usefulPieces s bitfield rest = .ok pieces →
        (pieces ≠ [] ↔ ∃ j ∈ i :: rest, Announces bitfield j ∧ Wanted s.tp s.store j) := by
      intro hi hrest
      rw [ih hrest,List.exists_mem_cons_iff,or_iff_right hi]
    cases bitfield with
    | none =>
      refine hskip ?_ h
      rintro ⟨⟨bf,hbf,-⟩,-⟩
      cases hbf
    | some bf =>
      simp only [usefulPieces] at h
      obtain ⟨has,hhas,h⟩ := bind_ok.mp h
      have hbit := utilGetbit_ok hhas
      cases has with
      | false => exact hskip (fun hi => Bool.false_ne_true (hbit.trans (announces_some.mp hi.1))) h
      | true =>
        obtain ⟨tpp,htpp,h⟩ := bind_ok.mp h
        split at h
        · rename_i hck
          exact hskip (fun hi => not_wanted_of_verified htpp hck hi.2) h
        · rename_i hck
          obtain ⟨assigned,hassigned,h⟩ := bind_ok.mp h
          have hwanted := assigned_wanted hix htpp hck hassigned
          cases assigned with
          | true => exact hskip (fun hi => Bool.false_ne_true (hwanted.mpr hi.2).symm) h
          | false =>
            obtain ⟨more,-,h⟩ := bind_ok.mp h
            cases h
            refine iff_of_true (by simp) ?_
            exact ⟨i,List.mem_cons_self,announces_some.mpr hbit.symm,hwanted.mp rfl⟩

theorem rarestFrom_found {bitfield : Option Bytes} {l : List (ℕ × PieceCounter)} {r : Option ℕ}
    (h : rarestFrom s bitfield l = .ok r) :
    r.isSome = true ↔ ∃ x ∈ l, RankPasses bitfield x.1 ∧ Wanted s.tp s.store x.2.idx := by
  induction l with
  | nil =>
    cases h
    simp
  | cons x rest ih =>
    obtain ⟨k,c⟩ := x
    have hskip : ¬ (RankPasses bitfield k ∧ Wanted s.tp s.store c.idx) → rarestFrom s bitfield rest = .ok r →
        (r.isSome = true ↔ ∃ x ∈ (k,c) :: rest, RankPasses bitfield x.1 ∧ Wanted s.tp s.store x.2.idx) := by
      intro hk hrest
      rw [ih hrest,List.exists_mem_cons_iff,or_iff_right hk]
    have hat : RankPasses bitfield k → rarestAt s bitfield c rest = .ok r →
        (r.isSome = true ↔ ∃ x ∈ (k,c) :: rest, RankPasses bitfield x.1 ∧ Wanted s.tp s.store x.2.idx) := by
      intro hpass h
      unfold rarestAt at h
      obtain ⟨tpp,htpp,h⟩ := bind_ok.mp h
      split at h
      · rename_i hck
        exact hskip (fun hk => not_wanted_of_verified htpp hck hk.2) h
      · rename_i hck
        obtain ⟨assigned,hassigned,h⟩ := bind_ok.mp h
        have hwanted := assigned_wanted hix htpp hck hassigned
        cases assigned with
        | true => exact hskip (fun hk => Bool.false_ne_true (hwanted.mpr hk.2).symm) h
        | false =>
          cases h
          exact iff_of_true rfl ⟨(k,c),List.mem_cons_self,hpass,hwanted.mp rfl⟩
    by_cases hread : ∀ bf, bitfield = some bf → k / 8 < bf.length
    · obtain ⟨hpass,hfail⟩ := rarestFrom_cons (s := s) (c := c) hread
      by_cases hp : RankPasses bitfield k
      · exact hat hp (hpass hp ▸ h)
      · exact hskip (fun hk => hp hk.1) (hfail hp ▸ h)
    · push Not at hread
      obtain ⟨bf,rfl,hout⟩ := hread
      simp only [rarestFrom] at h
      obtain ⟨has,hhas,-⟩ := bind_ok.mp h
      simp [utilGetbit,List.getElem?_eq_none hout] at hhas

end Indexed

/-- The three searches together. -/
theorem gimmePiece_found (hix : Indexed s.tp) (hfull : FullFields s) {r : Option ℕ}
    (h : gimmePiece env s p = .ok (s',r)) :
    r.isSome = true ↔ BegunWanted s p ∨
      if s.tp.goodPieces < 4 ∧ s.tp.numPieces > 4 then SomeWanted s p else RankWanted env s p := by
  unfold gimmePiece at h
  obtain ⟨begun,hbegun,h⟩ := bind_ok.mp h
  have hscan : begun.isSome = true ↔ BegunWanted s p := gimmeScan_found hix hbegun
  cases begun with
  | some i =>
    cases h
    exact iff_of_true rfl (.inl (hscan.mp rfl))
  | none =>
    rw [or_iff_right (fun hw => Bool.false_ne_true (hscan.mpr hw))]
    dsimp only at h
    by_cases hrandom : s.tp.goodPieces < 4 ∧ s.tp.numPieces > 4
    · rw [if_pos hrandom] at h
      rw [if_pos hrandom]
      obtain ⟨pieces,hpieces,h⟩ := bind_ok.mp h
      obtain ⟨-,rfl⟩ := Prod.mk.inj (Except.ok.inj h)
      have huseful : pieces ≠ [] ↔ SomeWanted s p := by
        rw [usefulPieces_found hix hpieces]
        constructor
        · rintro ⟨i,-,hi⟩
          exact ⟨i,hi⟩
        · rintro ⟨i,ha,hw⟩
          exact ⟨i,List.mem_range.mpr hw.1,ha,hw⟩
      rw [← huseful,← List.length_pos_iff]
      constructor
      · intro hsome
        by_contra hzero
        rw [List.getElem?_eq_none (by omega)] at hsome
        cases hsome
      · intro hpos
        rw [List.getElem?_eq_getElem (Nat.mod_lt _ hpos)]
        rfl
    · rw [if_neg hrandom] at h
      rw [if_neg hrandom]
      obtain ⟨t,heq⟩ := schedulerPieceFindRarest_eq env hfull p
      rw [heq] at h
      split at h
      · cases h
      · obtain ⟨found,hfound,h⟩ := bind_ok.mp h
        cases h
        exact rarestFrom_found hix hfound

/-- A piece to download now is one that we have not verified. -/
theorem SomeWanted.hasUnverified (h : SomeWanted s p) : HasUnverified s p := by
  obtain ⟨i,ha,hw⟩ := h
  exact ⟨i,hw.1,ha,hw.2.1⟩

theorem BegunWanted.someWanted (h : BegunWanted s p) : SomeWanted s p := by
  obtain ⟨n,-,ha,hw⟩ := h
  exact ⟨n.idx,ha,hw⟩

/-- The searches find a piece exactly if there is an unverified one: among the first four pieces
a random one serves, if any that the peer has is not fully assigned; after that the piece begun or
the piece at a rank must be there exactly if an unverified one is. -/
def InterestAgrees (env : Env) (s : Session) (p : PeerId) : Prop :=
  if s.tp.goodPieces < 4 ∧ s.tp.numPieces > 4 then HasUnverified s p → SomeWanted s p
  else HasUnverified s p ↔ BegunWanted s p ∨ RankWanted env s p

theorem gimmePiece_agrees (hix : Indexed s.tp) (hfull : FullFields s) {r : Option ℕ}
    (h : gimmePiece env s p = .ok (s',r)) : (r.isSome = true ↔ HasUnverified s p) ↔ InterestAgrees env s p := by
  rw [gimmePiece_found hix hfull h]
  unfold InterestAgrees
  by_cases hrandom : s.tp.goodPieces < 4 ∧ s.tp.numPieces > 4
  · rw [if_pos hrandom,if_pos hrandom,or_iff_right_of_imp BegunWanted.someWanted]
    exact ⟨Iff.mpr,fun h => ⟨SomeWanted.hasUnverified,h⟩⟩
  · rw [if_neg hrandom,if_neg hrandom]
    exact iff_comm

/-- The test for interest sets the bit, and sends the message, if the searches find a piece. -/
theorem expressInterest_found (h : expressInterest env s p = .ok s') :
    ∃ t r, gimmePiece env s p = .ok (t,r) ∧
      s'.out = s.out ++ (if r.isSome && !(s.peer p).state.aminterested then [(p,message msgInterestedId [])] else []) ∧
      (s'.peer p).state.aminterested = ((s.peer p).state.aminterested || r.isSome) := by
  unfold expressInterest schedulerPieceGimme at h
  obtain ⟨⟨u,x,res⟩,hu,h⟩ := bind_ok.mp h
  obtain ⟨⟨t,r⟩,ht,hu⟩ := bind_ok.mp hu
  have hres : u = t ∧ res = r.isSome := by
    cases r with
    | none =>
      cases hu
      exact ⟨rfl,rfl⟩
    | some idx =>
      obtain ⟨tpp,-,hu⟩ := bind_ok.mp hu
      cases hu
      exact ⟨rfl,rfl⟩
  obtain ⟨rfl,rfl⟩ := hres
  have hpeer : u.peer = s.peer := peer_gimmePiece ht
  have hout : u.out = s.out := Idle.gimmePiece ht
  refine ⟨u,r,ht,?_⟩
  dsimp only at h
  rw [hpeer] at h
  split at h
  · rename_i hnew
    cases h
    rw [if_pos hnew]
    obtain ⟨hsome,-⟩ := Bool.and_eq_true_iff.mp hnew
    simp [networkPeerWriteInterested,networkPeerWrite,hout,hsome]
  · rename_i hold
    cases h
    rw [if_neg hold,hout,hpeer,List.append_nil]
    refine ⟨rfl,?_⟩
    cases hset : (s.peer p).state.aminterested with
    | true => rfl
    | false => simpa [hset] using hold

end Searches

section Accepted
variable {sha1 : Bytes → Bytes} {env : Env} {s s' : Session} {p : PeerId} {msg : Bytes}

/-- The new bit field has its full size as well. -/
theorem noted_full (hfull : FullFields s) (hp : p ∈ s.peers) (hacc : AcceptsPieces env s p msg)
    (h : expressInterest env (noted env s p msg) p = .ok s') : FullFields (noted env s p msg) := by
  obtain ⟨htp,hpeers,-,hself,-,hrest⟩ := noted_keeps env s p msg
  have hlen : (notedField env s p msg).length = bitfieldLen s.tp.numPieces ∨
      (notedField env s p msg).length = (s.tp.numPieces + 7) / 8 := by
    unfold notedField
    rcases hacc with ⟨hid,-⟩ | ⟨-,⟨hid,hlen⟩ | hid | hid⟩
    · rw [if_pos hid,length_setBitAt]
      cases hbf : (s.peer p).bitfield with
      | none => exact .inl List.length_replicate
      | some bf => exact .inr (hfull p hp bf hbf)
    · rw [hid,if_neg (by decide),if_pos rfl,List.length_drop]
      exact .inl hlen
    · rw [hid,if_neg (by decide),if_neg (by decide)]
      exact .inl List.length_replicate
    · rw [hid,if_neg (by decide),if_neg (by decide)]
      exact .inl List.length_replicate
  have hfield : (notedField env s p msg).length = (s.tp.numPieces + 7) / 8 := by
    rcases hlen with hlen | hlen
    · by_cases hn : 0 < s.tp.numPieces
      · have hpos : 0 < bitfieldLen s.tp.numPieces := by
          rw [← hlen]
          refine List.length_pos_iff.mpr ?_
          intro hnil
          exact expressInterest_nil (hself.trans (congrArg some hnil)) (htp ▸ hn) h
        rw [hlen,bitfieldLen_eq s.tp.numPieces_lt hpos]
      · rw [hlen,show s.tp.numPieces = 0 by omega]
        rfl
    · exact hlen
  intro q hq bf hbf
  rw [htp]
  by_cases he : q = p
  · subst he
    cases hself.symm.trans hbf
    exact hfield
  · rw [hrest q he] at hbf
    exact hfull q (hpeers ▸ hq) bf hbf

end Accepted

/-- What the test for interest is for: we are interested afterwards exactly if we were before or
the peer has a piece that we have not verified, and tell the peer when that begins. -/
structure InterestRight (s s' : Session) (p : PeerId) : Prop where
  bit : (s'.peer p).state.aminterested = true ↔ (s.peer p).state.aminterested = true ∨ HasUnverified s' p
  sent : s'.out = s.out ++ if (s'.peer p).state.aminterested && !(s.peer p).state.aminterested
    then [(p,message msgInterestedId [])] else []

section Test

/-- A start of a torrent with two pieces that finds the first on disk. -/
def Boot.halfThere : Boot :=
  { Boot.oneByte (zeroByteDigest ++ List.replicate 20 0) 2 with disk := fun _ => ⟨false,0,some [0],false⟩ }

theorem halfThere_announced : ∃ s s', Reachable sha1ZeroByte .halfThere s ∧ 0 ∈ s.peers ∧
    AcceptsPieces (.plain 1001) s 0 [msgBitfieldId,0x80] ∧
    networkPeerProcessMessage sha1ZeroByte (.plain 1001) s 0 msgBitfieldId [msgBitfieldId,0x80] = .ok s' ∧
    (s.peer 0).state.aminterested = false ∧ (s'.peer 0).state.aminterested = true ∧
    (s'.peer 0).bitfield = some [0x80] ∧ s'.tp.numPieces = 2 ∧ (s'.tp.piece 0).cksumok = true := by
  have hrun : (Boot.halfThere.run sha1ZeroByte
      ((.plain 1000,.accept 1) :: inputs 1000 0 handshakePortions)).toOption.map (fun s =>
      decide (0 ∈ s.peers ∧ (s.peer 0).state.bitfield = true ∧ 1 = bitfieldLen s.tp.numPieces ∧
        (s.peer 0).state.aminterested = false) &&
      ((networkPeerProcessMessage sha1ZeroByte (.plain 1001) s 0 msgBitfieldId [msgBitfieldId,0x80]).toOption.map
        (fun s' => decide ((s'.peer 0).state.aminterested = true ∧ (s'.peer 0).bitfield = some [0x80] ∧
          s'.tp.numPieces = 2 ∧ (s'.tp.piece 0).cksumok = true)) == some true)) = some true := by decide +kernel
  obtain ⟨s,hs,hP⟩ := exists_reachable hrun
  obtain ⟨hstate,hmsg⟩ := Bool.and_eq_true_iff.mp hP
  obtain ⟨hp,hbit,hlen,hnot⟩ := of_decide_eq_true hstate
  obtain ⟨s',hs',hafter⟩ := exists_ok (eq_of_beq hmsg)
  exact ⟨s,s',hs,hp,.inr ⟨hbit,.inl ⟨rfl,hlen⟩⟩,hs',hnot,of_decide_eq_true hafter⟩

end Test

end Unworkable
