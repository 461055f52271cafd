import Unworkable.Session.Announced
import Unworkable.Session.Indices

/-! # Bit fields on record

In every reachable state the bit field of a peer has a bit for each piece: where its 32-bit size
wraps to nothing, the test for interest that follows its installation reads outside it.
-/
namespace Unworkable
open Library

def FullFields (s : Session) : Prop :=
  ∀ p ∈ s.peers, ∀ bf, (s.peer p).bitfield = some bf → bf.length = (s.tp.numPieces + 7) / 8

section Nonempty
variable {sha1 : Bytes → Bytes} {env : Env} {s s' : Session} {p : PeerId}

/-- A message that installs no bit field keeps the size of the one there is. -/
theorem Touches.bitfield_nil {renew : Bool} (h : Touches env 1 renew s p s') (hnil : (s'.peer p).bitfield = some []) :
    (s.peer p).bitfield = some [] := by
  rcases h.peer.bitfield [] hnil with hlen | ⟨bf,hbf,hlen⟩
  · exact absurd hlen (by decide)
  · rw [hbf,List.length_eq_zero_iff.mp hlen.symm]

theorem expressInterest_ne_nil {t : Session} (hn : 0 < t.tp.numPieces) (h : expressInterest env t p = .ok s') :
    (s'.peer p).bitfield ≠ some [] := by
  intro hnil
  have htrack := congrArg Prod.fst (track_expressInterest h)
  exact expressInterest_nil (htrack.symm.trans hnil) hn h

/-- No message makes an empty bit field of another one. -/
theorem message_nil {id : UInt8} {msg : Bytes} (hn : 0 < s.tp.numPieces)
    (h : networkPeerProcessMessage sha1 env s p id msg = .ok s') (hnil : (s'.peer p).bitfield = some []) :
    (s.peer p).bitfield = some [] := by
  have hinstall : ∀ bf, expressInterest env (installBitfield s p bf) p = .ok s' → (s.peer p).bitfield = some [] := by
    intro bf h
    have hne := expressInterest_ne_nil (t := installBitfield s p bf) hn h
    exact (hne hnil).elim
  have hfill : ∀ fill, msgHaveFill env s p fill = .ok s' → (s.peer p).bitfield = some [] := by
    intro fill h
    unfold msgHaveFill at h
    split at h
    · cases h
      exact hnil
    · exact hinstall _ h
  have hkept : ∀ renew, Touches env 1 renew s p s' → (s.peer p).bitfield = some [] := fun _ ht => ht.bitfield_nil hnil
  cases networkPeerProcessMessage_handled h with
  | choke => exact hkept _ (.of_roster (roster_msgChoke s p))
  | unchoke => exact hkept _ (.of_roster (roster_setPeer s p rfl))
  | interested => exact hkept _ (.of_roster (roster_setPeer s p rfl))
  | notinterested => exact hkept _ (.of_roster (roster_setPeer s p rfl))
  | haves h =>
    unfold msgHave at h
    dsimp only at h
    split at h
    · cases h
      exact hnil
    · obtain ⟨bf,-,h⟩ := bind_ok.mp h
      refine (expressInterest_ne_nil ?_ h hnil).elim
      rw [Session.setPeer_tp]
      split <;> exact hn
  | bitfield h =>
    unfold msgBitfield at h
    split at h
    · cases h
      exact hnil
    · split at h
      · cases h
        exact hkept _ (touches_killPeer env 1 s p)
      · exact hinstall _ h
  | request h => exact hkept _ (.of_roster (roster_msgRequest h))
  | piece h => exact hkept _ (touches_pieceAt h)
  | cancel => exact hkept _ (.of_roster (roster_msgCancel env s p msg))
  | reject =>
    rcases roster_msgReject env s p msg with hkill | hsame
    · refine hkept false ?_
      rw [hkill]
      exact touches_killPeer env 1 s p
    · exact hkept _ (.of_roster hsame)
  | havenone h => exact hfill _ h
  | haveall h => exact hfill _ h
  | other => exact hnil

/-- Nor does an entry of the read callback. -/
theorem peerResponse_nil {avail : Bytes} (hn : 0 < s.tp.numPieces)
    (h : (peerResponse sha1 env p s avail).result = .ok s') (hnil : (s'.peer p).bitfield = some []) :
    (s.peer p).bitfield = some [] := by
  obtain ⟨t,hsend,ht⟩ := peerResponse_read h
  have htnil := (touches_sendBitfield (n := 1) hsend).bitfield_nil hnil
  have hread : Touches env 1 _ s p (s.setPeer p (afterRead env · avail)) :=
    .of_setPeer _ rfl (touched_afterRead env 1 (s.peer p) avail)
  rcases ht with ⟨-,q,hq,rfl⟩ | ⟨msg,u,-,rfl,hu⟩
  · have hinto : Touches env 1 _ s p (s.setPeer p (fun _ => q)) :=
      .of_setPeer (fun _ => q) rfl ((touched_afterRead env 1 (s.peer p) avail).trans hq.touched)
    exact hinto.bitfield_nil htnil
  · have hunil : (u.peer p).bitfield = some [] := by simpa using htnil
    exact hread.bitfield_nil (message_nil hn hu hunil)

theorem Reachable.ne_nil {b : Boot} (h : Reachable sha1 b s) (hn : 0 < s.tp.numPieces) :
    ∀ p ∈ s.peers, (s.peer p).bitfield ≠ some [] := by
  have hmi : ∀ {t : Session}, Reachable sha1 b t → t.tp.numPieces = b.mi.numPieces :=
    fun ht => congrArg Metainfo.numPieces ht.sound.2
  rw [hmi h] at hn
  refine h.rule (I := fun s => ∀ p ∈ s.peers, (s.peer p).bitfield ≠ some []) (fun tp _ => nofun) ?_
  rintro t ⟨env,e⟩ t' hreach ht hstep q hq hnil
  obtain ⟨hcensus,hconnected⟩ := hreach.census
  rcases step_roster hcensus hconnected hstep with ⟨-,hatt⟩ | ⟨p,avail,rfl,hp,htouch⟩
  · rcases hatt.renewed.peer q hq with ⟨hq',-,hbit⟩ | ⟨-,-,hbit⟩
    · exact ht q hq' (hbit.symm.trans hnil)
    · cases hbit.symm.trans hnil
  · by_cases he : q = p
    · subst he
      simp only [Unworkable.step,if_pos hp] at hstep
      exact ht q hp (peerResponse_nil (hmi hreach ▸ hn) hstep hnil)
    · obtain ⟨q',hq'⟩ := htouch.rest
      have hpeers : t'.peers = t.peers := congrArg Roster.peers hq'
      rw [hpeers] at hq
      exact ht q hq ((mask_eq (htouch.mask_ne he)).2.2.1.symm.trans hnil)

theorem Reachable.fullFields {b : Boot} (h : Reachable sha1 b s) : FullFields s := by
  intro p hp bf hbf
  have hlen := h.bitfieldsFit p hp bf hbf
  by_cases hn : 0 < s.tp.numPieces
  · have hpos : 0 < bitfieldLen s.tp.numPieces := by
      rw [← hlen]
      refine List.length_pos_iff.mpr ?_
      rintro rfl
      exact h.ne_nil hn p hp hbf
    rw [hlen,bitfieldLen_eq s.tp.numPieces_lt hpos]
  · rw [hlen,show s.tp.numPieces = 0 by omega]
    rfl

/-- The bit of any piece can be read. -/
theorem FullFields.getbit (h : FullFields s) (hp : p ∈ s.peers) {bf : Bytes} (hbf : (s.peer p).bitfield = some bf)
    {i : ℕ} (hi : i < s.tp.numPieces) : utilGetbit bf i = .ok (bitAt bf i) := by
  refine utilGetbit_eq ?_
  rw [h p hp bf hbf]
  omega

end Nonempty

end Unworkable
