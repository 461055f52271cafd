import Unworkable.Session.Roster
import Mathlib.Data.Finset.Card

/-! # Choking

`scheduler_choke_algorithm` in its three passes: the fastest peers are unchoked, one more peer is picked
at random, and everyone else is choked. The ranking is whatever `qsort` has made of the peers.
-/
namespace Unworkable
open Library

section Passes
variable (env : Env) (s : Session)

/-- The peers that may be unchoked for their speed. -/
def fastestPeers (pc : List PeerCounter) : List PeerId := (pc.take (min 3 s.numPeers)).map PeerCounter.peer

def unchokeTurn (s : Session) (p : PeerId) : Session :=
  if !(s.peer p).state.amchoking then s
  else if !(s.peer p).state.interested then s
  else networkPeerWriteUnchoke env s p

def unchokeFastest (pc : List PeerCounter) : Session := (fastestPeers s pc).foldl (unchokeTurn env) s

def unchokePicked : Option PeerId → Session
  | some p => networkPeerWriteUnchoke env s p
  | none => s

def Spared (top : List PeerId) (p2 : Option PeerId) (p : PeerId) : Prop := p ∈ top ∨ (top ≠ [] ∧ p2 = some p)

instance (top : List PeerId) (p2 : Option PeerId) (p : PeerId) : Decidable (Spared top p2 p) :=
  inferInstanceAs (Decidable (_ ∨ _))

def chokeOtherTurn (top : List PeerId) (p2 : Option PeerId) (s : Session) (p : PeerId) : Session :=
  if Spared top p2 p then s
  else if !(s.peer p).state.amchoking then networkPeerWriteChoke env s p
  else s

def pickPeer (pc : List PeerCounter) : Except Halt (Option PeerId) :=
  if env.now % 30 = 0 then optimisticPick env (unchokeFastest env s pc) pc else .ok none

def chokePasses (pc : List PeerCounter) (p2 : Option PeerId) : Session :=
  let t := unchokePicked env (unchokeFastest env s pc) p2
  t.peers.foldl (chokeOtherTurn env (fastestPeers s pc) p2) t

/-- `scheduler_choke_algorithm` with the given ranking. -/
def chokeRanked (pc : List PeerCounter) : Except Halt Session := do
  let p2 ← pickPeer env s pc
  .ok (chokePasses env s pc p2)

/-- The ranking is made on a second in ten, and the three passes go by it. -/
theorem schedulerChokeAlgorithm_ranked : schedulerChokeAlgorithm env s =
    if env.now % 10 ≠ 0 then .ok s else schedulerPeerSpeedrank env s >>= chokeRanked env s := by
  unfold schedulerChokeAlgorithm
  split
  · rfl
  · rfl

end Passes

def Session.chokes (s : Session) (q : PeerId) : Bool := (s.peer q).state.amchoking

def Session.wanted (s : Session) (q : PeerId) : Bool := (s.peer q).state.interested

section Bits
variable (env : Env) (s : Session) (p q : PeerId)

@[simp] theorem wanted_unchoke : (networkPeerWriteUnchoke env s p).wanted q = s.wanted q := by
  unfold networkPeerWriteUnchoke networkPeerWrite Session.wanted
  by_cases h : q = p
  · simp [h]
  · simp [Session.setPeer_ne _ _ _ h]

@[simp] theorem wanted_choke : (networkPeerWriteChoke env s p).wanted q = s.wanted q := by
  unfold networkPeerWriteChoke networkPeerWrite Session.wanted
  by_cases h : q = p
  · simp [h]
  · simp [Session.setPeer_ne _ _ _ h]

@[simp] theorem chokes_unchoke : (networkPeerWriteUnchoke env s p).chokes q = (s.chokes q && decide (q ≠ p)) := by
  unfold networkPeerWriteUnchoke networkPeerWrite Session.chokes
  by_cases h : q = p
  · simp [h]
  · simp [Session.setPeer_ne _ _ _ h,h]

@[simp] theorem chokes_choke : (networkPeerWriteChoke env s p).chokes q = (s.chokes q || decide (q = p)) := by
  unfold networkPeerWriteChoke networkPeerWrite Session.chokes
  by_cases h : q = p
  · simp [h]
  · simp [Session.setPeer_ne _ _ _ h,h]

@[simp] theorem wanted_unchokeTurn : (unchokeTurn env s p).wanted q = s.wanted q := by
  unfold unchokeTurn
  split_ifs
  · rfl
  · rfl
  · exact wanted_unchoke env s p q

@[simp] theorem chokes_unchokeTurn : (unchokeTurn env s p).chokes q =
    (s.chokes q && !(decide (q = p) && s.wanted q)) := by
  show (if !s.chokes p then s else if !s.wanted p then s else networkPeerWriteUnchoke env s p).chokes q = _
  by_cases h : q = p
  · subst h
    cases hc : s.chokes q <;> cases s.wanted q
    all_goals simp [hc]
  · split_ifs
    all_goals simp [h]

variable (top : List PeerId) (p2 : Option PeerId)

@[simp] theorem wanted_chokeOtherTurn : (chokeOtherTurn env top p2 s p).wanted q = s.wanted q := by
  unfold chokeOtherTurn
  split_ifs
  · rfl
  · exact wanted_choke env s p q
  · rfl

@[simp] theorem chokes_chokeOtherTurn :
    (chokeOtherTurn env top p2 s p).chokes q = (s.chokes q || decide (q = p ∧ ¬ Spared top p2 q)) := by
  show (if Spared top p2 p then s else if !s.chokes p then networkPeerWriteChoke env s p else s).chokes q = _
  by_cases h : q = p
  · subst h
    by_cases hs : Spared top p2 q
    · simp [hs]
    · cases hc : s.chokes q
      all_goals simp [hc,hs]
  · split_ifs
    all_goals simp [h]

@[simp] theorem wanted_unchokePass (l : List PeerId) : (l.foldl (unchokeTurn env) s).wanted q = s.wanted q := by
  induction l generalizing s with
  | nil => rfl
  | cons p l ih => rw [List.foldl_cons,ih,wanted_unchokeTurn]

@[simp] theorem chokes_unchokePass (l : List PeerId) :
    (l.foldl (unchokeTurn env) s).chokes q = (s.chokes q && !(decide (q ∈ l) && s.wanted q)) := by
  induction l generalizing s with
  | nil => simp
  | cons p l ih =>
    rw [List.foldl_cons,ih,chokes_unchokeTurn,wanted_unchokeTurn]
    by_cases h : q = p
    · cases s.wanted q <;> simp [h]
    · simp [h]

@[simp] theorem wanted_chokePass (l : List PeerId) : (l.foldl (chokeOtherTurn env top p2) s).wanted q = s.wanted q := by
  induction l generalizing s with
  | nil => rfl
  | cons p l ih => rw [List.foldl_cons,ih,wanted_chokeOtherTurn]

@[simp] theorem chokes_chokePass (l : List PeerId) : (l.foldl (chokeOtherTurn env top p2) s).chokes q =
    (s.chokes q || decide (q ∈ l ∧ ¬ Spared top p2 q)) := by
  induction l generalizing s with
  | nil => simp
  | cons p l ih =>
    rw [List.foldl_cons,ih,chokes_chokeOtherTurn]
    by_cases hs : Spared top p2 q
    · simp [hs]
    · by_cases h : q = p
      · simp [hs,← h]
      · simp [hs,h]

end Bits

section Bound
variable (env : Env) (s : Session) (pc : List PeerCounter)

theorem peers_unchokeFastest : (unchokeFastest env s pc).peers = s.peers := by
  have hchart : (unchokeFastest env s pc).chart = s.chart := by
    apply chart_foldl
    intro t p
    unfold unchokeTurn
    split_ifs
    · rfl
    · rfl
    · exact chart_networkPeerWriteUnchoke env t p
  exact congrArg Roster.peers hchart

variable (p2 : Option PeerId)

theorem peers_unchokePicked : (unchokePicked env s p2).peers = s.peers := by
  cases p2 <;> rfl

theorem peers_chokePasses : (chokePasses env s pc p2).peers = s.peers := by
  have hlast (l : List PeerId) (t : Session) : (l.foldl (chokeOtherTurn env (fastestPeers s pc) p2) t).chart =
      t.chart := by
    apply chart_foldl
    intro t p
    unfold chokeOtherTurn
    split_ifs
    · rfl
    · exact chart_networkPeerWriteChoke env t p
    · rfl
  exact (congrArg Roster.peers (hlast _ _)).trans ((peers_unchokePicked env _ p2).trans (peers_unchokeFastest env s pc))

/-- Who is choked in the end. -/
theorem chokes_chokePasses {q : PeerId} (hq : q ∈ s.peers) : (chokePasses env s pc p2).chokes q =
    (decide (¬ Spared (fastestPeers s pc) p2 q) ||
      s.chokes q && !(decide (q ∈ fastestPeers s pc) && s.wanted q) && decide (p2 ≠ some q)) := by
  have hpicked : (unchokePicked env (unchokeFastest env s pc) p2).chokes q =
      (s.chokes q && !(decide (q ∈ fastestPeers s pc) && s.wanted q) && decide (p2 ≠ some q)) := by
    cases p2 with
    | none => simp [unchokePicked,unchokeFastest]
    | some p => simp [unchokePicked,unchokeFastest,eq_comm]
  have hmem : q ∈ (unchokePicked env (unchokeFastest env s pc) p2).peers := by
    rw [peers_unchokePicked,peers_unchokeFastest]
    exact hq
  rw [chokePasses,chokes_chokePass,hpicked,Bool.or_comm]
  simp [hmem]

def Session.unchoked (s : Session) : Finset PeerId := s.peers.toFinset.filter (fun p => s.chokes p = false)

theorem unchoked_chokePasses : (chokePasses env s pc p2).unchoked ⊆ (fastestPeers s pc).toFinset ∪ p2.toFinset := by
  intro q hq
  obtain ⟨hmem,hchokes⟩ := Finset.mem_filter.mp hq
  rw [List.mem_toFinset,peers_chokePasses] at hmem
  rw [chokes_chokePasses env s pc p2 hmem,Bool.or_eq_false_iff,decide_eq_false_iff_not,not_not] at hchokes
  rcases hchokes.1 with htop | ⟨-,hpicked⟩
  · exact Finset.mem_union_left _ (List.mem_toFinset.mpr htop)
  · exact Finset.mem_union_right _ (by simp [hpicked])

/-- The peers the random draw is meant for, in list order. -/
def Session.interestedPeers (s : Session) : List PeerId := s.peers.filter (fun p => s.wanted p)

def headWanted (s : Session) : List PeerCounter → Bool
  | [] => false
  | c :: _ => s.wanted c.peer

def draw : ℕ := env.rand s.out.length % s.interestedPeers.length

theorem optimisticPick_nobody (h : s.interestedPeers = []) : optimisticPick env s pc = .ok none := by
  unfold optimisticPick
  exact if_pos (congrArg List.length h)

/-- The pick does not look at whether the peers it passes are interested, only at the head of the ranking. -/
theorem optimisticPick_somebody (h : s.interestedPeers ≠ []) : optimisticPick env s pc =
    .ok (if headWanted s pc then s.peers.head? else s.peers[draw env s]?) := by
  have hpos := List.length_pos_iff.mpr h
  have hlt : draw env s < s.peers.length :=
    (Nat.mod_lt _ hpos).trans_le (List.length_filter_le (fun p => s.wanted p) s.peers)
  have hpick : optimisticPick env s pc = if headWanted s pc then .ok s.peers.head?
      else if s.peers.length < draw env s then .error (.errx "NULL peer")
      else match s.peers[draw env s]? with
        | some p => .ok (some p)
        | none => .error .wild := by
    unfold optimisticPick
    cases pc with
    | nil => exact if_neg (Nat.ne_of_gt hpos)
    | cons c pc => exact if_neg (Nat.ne_of_gt hpos)
  rw [hpick,if_neg (Nat.not_lt.mpr hlt.le),List.getElem?_eq_getElem hlt]
  split <;> rfl

/-- The pick never fails, and between two full half minutes nobody is picked. -/
theorem pickPeer_total : ∃ p2, pickPeer env s pc = .ok p2 ∧ (env.now % 30 ≠ 0 → p2 = none) := by
  unfold pickPeer
  split
  · rename_i h30
    by_cases h : (unchokeFastest env s pc).interestedPeers = []
    · exact ⟨none,optimisticPick_nobody env _ pc h,fun h => absurd h30 h⟩
    · exact ⟨_,optimisticPick_somebody env _ pc h,fun h => absurd h30 h⟩
  · exact ⟨none,rfl,fun _ => rfl⟩

end Bound

/-- With any ranking the choke algorithm comes to its end, and then this client chokes every peer but the first
three of the ranking and the one picked: three peers, or four in every thirtieth second. Of the first three it chokes
none that is interested. -/
theorem choke_slots_bounded (env : Env) (s : Session) (pc : List PeerCounter) :
    ∃ s' p2, chokeRanked env s pc = .ok s' ∧ pickPeer env s pc = .ok p2 ∧ (env.now % 30 ≠ 0 → p2 = none) ∧
      (∀ p ∈ s'.peers, (s'.peer p).state.amchoking = false → p ∈ fastestPeers s pc ∨ p2 = some p) ∧
      (∀ p ∈ s.peers, p ∈ fastestPeers s pc → (s.peer p).state.interested = true →
        (s'.peer p).state.amchoking = false) ∧
      s'.unchoked.card ≤ if env.now % 30 = 0 then 4 else 3 := by
  obtain ⟨p2,hp2,hnone⟩ := pickPeer_total env s pc
  have hsub := unchoked_chokePasses env s pc p2
  refine ⟨chokePasses env s pc p2,p2,by rw [chokeRanked,hp2]; rfl,hp2,hnone,?_,?_,?_⟩
  · intro p hp hchokes
    have hmem := hsub (Finset.mem_filter.mpr ⟨List.mem_toFinset.mpr hp,hchokes⟩)
    rcases Finset.mem_union.mp hmem with htop | hpicked
    · exact .inl (List.mem_toFinset.mp htop)
    · exact .inr (by simpa using hpicked)
  · intro p hp htop hwanted
    have hchokes := chokes_chokePasses env s pc p2 hp
    have hspared : Spared (fastestPeers s pc) p2 p := .inl htop
    have hwanted' : s.wanted p = true := hwanted
    show (chokePasses env s pc p2).chokes p = false
    simpa [hspared,htop,hwanted'] using hchokes
  · have hcard := (Finset.card_le_card hsub).trans (Finset.card_union_le _ _)
    have htop : (fastestPeers s pc).toFinset.card ≤ 3 := by
      have hlen : (fastestPeers s pc).length ≤ 3 := by
        rw [fastestPeers,List.length_map,List.length_take]
        omega
      exact (fastestPeers s pc).toFinset_card_le.trans hlen
    split
    · have hone : p2.toFinset.card ≤ 1 := by
        cases p2 <;> simp
      omega
    · rename_i h30
      have hzero : p2.toFinset.card = 0 := by rw [hnone h30,Option.toFinset_none,Finset.card_empty]
      omega

section Filter
variable {α : Type} {w : α → Bool} {l : List α} {x : α} {i j : ℕ}

/-- What a filter keeps moves to the front. -/
theorem le_of_getElem?_filter (hl : l.Nodup) (hi : l[i]? = some x) (hj : (l.filter w)[j]? = some x) : j ≤ i := by
  induction l generalizing i j with
  | nil => cases hi
  | cons a l ih =>
    obtain ⟨hnew,hl⟩ := List.nodup_cons.mp hl
    cases hw : w a with
    | false =>
      rw [List.filter_cons_of_neg (by simp [hw])] at hj
      cases i with
      | zero =>
        cases hi
        exact absurd (List.mem_filter.mp (List.mem_of_getElem? hj)).1 hnew
      | succ i =>
        rw [List.getElem?_cons_succ] at hi
        exact Nat.le_succ_of_le (ih hl hi hj)
    | true =>
      rw [List.filter_cons_of_pos hw] at hj
      cases j with
      | zero => exact Nat.zero_le i
      | succ j =>
        rw [List.getElem?_cons_succ] at hj
        cases i with
        | zero =>
          cases hi
          exact absurd (List.mem_filter.mp (List.mem_of_getElem? hj)).1 hnew
        | succ i =>
          rw [List.getElem?_cons_succ] at hi
          exact Nat.succ_le_succ (ih hl hi hj)

/-- The entry at a position is the one the filter has there, if the filter keeps everything up to it. -/
theorem getElem?_filter_iff (hl : l.Nodup) (hj : j < (l.filter w).length) :
    l[j]? = (l.filter w)[j]? ↔ ∀ x ∈ l.take (j + 1), w x = true := by
  induction l generalizing j with
  | nil => cases hj
  | cons a l ih =>
    obtain ⟨hnew,hl'⟩ := List.nodup_cons.mp hl
    cases hw : w a with
    | false =>
      refine iff_of_false ?_ (fun h => by simp [hw] at h)
      intro heq
      rw [List.filter_cons_of_neg (by simp [hw])] at hj heq
      rw [List.getElem?_eq_getElem hj] at heq
      cases j with
      | zero =>
        have hmem := List.getElem_mem hj
        rw [← Option.some.inj heq] at hmem
        exact hnew (List.mem_filter.mp hmem).1
      | succ j =>
        rw [List.getElem?_cons_succ] at heq
        have hle := le_of_getElem?_filter hl' heq (List.getElem?_eq_getElem hj)
        omega
    | true =>
      rw [List.filter_cons_of_pos hw] at hj ⊢
      cases j with
      | zero => simp [hw]
      | succ j =>
        rw [List.getElem?_cons_succ,List.getElem?_cons_succ,ih hl' (Nat.lt_of_succ_lt_succ hj)]
        simp [hw]

theorem head?_filter_iff (hl : l.Nodup) (hj : j < (l.filter w).length) :
    l.head? = (l.filter w)[j]? ↔ j = 0 ∧ ∃ x, l.head? = some x ∧ w x = true := by
  rw [List.head?_eq_getElem?]
  constructor
  · intro heq
    rw [List.getElem?_eq_getElem hj] at heq
    have hzero := Nat.le_zero.mp (le_of_getElem?_filter hl heq (List.getElem?_eq_getElem hj))
    exact ⟨hzero,_,heq,(List.mem_filter.mp (List.getElem_mem hj)).2⟩
  · rintro ⟨rfl,x,hx,hw⟩
    cases l with
    | nil => cases hx
    | cons a l =>
      cases hx
      rw [List.filter_cons_of_pos hw]
      rfl

end Filter

section Optimistic
variable (env : Env) (s : Session) (pc : List PeerCounter)

/-- The message that the choke algorithm writes next after its first pass. -/
def optimisticMessage : Except Halt (Option (PeerId × Bytes)) :=
  (chokeRanked env s pc).map (fun s' => s'.out[(unchokeFastest env s pc).out.length]?)

def drawn : ℕ := env.rand (unchokeFastest env s pc).out.length % s.interestedPeers.length

/-- The optimistic UNCHOKE goes to the interested peer drawn. -/
def OptimisticRight : Prop :=
  ∃ q, s.interestedPeers[drawn env s pc]? = some q ∧
    optimisticMessage env s pc = .ok (some (q,message msgUnchokeId []))

/-- The peer drawn is the first of the list, or at least all up to its place in the list are interested, when the
first of the ranking is not. -/
def PickStands : Prop :=
  if headWanted s pc then drawn env s pc = 0 ∧ ∃ p, s.peers.head? = some p ∧ s.wanted p = true
  else ∀ p ∈ s.peers.take (drawn env s pc + 1), s.wanted p = true

theorem interestedPeers_unchokeFastest : (unchokeFastest env s pc).interestedPeers = s.interestedPeers := by
  unfold Session.interestedPeers
  rw [peers_unchokeFastest]
  congr 1
  funext p
  exact wanted_unchokePass env s p _

theorem out_chokeOthers (top : List PeerId) (p2 : Option PeerId) (l : List PeerId) :
    ∃ more, (l.foldl (chokeOtherTurn env top p2) s).out = s.out ++ more := by
  induction l generalizing s with
  | nil => exact ⟨[],(List.append_nil _).symm⟩
  | cons p l ih =>
    obtain ⟨more,hmore⟩ := ih (chokeOtherTurn env top p2 s p)
    rw [List.foldl_cons,hmore]
    unfold chokeOtherTurn
    split_ifs
    · exact ⟨more,rfl⟩
    · exact ⟨(p,message msgChokeId []) :: more,by simp [networkPeerWriteChoke,networkPeerWrite]⟩
    · exact ⟨more,rfl⟩

/-- Where the optimistic UNCHOKE goes. -/
theorem optimisticMessage_eq (h30 : env.now % 30 = 0) (hsome : s.interestedPeers ≠ []) : ∃ q,
    (if headWanted s pc then s.peers.head? else s.peers[drawn env s pc]?) = some q ∧
    optimisticMessage env s pc = .ok (some (q,message msgUnchokeId [])) := by
  have hpeers := peers_unchokeFastest env s pc
  have hsame := interestedPeers_unchokeFastest env s pc
  have hhead : headWanted (unchokeFastest env s pc) pc = headWanted s pc := by
    cases pc with
    | nil => rfl
    | cons c pc => exact wanted_unchokePass env s c.peer _
  have hpick := optimisticPick_somebody env (unchokeFastest env s pc) pc (by rwa [hsame])
  rw [hhead,draw,hsame,hpeers] at hpick
  have hlt : drawn env s pc < s.peers.length :=
    (Nat.mod_lt _ (List.length_pos_iff.mpr hsome)).trans_le (List.length_filter_le (fun p => s.wanted p) s.peers)
  obtain ⟨q,hq⟩ : ∃ q, (if headWanted s pc then s.peers.head? else s.peers[drawn env s pc]?) = some q := by
    split
    · rw [List.head?_eq_getElem?,List.getElem?_eq_getElem (by omega)]
      exact ⟨_,rfl⟩
    · rw [List.getElem?_eq_getElem hlt]
      exact ⟨_,rfl⟩
  refine ⟨q,hq,?_⟩
  rw [← drawn,hq] at hpick
  obtain ⟨more,hmore⟩ := out_chokeOthers env (unchokePicked env (unchokeFastest env s pc) (some q)) (fastestPeers s pc)
    (some q) (unchokePicked env (unchokeFastest env s pc) (some q)).peers
  have hout : (chokePasses env s pc (some q)).out =
      (unchokeFastest env s pc).out ++ (q,message msgUnchokeId []) :: more := by
    refine hmore.trans ?_
    simp [unchokePicked,networkPeerWriteUnchoke,networkPeerWrite]
  rw [optimisticMessage,chokeRanked,pickPeer,if_pos h30,hpick,ok_bind]
  show Except.ok ((chokePasses env s pc (some q)).out[(unchokeFastest env s pc).out.length]?) = _
  rw [hout,List.getElem?_append_right (le_refl _),Nat.sub_self]
  rfl

end Optimistic

/-- The optimistic UNCHOKE goes to the interested peer drawn, if and only if that is the first peer of the list, or,
with a ranking whose first peer is not interested, all peers up to its place in the list are interested. -/
theorem optimistic_right_iff (env : Env) (s : Session) (pc : List PeerCounter) (hpeers : s.peers.Nodup)
    (h30 : env.now % 30 = 0) (hsome : s.interestedPeers ≠ []) : OptimisticRight env s pc ↔ PickStands env s pc := by
  have hlt : drawn env s pc < s.interestedPeers.length := Nat.mod_lt _ (List.length_pos_iff.mpr hsome)
  obtain ⟨q,hq,hmessage⟩ := optimisticMessage_eq env s pc h30 hsome
  have hright : OptimisticRight env s pc ↔
      (if headWanted s pc then s.peers.head? else s.peers[drawn env s pc]?) = s.interestedPeers[drawn env s pc]? := by
    rw [hq,OptimisticRight]
    constructor
    · rintro ⟨q',hq',hmessage'⟩
      cases hmessage.symm.trans hmessage'
      exact hq'.symm
    · intro h
      exact ⟨q,h.symm,hmessage⟩
  rw [hright,PickStands]
  split
  · exact head?_filter_iff hpeers hlt
  · exact getElem?_filter_iff hpeers hlt

section Test

/-- Two peers connect, and one of them is interested. -/
def interestedRun (p : PeerId) : List (Env × Event) :=
  [(.plain 1000,.accept 1),(.plain 1000,.accept 2)] ++ inputs 1000 p handshakePortions ++
    inputs 1000 p (messagePortions [msgInterestedId])

def rankedAt (now : ℕ) (s : Session) : List PeerCounter := (schedulerPeerSpeedrank (.plain now) s).toOption.getD []

/-- The first peer of the list is not interested, and it is unchoked all the same. -/
theorem optimistic_wrong : ∃ s, Reachable sha1ZeroByte (.oneByte (List.replicate 20 0) 1) s ∧
    schedulerPeerSpeedrank (.plain 1020) s = .ok (rankedAt 1020 s) ∧ s.interestedPeers = [1] ∧
    ¬ OptimisticRight (.plain 1020) s (rankedAt 1020 s) := by
  have hrun : ((Boot.oneByte (List.replicate 20 0) 1).run sha1ZeroByte (interestedRun 1)).toOption.map (fun s =>
      decide ((schedulerPeerSpeedrank (.plain 1020) s).toOption = some (rankedAt 1020 s)) &&
      decide (s.interestedPeers = [1]) &&
      decide ((optimisticMessage (.plain 1020) s (rankedAt 1020 s)).toOption =
        some (some (0,message msgUnchokeId [])))) =
      some true := by decide +kernel
  obtain ⟨s,hs,hP⟩ := exists_reachable hrun
  simp only [Bool.and_eq_true,decide_eq_true_eq] at hP
  obtain ⟨⟨hrank,hone⟩,hmessage⟩ := hP
  refine ⟨s,hs,ok_of_toOption hrank,hone,?_⟩
  rintro ⟨q,hq,hright⟩
  cases (ok_of_toOption hmessage).symm.trans hright
  rw [hone] at hq
  cases List.mem_singleton.mp (List.mem_of_getElem? hq)

theorem optimistic_right_one : ∃ s, Reachable sha1ZeroByte (.oneByte (List.replicate 20 0) 1) s ∧
    schedulerPeerSpeedrank (.plain 1020) s = .ok (rankedAt 1020 s) ∧ s.interestedPeers = [0] ∧
    OptimisticRight (.plain 1020) s (rankedAt 1020 s) := by
  have hrun : ((Boot.oneByte (List.replicate 20 0) 1).run sha1ZeroByte (interestedRun 0)).toOption.map (fun s =>
      decide ((schedulerPeerSpeedrank (.plain 1020) s).toOption = some (rankedAt 1020 s)) &&
      decide (s.interestedPeers = [0]) && decide (s.peers = [0,1]) && headWanted s (rankedAt 1020 s) &&
      decide (drawn (.plain 1020) s (rankedAt 1020 s) = 0) && s.wanted 0) = some true := by decide +kernel
  obtain ⟨s,hs,hP⟩ := exists_reachable hrun
  simp only [Bool.and_eq_true,decide_eq_true_eq] at hP
  obtain ⟨⟨⟨⟨⟨hrank,hone⟩,hpeers⟩,hhead⟩,hdrawn⟩,hwanted⟩ := hP
  have hstands : PickStands (.plain 1020) s (rankedAt 1020 s) := by
    rw [PickStands,if_pos hhead]
    exact ⟨hdrawn,0,by rw [hpeers]; rfl,hwanted⟩
  exact ⟨s,hs,ok_of_toOption hrank,hone,
    (optimistic_right_iff _ s _ (by rw [hpeers]; decide) (by decide) (by rw [hone]; decide)).mpr hstands⟩

end Test

end Unworkable
