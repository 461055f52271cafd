import Unworkable.Session.Representation

/-! # The loops over the blocks of a piece

`for (off = 0; off < len; off += BLOCK_SIZE)` in 32 bits, five times. What a lookup of the
body returns can be anything, and depend on the blocks before it.
-/
namespace Unworkable
open Library

abbrev Block := ℕ × ℕ

/-- What the lookups of a loop return, by the blocks that came before and the offset. -/
abbrev Lookups := List Block → ℕ → Option PieceDl

section Loops
variable (find : Lookups) (len : ℕ)

/-- A body that keeps the blocks it has come to, and leaves with a result if the lookup tells it to. -/
def blockBody {γ : Type} (leaves : Option PieceDl → Option γ) (seen : List Block) (off : ℕ) :
    List Block ⊕ (List Block × Option γ) :=
  match leaves (find seen off) with
  | none => .inl (seen ++ [(off,blockLen len off)])
  | some r => .inr (seen ++ [(off,blockLen len off)],some r)

def blockTurn {γ : Type} (leaves : Option PieceDl → Option γ) :
    List Block × ℕ → (List Block × ℕ) ⊕ (List Block × Option γ) :=
  loopTurn 4294967296 blockSize len (blockBody find len leaves) fun seen => (seen,none)

/-- "only checksum if we think we have every block of this piece": the PIECE handler leaves with `found` zero. -/
def everyTurn : List Block × ℕ → (List Block × ℕ) ⊕ (List Block × Option Bool) :=
  blockTurn find len fun
    | none => some false
    | some pd => if pd.len ≠ pd.bytes then some false else none

def cleanupLoopTurn : List Block × ℕ → (List Block × ℕ) ⊕ (List Block × Option Empty) :=
  blockTurn find len fun _ => none

/-- `scheduler_piece_assigned` returns zero from its loop. -/
def assignedTurn : List Block × ℕ → (List Block × ℕ) ⊕ (List Block × Option Bool) :=
  blockTurn find len fun
    | none => some false
    | some pd => if pd.bytes ≠ pd.len ∧ pd.pc = none then some false else none

/-- What makes `scheduler_piece_gimme` leave its loop. -/
def gimmeLeaves : Option PieceDl → Option (Option PieceDl)
  | none => some none
  | some pd => if pd.pc = none ∧ pd.bytes ≠ pd.len then some (some pd) else none

/-- `scheduler_piece_gimme` leaves its loop to create a request, or to recycle one. -/
def gimmeTurn : List Block × ℕ → (List Block × ℕ) ⊕ (List Block × Option (Option PieceDl)) :=
  blockTurn find len gimmeLeaves

/-- `scheduler_endgame_algorithm` goes on, whether the block is in the peer's list or not. -/
def endgameTurn : List Block × ℕ → (List Block × ℕ) ⊕ (List Block × Option Empty) := blockTurn find len fun _ => none

end Loops

/-- Blocks that are not empty, do not overlap and cover a piece. -/
structure Partition (blocks : List Block) (len : ℕ) : Prop where
  nonempty : ∀ b ∈ blocks, 0 < b.2
  disjoint : blocks.Pairwise fun a b => a.1 + a.2 ≤ b.1
  covers : ∀ x, x < len ↔ ∃ b ∈ blocks, b.1 ≤ x ∧ x < b.1 + b.2

/-- A loop ends, having come to some of the blocks from the first on, and to all of them if nothing made it leave. -/
def Enumerates {γ : Type} (turn : List Block × ℕ → (List Block × ℕ) ⊕ (List Block × Option γ))
    (blocks : List Block) : Prop :=
  ∃ seen r, Ends turn ([],0) (seen,r) ∧ seen <+: blocks ∧ (r = none → seen = blocks)

/-- The loops end whatever the lookups return, and all of them come to the same blocks, which make up the piece. -/
def BlocksMakeUp (len : ℕ) : Prop :=
  ∃ blocks, Partition blocks len ∧ (∀ b ∈ blocks, b.2 = min blockSize (len - b.1)) ∧ ∀ find : Lookups,
    Enumerates (everyTurn find len) blocks ∧ Enumerates (cleanupLoopTurn find len) blocks ∧
    Enumerates (assignedTurn find len) blocks ∧ Enumerates (gimmeTurn find len) blocks ∧
    Enumerates (endgameTurn find len) blocks

def blocksOf (len : ℕ) : List Block := (blockOffs len).map fun off => (off,blockLen len off)

section Blocks
variable {find : Lookups} {len : ℕ} {γ : Type} {leaves : Option PieceDl → Option γ}

theorem mem_blocksOf {b : Block} (hlen : len < 4294967296) :
    b ∈ blocksOf len ↔ blockSize ∣ b.1 ∧ b.1 < len ∧ b.2 = min blockSize (len - b.1) := by
  unfold blocksOf
  rw [List.mem_map]
  constructor
  · rintro ⟨off,hoff,rfl⟩
    obtain ⟨hdvd,hlt⟩ := mem_blockOffs.mp hoff
    exact ⟨hdvd,hlt,blockLen_eq hlen hlt⟩
  · rintro ⟨hdvd,hlt,hb⟩
    refine ⟨b.1,mem_blockOffs.mpr ⟨hdvd,hlt⟩,?_⟩
    rw [blockLen_eq hlen hlt,← hb]

theorem blocksOf_partition (hlen : len < 4294967296) : Partition (blocksOf len) len where
  nonempty b hb := by
    obtain ⟨-,hlt,hb⟩ := (mem_blocksOf hlen).mp hb
    rw [hb,blockSize]
    omega
  disjoint := by
    unfold blocksOf
    have hpairs : (blockOffs len).Pairwise fun a b => a + blockSize ≤ b := by
      apply List.pairwise_map.mpr
      apply List.pairwise_lt_range.imp
      intro i j hij
      rw [blockSize]
      omega
    apply List.pairwise_map.mpr
    apply hpairs.imp
    intro i j hij
    have hle : blockLen len i ≤ blockSize := by
      unfold blockLen
      split <;> omega
    exact (Nat.add_le_add_left hle i).trans hij
  covers x := by
    constructor
    · intro hx
      refine ⟨(x / blockSize * blockSize,min blockSize (len - x / blockSize * blockSize)),?_,?_⟩
      · apply (mem_blocksOf hlen).mpr
        exact ⟨Dvd.intro_left _ rfl,(Nat.div_mul_le_self _ _).trans_lt hx,rfl⟩
      · simp only [blockSize]
        omega
    · rintro ⟨b,hb,hle,hlt⟩
      obtain ⟨-,hb,hlen⟩ := (mem_blocksOf hlen).mp hb
      omega

theorem passes_blocks (offs : List ℕ) (seen : List Block) :
    passes (blockBody find len leaves) offs seen = .inl (seen ++ offs.map fun off => (off,blockLen len off)) ∨
      ∃ out r, passes (blockBody find len leaves) offs seen = .inr (out,some r) ∧
        out <+: seen ++ offs.map fun off => (off,blockLen len off) := by
  induction offs generalizing seen with
  | nil => exact .inl (congrArg Sum.inl (List.append_nil seen).symm)
  | cons off offs ih =>
    have happend := List.append_cons seen (off,blockLen len off) (offs.map fun off => (off,blockLen len off))
    rw [List.map_cons,happend,passes]
    cases hleaves : leaves (find seen off) with
    | none =>
      have hbody : blockBody find len leaves seen off = .inl (seen ++ [(off,blockLen len off)]) := by
        rw [blockBody,hleaves]
      rw [hbody]
      exact ih _
    | some r =>
      have hbody : blockBody find len leaves seen off = .inr (seen ++ [(off,blockLen len off)],some r) := by
        rw [blockBody,hleaves]
      rw [hbody]
      exact .inr ⟨_,r,rfl,List.prefix_append _ _⟩

/-- A loop whose offset does not wrap. -/
theorem enumerates_blocksOf (hlen : len ≤ 4294950912) : Enumerates (blockTurn find len leaves) (blocksOf len) := by
  have hbound : len + blockSize ≤ 4294967296 := Nat.add_le_of_le_sub (by decide) hlen
  rcases @passes_blocks find len γ leaves (blockOffs len) [] with hall | ⟨out,r,hout,hway⟩
  · rw [blockOffs_eq] at hall
    exact ⟨_,none,loopTurn_gets_through (by decide) hbound hall,List.prefix_refl _,fun _ => rfl⟩
  · rw [blockOffs_eq] at hout
    refine ⟨out,some r,loopTurn_leaves (by decide) (by omega) hout,hway,?_⟩
    intro h
    cases h

/-- One whose offset wraps goes on until it leaves. -/
theorem never_ends (hlen : 4294950912 < len) (hleaves : ∀ seen off, leaves (find seen off) = none)
    (x : List Block × Option γ) :
    ¬ Ends (blockTurn find len leaves) ([],0) x := by
  refine loopTurn_hangs (I := fun _ => True) (by decide) (by decide) ?_ ?_ trivial x
  · rw [blockSize]
    omega
  · intro seen off _ _ _
    rw [blockBody,hleaves]
    exact ⟨_,rfl,trivial⟩

theorem passes_stays (hleaves : ∀ seen off, leaves (find seen off) = none) (offs : List ℕ) (seen : List Block) :
    passes (blockBody find len leaves) offs seen = .inl (seen ++ offs.map fun off => (off,blockLen len off)) := by
  induction offs generalizing seen with
  | nil => exact congrArg Sum.inl (List.append_nil seen).symm
  | cons off offs ih =>
    have hbody : blockBody find len leaves seen off = .inl (seen ++ [(off,blockLen len off)]) := by
      rw [blockBody,hleaves]
    rw [List.map_cons,List.append_cons,passes,hbody]
    exact ih _

/-- A loop that nothing makes leave ends when it has come to all blocks, as long as its offset does not wrap. -/
theorem ends_iff_of_stays (hleaves : ∀ seen off, leaves (find seen off) = none) {seen : List Block} {r : Option γ} :
    Ends (blockTurn find len leaves) ([],0) (seen,r) ↔ blockLoopWraps len = false ∧ seen = blocksOf len ∧ r = none := by
  cases hwraps : blockLoopWraps len with
  | true =>
    refine ⟨fun hends => absurd hends (never_ends (of_decide_eq_true hwraps) hleaves _),?_⟩
    rintro ⟨h,-⟩
    cases h
  | false =>
    have hle : len ≤ 4294950912 := Nat.not_lt.mp (of_decide_eq_false hwraps)
    have hall : passes (blockBody find len leaves) (blockOffs len) [] = .inl (blocksOf len) := passes_stays hleaves _ _
    rw [blockOffs_eq] at hall
    have hends : Ends (blockTurn find len leaves) ([],0) (blocksOf len,none) :=
      loopTurn_gets_through (by decide) (Nat.add_le_of_le_sub (by decide) hle) hall
    constructor
    · intro h
      cases h.unique hends
      exact ⟨rfl,rfl,rfl⟩
    · rintro ⟨-,rfl,rfl⟩
      exact hends

end Blocks

section Static
variable {look : ℕ → Option PieceDl} {len : ℕ} {γ : Type} {leaves : Option PieceDl → Option γ} {r : Option γ}

/-- With lookups that depend on nothing but the offset, the first block that makes the loop leave decides. -/
theorem passes_static (offs : List ℕ) (seen : List Block) :
    match offs.findSome? (leaves ∘ look) with
    | some r => ∃ out, passes (blockBody (fun _ => look) len leaves) offs seen = .inr (out,some r)
    | none => ∃ out, passes (blockBody (fun _ => look) len leaves) offs seen = .inl out := by
  induction offs generalizing seen with
  | nil => exact ⟨seen,rfl⟩
  | cons off offs ih =>
    rw [List.findSome?_cons,passes,Function.comp_apply]
    cases hleaves : leaves (look off) with
    | none =>
      have hbody : blockBody (fun _ => look) len leaves seen off = .inl (seen ++ [(off,blockLen len off)]) := by
        rw [blockBody,hleaves]
      rw [hbody]
      exact ih _
    | some r =>
      have hbody : blockBody (fun _ => look) len leaves seen off = .inr (seen ++ [(off,blockLen len off)],some r) := by
        rw [blockBody,hleaves]
      rw [hbody]
      exact ⟨_,rfl⟩

theorem static_ends (hlen : len < 4294967296) :
    (∃ seen, Ends (blockTurn (fun _ => look) len leaves) ([],0) (seen,r)) ↔
      match (blockOffs len).findSome? (leaves ∘ look) with
      | some x => r = some x
      | none => r = none ∧ blockLoopWraps len = false := by
  have hpasses := @passes_static look len γ leaves (blockOffs len) []
  cases hfound : (blockOffs len).findSome? (leaves ∘ look) with
  | some x =>
    rw [hfound] at hpasses
    obtain ⟨out,hout⟩ := hpasses
    rw [blockOffs_eq] at hout
    have hends : Ends (blockTurn (fun _ => look) len leaves) ([],0) (out,some x) :=
      loopTurn_leaves (by decide) hlen.le hout
    constructor
    · rintro ⟨seen,hseen⟩
      exact congrArg Prod.snd (hseen.unique hends)
    · rintro rfl
      exact ⟨out,hends⟩
  | none =>
    rw [hfound] at hpasses
    obtain ⟨out,hout⟩ := hpasses
    have hnone := List.findSome?_eq_none_iff.mp hfound
    by_cases hwraps : blockLoopWraps len = true
    · rw [hwraps]
      refine ⟨?_,fun h => absurd h.2 (by decide)⟩
      rintro ⟨seen,hseen⟩
      refine absurd hseen (loopTurn_hangs (I := fun _ => True) (by decide) (by decide) ?_ ?_ trivial _)
      · have hlt := of_decide_eq_true hwraps
        rw [blockSize]
        omega
      · intro seen off _ hdvd hoff
        have hlt : off < len := by
          have hbound := of_decide_eq_true hwraps
          obtain ⟨k,rfl⟩ := hdvd
          rw [blockSize] at hoff ⊢
          omega
        have hleaves : leaves (look off) = none := hnone off (mem_blockOffs.mpr ⟨hdvd,hlt⟩)
        rw [blockBody,hleaves]
        exact ⟨_,rfl,trivial⟩
    · rw [Bool.not_eq_true] at hwraps
      rw [blockOffs_eq] at hout
      have hbound := of_decide_eq_false hwraps
      have hends : Ends (blockTurn (fun _ => look) len leaves) ([],0) (out,none) := by
        apply loopTurn_gets_through (by decide) _ hout
        rw [blockSize]
        omega
      constructor
      · rintro ⟨seen,hseen⟩
        exact ⟨congrArg Prod.snd (hseen.unique hends),hwraps⟩
      · rintro ⟨rfl,-⟩
        exact ⟨out,hends⟩

end Static

section Session
variable {st st' : DlStore} {p : PeerId} {idx plen : ℕ} {tpp : TorrentPiece} {b : Bool}

theorem findSome?_all {α β : Type} (xs : List α) (f : α → Option β) (taken : α → Bool) (r : β)
    (hf : ∀ x, f x = if taken x then none else some r) : xs.findSome? f = if xs.all taken then none else some r := by
  induction xs with
  | nil => rfl
  | cons x xs ih =>
    rw [List.findSome?_cons,hf,List.all_cons,ih]
    cases taken x <;> rfl

/-- A loop that leaves with `false`, or finds all blocks as it wants them. -/
theorem all_loop {look : ℕ → Option PieceDl} {leaves : Option PieceDl → Option Bool} {taken : ℕ → Bool}
    (hlen : plen < 4294967296)
    (htaken : ∀ off, leaves (look off) = if taken off then none else some false) :
    ((if (blockOffs plen).all taken then (if blockLoopWraps plen then .error .hang else .ok true) else .ok false :
        Except Halt Bool) = .ok b) ↔
      ∃ seen r, Ends (blockTurn (fun _ => look) plen leaves) ([],0) (seen,r) ∧ b = r.getD true := by
  have hfound := findSome?_all (blockOffs plen) (leaves ∘ look) taken false htaken
  have hends : ∀ r, (∃ seen, Ends (blockTurn (fun _ => look) plen leaves) ([],0) (seen,r)) ↔ _ :=
    fun r => static_ends hlen
  rw [hfound] at hends
  have hrhs : (∃ seen r, Ends (blockTurn (fun _ => look) plen leaves) ([],0) (seen,r) ∧ b = r.getD true) ↔
      ∃ r, (∃ seen, Ends (blockTurn (fun _ => look) plen leaves) ([],0) (seen,r)) ∧ b = r.getD true := by
    constructor
    · rintro ⟨seen,r,hends,hb⟩
      exact ⟨r,⟨seen,hends⟩,hb⟩
    · rintro ⟨r,⟨seen,hends⟩,hb⟩
      exact ⟨seen,r,hends,hb⟩
  rw [hrhs]
  simp only [hends]
  split
  · cases blockLoopWraps plen
    · simp [eq_comm]
    · simp
  · simp [eq_comm]

/-- The check of the PIECE handler is its loop. -/
theorem everyBlock_loop (hlen : plen < 4294967296) : everyBlock st p idx plen = .ok b ↔
    ∃ seen r, Ends (everyTurn (fun _ off => (networkPieceDlFind st (some p) idx off).map st.get) plen) ([],0) (seen,r) ∧
      b = r.getD true := by
  apply all_loop hlen
  intro off
  cases networkPieceDlFind st (some p) idx off with
  | none => rfl
  | some d =>
    simp only [Option.map_some,PieceDl.outstanding]
    by_cases hlen : (st.get d).bytes = (st.get d).len
    · simp [hlen]
    · simp [hlen,Ne.symm hlen]

/-- `scheduler_piece_assigned` is its loop. -/
theorem schedulerPieceAssigned_loop (hlen : tpp.len < 4294967296) : schedulerPieceAssigned st tpp = .ok b ↔
    ∃ seen r, Ends (assignedTurn (fun _ off => (networkPieceDlFind st none tpp.index off).map st.get) tpp.len)
    ([],0) (seen,r) ∧
      b = r.getD true := by
  apply all_loop hlen
  intro off
  cases networkPieceDlFind st none tpp.index off with
  | none => rfl
  | some d =>
    simp only [Option.map_some,PieceDl.outstanding]
    by_cases hlen : (st.get d).bytes = (st.get d).len
    · simp [hlen]
    · by_cases hpc : (st.get d).pc = none
      · simp [hlen,hpc]
      · simp [hlen,hpc]

/-- The cleanup of the requests of a piece is its loop, whatever is found. -/
theorem cleanupDls_loop (find : Lookups) : cleanupDls st idx plen = .ok st' ↔
    ∃ seen r, Ends (cleanupLoopTurn find plen) ([],0) (seen,r) ∧ st' = seen.foldl
    (fun st b => cleanupTurn idx st b.1) st := by
  have hstays : ∀ seen r, Ends (cleanupLoopTurn find plen) ([],0) (seen,r) ↔ _ := fun _ _ =>
    ends_iff_of_stays fun _ _ => rfl
  simp only [hstays]
  unfold cleanupDls
  cases blockLoopWraps plen with
  | true => simp
  | false => simp [blocksOf,List.foldl_map,eq_comm]

/-- For a peer that is asked, so is the endgame. -/
theorem endgamePeer_loop {env : Env} {s s' : Session} {bf : Bytes} (find : Lookups)
    (hbf : (s.peer p).bitfield = some bf)
    (hbit : utilGetbit bf idx = .ok false) (hchoked : (s.peer p).state.choked = false) :
    endgamePeer env idx plen s p = .ok s' ↔
      ∃ seen r, Ends (endgameTurn find plen) ([],0) (seen,r) ∧ s' = seen.foldl
      (fun s b => endgameBlock env p idx plen s b.1) s := by
  have hstays : ∀ seen r, Ends (endgameTurn find plen) ([],0) (seen,r) ↔ _ := fun _ _ =>
    ends_iff_of_stays fun _ _ => rfl
  simp only [hstays]
  unfold endgamePeer
  simp only [hbf,hbit,ok_bind,hchoked]
  cases blockLoopWraps plen with
  | true => simp
  | false => simp [blocksOf,List.foldl_map,eq_comm]

theorem gimmeBlock_leaves (offs : List ℕ) : (∃ x, gimmeBlock st p idx plen offs = .ok x) ↔
    ∃ r, offs.findSome? (gimmeLeaves ∘ fun off => (networkPieceDlFind st none idx off).map st.get) = some r := by
  induction offs with
  | nil =>
    unfold gimmeBlock
    cases blockLoopWraps plen <;> simp
  | cons off offs ih =>
    rw [List.findSome?_cons,Function.comp_apply]
    unfold gimmeBlock
    cases networkPieceDlFind st none idx off with
    | none => simp [gimmeLeaves]
    | some d =>
      rw [Option.map_some,gimmeLeaves]
      by_cases horphan : (st.get d).pc = none ∧ (st.get d).bytes ≠ (st.get d).len
      · simp [horphan.1,horphan.2,PieceDl.outstanding]
      · have hkept : ¬ ((st.get d).pc.isNone = true ∧ (st.get d).outstanding = true) := by
          rintro ⟨hpc,hout⟩
          exact horphan ⟨Option.isNone_iff_eq_none.mp hpc,of_decide_eq_true hout⟩
        rw [if_neg horphan]
        simp only [if_neg hkept]
        exact ih

/-- `scheduler_piece_gimme` gets a block where its loop leaves. -/
theorem gimmeBlock_loop (hlen : plen < 4294967296) : (∃ x, gimmeBlock st p idx plen (blockOffs plen) = .ok x) ↔
    ∃ seen r, Ends (gimmeTurn (fun _ off => (networkPieceDlFind st none idx off).map st.get) plen)
    ([],0) (seen,some r) := by
  rw [gimmeBlock_leaves,exists_comm]
  apply exists_congr
  intro r
  have hends := @static_ends (fun off => (networkPieceDlFind st none idx off).map st.get) plen _
    gimmeLeaves (some r) hlen
  refine Iff.trans ?_ hends.symm
  cases (blockOffs plen).findSome? (gimmeLeaves ∘ fun off => (networkPieceDlFind st none idx off).map st.get) with
  | none => simp
  | some x => simp [eq_comm]

end Session

/-- The loops over the blocks of a piece do what they are for, exactly up to a length of 2^32 - 16384. -/
theorem blocks_make_up_iff (len : ℕ) : BlocksMakeUp len ↔ len ≤ 4294950912 := by
  constructor
  · rintro ⟨blocks,-,-,hall⟩
    by_contra hlen
    obtain ⟨-,⟨seen,r,hends,-⟩,-⟩ := hall fun _ _ => none
    exact never_ends (Nat.lt_of_not_le hlen) (fun _ _ => rfl) _ hends
  · intro hlen
    have hword : len < 4294967296 := hlen.trans_lt (by decide)
    refine ⟨blocksOf len,blocksOf_partition hword,fun b hb => ((mem_blocksOf hword).mp hb).2.2,?_⟩
    intro find
    exact ⟨enumerates_blocksOf hlen,enumerates_blocksOf hlen,enumerates_blocksOf hlen,enumerates_blocksOf hlen,
      enumerates_blocksOf hlen⟩

/-- On a piece of 2^32 - 1 bytes the endgame loop does not end. -/
theorem endgame_hangs : ¬ BlocksMakeUp 4294967295 ∧ ∀ (find : Lookups) (x : List Block × Option Empty),
    ¬ Ends (endgameTurn find 4294967295) ([],0) x := by
  have hloop : ∀ (find : Lookups) (x : List Block × Option Empty), ¬ Ends (endgameTurn find 4294967295) ([],0) x :=
    fun find x => never_ends (by decide) (fun _ _ => rfl) x
  refine ⟨?_,hloop⟩
  rintro ⟨blocks,-,-,hall⟩
  obtain ⟨-,-,-,-,seen,r,hends,-⟩ := hall fun _ _ => none
  exact hloop _ _ hends

end Unworkable
