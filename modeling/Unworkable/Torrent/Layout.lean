import Unworkable.Torrent.Startup

/-! # Pieces over many files

"Consider the file data as one long continuous stream": the walk of `torrent_piece_map` looks
for the files in which a piece lies. It carries its offset from file to file, and there are two
turns in which it goes on to the next file without setting the offset back to zero: one at a
file that ends just where the piece begins, one at an empty file behind a file that it has just
mapped to the end.
-/
namespace Unworkable
open Library

/-- The places of all bytes of files of the given lengths, the first file being number `k`. -/
def streamFrom : (k : ℕ) → List ℕ → List (ℕ × ℕ)
  | _,[] => []
  | k,n :: rest => (List.range n).map (fun x => (k,x)) ++ streamFrom (k + 1) rest

/-- The walk over files of the given lengths, from `off` bytes into the first of them and with `got`
bytes mapped and `need` missing, takes neither of the turns in which the offset is left over.
`spilled` says that the file before the first was mapped to its end as the larger part. -/
def cleanWalk : List ℕ → (spilled : Bool) → (off got need : ℕ) → Bool
  | [],_,_,_,_ => true
  | n :: rest,true,_,got,need => decide (n ≠ 0) && (decide (need ≤ n) || cleanWalk rest false 0 (got + n) (need - n))
  | n :: rest,false,off,got,need =>
    if n < off then cleanWalk rest false (off - n) got need
    else if n < need ∧ got < need then
      decide (off = n → n = 0) && cleanWalk rest false 0 (got + (n - off)) (need - (n - off))
    else if n < off + need then
      if n = off then cleanWalk rest false 0 got need else cleanWalk rest true 0 (got + (n - off)) (need - (n - off))
    else true

def Delivers (x : Except Halt MapWalk) (plen : ℕ) (places : List (ℕ × ℕ)) : Prop :=
  ∃ w, x = .ok w ∧ w.plen = plen ∧ w.mmaps.flatMap Mmap.places = places

section Stream
variable {k n off len : ℕ} {rest : List ℕ}

theorem length_streamFrom (k : ℕ) (l : List ℕ) : (streamFrom k l).length = l.sum := by
  induction l generalizing k with
  | nil => rfl
  | cons n l ih => simp [streamFrom,ih]

theorem places_of_file (k n : ℕ) : (List.range n).map (fun x => (k,x)) = Mmap.places ⟨k,0,n⟩ := by
  simp [Mmap.places]

theorem length_places (m : Mmap) : m.places.length = m.len := by simp [Mmap.places]

theorem drop_places (k a n off : ℕ) : (Mmap.places ⟨k,a,n⟩).drop off = Mmap.places ⟨k,a + off,n - off⟩ := by
  refine List.ext_getElem ?_ ?_
  · simp [Mmap.places]
  · intro i h₁ h₂
    simp [Mmap.places,Nat.add_assoc]

theorem take_places (k a n len : ℕ) : (Mmap.places ⟨k,a,n⟩).take len = Mmap.places ⟨k,a,min len n⟩ := by
  refine List.ext_getElem ?_ ?_
  · simp [Mmap.places]
  · intro i h₁ h₂
    simp [Mmap.places]

/-- Behind the first file. -/
theorem drop_streamFrom_past (h : n ≤ off) : (streamFrom k (n :: rest)).drop off = (streamFrom (k + 1) rest).drop
    (off - n) := by
  rw [streamFrom,List.drop_append]
  simp [h]

/-- The stream from within the first file. -/
theorem drop_streamFrom (h : off ≤ n) : (streamFrom k (n :: rest)).drop off =
    Mmap.places ⟨k,off,n - off⟩ ++ streamFrom (k + 1) rest := by
  rw [streamFrom,places_of_file,List.drop_append_of_le_length (by rw [length_places]; exact h),drop_places,Nat.zero_add]

/-- The first file is used up. -/
theorem take_streamFrom_past (h : off ≤ n) (hlen : n - off ≤ len) : ((streamFrom k (n :: rest)).drop off).take len =
    Mmap.places ⟨k,off,n - off⟩ ++ (streamFrom (k + 1) rest).take (len - (n - off)) := by
  rw [drop_streamFrom h,List.take_append,length_places,List.take_of_length_le (by rw [length_places]; exact hlen)]

/-- What is wanted lies in the first file. -/
theorem take_streamFrom (h : off ≤ n) (hlen : len ≤ n - off) : ((streamFrom k (n :: rest)).drop off).take len =
    Mmap.places ⟨k,off,len⟩ := by
  rw [drop_streamFrom h,List.take_append_of_le_length (by rw [length_places]; exact hlen),take_places,
    Nat.min_eq_left hlen]

theorem take_streamFrom_past_zero (hlen : n ≤ len) : (streamFrom k (n :: rest)).take len =
    Mmap.places ⟨k,0,n⟩ ++ (streamFrom (k + 1) rest).take (len - n) := take_streamFrom_past (Nat.zero_le n) hlen

theorem take_streamFrom_zero (hlen : len ≤ n) : (streamFrom k (n :: rest)).take len = Mmap.places ⟨k,0,len⟩ :=
  take_streamFrom (Nat.zero_le n) hlen

theorem getElem?_streamFrom {a : ℕ} {l : List ℕ} (h : a < l.sum) : (streamFrom k l)[a]? = some (locateIn l k a) := by
  induction l generalizing k a with
  | nil => simp at h
  | cons n l ih =>
    rw [List.sum_cons] at h
    rw [streamFrom,locateIn]
    by_cases ha : a < n
    · rw [if_pos ha,List.getElem?_append_left (by simpa using ha)]
      simp [ha]
    · rw [if_neg ha,List.getElem?_append_right (by simpa using ha)]
      simp only [List.length_map,List.length_range]
      exact ih (by omega)

end Stream

section Steps
variable {k n off len plen : ℕ} {f : FileInfo} {rest : List (ℕ × FileInfo)} {tp : Torrent} {mm : List Mmap}
  {w : MapWalk}

/-- Where files can be written a range that is not empty is mapped. -/
theorem Torrent.Writable.create (hw : tp.Writable) {o : ℤ} {k a : ℕ} {skip : Bool} {n : ℤ}
    (hn : wrapInt32 n = a) (ha : 0 < a) :
    MapWalk.create ⟨tp,o,len,plen,mm,skip⟩ k off n =
      .ok ⟨(mmapCreated tp k off a).1,o,len,add32 plen a,mm ++ [⟨k,off,a⟩],skip⟩ := by
  subst hn
  exact MapWalk.create_ok.mpr ⟨hw.mmapError (by omega),rfl⟩

theorem mapFiles_past (hf : f.fileLength = n) (h : n < off) : mapFiles ((k,f) :: rest) ⟨tp,off,len,plen,mm,false⟩ =
    mapFiles rest ⟨tp,(off - n : ℕ),len,plen,mm,false⟩ := by
  simp only [mapFiles,hf,Bool.false_eq_true,if_false]
  rw [if_pos (by omega),Nat.cast_sub h.le]

/-- "file is too small for one piece and this piece is not yet full" -/
theorem mapFiles_small (hw : tp.Writable) (hf : f.fileLength = n) (h : off < n) (hsmall : n < len ∧ plen < len)
    (hfit : plen + len < 4294967296) :
    ∃ tp', tp'.Writable ∧ mapFiles ((k,f) :: rest) ⟨tp,off,len,plen,mm,false⟩ =
      mapFiles rest ⟨tp',(0 : ℕ),len - (n - off),plen + (n - off),mm ++ [⟨k,off,n - off⟩],false⟩ := by
  have hdiff : (n : ℤ) - off = (n - off : ℕ) := (Nat.cast_sub h.le).symm
  have hwrap : wrapInt32 ((n - off : ℕ) : ℤ) = n - off := by
    unfold wrapInt32
    omega
  refine ⟨(mmapCreated tp k off (n - off)).1,hw.created,?_⟩
  simp only [mapFiles,hf,Bool.false_eq_true,if_false]
  rw [if_neg (by omega),if_pos (by omega),if_neg (by omega)]
  simp only [hdiff,hw.create hwrap (by omega),ok_bind,hwrap,sub32_of_le (show len < 4294967296 by omega)
    (show n - off ≤ len by omega),add32_of_lt (show plen + (n - off) < 4294967296 by omega),Nat.cast_zero]

/-- Such a file that ends where the piece begins is passed over with the offset as it is. -/
theorem mapFiles_left (hf : f.fileLength = n) (hsmall : n < len ∧ plen < len) :
    mapFiles ((k,f) :: rest) ⟨tp,n,len,plen,mm,false⟩ = mapFiles rest ⟨tp,n,len,plen,mm,false⟩ := by
  simp only [mapFiles,hf,Bool.false_eq_true,if_false]
  rw [if_neg (by omega),if_pos (by omega),if_pos (by omega)]

/-- "piece lies within this file" -/
theorem mapFiles_within (hw : tp.Writable) (hf : f.fileLength = n) (hlen : 0 < len) (h : off + len ≤ n)
    (hfit : plen + len < 4294967296) :
    ∃ tp', mapFiles ((k,f) :: rest) ⟨tp,off,len,plen,mm,false⟩ =
      .ok ⟨tp',off,len,plen + len,mm ++ [⟨k,off,len⟩],false⟩ := by
  have hwrap : wrapInt32 (len : ℤ) = len := by
    unfold wrapInt32
    omega
  refine ⟨(mmapCreated tp k off len).1,?_⟩
  simp only [mapFiles,hf,Bool.false_eq_true,if_false]
  rw [if_neg (by omega),if_neg (by omega),if_neg (by omega),if_pos (by omega),if_neg (by omega)]
  simp only [hw.create hwrap hlen,add32_of_lt hfit]

/-- A larger part that begins at the end of the file. -/
theorem mapFiles_end (hf : f.fileLength = n) (hlarge : ¬ (n < len ∧ plen < len)) (hlen : 0 < len) :
    mapFiles ((k,f) :: rest) ⟨tp,n,len,plen,mm,false⟩ = mapFiles rest ⟨tp,(0 : ℕ),len,plen,mm,false⟩ := by
  simp only [mapFiles,hf,Bool.false_eq_true,if_false]
  rw [if_neg (by omega),if_neg (by omega),if_pos (by omega),if_pos trivial]
  rfl

/-- A larger part that goes on in the next file. -/
theorem mapFiles_spill (hw : tp.Writable) (hf : f.fileLength = n) (hlarge : ¬ (n < len ∧ plen < len))
    (h : off < n) (hspill : n < off + len)
    (hfit : plen + len < 4294967296) {g : FileInfo} {m : ℕ} (hg : g.fileLength = m) {rest' : List (ℕ × FileInfo)} :
    ∃ tp', tp'.Writable ∧ mapFiles ((k,f) :: (k + 1,g) :: rest') ⟨tp,off,len,plen,mm,false⟩ =
      if m = 0 then mapFiles ((k + 1,g) :: rest') ⟨tp',(off + 1 : ℕ),len - (n - off),plen + (n - off),
        mm ++ [⟨k,off,n - off⟩],false⟩
      else if m < len - (n - off) then mapFiles rest'
        ⟨tp',(0 : ℕ),len - (n - off) - m,plen + (n - off) + m,mm ++ [⟨k,off,n - off⟩,⟨k + 1,0,m⟩],false⟩
      else .ok ⟨tp',(off + 1 : ℕ),len - (n - off),plen + len,mm ++ [⟨k,off,n - off⟩,⟨k + 1,0,len - (n - off)⟩],
        false⟩ := by
  have hdiff : (n : ℤ) - off = (n - off : ℕ) := (Nat.cast_sub h.le).symm
  have hwrap : ∀ x : ℕ, x < 4294967296 → wrapInt32 (x : ℤ) = x := by
    intro x hx
    unfold wrapInt32
    omega
  have hsub : sub32 len (n - off) = len - (n - off) := sub32_of_le (by omega) (by omega)
  have hadd : add32 plen (n - off) = plen + (n - off) := add32_of_lt (by omega)
  have hfirst : MapWalk.create ⟨tp,off,len,plen,mm,false⟩ k off (n - off : ℕ) = .ok _ :=
    hw.create (hwrap (n - off) (by omega)) (by omega)
  rw [mapFiles]
  simp only [hf,hg,Bool.false_eq_true,if_false,List.head?_cons]
  rw [if_neg (by omega),if_neg (by omega),if_pos (by omega),if_neg (by omega)]
  simp only [hdiff,hfirst,ok_bind,hwrap (n - off) (by omega),hsub,hadd]
  by_cases hm : m < len - (n - off)
  · rw [if_pos (by omega)]
    by_cases hzero : m = 0
    · refine ⟨(mmapCreated tp k off (n - off)).1,hw.created,?_⟩
      rw [if_pos (by omega),if_pos hzero]
      simp only [Nat.cast_add,Nat.cast_one]
    · refine ⟨(mmapCreated (mmapCreated tp k off (n - off)).1 (k + 1) 0 m).1,hw.created.created,?_⟩
      have hnext : MapWalk.create ⟨(mmapCreated tp k off (n - off)).1,off + 1,len - (n - off),plen + (n - off),
          mm ++ [⟨k,off,n - off⟩],false⟩ (k + 1) (0 : ℕ) m = .ok _ := hw.created.create (hwrap m (by omega)) (by omega)
      rw [if_neg (by omega),if_neg hzero,if_pos hm]
      rw [Nat.cast_zero] at hnext
      simp only [hnext,ok_bind]
      rw [mapFiles]
      simp only [if_true,hwrap m (by omega),List.append_assoc,List.singleton_append,
        sub32_of_le (show len - (n - off) < 4294967296 by omega) hm.le,
        add32_of_lt (show plen + (n - off) + m < 4294967296 by omega),Nat.cast_zero]
  · refine ⟨(mmapCreated (mmapCreated tp k off (n - off)).1 (k + 1) 0 (len - (n - off))).1,hw.created.created,?_⟩
    have hnext : MapWalk.create ⟨(mmapCreated tp k off (n - off)).1,off + 1,len - (n - off),plen + (n - off),
        mm ++ [⟨k,off,n - off⟩],false⟩ (k + 1) (0 : ℕ) (len - (n - off) : ℕ) = .ok _ :=
      hw.created.create (hwrap (len - (n - off)) (by omega)) (by omega)
    rw [if_neg (by omega),if_neg (by omega),if_neg (by omega),if_neg hm]
    rw [Nat.cast_zero] at hnext
    simp only [hnext,List.append_assoc,List.singleton_append,
      add32_of_lt (show plen + (n - off) + (len - (n - off)) < 4294967296 by omega),Nat.cast_add,Nat.cast_one]
    rw [show plen + (n - off) + (len - (n - off)) = plen + len by omega]

/-- Nothing comes after the last file. -/
theorem mapFiles_spill_nil (hf : f.fileLength = n) (hlarge : ¬ (n < len ∧ plen < len)) (h : off < n)
    (hspill : n < off + len) :
    mapFiles [(k,f)] ⟨tp,off,len,plen,mm,false⟩ ≠ .ok w := by
  simp only [mapFiles,hf,Bool.false_eq_true,if_false,List.head?_nil]
  rw [if_neg (by omega),if_neg (by omega),if_pos (by omega),if_neg (by omega)]
  intro h
  obtain ⟨u,-,h⟩ := bind_ok.mp h
  cases h

end Steps

section Late
variable {k n off len plen : ℕ} {tp : Torrent} {mm : List Mmap} {fs : List FileInfo} {w : MapWalk}

/-- The lengths of files, none of which is negative. -/
def fileLengths (fs : List FileInfo) : List ℕ := fs.map (fun f => f.fileLength.toNat)

theorem numberFrom_ge {x : ℕ × FileInfo} (h : x ∈ numberFrom k fs) : k ≤ x.1 := by
  induction fs generalizing k with
  | nil => cases h
  | cons f fs ih =>
    rcases List.mem_cons.mp h with rfl | h
    · exact le_refl k
    · exact Nat.le_of_succ_le (ih h)

/-- A walk adds mappings of the files on its list. -/
theorem mapFiles_adds {v : MapWalk} (h : mapFiles (numberFrom k fs) v = .ok w) :
    ∃ ms, w.mmaps = v.mmaps ++ ms ∧ ∀ m ∈ ms, k ≤ m.file := by
  refine mapFiles_keeps_of (P := fun u => ∃ ms, u.mmaps = v.mmaps ++ ms ∧ ∀ m ∈ ms, k ≤ m.file) ?_
    (fun _ _ _ _ hu => hu) ⟨[],(List.append_nil _).symm,nofun⟩ h
  rintro u x hx off n ⟨ms,hms,hk⟩
  refine ⟨ms ++ [⟨x.1,off.toNat,wrapInt32 n⟩],?_,?_⟩
  · rw [← List.append_assoc,← hms]
    rfl
  · intro m hm
    rcases List.mem_append.mp hm with hm | hm
    · exact hk m hm
    · rw [List.mem_singleton.mp hm]
      exact numberFrom_ge hx

def StartsLate (k : ℕ) (l : List ℕ) (ms : List Mmap) : Prop :=
  ∀ q, (ms.flatMap Mmap.places).head? = some q → (streamFrom k l).head? ≠ some q

theorem head_streamFrom (k : ℕ) (l : List ℕ) (hn : 0 < n) : (streamFrom k (n :: l)).head? = some (k,0) := by
  obtain ⟨m,rfl⟩ := Nat.exists_eq_succ_of_ne_zero (Nat.pos_iff_ne_zero.mp hn)
  simp [streamFrom,List.range_succ_eq_map]

theorem startsLate_of_ge {ms : List Mmap} (l : List ℕ) (hn : 0 < n) (h : ∀ m ∈ ms, k + 1 ≤ m.file) :
    StartsLate k (n :: l) ms := by
  intro q hq
  rw [head_streamFrom k l hn]
  rintro ⟨⟩
  obtain ⟨m,hm,hq⟩ := List.mem_flatMap.mp (List.mem_of_mem_head? hq)
  obtain ⟨x,-,heq⟩ := mem_places_mmap.mp hq
  have hfile := congrArg Prod.fst heq
  have := h m hm
  simp only at hfile
  omega

theorem startsLate_of_first {ms : List Mmap} (l : List ℕ) (hn : 0 < n) (hoff : 0 < off) (hlen : 0 < len) :
    StartsLate k (n :: l) (⟨k,off,len⟩ :: ms) := by
  intro q hq
  rw [head_streamFrom k l hn]
  obtain ⟨m,rfl⟩ := Nat.exists_eq_succ_of_ne_zero (Nat.pos_iff_ne_zero.mp hlen)
  rintro ⟨⟩
  simp [Mmap.places,List.range_succ_eq_map] at hq
  omega

/-- With the offset left over the walk misses the beginning of the stream. -/
theorem mapFiles_late (hw : tp.Writable) (hnn : ∀ f ∈ fs, 0 ≤ f.fileLength) (hoff : 0 < off)
    (hlen : 0 < len) (hfit : plen + len < 4294967296)
    (h : mapFiles (numberFrom k fs) ⟨tp,off,len,plen,mm,false⟩ = .ok w) :
    ∃ ms, w.mmaps = mm ++ ms ∧ (∀ m ∈ ms, k ≤ m.file) ∧ StartsLate k (fileLengths fs) ms := by
  induction fs generalizing k off with
  | nil =>
    cases h
    exact ⟨[],(List.append_nil _).symm,nofun,nofun⟩
  | cons f fs ih =>
    have hrest : ∀ f ∈ fs, 0 ≤ f.fileLength := fun g hg => hnn g (List.mem_cons_of_mem f hg)
    have hf : f.fileLength = (f.fileLength.toNat : ℤ) := (Int.toNat_of_nonneg (hnn f List.mem_cons_self)).symm
    show ∃ ms, w.mmaps = mm ++ ms ∧ (∀ m ∈ ms, k ≤ m.file) ∧ StartsLate k (f.fileLength.toNat :: fileLengths fs) ms
    generalize f.fileLength.toNat = n at hf
    -- what is mapped from the rest of the files comes behind a file that is not empty
    have hbehind : ∀ v : MapWalk, 0 < n → v.mmaps = mm → mapFiles (numberFrom (k + 1) fs) v = .ok w →
        ∃ ms, w.mmaps = mm ++ ms ∧ (∀ m ∈ ms, k ≤ m.file) ∧ StartsLate k (n :: fileLengths fs) ms := by
      intro v hn hv hw
      obtain ⟨ms,hms,hge⟩ := mapFiles_adds hw
      exact ⟨ms,by rw [hms,hv],fun m hm => Nat.le_of_succ_le (hge m hm),startsLate_of_ge _ hn hge⟩
    -- what follows a mapping in the middle of the file
    have hfirst : ∀ (a : ℕ) (ms : List Mmap), off < n → 0 < a → w.mmaps = mm ++ ⟨k,off,a⟩ :: ms →
      (∀ m ∈ ms, k ≤ m.file) →
        ∃ ms, w.mmaps = mm ++ ms ∧ (∀ m ∈ ms, k ≤ m.file) ∧ StartsLate k (n :: fileLengths fs) ms := by
      intro a ms hlt ha hms hge
      refine ⟨_,hms,?_,startsLate_of_first _ (by omega) hoff ha⟩
      intro m hm
      rcases List.mem_cons.mp hm with rfl | hm
      · exact le_refl k
      · exact hge m hm
    by_cases hpast : n < off
    · rw [numberFrom,mapFiles_past hf hpast] at h
      by_cases hn : 0 < n
      · exact hbehind _ hn rfl h
      · obtain ⟨ms,hms,hge,hlate⟩ := ih hrest (by omega) h
        refine ⟨ms,hms,fun m hm => Nat.le_of_succ_le (hge m hm),?_⟩
        rwa [Nat.eq_zero_of_not_pos hn]
    by_cases hend : off = n
    · subst hend
      by_cases hsmall : off < len ∧ plen < len
      · rw [numberFrom,mapFiles_left hf hsmall] at h
        exact hbehind _ hoff rfl h
      · rw [numberFrom,mapFiles_end hf hsmall hlen] at h
        exact hbehind _ hoff rfl h
    have hlt : off < n := by omega
    by_cases hsmall : n < len ∧ plen < len
    · obtain ⟨tp',-,hstep⟩ := mapFiles_small (k := k) hw hf hlt hsmall hfit
      rw [numberFrom,hstep] at h
      obtain ⟨ms,hms,hge⟩ := mapFiles_adds h
      exact hfirst (n - off) ms hlt (by omega) (by rw [hms,List.append_assoc,List.singleton_append])
        (fun m hm => Nat.le_of_succ_le (hge m hm))
    by_cases hspill : n < off + len
    · cases fs with
      | nil =>
        exact absurd h (mapFiles_spill_nil hf hsmall hlt hspill)
      | cons g fs =>
        have hg : g.fileLength = (g.fileLength.toNat : ℤ) := (Int.toNat_of_nonneg (hrest g List.mem_cons_self)).symm
        obtain ⟨tp',-,hstep⟩ := mapFiles_spill (k := k) hw hf hsmall hlt hspill hfit hg
        rw [numberFrom,numberFrom,hstep] at h
        split_ifs at h
        · obtain ⟨ms,hms,hge⟩ := @mapFiles_adds _ (g :: fs) _ _ h
          exact hfirst (n - off) ms hlt (by omega) (by rw [hms,List.append_assoc,List.singleton_append])
            (fun m hm => Nat.le_of_succ_le (hge m hm))
        · obtain ⟨ms,hms,hge⟩ := mapFiles_adds h
          refine hfirst (n - off) (⟨k + 1,0,g.fileLength.toNat⟩ :: ms) hlt (by omega) (by simp [hms]) ?_
          intro m hm
          rcases List.mem_cons.mp hm with rfl | hm
          · exact Nat.le_succ k
          · have := hge m hm
            omega
        · cases h
          refine hfirst (n - off) [⟨k + 1,0,len - (n - off)⟩] hlt (by omega) rfl ?_
          intro m hm
          rw [List.mem_singleton.mp hm]
          exact Nat.le_succ k
    · obtain ⟨tp',hstep⟩ := mapFiles_within (k := k) hw hf hlen (show off + len ≤ n by omega) hfit
      rw [numberFrom,hstep] at h
      cases h
      exact hfirst len [] hlt hlen rfl nofun

theorem not_delivers_late {p : ℕ} (hw : tp.Writable) (hnn : ∀ f ∈ fs, 0 ≤ f.fileLength) (hoff : 0 < off)
    (hlen : 0 < len)
    (hfit : plen + len < 4294967296) (hbytes : len ≤ (fileLengths fs).sum) :
    ¬ Delivers (mapFiles (numberFrom k fs) ⟨tp,off,len,plen,mm,false⟩) p
      (mm.flatMap Mmap.places ++ (streamFrom k (fileLengths fs)).take len) := by
  rintro ⟨w,hwalk,-,hplaces⟩
  obtain ⟨ms,hms,-,hlate⟩ := mapFiles_late hw hnn hoff hlen hfit hwalk
  rw [hms,List.flatMap_append] at hplaces
  have hsame := List.append_cancel_left hplaces
  cases hstream : streamFrom k (fileLengths fs) with
  | nil =>
    have hsum := length_streamFrom k (fileLengths fs)
    rw [hstream,List.length_nil] at hsum
    omega
  | cons q rest =>
    obtain ⟨n,rfl⟩ := Nat.exists_eq_succ_of_ne_zero (Nat.pos_iff_ne_zero.mp hlen)
    refine hlate q ?_ ?_
    · rw [hsame,hstream]
      rfl
    · rw [hstream]
      rfl

end Late

section Exact
variable {k n off len plen : ℕ} {tp : Torrent} {mm : List Mmap} {fs : List FileInfo}

/-- The walk maps the wanted part of the stream, and adds up its length, exactly when it is clean. -/
theorem delivers_iff (hw : tp.Writable) (hnn : ∀ f ∈ fs, 0 ≤ f.fileLength) (hlen : 0 < len)
    (hfit : plen + len < 4294967296)
    (hbytes : off + len ≤ (fileLengths fs).sum) :
    Delivers (mapFiles (numberFrom k fs) ⟨tp,off,len,plen,mm,false⟩) (plen + len)
      (mm.flatMap Mmap.places ++ ((streamFrom k (fileLengths fs)).drop off).take len) ↔
        cleanWalk (fileLengths fs) false off plen len = true := by
  induction hsize : fs.length using Nat.strong_induction_on generalizing fs k tp off len plen mm with
  | _ size ih =>
  cases fs with
  | nil =>
    simp only [fileLengths,List.map_nil,List.sum_nil] at hbytes
    omega
  | cons f fs =>
    subst hsize
    have hrest : ∀ f ∈ fs, 0 ≤ f.fileLength := fun g hg => hnn g (List.mem_cons_of_mem f hg)
    have hf : f.fileLength = (f.fileLength.toNat : ℤ) := (Int.toNat_of_nonneg (hnn f List.mem_cons_self)).symm
    have hlens : fileLengths (f :: fs) = f.fileLength.toNat :: fileLengths fs := rfl
    rw [hlens,List.sum_cons] at hbytes
    rw [hlens]
    generalize f.fileLength.toNat = n at hf hbytes
    have hshort : fs.length < (f :: fs).length := Nat.lt_succ_self _
    by_cases hpast : n < off
    · rw [numberFrom,mapFiles_past hf hpast,drop_streamFrom_past hpast.le,cleanWalk,if_pos hpast]
      exact ih _ hshort hw hrest hlen hfit (by omega) rfl
    by_cases hend : off = n
    · subst hend
      have hdrop : (streamFrom k (off :: fileLengths fs)).drop off = (streamFrom (k + 1) (fileLengths fs)).drop 0 := by
        rw [drop_streamFrom_past (le_refl off),Nat.sub_self]
      rw [hdrop,cleanWalk,if_neg (lt_irrefl off)]
      by_cases hsmall : off < len ∧ plen < len
      · rw [if_pos hsmall,numberFrom,mapFiles_left hf hsmall,Nat.sub_self,Nat.add_zero,Nat.sub_zero]
        by_cases hzero : off = 0
        · subst hzero
          simp only [forall_const,decide_true,Bool.true_and]
          exact ih _ hshort hw hrest hlen hfit (by omega) rfl
        · simp only [forall_const,hzero,decide_false,Bool.false_and,Bool.false_eq_true,iff_false]
          exact not_delivers_late hw hrest (Nat.pos_of_ne_zero hzero) hlen hfit (by omega)
      · rw [if_neg hsmall,if_pos (by omega),if_pos rfl,numberFrom,mapFiles_end hf hsmall hlen]
        exact ih _ hshort hw hrest hlen hfit (by omega) rfl
    have hlt : off < n := by omega
    rw [cleanWalk,if_neg hpast]
    by_cases hsmall : n < len ∧ plen < len
    · obtain ⟨tp',hw',hmap⟩ := mapFiles_small (k := k) hw hf hlt hsmall hfit
      rw [if_pos hsmall,numberFrom,hmap,take_streamFrom_past hlt.le (by omega)]
      have hnext : Delivers (mapFiles (numberFrom (k + 1) fs)
          ⟨tp',(0 : ℕ),(len - (n - off) : ℕ),plen + (n - off),mm ++ [⟨k,off,n - off⟩],false⟩) _ _ ↔ _ :=
        ih _ hshort hw' hrest (by omega) (by omega) (by omega) rfl
      rw [show plen + (n - off) + (len - (n - off)) = plen + len by omega,List.flatMap_append,List.flatMap_singleton,
        List.append_assoc,List.drop_zero] at hnext
      simp only [hend,false_imp_iff,decide_true,Bool.true_and]
      exact hnext
    rw [if_neg hsmall]
    by_cases hspill : n < off + len
    · rw [if_pos hspill,if_neg (Ne.symm hend),take_streamFrom_past hlt.le (by omega)]
      cases fs with
      | nil =>
        simp only [fileLengths,List.map_nil,List.sum_nil] at hbytes
        omega
      | cons g fs =>
        have hg : g.fileLength = (g.fileLength.toNat : ℤ) := (Int.toNat_of_nonneg (hrest g List.mem_cons_self)).symm
        have hlens' : fileLengths (g :: fs) = g.fileLength.toNat :: fileLengths fs := rfl
        obtain ⟨tp',hw',hmap⟩ := mapFiles_spill (k := k) hw hf hsmall hlt hspill hfit hg
        rw [numberFrom,numberFrom,hmap]
        have hlate : ¬ Delivers (mapFiles (numberFrom (k + 1) (g :: fs)) ⟨tp',(off + 1 : ℕ),(len - (n - off) : ℕ),
            plen + (n - off),mm ++ [⟨k,off,n - off⟩],false⟩) (plen + len) _ :=
          not_delivers_late hw' hrest (Nat.succ_pos off) (by omega) (by omega) (by omega)
        rw [List.flatMap_append,List.flatMap_singleton,List.append_assoc,numberFrom] at hlate
        rw [hlens',List.sum_cons] at hbytes
        rw [hlens'] at hlate ⊢
        generalize g.fileLength.toNat = m at hg hmap hlate hbytes
        rw [cleanWalk]
        by_cases hzero : m = 0
        · rw [if_pos hzero]
          simp only [hzero,ne_eq,not_true,decide_false,Bool.false_and,Bool.false_eq_true,iff_false]
          rw [hzero] at hlate
          exact hlate
        rw [if_neg hzero]
        by_cases hm : m < len - (n - off)
        · rw [if_pos hm,take_streamFrom_past_zero (by omega)]
          have hnext : Delivers (mapFiles (numberFrom (k + 1 + 1) fs) ⟨tp',(0 : ℕ),(len - (n - off) - m : ℕ),
              plen + (n - off) + m,mm ++ [⟨k,off,n - off⟩,⟨k + 1,0,m⟩],false⟩) _ _ ↔ _ :=
            ih fs.length (by simp) hw' (fun x hx => hrest x (List.mem_cons_of_mem g hx)) (by omega)
              (by omega) (by omega) rfl
          rw [show plen + (n - off) + m + (len - (n - off) - m) =
            plen + len by omega,List.flatMap_append,List.drop_zero] at hnext
          simp only [ne_eq,hzero,not_false_eq_true,decide_true,Bool.true_and,Nat.not_le.mpr hm,
            decide_false,Bool.false_or]
          simpa using hnext
        · rw [if_neg hm,take_streamFrom_zero (by omega)]
          simp only [ne_eq,hzero,not_false_eq_true,decide_true,Bool.true_and,Nat.not_lt.mp hm,Bool.true_or,iff_true]
          exact ⟨_,rfl,rfl,by simp⟩
    · obtain ⟨tp',hmap⟩ := mapFiles_within (k := k) hw hf hlen (show off + len ≤ n by omega) hfit
      rw [if_neg hspill,numberFrom,hmap,take_streamFrom hlt.le (by omega)]
      simp only [iff_true]
      exact ⟨_,rfl,rfl,by simp⟩

theorem sum_fileLengths (hnn : ∀ f ∈ fs, 0 ≤ f.fileLength) : ((fileLengths fs).sum : ℤ) =
    (fs.map FileInfo.fileLength).sum := by
  induction fs with
  | nil => rfl
  | cons f fs ih =>
    have hf := hnn f List.mem_cons_self
    rw [List.map_cons,List.sum_cons,← ih (fun g hg => hnn g (List.mem_cons_of_mem f hg))]
    show ((f.fileLength.toNat + (fileLengths fs).sum : ℕ) : ℤ) = _
    rw [Nat.cast_add,Int.toNat_of_nonneg hf]

end Exact

section Checks
variable {tp tp' u : Torrent} {k off len : ℕ} {w : MapWalk}

/-- The files from number `k` on are as they were. -/
structure Untouched (tp : Torrent) (k : ℕ) (u : Torrent) : Prop where
  opens : u.opensRdonly = tp.opensRdonly
  page : u.pagesize = tp.pagesize
  disk : ∀ j, k ≤ j → u.disk j = tp.disk j

theorem Untouched.next (h : Untouched tp k u) : Untouched tp (k + 1) u :=
  ⟨h.opens,h.page,fun j hj => h.disk j (Nat.le_of_succ_le hj)⟩

theorem Untouched.create (h : Untouched tp k u) (off len : ℕ) : Untouched tp (k + 1) (mmapCreated u k off len).1 := by
  refine ⟨h.opens,h.page,?_⟩
  intro j hj
  rw [← h.disk j (by omega)]
  exact Function.update_of_ne (by omega) _ _

theorem Untouched.mmapError (h : Untouched tp k u) (off len : ℕ) : mmapError u k off len = mmapError tp k off len := by
  unfold Unworkable.mmapError Torrent.readsOnly Torrent.tooShort Torrent.fileData
  rw [h.opens,h.page,h.disk k (le_refl k)]

/-- A walk that gets through does so on a disk where nothing fails, and each of its calls would have succeeded first. -/
theorem mapFiles_checks {fs : List FileInfo} {o : ℤ} {plen : ℕ}
    (h : mapFiles (numberFrom 0 fs) ⟨tp,o,len,plen,[],false⟩ = .ok w) :
    (∃ u, mapFiles (numberFrom 0 fs) ⟨tp.obliging,o,len,plen,[],false⟩ = .ok { w with tp := u }) ∧
      ∀ m ∈ w.mmaps, mmapError tp m.file m.off m.len = none := by
  refine ⟨mapFiles_writable tp.writable_obliging (dvd_zero _) h,?_⟩
  obtain ⟨_,_,-,-,-,hchecks⟩ := mapFiles_abreast
    (R := fun k u u' mm => u' = u ∧ Untouched tp k u ∧ ∀ m ∈ mm, mmapError tp m.file m.off m.len = none)
    (fun hR => ⟨hR.1,hR.2.1.next,hR.2.2⟩)
    (by
      rintro k u _ mm ⟨rfl,hsame,hchecks⟩ off len hnone -
      refine ⟨hnone,rfl,hsame.create off len,?_⟩
      intro m hm
      rcases List.mem_append.mp hm with hm | hm
      · exact hchecks m hm
      · rw [List.mem_singleton.mp hm,← hsame.mmapError]
        exact hnone) h ⟨rfl,⟨rfl,rfl,fun _ _ => rfl⟩,fun m hm => by cases hm⟩
  exact hchecks

/-- The other way round, from a disk on which nothing empty is mapped. -/
theorem mapFiles_of_checks {fs : List FileInfo} {o : ℤ} {plen : ℕ} (hpage : tp'.pagesize = 1)
    (h : mapFiles (numberFrom 0 fs) ⟨tp',o,len,plen,[],false⟩ = .ok w)
    (hall : ∀ m ∈ w.mmaps, 0 < m.len → mmapError tp m.file m.off m.len = none) :
    ∃ u, mapFiles (numberFrom 0 fs) ⟨tp,o,len,plen,[],false⟩ = .ok { w with tp := u } := by
  obtain ⟨u,-,hwalk,-⟩ := mapFiles_abreast (R := fun k u u' _ => u.pagesize = 1 ∧ Untouched tp k u')
    (fun hR => ⟨hR.1,hR.2.next⟩)
    (by
      rintro k u u' mm ⟨hpage,hsame⟩ off len hnone hmem
      have hpos : 0 < len := by
        have := mmapError_nonempty hnone
        rw [hpage,Nat.mod_one] at this
        omega
      refine ⟨?_,hpage,hsame.create off len⟩
      rw [hsame.mmapError]
      exact hall _ hmem hpos) h ⟨hpage,rfl,rfl,fun _ _ => rfl⟩
  exact ⟨u,hwalk⟩

/-- A range that is not empty is mapped unless the file is only read, and either is too short or could not be
only read. -/
theorem mmapError_none {file : ℕ} (hlen : 0 < len) : mmapError tp file off len = none ↔
    (tp.readsOnly file = true → tp.opensRdonly = true ∧ off + len ≤ (tp.fileData file).length) := by
  have hgone : (tp.disk file).data.isNone = true → tp.tooShort file off len = true := by
    intro hnone
    rw [Option.isNone_iff_eq_none] at hnone
    simp only [Torrent.tooShort,Torrent.fileData,hnone,Option.getD_none,List.length_nil,decide_eq_true_eq]
    omega
  have hshort : tp.tooShort file off len = false ↔ off + len ≤ (tp.fileData file).length := by
    rw [Torrent.tooShort,decide_eq_false_iff_not]
    omega
  rw [← hshort]
  unfold mmapError
  cases hro : tp.readsOnly file with
  | false => simp [hlen.ne']
  | true =>
    cases hs : tp.tooShort file off len with
    | true =>
      simp only [Bool.true_and,if_true]
      split_ifs <;> simp
    | false =>
      have hthere : (tp.disk file).data.isNone = false := by
        by_contra hne
        rw [hgone (Bool.eq_true_of_not_eq_false hne)] at hs
        cases hs
      cases hor : tp.opensRdonly <;> simp [hthere,hlen.ne']

end Checks

/-- A multi-file torrent with as many pieces as its files fill. -/
structure Metainfo.Divided (mi : Metainfo) : Prop where
  multifile : mi.type = .multifile
  nonneg : ∀ f ∈ mi.files, 0 ≤ f.fileLength
  pos : 0 < mi.pieceLength
  count : mi.numPieces = (mi.totalLength.toNat + mi.pieceLength - 1) / mi.pieceLength

/-- The mappings of piece `i` are, in order, the bytes of the piece, and it keeps its length. -/
def Torrent.MapsExactly (tp : Torrent) (i : ℕ) : Prop :=
  ∃ tp', torrentPieceMap tp i = .ok tp' ∧ (tp'.piece i).mmaps.flatMap Mmap.places = tp.mi.places i ∧
    (tp'.piece i).len = pieceLen tp.mi i

section Pieces
variable {mi : Metainfo} {tp : Torrent} {i : ℕ}

theorem Metainfo.Divided.sum (h : mi.Divided) : (fileLengths mi.files).sum = mi.totalLength.toNat := by
  have hsum : ((fileLengths mi.files).sum : ℤ) = mi.totalLength := sum_fileLengths h.nonneg
  omega

/-- Every piece has bytes, and all of them are bytes of the files. -/
theorem Metainfo.Divided.piece_within (h : mi.Divided) (hi : i < mi.numPieces) :
    0 < pieceLen mi i ∧ mi.pieceLength * i + pieceLen mi i ≤ mi.totalLength.toNat := by
  have hpos := h.pos
  have hlt := mi.pieceLength_lt
  have hnum := mi.numPieces_lt
  have hcount := h.count
  have htotal : 0 ≤ mi.totalLength := by
    have hsum : ((fileLengths mi.files).sum : ℤ) = mi.totalLength := sum_fileLengths h.nonneg
    omega
  have hT : (mi.totalLength.toNat : ℤ) = mi.totalLength := Int.toNat_of_nonneg htotal
  generalize mi.totalLength.toNat = total at hcount hT
  -- the last piece begins before the end of the files and reaches it
  have hle : mi.pieceLength ≤ mi.pieceLength * mi.numPieces := Nat.le_mul_of_pos_right _ (by omega)
  have hlast : mi.pieceLength * (mi.numPieces - 1) < total := by
    have hdiv := Nat.div_mul_le_self (total + mi.pieceLength - 1) mi.pieceLength
    rw [← hcount,Nat.mul_comm] at hdiv
    rw [Nat.mul_sub_one]
    omega
  have hend : total ≤ mi.pieceLength * (mi.numPieces - 1) + mi.pieceLength := by
    have hmod := Nat.lt_div_mul_add (a := total + mi.pieceLength - 1) hpos
    rw [← hcount,Nat.mul_comm] at hmod
    rw [Nat.mul_sub_one]
    omega
  unfold pieceLen
  rw [h.multifile]
  dsimp only
  rw [sub32_of_le hnum (by omega)]
  by_cases hi' : i = mi.numPieces - 1
  · rw [if_pos hi']
    have hlen : wrapInt32 (mi.totalLength - mul32 (mi.numPieces - 1) mi.pieceLength) =
        total - mi.pieceLength * (mi.numPieces - 1) := by
      rw [← hT]
      unfold wrapInt32 mul32 wrap32
      rw [Nat.mul_comm]
      generalize mi.pieceLength * (mi.numPieces - 1) = start at hlast hend
      omega
    rw [hlen,← hi']
    rw [← hi'] at hlast
    omega
  · rw [if_neg hi']
    have hle : mi.pieceLength * i + mi.pieceLength ≤ mi.pieceLength * (mi.numPieces - 1) := by
      rw [← Nat.mul_succ]
      exact Nat.mul_le_mul_left _ (by omega)
    omega

theorem Metainfo.Divided.places_eq (h : mi.Divided) (hi : i < mi.numPieces) : mi.places i =
    ((streamFrom 0 (fileLengths mi.files)).drop (mi.pieceLength * i)).take (pieceLen mi i) := by
  have hwithin := (h.piece_within hi).2
  rw [← h.sum] at hwithin
  refine List.ext_getElem? fun x => ?_
  by_cases hx : x < pieceLen mi i
  · rw [List.getElem?_take_of_lt hx,List.getElem?_drop,getElem?_streamFrom (by omega)]
    simp only [places,locate,h.multifile,List.getElem?_map,List.getElem?_range hx,Option.map_some]
    rfl
  · have hle := Nat.not_lt.mp hx
    rw [List.getElem?_eq_none (by simpa [places] using hle),List.getElem?_eq_none]
    rw [List.length_take]
    exact (Nat.min_le_left _ _).trans hle

/-- A file that is only read has its bytes of the piece, and is not to be mapped for writing. -/
def Torrent.Readable (tp : Torrent) (i : ℕ) : Prop :=
  ∀ q ∈ tp.mi.places i, tp.readsOnly q.1 = true → tp.opensRdonly = true ∧ q.2 < (tp.fileData q.1).length

theorem Torrent.Readable.of_checks {ms : List Mmap} (hplaces : ms.flatMap Mmap.places = tp.mi.places i)
    (h : ∀ m ∈ ms, mmapError tp m.file m.off m.len = none) : tp.Readable i := by
  intro q hq hro
  rw [← hplaces] at hq
  obtain ⟨m,hm,hq⟩ := List.mem_flatMap.mp hq
  obtain ⟨x,hx,rfl⟩ := mem_places_mmap.mp hq
  obtain ⟨hopens,hfit⟩ := (mmapError_none (Nat.zero_lt_of_lt hx)).mp (h m hm) hro
  refine ⟨hopens,?_⟩
  simp only
  omega

theorem Torrent.Readable.checks {ms : List Mmap} (hr : tp.Readable i)
    (hplaces : ms.flatMap Mmap.places = tp.mi.places i) :
    ∀ m ∈ ms, 0 < m.len → mmapError tp m.file m.off m.len = none := by
  intro m hm hlen
  rw [mmapError_none hlen]
  intro hro
  have hlast : (m.file,m.off + (m.len - 1)) ∈ tp.mi.places i := by
    rw [← hplaces]
    exact List.mem_flatMap.mpr ⟨m,hm,mem_places_mmap.mpr ⟨m.len - 1,Nat.sub_lt hlen Nat.zero_lt_one,rfl⟩⟩
  obtain ⟨hopens,hthere⟩ := hr _ hlast hro
  simp only at hthere
  exact ⟨hopens,by omega⟩

/-- Three files of one, one and two bytes in pieces of two bytes. -/
def Metainfo.threeFiles : Metainfo where
  type := .multifile
  name := []
  files := [⟨1,[97]⟩,⟨1,[98]⟩,⟨2,[99]⟩]
  pieces := List.replicate 40 0
  pieceLength := 2
  infoHash := List.replicate 20 0
  pieceLength_lt := two_lt_word
  infoHash_length := length_zeroHash
  single_file := nofun

theorem divided_threeFiles : Metainfo.threeFiles.Divided := ⟨rfl,by decide,by decide,by decide⟩

instance (tp : Torrent) (i : ℕ) : Decidable (tp.Readable i) :=
  inferInstanceAs (Decidable (∀ q ∈ tp.mi.places i,
    tp.readsOnly q.1 = true → tp.opensRdonly = true ∧ q.2 < (tp.fileData q.1).length))

end Pieces

end Unworkable
