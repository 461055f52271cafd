import Unworkable.Torrent.Integrity

/-! # Two walks over one file list

What the walk of `torrent_piece_map` maps depends on the lengths of the files alone; the disk decides
whether every call on the way succeeds. So a walk that gets through on one disk does the same on any
other one on which the calls it makes do not fail.
-/
namespace Unworkable
open Library

def numberFrom : (k : ℕ) → List FileInfo → List (ℕ × FileInfo)
  | _,[] => []
  | k,f :: rest => (k,f) :: numberFrom (k + 1) rest

theorem zip_range (k : ℕ) (fs : List FileInfo) : (List.range' k fs.length).zip fs = numberFrom k fs := by
  induction fs generalizing k with
  | nil => rfl
  | cons f fs ih => rw [List.length_cons,List.range'_succ,List.zip_cons_cons,ih,numberFrom]

theorem zip_range_zero (fs : List FileInfo) : (List.range fs.length).zip fs = numberFrom 0 fs := by
  rw [List.range_eq_range',zip_range]

/-- A walk only adds mappings. -/
theorem mapFiles_mmaps {l : List (ℕ × FileInfo)} {w w' : MapWalk} (h : mapFiles l w = .ok w') : w.mmaps <+: w'.mmaps :=
  mapFiles_keeps (P := fun v => w.mmaps <+: v.mmaps) (fun _ _ _ _ hv => hv.trans (List.prefix_append _ _))
    (fun _ _ _ _ hv => hv)
    (List.prefix_refl _) h

/-- The walk maps no more bytes than the piece has, if the files have sizes. -/
theorem mapFiles_plen_le {l : List (ℕ × FileInfo)} (hl : ∀ x ∈ l, 0 ≤ x.2.fileLength) {w w' : MapWalk} {n : ℕ}
    (h : mapFiles l w = .ok w') (hoff : 0 ≤ w.off) (hlen : w.plen + w.len ≤ n) (hn : n < 4294967296) : w'.plen ≤ n := by
  induction l generalizing w with
  | nil =>
    cases h
    omega
  | cons x rest ih =>
    obtain ⟨i,f⟩ := x
    obtain ⟨hf,hrest⟩ := List.forall_mem_cons.mp hl
    dsimp only at hf
    replace ih := fun {w : MapWalk} => ih hrest (w := w)
    -- a mapping of `k` bytes takes them off what is left of the piece
    have hmap {v u : MapWalk} {file : ℕ} {off d : ℤ} (hv : v.create file off d = .ok u) (h0 : 0 ≤ d) (hd : d ≤ v.len)
        (hsum : v.plen + v.len ≤ n) : u.plen + sub32 v.len (wrapInt32 d) ≤ n ∧ u.plen ≤ n ∧ u.off = v.off := by
      obtain ⟨-,rfl⟩ := MapWalk.create_ok.mp hv
      obtain ⟨k,rfl⟩ := Int.eq_ofNat_of_zero_le h0
      have hplen : (v.created file off k).plen = wrap32 (v.plen + wrapInt32 k) := rfl
      have hk : wrapInt32 (k : ℤ) = k := by
        unfold wrapInt32
        omega
      rw [hplen,hk,wrap32_of_lt (by omega),sub32_of_le (by omega) (by omega)]
      exact ⟨by omega,by omega,rfl⟩
    rw [mapFiles_cons] at h
    split_ifs at h with hskip hbehind hsmall hempty hover hfull hin hnone
    · exact ih h hoff hlen
    · exact ih h (show 0 ≤ w.off - f.fileLength by omega) hlen
    · exact ih h hoff hlen
    · obtain ⟨v,hv,h⟩ := bind_ok.mp h
      exact ih h le_rfl (hmap hv (by omega) (by omega) hlen).1
    · exact ih h le_rfl hlen
    · obtain ⟨v,hv,h⟩ := bind_ok.mp h
      have hsum := (hmap hv (by omega) (by omega) hlen).1
      have hnext : 0 ≤ w.off + 1 := by omega
      unfold mapNext at h
      split at h
      · cases h
      · rename_i j g hg
        have hg0 : 0 ≤ g.fileLength := hrest (j,g) (List.mem_of_mem_head? hg)
        split_ifs at h with hless hzero
        · exact ih h hnext hsum
        · obtain ⟨u,hu,h⟩ := bind_ok.mp h
          exact ih h le_rfl (hmap hu hg0 hless.le hsum).1
        · exact ih h hnext hsum
        · exact (hmap h (by omega) le_rfl hsum).2.1
    · exact ih h hoff hlen
    · exact (hmap h (by omega) le_rfl hlen).2.1
    · exact ih h hoff hlen

section Abreast
variable {R : ℕ → Torrent → Torrent → List Mmap → Prop} {w : MapWalk}

/-- One mapping on both disks, where it is among those of the result. -/
theorem create_abreast {k : ℕ} {tp tp' : Torrent} {off o n : ℤ} {len plen : ℕ} {mm : List Mmap}
    {skip : Bool} {u : MapWalk}
    (hcreate : ∀ off len, mmapError tp k off len = none → ⟨k,off,len⟩ ∈ w.mmaps → mmapError tp' k off len = none ∧
      R (k + 1) (mmapCreated tp k off len).1 (mmapCreated tp' k off len).1 (mm ++ [⟨k,off,len⟩]))
    (h : MapWalk.create ⟨tp,off,len,plen,mm,skip⟩ k o n = .ok u) (hw : u.mmaps <+: w.mmaps) :
    ∃ tu tu' mm', u = ⟨tu,off,len,add32 plen (wrapInt32 n),mm',skip⟩ ∧ R (k + 1) tu tu' mm' ∧
      MapWalk.create ⟨tp',off,len,plen,mm,skip⟩ k o n = .ok ⟨tu',off,len,add32 plen (wrapInt32 n),mm',skip⟩ := by
  obtain ⟨hnone,rfl⟩ := MapWalk.create_ok.mp h
  have hmem : (⟨k,o.toNat,wrapInt32 n⟩ : Mmap) ∈ w.mmaps :=
    hw.subset (List.mem_append_right _ (List.mem_singleton_self _))
  obtain ⟨hnone',hR⟩ := hcreate _ _ hnone hmem
  exact ⟨_,_,_,rfl,hR,MapWalk.create_ok.mpr ⟨hnone',rfl⟩⟩

/-- A walk over the first disk that gets through, and next to it one over the second: `R` relates the disks
before the files from number `k` on are reached, and every mapping it hears of is among those of the result. -/
theorem mapFiles_abreast (hnext : ∀ {k tp tp' mm}, R k tp tp' mm → R (k + 1) tp tp' mm)
    (hcreate : ∀ {k tp tp' mm}, R k tp tp' mm → ∀ off len, mmapError tp k off len = none → ⟨k,off,len⟩ ∈ w.mmaps →
      mmapError tp' k off len = none ∧
        R (k + 1) (mmapCreated tp k off len).1 (mmapCreated tp' k off len).1 (mm ++ [⟨k,off,len⟩]))
    {fs : List FileInfo} {k : ℕ} {tp tp' : Torrent} {off : ℤ} {len plen : ℕ} {mm : List Mmap} {skip : Bool}
    (h : mapFiles (numberFrom k fs) ⟨tp,off,len,plen,mm,skip⟩ = .ok w) (hR : R (if skip then k + 1 else k) tp tp' mm) :
    ∃ tp'' j, mapFiles (numberFrom k fs) ⟨tp',off,len,plen,mm,skip⟩ = .ok { w with tp := tp'' } ∧
      R j w.tp tp'' w.mmaps := by
  induction fs generalizing k tp tp' off len plen mm skip with
  | nil =>
    cases h
    exact ⟨tp',_,rfl,hR⟩
  | cons f fs ih =>
    rw [numberFrom,mapFiles_cons] at h ⊢
    cases skip with
    | true =>
      simp only [if_true] at h hR ⊢
      exact ih h hR
    | false =>
      simp only [Bool.false_eq_true,if_false] at h hR ⊢
      split_ifs at h ⊢
      · exact ih h (hnext hR)
      · exact ih h (hnext hR)
      · obtain ⟨u,hu,h⟩ := bind_ok.mp h
        have hw := mapFiles_mmaps h
        obtain ⟨tu,tu',mm',rfl,hR',hu'⟩ := create_abreast (hcreate hR) hu hw
        rw [hu',ok_bind]
        exact ih h hR'
      · exact ih h (hnext hR)
      · obtain ⟨u,hu,h⟩ := bind_ok.mp h
        cases fs with
        | nil => cases h
        | cons g fs =>
          have hhead : (numberFrom (k + 1) (g :: fs)).head? = some (k + 1,g) := rfl
          simp only [mapNext,hhead] at h ⊢
          split_ifs at h ⊢
          · have hw := mapFiles_mmaps h
            obtain ⟨tu,tu',mm',rfl,hR',hu'⟩ := create_abreast (hcreate hR) hu hw
            rw [hu',ok_bind]
            exact ih h hR'
          · obtain ⟨v,hv,h⟩ := bind_ok.mp h
            have hw := mapFiles_mmaps h
            have hu₀ : u.mmaps <+: v.mmaps := by
              obtain ⟨-,rfl⟩ := MapWalk.create_ok.mp hv
              exact List.prefix_append _ _
            obtain ⟨tu,tu',mm',rfl,hR',hu'⟩ := create_abreast (hcreate hR) hu (hu₀.trans hw)
            obtain ⟨tv,tv',mm'',rfl,hR'',hv'⟩ := create_abreast (hcreate hR') hv hw
            rw [hu',ok_bind,hv',ok_bind]
            exact ih h hR''
          · have hw := mapFiles_mmaps h
            obtain ⟨tu,tu',mm',rfl,hR',hu'⟩ := create_abreast (hcreate hR) hu hw
            rw [hu',ok_bind]
            exact ih h hR'
          · have hu₀ : u.mmaps <+: w.mmaps := by
              obtain ⟨-,rfl⟩ := MapWalk.create_ok.mp h
              exact List.prefix_append _ _
            obtain ⟨tu,tu',mm',rfl,hR',hu'⟩ := create_abreast (hcreate hR) hu hu₀
            obtain ⟨tv,tv',mm'',rfl,hR'',hv'⟩ := create_abreast (hcreate hR') h (List.prefix_refl _)
            rw [hu',ok_bind]
            exact ⟨tv',_,hv',hR''⟩
      · exact ih h (hnext hR)
      · obtain ⟨tu,tu',mm',rfl,hR',hu'⟩ := create_abreast (hcreate hR) h (List.prefix_refl _)
        exact ⟨tu',_,hu',hR'⟩
      · exact ih h (hnext hR)

end Abreast

/-- No file is, or would be, open for reading only. -/
structure Torrent.Writable (tp : Torrent) : Prop where
  opens : tp.opensRdonly = false
  handles : ∀ k, (tp.disk k).fd = true → (tp.disk k).rdonly = false

section Writable
variable {tp tp' : Torrent} {k file off len : ℕ}

theorem mmapError_nonempty (h : mmapError tp file off len = none) : ¬ (len = 0 ∧ off % tp.pagesize = 0) := by
  intro hzero
  unfold mmapError at h
  split_ifs at h
  simp_all

theorem Torrent.Writable.readsOnly (h : tp.Writable) : tp.readsOnly file = false := by
  unfold Torrent.readsOnly
  split
  · exact h.handles file (by assumption)
  · exact h.opens

theorem Torrent.Writable.mmapError (h : tp.Writable) (hpos : ¬ (len = 0 ∧ off % tp.pagesize = 0)) :
    mmapError tp file off len = none := by
  simp [Unworkable.mmapError,h.readsOnly,hpos]

theorem Torrent.Writable.created (h : tp.Writable) : (mmapCreated tp file off len).1.Writable := by
  refine ⟨h.opens,?_⟩
  intro j hj
  by_cases hjk : j = file
  · subst hjk
    have hopens := h.opens
    have hhandle := h.handles j
    simp only [mmapCreated,Torrent.setFile,Function.update_self]
    split_ifs with hfd
    · exact hhandle (Bool.and_eq_true_iff.mp hfd).1
    · exact hopens
  · simp only [mmapCreated,Torrent.setFile,Function.update_of_ne hjk] at hj ⊢
    exact h.handles j hj

/-- Where files can be written a walk gets through that gets through anywhere. -/
theorem mapFiles_writable (h' : tp'.Writable) (hpage : tp.pagesize ∣ tp'.pagesize) {fs : List FileInfo}
    {o : ℤ} {plen : ℕ}
    {mm : List Mmap} {skip : Bool} {w : MapWalk} (h : mapFiles (numberFrom k fs) ⟨tp,o,len,plen,mm,skip⟩ = .ok w) :
    ∃ tp'', mapFiles (numberFrom k fs) ⟨tp',o,len,plen,mm,skip⟩ = .ok { w with tp := tp'' } := by
  have hcreate : ∀ {k : ℕ} {u u' : Torrent}, u'.Writable ∧ u.pagesize ∣ u'.pagesize → ∀ off len,
      Unworkable.mmapError u k off len = none → ⟨k,off,len⟩ ∈ w.mmaps → Unworkable.mmapError u' k off len = none ∧
        (mmapCreated u' k off len).1.Writable ∧ u.pagesize ∣ u'.pagesize := by
    rintro k u u' ⟨hu,hpage⟩ off len hnone -
    refine ⟨hu.mmapError ?_,hu.created,hpage⟩
    rintro ⟨hlen,hoff⟩
    exact mmapError_nonempty hnone ⟨hlen,Nat.mod_eq_zero_of_dvd (hpage.trans (Nat.dvd_of_mod_eq_zero hoff))⟩
  obtain ⟨tp'',-,hwalk,-⟩ := mapFiles_abreast (R := fun _ u u' _ => u'.Writable ∧ u.pagesize ∣ u'.pagesize)
    (fun hR => hR) hcreate h ⟨h',hpage⟩
  exact ⟨tp'',hwalk⟩

def Torrent.obliging (tp : Torrent) : Torrent :=
  { tp with disk := fun _ => ⟨true,0,none,false⟩, goodPieces := tp.numPieces + 1, pagesize := 0 }

theorem Torrent.writable_obliging (tp : Torrent) : tp.obliging.Writable :=
  ⟨decide_eq_false (Nat.succ_ne_self _),fun _ _ => rfl⟩

/-- The length a walk arrives at depends on the lengths of the files alone. -/
theorem mapFiles_plen_congr {fs : List FileInfo} {mm : List Mmap} {o : ℤ} {plen : ℕ} {skip : Bool} {w w' : MapWalk}
    (h : mapFiles (numberFrom k fs) ⟨tp,o,len,plen,mm,skip⟩ = .ok w)
    (h' : mapFiles (numberFrom k fs) ⟨tp',o,len,plen,mm,skip⟩ = .ok w') : w'.plen = w.plen := by
  obtain ⟨u,hu⟩ := mapFiles_writable tp.writable_obliging (dvd_zero tp.pagesize) h
  obtain ⟨u',hu'⟩ := mapFiles_writable tp.writable_obliging (dvd_zero tp'.pagesize) h'
  rw [hu] at hu'
  have hplen := congrArg MapWalk.plen (Except.ok.inj hu')
  exact hplen.symm

end Writable

end Unworkable
