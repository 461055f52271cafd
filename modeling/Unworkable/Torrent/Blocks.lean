import Unworkable.Torrent.Startup

/-! # Blocks of a piece

`torrent_block_write` and `torrent_block_read` treat the mappings of a piece as one string of
bytes: a write lays its data over the string, as far as the string goes, and a read takes a
slice out of it. Both pass an offset at the end of a mapping with an empty copy.
-/
namespace Unworkable
open Library

def Apart (ms : List Mmap) : Prop :=
  ms.Pairwise (fun m m' => m.file = m'.file → m.off + m.len ≤ m'.off ∨ m'.off + m'.len ≤ m.off)

/-- Byte `x` of file `k` is shown by one of the mappings. -/
def Shown (ms : List Mmap) (k x : ℕ) : Prop := ∃ m ∈ ms, m.file = k ∧ m.off ≤ x ∧ x < m.off + m.len

section Memory
variable {tp : Torrent} {m m' : Mmap} {ms : List Mmap} {rel k x : ℕ} {bs : Bytes}

theorem mmapWrite_fileData (tp : Torrent) (m : Mmap) (rel : ℕ) (bs : Bytes) (k : ℕ) :
    (tp.mmapWrite m rel bs).fileData k =
    if k = m.file then splice (tp.fileData m.file) (m.off + rel) bs else tp.fileData k := by
  rw [Torrent.mmapWrite,Torrent.setFile_fileData]
  rfl

theorem mmapBytes_mmapWrite (hm : Backs tp m) (h : rel + bs.length ≤ m.len) :
    (tp.mmapWrite m rel bs).mmapBytes m = overlay (tp.mmapBytes m) rel bs := by
  have hfits := hm.fits
  apply List.ext_getElem?
  intro i
  rw [getElem?_overlay,hm.length,Torrent.mmapBytes,Torrent.mmapBytes,mmapWrite_fileData,if_pos rfl,getElem?_window,
    getElem?_window,splice_eq_overlay (by omega),getElem?_overlay]
  by_cases hi : i < m.len
  · rw [if_pos hi,if_pos hi]
    split
    · rw [if_pos (by omega)]
      congr 1
      omega
    · rw [if_neg (by omega)]
  · rw [if_neg hi,if_neg hi,if_neg (by omega)]

theorem mmapWrite_outside (hm : Backs tp m) (h : rel + bs.length ≤ m.len)
    (hx : ¬ (m.file = k ∧ m.off ≤ x ∧ x < m.off + m.len)) :
    ((tp.mmapWrite m rel bs).fileData k)[x]? = (tp.fileData k)[x]? := by
  have hfits := hm.fits
  rw [mmapWrite_fileData]
  split
  · rename_i hk
    subst hk
    exact getElem?_splice_outside (by omega) (by omega)
  · rfl

/-- Bytes that stay where a mapping shows them. -/
theorem mmapBytes_congr {tp' : Torrent} (h : ∀ x, m.off ≤ x → x < m.off + m.len →
    (tp'.fileData m.file)[x]? = (tp.fileData m.file)[x]?) : tp'.mmapBytes m = tp.mmapBytes m := by
  apply List.ext_getElem?
  intro i
  rw [Torrent.mmapBytes,Torrent.mmapBytes,getElem?_window,getElem?_window]
  split
  · exact h _ (by omega) (by omega)
  · rfl

theorem flatMap_mmapBytes_congr {tp' : Torrent} (h : ∀ k x, Shown ms k x → (tp'.fileData k)[x]? = (tp.fileData k)[x]?) :
    ms.flatMap tp'.mmapBytes = ms.flatMap tp.mmapBytes :=
  List.flatMap_congr fun m hm => mmapBytes_congr fun x hx hx' => h m.file x ⟨m,hm,rfl,hx,hx'⟩

theorem mmapWrite_backs (hm' : Backs tp m') : Backs (tp.mmapWrite m rel bs) m' := by
  refine hm'.grow ?_
  intro k
  rw [mmapWrite_fileData]
  split
  · rename_i hk
    rw [hk]
    exact Backed.length_le_splice _ _ _
  · exact le_refl _

/-- What the later mappings show is not in the first one. -/
theorem Apart.not_first (h : Apart (m :: ms)) (hx : Shown ms k x) : ¬ (m.file = k ∧ m.off ≤ x ∧ x < m.off + m.len) := by
  obtain ⟨m',hm',hfile,hlow,hhigh⟩ := hx
  rintro ⟨rfl,hlow',hhigh'⟩
  have := (List.pairwise_cons.mp h).1 m' hm' hfile.symm
  omega

theorem Apart.tail (h : Apart (m :: ms)) : Apart ms := (List.pairwise_cons.mp h).2

end Memory

/-- A run of the writing loop: what the mappings show becomes `bytes`, and nothing else changes. -/
structure Writes (tp : Torrent) (ms : List Mmap) (bytes : Bytes) (tp' : Torrent) : Prop where
  shown : ms.flatMap tp'.mmapBytes = bytes
  frame : ∀ k x, ¬ Shown ms k x → (tp'.fileData k)[x]? = (tp.fileData k)[x]?

namespace Writes
variable {tp tp' : Torrent} {m : Mmap} {ms : List Mmap} {rel : ℕ} {bs bytes : Bytes}

theorem refl (tp : Torrent) (ms : List Mmap) : Writes tp ms (ms.flatMap tp.mmapBytes) tp := ⟨rfl,fun _ _ _ => rfl⟩

/-- The first mapping is left alone. -/
theorem skip (hapart : Apart (m :: ms)) (h : Writes tp ms bytes tp') :
    Writes tp (m :: ms) (tp.mmapBytes m ++ bytes) tp' := by
  constructor
  · rw [List.flatMap_cons,h.shown]
    congr 1
    apply mmapBytes_congr
    intro x hlow hhigh
    apply h.frame
    intro hx
    exact hapart.not_first hx ⟨rfl,hlow,hhigh⟩
  · intro k x hx
    apply h.frame
    rintro ⟨m',hm',hin⟩
    exact hx ⟨m',List.mem_cons_of_mem m hm',hin⟩

/-- A copy into the first mapping, and then the rest. -/
theorem first (hm : Backs tp m) (hrel : rel + bs.length ≤ m.len) (hapart : Apart (m :: ms))
    (h : Writes (tp.mmapWrite m rel bs) ms bytes tp') :
    Writes tp (m :: ms) (overlay (tp.mmapBytes m) rel bs ++ bytes) tp' := by
  have hskip := h.skip hapart
  rw [mmapBytes_mmapWrite hm hrel] at hskip
  refine ⟨hskip.shown,?_⟩
  intro k x hx
  rw [hskip.frame k x hx,mmapWrite_outside hm hrel]
  intro hin
  exact hx ⟨m,List.mem_cons_self,hin⟩

/-- What the later mappings show after a copy into the first one. -/
theorem flatMap_first (hm : Backs tp m) (hrel : rel + bs.length ≤ m.len) (hapart : Apart (m :: ms)) :
    ms.flatMap (tp.mmapWrite m rel bs).mmapBytes = ms.flatMap tp.mmapBytes :=
  flatMap_mmapBytes_congr fun _ _ hx => mmapWrite_outside hm hrel (hapart.not_first hx)

end Writes

section Write
variable {tp : Torrent} {off len cnt : ℕ} {d : Bytes} {ms : List Mmap}

/-- Once something is written the loop goes on at the start of each mapping. -/
theorem blockWriteLoop_fill (hviews : ∀ m ∈ ms, Backs tp m) (hapart : Apart ms) (hd : d.length = len)
    (cntlen cntbase : ℕ)
    {left : ℕ} (hleft : left < len) : Writes tp ms (overlay (ms.flatMap tp.mmapBytes) 0 (window d (len - left) left))
      (blockWriteLoop off len d ms cntlen cntbase left tp) := by
  induction ms generalizing tp left with
  | nil => exact .refl tp []
  | cons m rest ih =>
    have hm := hviews m List.mem_cons_self
    have hrest : ∀ m' ∈ rest, Backs tp m' := fun m' hm' => hviews m' (List.mem_cons_of_mem m hm')
    have hbytes : (window d (len - left) left).length = left := length_window (by omega)
    simp only [blockWriteLoop,if_pos hleft]
    rw [List.flatMap_cons,overlay_append,hm.length,Nat.sub_zero,Nat.zero_sub]
    split
    · rename_i hlt
      have hcopy : ((d.drop (len - left)).take m.len).length = m.len := by
        rw [List.length_take,List.length_drop]
        omega
      have hfits : 0 + ((d.drop (len - left)).take m.len).length ≤ m.len := by omega
      have hrest' : ∀ m' ∈ rest, Backs (tp.mmapWrite m 0 ((d.drop (len - left)).take m.len)) m' :=
        fun m' hm' => mmapWrite_backs (hrest m' hm')
      have hnext := ih hrest' hapart.tail (show left - m.len < len by omega)
      rw [Writes.flatMap_first hm hfits hapart] at hnext
      have hall := hnext.first hm hfits hapart
      have hfront : overlay (tp.mmapBytes m) 0 (window d (len - left) left) =
          overlay (tp.mmapBytes m) 0 ((d.drop (len - left)).take m.len) := by
        rw [window,← overlay_take _ (n := m.len) (by rw [hm.length]; omega),List.take_take,Nat.min_eq_left (by omega)]
      have hback : (window d (len - left) left).drop m.len = window d (len - (left - m.len)) (left - m.len) := by
        rw [window,window,List.drop_take,List.drop_drop]
        congr 2
        omega
      rw [hfront,hback]
      exact hall
    · rename_i hle
      have hfits : 0 + ((d.drop (len - left)).take left).length ≤ m.len := by
        rw [Nat.zero_add]
        exact hbytes.le.trans (by omega)
      rw [List.drop_eq_nil_of_le (by omega),overlay_nil,← Writes.flatMap_first hm hfits hapart]
      exact (Writes.refl _ rest).first hm hfits hapart

/-- The loop passes the mappings before the offset and then lays down the data. -/
theorem blockWriteLoop_overlay (hviews : ∀ m ∈ ms, Backs tp m) (hapart : Apart ms) (hd : d.length = len)
    (hcnt : cnt ≤ off) :
    Writes tp ms (overlay (ms.flatMap tp.mmapBytes) (off - cnt) d) (blockWriteLoop off len d ms cnt cnt len tp) := by
  induction ms generalizing tp cnt with
  | nil =>
    rw [List.flatMap_nil,overlay_past d (Nat.zero_le _)]
    exact .refl tp []
  | cons m rest ih =>
    have hm := hviews m List.mem_cons_self
    have hrest : ∀ m' ∈ rest, Backs tp m' := fun m' hm' => hviews m' (List.mem_cons_of_mem m hm')
    simp only [blockWriteLoop,lt_irrefl,if_false]
    rw [List.flatMap_cons,overlay_append,hm.length]
    split
    · rename_i hskip
      have hnext := (ih hrest hapart.tail (show cnt + m.len ≤ off by omega)).skip hapart
      rw [overlay_past d (by rw [hm.length]; omega),Nat.sub_sub,Nat.sub_eq_zero_of_le (by omega : m.len ≤ off - cnt),
        List.drop_zero]
      exact hnext
    · rename_i hreach
      have htlen : sub32 m.len (off - cnt) = m.len - (off - cnt) := sub32_of_le hm.short (by omega)
      rw [htlen,Nat.sub_eq_zero_of_le (by omega : off - cnt ≤ m.len),Nat.max_eq_right hcnt]
      split
      · rename_i hmore
        have hcopy : (d.take (m.len - (off - cnt))).length = m.len - (off - cnt) := by
          rw [List.length_take]
          omega
        have hfits : off - cnt + (d.take (m.len - (off - cnt))).length ≤ m.len := by omega
        have hviews' : ∀ m' ∈ rest, Backs (tp.mmapWrite m (off - cnt) (d.take (m.len - (off - cnt)))) m' :=
          fun m' hm' => mmapWrite_backs (hrest m' hm')
        have hnext : Writes (tp.mmapWrite m (off - cnt) (d.take (m.len - (off - cnt)))) rest
            (overlay (rest.flatMap tp.mmapBytes) 0 (d.drop (m.len - (off - cnt))))
            (blockWriteLoop off len d rest (cnt + m.len) off (len - (m.len - (off - cnt)))
              (tp.mmapWrite m (off - cnt) (d.take (m.len - (off - cnt))))) := by
          by_cases hzero : m.len - (off - cnt) = 0
          · -- the offset is the end of this mapping: nothing is copied and the next one starts afresh
            have hend : cnt + m.len = off := by omega
            have hskip := ih hviews' hapart.tail (le_refl off)
            rw [Writes.flatMap_first hm hfits hapart,Nat.sub_self] at hskip
            rw [hend]
            simpa only [hzero,Nat.sub_zero,List.drop_zero] using hskip
          · have hfill := @blockWriteLoop_fill _ off len d rest hviews' hapart.tail hd (cnt + m.len) off
              (len - (m.len - (off - cnt))) (by omega)
            have hwindow : window d (len - (len - (m.len - (off - cnt)))) (len - (m.len - (off - cnt))) =
                d.drop (m.len - (off - cnt)) := by
              rw [window,show len - (len - (m.len - (off - cnt))) = m.len - (off - cnt) by omega]
              apply List.take_of_length_le
              rw [List.length_drop,hd]
            rwa [Writes.flatMap_first hm hfits hapart,hwindow] at hfill
        have hall := hnext.first hm hfits hapart
        rw [overlay_take d (by rw [hm.length])] at hall
        exact hall
      · rename_i hfits
        have hroom : off - cnt + d.length ≤ m.len := by omega
        rw [List.take_of_length_le hd.le,List.drop_eq_nil_of_le (by omega),overlay_nil,
          ← Writes.flatMap_first hm hroom hapart]
        exact (Writes.refl _ rest).first hm hroom hapart

end Write

section Mapping
variable {tp tp' : Torrent} {idx : ℕ}

/-- The mappings are of one file after the other, all before file `k`. -/
structure Climbs (k : ℕ) (ms : List Mmap) : Prop where
  climbs : ms.Pairwise (fun m m' => m.file < m'.file)
  before : ∀ m ∈ ms, m.file < k

theorem Climbs.next {k : ℕ} {ms : List Mmap} (h : Climbs k ms) : Climbs (k + 1) ms :=
  ⟨h.climbs,fun m hm => Nat.lt_succ_of_lt (h.before m hm)⟩

theorem Climbs.create {k : ℕ} {ms : List Mmap} (h : Climbs k ms) (off len : ℕ) : Climbs (k + 1)
    (ms ++ [⟨k,off,len⟩]) := by
  constructor
  · rw [List.pairwise_append]
    refine ⟨h.climbs,List.pairwise_singleton _ _,?_⟩
    intro m hm m' hm'
    rw [List.mem_singleton.mp hm']
    exact h.before m hm
  · intro m hm
    rcases List.mem_append.mp hm with hm | hm
    · exact Nat.lt_succ_of_lt (h.before m hm)
    · rw [List.mem_singleton.mp hm]
      exact Nat.lt_succ_self k

theorem mapFiles_climbs {fs : List FileInfo} {off : ℤ} {len plen : ℕ} {w : MapWalk}
    (h : mapFiles (numberFrom 0 fs) ⟨tp,off,len,plen,[],false⟩ = .ok w) : w.mmaps.Pairwise
    (fun m m' => m.file < m'.file) := by
  have hstart : Climbs 0 [] := ⟨List.Pairwise.nil,fun m hm => by cases hm⟩
  obtain ⟨_,_,-,-,hclimbs⟩ := mapFiles_abreast (R := fun k u u' mm => u' = u ∧ Climbs k mm) (fun hR => ⟨hR.1,hR.2.next⟩)
    (fun hR off len hnone _ => by
      obtain ⟨rfl,hclimbs⟩ := hR
      exact ⟨hnone,rfl,hclimbs.create off len⟩) h ⟨rfl,hstart⟩
  exact hclimbs.climbs

/-- The mappings of a piece as the writing and reading loops need them. -/
structure Laid (tp : Torrent) (ms : List Mmap) : Prop where
  backs : ∀ m ∈ ms, Backs tp m
  apart : Apart ms

/-- `torrent_piece_map` lays out the mappings of a piece so. -/
theorem torrentPieceMap_laid (hb : Backed tp) (hempty : (tp.piece idx).mmaps = [])
    (h : torrentPieceMap tp idx = .ok tp') :
    Laid tp' (tp'.piece idx).mmaps := by
  refine ⟨(hb.torrentPieceMap h).1.views idx,?_⟩
  cases htype : tp.mi.type with
  | singlefile =>
    obtain ⟨-,rfl⟩ := (torrentPieceMap_singlefile htype).mp h
    rw [Torrent.setPiece_self,mmapCreated_piece,hempty]
    exact List.pairwise_singleton _ _
  | multifile =>
    simp only [torrentPieceMap,htype,hempty,zip_range_zero] at h
    obtain ⟨w,hw,h⟩ := bind_ok.mp h
    cases h
    rw [Torrent.setPiece_self]
    refine (mapFiles_climbs hw).imp ?_
    intro m m' hlt heq
    omega

end Mapping

section Splice
variable {tp : Torrent} {idx off : ℕ} {d : Bytes}

theorem torrentBlockWrite_writes (h : Laid tp (tp.piece idx).mmaps) (off : ℕ) (d : Bytes) :
    Writes tp (tp.piece idx).mmaps (overlay (tp.contents idx) off d) (torrentBlockWrite tp idx off d.length d) :=
  blockWriteLoop_overlay h.backs h.apart rfl (Nat.zero_le off)

theorem contents_torrentBlockWrite (h : Laid tp (tp.piece idx).mmaps) (off : ℕ) (d : Bytes) :
    (torrentBlockWrite tp idx off d.length d).contents idx = overlay (tp.contents idx) off d := by
  rw [Torrent.contents,torrentBlockWrite_piece]
  exact (torrentBlockWrite_writes h off d).shown

theorem Laid.write (h : Laid tp (tp.piece idx).mmaps) (off len : ℕ) (d : Bytes) :
    Laid (torrentBlockWrite tp idx off len d) ((torrentBlockWrite tp idx off len d).piece idx).mmaps := by
  rw [torrentBlockWrite_piece]
  exact ⟨fun m hm => (h.backs m hm).grow (Backed.blockWriteLoop_grows off len d _ 0 0 len tp),h.apart⟩

/-- No byte behind the block is read. -/
theorem blockWriteLoop_append (off : ℕ) (d more : Bytes) (ms : List Mmap) (cntlen cntbase : ℕ) {left : ℕ}
    (hleft : left ≤ d.length) (tp : Torrent) : blockWriteLoop off d.length (d ++ more) ms cntlen cntbase left tp =
      blockWriteLoop off d.length d ms cntlen cntbase left tp := by
  have hcopy : ∀ a n, a + n ≤ d.length → ((d ++ more).drop a).take n = (d.drop a).take n := by
    intro a n ha
    exact window_append more ha
  have hfront : ∀ n, n ≤ d.length → (d ++ more).take n = d.take n := fun n hn => List.take_append_of_le_length hn
  induction ms generalizing cntlen cntbase left tp with
  | nil => rfl
  | cons m rest ih =>
    simp only [blockWriteLoop]
    split
    · split
      · rw [hcopy _ _ (by omega)]
        exact ih _ _ (by omega) _
      · rw [hcopy _ _ (by omega)]
    · split
      · exact ih _ _ hleft _
      · split
        · rw [hfront _ (by omega)]
          exact ih _ _ (by omega) _
        · rw [hfront _ (le_refl _)]

def writeBlocks (tp : Torrent) (idx : ℕ) (ws : List (ℕ × Bytes)) : Torrent :=
  ws.foldl (fun tp w => torrentBlockWrite tp idx w.1 w.2.length w.2) tp

theorem writeBlocks_contents (h : Laid tp (tp.piece idx).mmaps) (ws : List (ℕ × Bytes)) :
    (writeBlocks tp idx ws).contents idx = ws.foldl (fun xs w => overlay xs w.1 w.2) (tp.contents idx) := by
  induction ws generalizing tp with
  | nil => rfl
  | cons w ws ih =>
    rw [writeBlocks,List.foldl_cons,List.foldl_cons,← contents_torrentBlockWrite h]
    exact ih (h.write w.1 w.2.length w.2)

end Splice

/-- A block write lays its data over the string the mappings of the piece show, as far as the string
goes, changes no byte outside, and reads nothing behind its data. The blocks of a tiling of the piece
make it up in any order. Mappings made by `torrent_piece_map` are so laid out. -/
theorem block_write_splices (tp : Torrent) (idx : ℕ) (hlaid : Laid tp (tp.piece idx).mmaps) :
    (∀ off d more,
      (torrentBlockWrite tp idx off d.length (d ++ more)).contents idx = overlay (tp.contents idx) off d ∧
      (torrentBlockWrite tp idx off d.length (d ++ more)).piece = tp.piece ∧
      (∀ k x, ¬ Shown (tp.piece idx).mmaps k x →
        ((torrentBlockWrite tp idx off d.length (d ++ more)).fileData k)[x]? = (tp.fileData k)[x]?) ∧
      torrentBlockWrite tp idx off d.length (d ++ more) = torrentBlockWrite tp idx off d.length d) ∧
    ∀ ds ws, ds.flatten.length = mmapsLen (tp.piece idx).mmaps → ws.Perm (tiling 0 ds) →
      (writeBlocks tp idx ws).contents idx = ds.flatten := by
  constructor
  · intro off d more
    have hmore : torrentBlockWrite tp idx off d.length (d ++ more) = torrentBlockWrite tp idx off d.length d :=
      blockWriteLoop_append off d more _ 0 0 (le_refl _) tp
    rw [hmore]
    exact ⟨contents_torrentBlockWrite hlaid off d,torrentBlockWrite_piece tp idx off _ d,
      (torrentBlockWrite_writes hlaid off d).frame,rfl⟩
  · intro ds ws hsize hws
    rw [writeBlocks_contents hlaid]
    apply foldl_overlay_tiling hws
    rw [hsize,Torrent.contents,length_flatMap_mmapBytes hlaid.backs]

/-- A piece of three bytes in two files, with one byte before and one behind what it shows. -/
def Torrent.acrossFiles : Torrent :=
  { torrentPiecesCreate 4096 .twoFiles (fun k => ⟨true,1,some (if k = 0 then [9,0] else [0,0,9]),false⟩) with
    piece := fun i => ⟨false,true,3,i,[⟨0,1,1⟩,⟨1,0,2⟩]⟩ }

theorem laid_acrossFiles : Laid .acrossFiles (Torrent.acrossFiles.piece 0).mmaps := by
  have hfits : ∀ m ∈ (Torrent.acrossFiles.piece 0).mmaps, m.len < 4294967296 ∧
      m.off + m.len ≤ (Torrent.acrossFiles.fileData m.file).length := by decide
  refine ⟨fun m hm => ⟨(hfits m hm).1,(hfits m hm).2⟩,?_⟩
  show List.Pairwise _ [(⟨0,1,1⟩ : Mmap),⟨1,0,2⟩]
  simp

theorem block_write_splices_acrossFiles :
    (torrentBlockWrite .acrossFiles 0 1 3 [5,6,7]).contents 0 = [0,5,6] ∧
      (writeBlocks .acrossFiles 0 [(2,[3]),(0,[1,2])]).contents 0 = [1,2,3] := by
  obtain ⟨hwrite,hblocks⟩ := block_write_splices .acrossFiles 0 laid_acrossFiles
  constructor
  · exact (hwrite 1 [5,6,7] []).1
  · exact hblocks [[1,2],[3]] _ (by decide) (List.Perm.swap _ _ [])

/-- A read of bytes that are there gives just them: the reader neither returns without a block nor
stops, and it hands out a pointer into a mapping only where the bytes lie in one. What was written
is read back. -/
theorem block_read_slices (tp : Torrent) (idx off len : ℕ) (hbacks : ∀ m ∈ (tp.piece idx).mmaps, Backs tp m)
    (hlen : 1 ≤ len) (hfit : off + len ≤ (tp.contents idx).length) :
    (∃ hint, torrentBlockRead tp idx off len = .ok (some (window (tp.contents idx) off len,hint)) ∧
      (hint = false → InOne (tp.piece idx).mmaps off len)) ∧ (window (tp.contents idx) off len).length = len ∧
    (Apart (tp.piece idx).mmaps → ∀ d more, d.length = len →
      ∃ hint, torrentBlockRead (torrentBlockWrite tp idx off len (d ++ more)) idx off len = .ok (some (d,hint))) := by
  have hread : ∀ u : Torrent, (∀ m ∈ (u.piece idx).mmaps, Backs u m) → off + len ≤ (u.contents idx).length →
      ∃ hint, torrentBlockRead u idx off len = .ok (some (window (u.contents idx) off len,hint)) ∧
        (hint = false → InOne (u.piece idx).mmaps off len) := by
    intro u hbacks hfit
    have hsize : off - 0 + len ≤ mmapsLen (u.piece idx).mmaps := by
      rwa [Torrent.contents,length_flatMap_mmapBytes hbacks] at hfit
    have hne : (u.piece idx).mmaps ≠ [] := by
      intro hnil
      rw [hnil] at hsize
      have : mmapsLen [] = 0 := rfl
      omega
    exact blockReadLoop_slice hbacks hne (Nat.zero_le off) hsize
  refine ⟨hread tp hbacks hfit,length_window hfit,?_⟩
  rintro hapart d more rfl
  have hlaid : Laid tp (tp.piece idx).mmaps := ⟨hbacks,hapart⟩
  have hmore : torrentBlockWrite tp idx off d.length (d ++ more) = torrentBlockWrite tp idx off d.length d :=
    blockWriteLoop_append off d more _ 0 0 (le_refl _) tp
  have hcont := contents_torrentBlockWrite hlaid off d
  rw [hmore]
  obtain ⟨hint,hback,-⟩ := hread _ (hlaid.write off d.length d).backs (by rwa [hcont,length_overlay])
  refine ⟨hint,?_⟩
  rw [hback,hcont,window_overlay hfit]

theorem block_read_slices_acrossFiles : ∃ hint, torrentBlockRead .acrossFiles 0 0 3 = .ok (some ([0,0,0],hint)) ∧
    ∃ hint', torrentBlockRead (torrentBlockWrite .acrossFiles 0 0 3 [1,2,3]) 0 0 3 = .ok (some ([1,2,3],hint')) := by
  obtain ⟨⟨hint,hread,-⟩,-,hback⟩ := block_read_slices .acrossFiles 0 0 3 laid_acrossFiles.backs (by decide) (by decide)
  exact ⟨hint,hread,hback laid_acrossFiles.apart [1,2,3] [] rfl⟩

end Unworkable
