import Unworkable.Torrent.Counters

/-! # What the mappings of a piece show

The contents of a mapped piece are the bytes its mappings show, one after the other. Files only
grow, so a mapping stays inside its file, and the block reader returns exactly the bytes asked
for as long as they lie inside the piece.
-/
namespace Unworkable
open Library

def Torrent.contents (tp : Torrent) (i : ℕ) : Bytes := (tp.piece i).mmaps.flatMap tp.mmapBytes

def mmapsLen (l : List Mmap) : ℕ := (l.map Mmap.len).sum

@[simp] theorem mmapsLen_append (l l' : List Mmap) : mmapsLen (l ++ l') = mmapsLen l + mmapsLen l' := by
  simp [mmapsLen]

@[simp] theorem mmapsLen_cons (m : Mmap) (l : List Mmap) : mmapsLen (m :: l) = m.len + mmapsLen l := by
  simp [mmapsLen]

structure Backs (tp : Torrent) (m : Mmap) : Prop where
  short : m.len < 4294967296
  fits : m.off + m.len ≤ (tp.fileData m.file).length

def Extends (tp tp' : Torrent) : Prop := ∀ i, ∃ more, tp'.fileData i = tp.fileData i ++ more

theorem Extends.refl (tp : Torrent) : Extends tp tp := fun _ => ⟨[],(List.append_nil _).symm⟩

theorem Extends.trans {tp tp' tp'' : Torrent} (h : Extends tp tp') (h' : Extends tp' tp'') : Extends tp tp'' := by
  intro i
  obtain ⟨a,ha⟩ := h i
  obtain ⟨b,hb⟩ := h' i
  exact ⟨a ++ b,by rw [hb,ha,List.append_assoc]⟩

theorem mmapCreated_fileData (tp : Torrent) (file off len i : ℕ) : (mmapCreated tp file off len).1.fileData i =
    if i = file then extendTo (tp.fileData file) (len + off) else tp.fileData i :=
  tp.setFile_fileData file i (fun f =>
    { fd := true, refs := f.refs + 1, data := some (extendTo (f.data.getD []) (len + off)),
      rdonly := if f.fd && !tp.tooShort file off len then f.rdonly else tp.opensRdonly })

theorem extends_mmapCreated (tp : Torrent) (file off len : ℕ) :
    Extends tp (mmapCreated tp file off len).1 := by
  intro i
  rw [mmapCreated_fileData]
  split
  · rename_i hi
    rw [hi]
    exact exists_extendTo _ _
  · exact ⟨[],(List.append_nil _).symm⟩

theorem backs_mmapCreated (tp : Torrent) (file off : ℕ) {len : ℕ} (hlen : len < 4294967296) :
    Backs (mmapCreated tp file off len).1 (mmapCreated tp file off len).2 := by
  refine ⟨hlen,?_⟩
  have hsize := length_extendTo (tp.fileData file) (len + off)
  rw [show (mmapCreated tp file off len).2 = ⟨file,off,len⟩ from rfl,mmapCreated_fileData,if_pos rfl]
  dsimp only
  omega

section Backs
variable {tp tp' : Torrent} {m : Mmap} {l : List Mmap}

theorem Backs.length (h : Backs tp m) : (tp.mmapBytes m).length = m.len := length_window h.fits

theorem Backs.grow (h : Backs tp m) (hg : ∀ i, (tp.fileData i).length ≤ (tp'.fileData i).length) : Backs tp' m :=
  ⟨h.short,h.fits.trans (hg m.file)⟩

theorem Backs.setPiece (h : Backs tp m) (i : ℕ) (f : TorrentPiece → TorrentPiece) : Backs (tp.setPiece i f) m :=
  ⟨h.short,h.fits⟩

theorem Extends.grows (h : Extends tp tp') (i : ℕ) : (tp.fileData i).length ≤ (tp'.fileData i).length := by
  obtain ⟨more,hmore⟩ := h i
  rw [hmore,List.length_append]
  omega

theorem Backs.extend (h : Backs tp m) (he : Extends tp tp') : Backs tp' m ∧ tp'.mmapBytes m = tp.mmapBytes m := by
  obtain ⟨more,hmore⟩ := he m.file
  refine ⟨h.grow he.grows,?_⟩
  rw [Torrent.mmapBytes,hmore]
  exact window_append more h.fits

theorem length_flatMap_mmapBytes (h : ∀ m ∈ l, Backs tp m) : (l.flatMap tp.mmapBytes).length = mmapsLen l := by
  induction l with
  | nil => rfl
  | cons m l ih =>
    rw [List.flatMap_cons,List.length_append,mmapsLen_cons,(h m List.mem_cons_self).length,
      ih (fun m' hm' => h m' (List.mem_cons_of_mem m hm'))]

end Backs

/-- Mappings stay inside their files, and a mapped piece is no longer than its mappings. -/
structure Backed (tp : Torrent) : Prop where
  short : ∀ i, (tp.piece i).len < 4294967296
  views : ∀ i, ∀ m ∈ (tp.piece i).mmaps, Backs tp m
  sized : ∀ i, (tp.piece i).mapped = true → (tp.piece i).len ≤ mmapsLen (tp.piece i).mmaps

namespace Backed
variable {sha1 : Bytes → Bytes} {tp tp' : Torrent}

theorem create (pagesize : ℕ) (mi : Metainfo) (disk : ℕ → FileState) :
    Backed (torrentPiecesCreate pagesize mi disk) where
  short := pieceLen_lt mi
  views i m hm := by cases hm
  sized i h := by cases h

theorem grow (h : Backed tp) (hpiece : ∀ i, (tp'.piece i).len = (tp.piece i).len ∧
    (tp'.piece i).mmaps = (tp.piece i).mmaps ∧ (tp'.piece i).mapped = (tp.piece i).mapped)
    (hg : ∀ i, (tp.fileData i).length ≤ (tp'.fileData i).length) : Backed tp' := by
  constructor
  · intro i
    rw [(hpiece i).1]
    exact h.short i
  · intro i m hm
    rw [(hpiece i).2.1] at hm
    exact (h.views i m hm).grow hg
  · intro i hm
    rw [(hpiece i).2.2] at hm
    rw [(hpiece i).1,(hpiece i).2.1]
    exact h.sized i hm

/-- A change of one piece descriptor, with files that grow. -/
theorem update (h : Backed tp) (idx : ℕ) (t : TorrentPiece) (hpiece : tp'.piece = Function.update tp.piece idx t)
    (hg : ∀ i, (tp.fileData i).length ≤ (tp'.fileData i).length) (hshort : t.len < 4294967296)
    (hviews : ∀ m ∈ t.mmaps, Backs tp' m) (hsized : t.mapped = true → t.len ≤ mmapsLen t.mmaps) : Backed tp' := by
  have hother : ∀ i, i ≠ idx → tp'.piece i = tp.piece i := fun i hi => by rw [hpiece,Function.update_of_ne hi]
  have hself : tp'.piece idx = t := by rw [hpiece,Function.update_self]
  constructor
  · intro i
    by_cases hi : i = idx
    · rw [hi,hself]
      exact hshort
    · rw [hother i hi]
      exact h.short i
  · intro i m hm
    by_cases hi : i = idx
    · rw [hi,hself] at hm
      exact hviews m hm
    · rw [hother i hi] at hm
      exact (h.views i m hm).grow hg
  · intro i hm
    by_cases hi : i = idx
    · rw [hi,hself] at hm ⊢
      exact hsized hm
    · rw [hother i hi] at hm ⊢
      exact h.sized i hm

structure Walk (tp : Torrent) (w : MapWalk) : Prop where
  extend : Extends tp w.tp
  views : ∀ m ∈ w.mmaps, Backs w.tp m
  short : w.plen < 4294967296
  sized : w.plen ≤ mmapsLen w.mmaps

theorem Walk.created {w : MapWalk} (h : Walk tp w) (file : ℕ) (off n : ℤ) : Walk tp (w.created file off n) := by
  have he := extends_mmapCreated w.tp file off.toNat (wrapInt32 n)
  have hb := backs_mmapCreated w.tp file off.toNat (wrapInt32_lt n)
  constructor
  · exact h.extend.trans he
  · intro m hm
    rcases List.mem_append.mp hm with hm | hm
    · exact ((h.views m hm).extend he).1
    · rw [List.mem_singleton.mp hm]
      exact hb
  · exact wrap32_lt _
  · have hsized := h.sized
    rw [show (w.created file off n).plen = wrap32 (w.plen + wrapInt32 n) from rfl,
      show mmapsLen (w.created file off n).mmaps = mmapsLen w.mmaps + wrapInt32 n by
        simp [MapWalk.created,MapWalk.link,mmapsLen,mmapCreated]]
    unfold wrap32
    omega

theorem torrentPieceMap {idx : ℕ} (h : Backed tp) (hmap : torrentPieceMap tp idx = .ok tp') :
    Backed tp' ∧ Extends tp tp' := by
  cases htype : tp.mi.type with
  | singlefile =>
    obtain ⟨-,rfl⟩ := (torrentPieceMap_singlefile htype).mp hmap
    have he := extends_mmapCreated tp 0 (tp.mi.pieceLength * (tp.piece idx).index) (tp.piece idx).len
    have hb := backs_mmapCreated tp 0 (tp.mi.pieceLength * (tp.piece idx).index) (h.short idx)
    refine ⟨h.update idx _ rfl he.grows (h.short idx) ?_ ?_,he⟩
    · intro m hm
      rcases List.mem_append.mp hm with hm | hm
      · exact ((h.views idx m hm).extend he).1.setPiece _ _
      · rw [List.mem_singleton.mp hm]
        exact hb.setPiece _ _
    · intro _
      simp [mmapCreated,mmapsLen]
  | multifile =>
    simp only [Unworkable.torrentPieceMap,htype] at hmap
    obtain ⟨w,hw,hmap⟩ := bind_ok.mp hmap
    cases hmap
    have hwalk : Walk tp w := by
      refine mapFiles_keeps (P := Walk tp) (fun _ file off n hv => hv.created file off n)
        (fun _ _ _ _ hv => ⟨hv.extend,hv.views,hv.short,hv.sized⟩) ⟨.refl tp,h.views idx,Nat.zero_lt_succ _,
          Nat.zero_le _⟩ hw
    have hpiece := (mapFiles_frame hw).2
    refine ⟨h.update idx { tp.piece idx with len := w.plen, mmaps := w.mmaps, mapped := true } ?_ hwalk.extend.grows
      hwalk.short (fun m hm => (hwalk.views m hm).setPiece _ _) (fun _ => hwalk.sized),hwalk.extend⟩
    rw [Torrent.setPiece,hpiece]

theorem ensureMapped {idx : ℕ} (h : Backed tp) (hmap : ensureMapped tp idx = .ok tp') : Backed tp' ∧
    Extends tp tp' := by
  unfold Unworkable.ensureMapped at hmap
  split at hmap
  · cases hmap
    exact ⟨h,.refl tp⟩
  · exact h.torrentPieceMap hmap

theorem unmap (h : Backed tp) (idx : ℕ) : Backed (torrentPieceUnmap tp idx) := by
  obtain ⟨-,hpiece,hdata⟩ := Intact.foldl_unmapTurn (tp.piece idx).mmaps tp
  refine h.update idx { tp.piece idx with mmaps := [], mapped := false } ?_ ?_ (h.short idx) ?_ ?_
  · simp only [torrentPieceUnmap,Torrent.setPiece,hpiece]
  · intro i
    rw [torrentPieceUnmap,Torrent.setPiece_fileData,hdata]
  · intro m hm
    cases hm
  · intro hm
    cases hm

theorem move (h : Backed tp) (hmove : TorrentMove sha1 tp tp') : Backed tp' := by
  cases hmove with
  | counters _ hpiece hdisk =>
    refine h.grow (fun i => by rw [hpiece]; exact ⟨rfl,rfl,rfl⟩) ?_
    intro i
    rw [Torrent.fileData,Torrent.fileData,hdisk]
  | map hmap => exact (h.torrentPieceMap hmap).1
  | unmap idx => exact h.unmap idx
  | @verify _ idx _ _ _ hcheck =>
    rcases torrentPieceCheckhash_cases hcheck with ⟨-,rfl⟩ | ⟨-,rfl⟩
    · refine h.grow ?_ (fun _ => le_refl _)
      intro i
      by_cases hi : i = idx
      · simp [hi]
      · simp [Torrent.setPiece_ne _ _ hi]
    · exact h

theorem length_le_splice (xs ys : Bytes) (pos : ℕ) : xs.length ≤ (splice xs pos ys).length := by
  simp only [splice,List.length_append,List.length_take,List.length_drop]
  omega

theorem blockWriteLoop_grows (off len : ℕ) (d : Bytes) (l : List Mmap) (cntlen cntbase bytesleft : ℕ) (tp : Torrent)
    (i : ℕ) : (tp.fileData i).length ≤ ((blockWriteLoop off len d l cntlen cntbase bytesleft tp).fileData
      i).length := by
  have hturn : ∀ (tp : Torrent) m rel bs, (tp.fileData i).length ≤ ((tp.mmapWrite m rel bs).fileData i).length := by
    intro tp m rel bs
    rw [Torrent.mmapWrite,Torrent.setFile_fileData]
    split
    · rename_i hi
      rw [hi]
      exact length_le_splice _ _ _
    · exact le_refl _
  induction l generalizing cntlen cntbase bytesleft tp with
  | nil => exact le_refl _
  | cons m rest ih =>
    simp only [blockWriteLoop]
    split_ifs
    · exact (hturn tp m 0 _).trans (ih _ _ _ _)
    · exact hturn tp m 0 _
    · exact ih _ _ _ _
    · exact (hturn tp m _ _).trans (ih _ _ _ _)
    · exact hturn tp m _ _

theorem write (h : Backed tp) (idx off len : ℕ) (d : Bytes) : Backed (torrentBlockWrite tp idx off len d) := by
  refine h.grow ?_ (blockWriteLoop_grows off len d _ 0 0 len tp)
  intro i
  rw [torrentBlockWrite_piece]
  exact ⟨rfl,rfl,rfl⟩

end Backed

section Read
variable {tp tp' : Torrent} {off : ℕ} {l : List Mmap}

/-- The copying part of the reader: the bytes at the front of the mappings that follow. -/
theorem blockReadLoop_copy (hl : ∀ m ∈ l, Backs tp m) {cntlen tlen : ℕ} (hcnt : off ≤ cntlen)
    (htlen : tlen ≤ mmapsLen l)
    (b : Bytes) : blockReadLoop tp off l cntlen off tlen (some b) =
      .ok (some (b ++ (l.flatMap tp.mmapBytes).take tlen,true)) := by
  induction l generalizing cntlen tlen b with
  | nil =>
    have hzero : tlen = 0 := by simpa [mmapsLen] using htlen
    simp [blockReadLoop]
  | cons m rest ih =>
    have hm := hl m List.mem_cons_self
    have hlen := hm.length
    have hilen : wrapInt32 ((m.len : ℤ) - ((off : ℤ) - off)) = m.len := by
      have := hm.short
      unfold wrapInt32
      omega
    rw [mmapsLen_cons] at htlen
    simp only [blockReadLoop,hilen,Nat.sub_self,List.drop_zero,lt_irrefl,if_false,Nat.max_self]
    rw [if_neg (by omega)]
    split
    · rename_i hlt
      rw [ih (fun m' hm' => hl m' (List.mem_cons_of_mem m hm')) (by omega) (by omega)]
      rw [Option.getD_some,List.flatMap_cons,List.take_of_length_le hlen.le,List.append_assoc,List.take_append,
        List.take_of_length_le (by omega : (tp.mmapBytes m).length ≤ tlen),hlen]
    · rw [List.flatMap_cons,List.take_append_of_le_length (by omega)]

/-- The bytes `[off, off + len)` of a list of mappings lie in one of them. -/
def InOne (ms : List Mmap) (off len : ℕ) : Prop :=
  ∃ pre m post, ms = pre ++ m :: post ∧ mmapsLen pre ≤ off ∧ off + len ≤ mmapsLen pre + m.len

theorem InOne.cons {ms : List Mmap} {o n : ℕ} (h : InOne ms o n) (m : Mmap) : InOne (m :: ms) (m.len + o) n := by
  obtain ⟨pre,m',post,rfl,hlow,hhigh⟩ := h
  refine ⟨m :: pre,m',post,rfl,?_,?_⟩
  · rw [mmapsLen_cons]
    omega
  · rw [mmapsLen_cons]
    omega

/-- The reader skips to the offset and then returns exactly the bytes asked for, without a copy only
where they lie in one mapping. -/
theorem blockReadLoop_slice (hl : ∀ m ∈ l, Backs tp m) (hne : l ≠ []) {cnt tlen : ℕ} (hcnt : cnt ≤ off)
    (hfit : off - cnt + tlen ≤ mmapsLen l) : ∃ hint, blockReadLoop tp off l cnt cnt tlen none =
      .ok (some (window (l.flatMap tp.mmapBytes) (off - cnt) tlen,hint)) ∧
        (hint = false → InOne l (off - cnt) tlen) := by
  induction l generalizing cnt with
  | nil => exact (hne rfl).elim
  | cons m rest ih =>
    have hm := hl m List.mem_cons_self
    have hlen := hm.length
    have hrest : ∀ m' ∈ rest, Backs tp m' := fun m' hm' => hl m' (List.mem_cons_of_mem m hm')
    rw [mmapsLen_cons] at hfit
    simp only [blockReadLoop]
    rw [List.flatMap_cons,window]
    by_cases hskip : cnt + m.len < off
    · rw [if_pos hskip]
      have hmore : rest ≠ [] := by
        rintro rfl
        have : mmapsLen [] = 0 := rfl
        omega
      have hnil : (tp.mmapBytes m).drop (off - cnt) = [] := List.drop_eq_nil_of_le (by omega)
      obtain ⟨hint,hread,hone⟩ := ih hrest hmore (show cnt + m.len ≤ off by omega) (by omega)
      refine ⟨hint,?_,?_⟩
      · rw [hread,window,List.drop_append,hnil,List.nil_append,hlen,Nat.sub_sub]
      · intro hhint
        have hcons := (hone hhint).cons m
        rwa [show m.len + (off - (cnt + m.len)) = off - cnt by omega] at hcons
    · rw [if_neg hskip]
      -- the block starts in this mapping
      have hilen : wrapInt32 ((m.len : ℤ) - ((off : ℤ) - cnt)) = m.len - (off - cnt) := by
        have := hm.short
        unfold wrapInt32
        omega
      have hdrop : ((tp.mmapBytes m).drop (off - cnt)).length = m.len - (off - cnt) := by rw [List.length_drop,hlen]
      rw [hilen,if_neg (by omega),List.drop_append_of_le_length (by omega)]
      split
      · rename_i hlt
        rw [Nat.max_eq_right hcnt,blockReadLoop_copy hrest (by omega) (by omega)]
        refine ⟨true,?_,fun h => by cases h⟩
        rw [Option.getD_none,List.nil_append,List.take_of_length_le hdrop.le,List.take_append,
          List.take_of_length_le (by omega : ((tp.mmapBytes m).drop (off - cnt)).length ≤ tlen),hdrop]
      · refine ⟨false,?_,fun _ => ⟨[],m,rest,rfl,Nat.zero_le _,?_⟩⟩
        · rw [List.take_append_of_le_length (by omega)]
        · have : mmapsLen [] = 0 := rfl
          omega

theorem blockReadLoop_window (hl : ∀ m ∈ l, Backs tp m) {cnt tlen : ℕ} (hcnt : cnt ≤ off)
    (hfit : off - cnt + tlen ≤ mmapsLen l) {d : Bytes} {hint : Bool}
    (h : blockReadLoop tp off l cnt cnt tlen none = .ok (some (d,hint))) :
    d = window (l.flatMap tp.mmapBytes) (off - cnt) tlen := by
  have hne : l ≠ [] := by
    rintro rfl
    cases h
  obtain ⟨hint',hread,-⟩ := blockReadLoop_slice hl hne hcnt hfit
  rw [hread] at h
  cases h
  rfl

theorem Backed.torrentBlockRead (h : Backed tp) {idx len : ℕ} (hmapped : (tp.piece idx).mapped = true)
    (hfit : off + len ≤ (tp.piece idx).len) {d : Bytes} {hint : Bool}
    (hread : torrentBlockRead tp idx off len = .ok (some (d,hint))) :
    d = window (tp.contents idx) off len ∧ d.length = len := by
  have hsized := h.sized idx hmapped
  have hd : d = window (tp.contents idx) off len :=
    blockReadLoop_window (h.views idx) (Nat.zero_le off) (by omega) hread
  refine ⟨hd,?_⟩
  rw [hd]
  apply length_window
  rw [Torrent.contents,length_flatMap_mmapBytes (h.views idx)]
  omega

theorem ensureMapped_mapped_piece {i idx : ℕ} (h : ensureMapped tp i = .ok tp') (hm : (tp.piece idx).mapped = true) :
    tp'.piece idx = tp.piece idx := by
  unfold ensureMapped at h
  split at h
  · cases h
    rfl
  · rename_i hi
    refine torrentPieceMap_other h ?_
    rintro rfl
    exact hi hm

/-- A mapped piece keeps its length and its contents while others get mapped. -/
theorem Remapped.contents (h : Remapped tp tp') (hb : Backed tp) {idx : ℕ} (hmapped : (tp.piece idx).mapped = true) :
    Backed tp' ∧ tp'.piece idx = tp.piece idx ∧ tp'.contents idx = tp.contents idx := by
  induction h with
  | refl => exact ⟨hb,rfl,rfl⟩
  | @tail u v _ hmap ih =>
    obtain ⟨i,hmap⟩ := hmap
    obtain ⟨hbu,hpiece,hcont⟩ := ih
    obtain ⟨hbv,he⟩ := hbu.ensureMapped hmap
    have hsame : v.piece idx = u.piece idx := ensureMapped_mapped_piece hmap (by rw [hpiece]; exact hmapped)
    refine ⟨hbv,hsame.trans hpiece,?_⟩
    rw [← hcont,Torrent.contents,Torrent.contents,hsame]
    exact List.flatMap_congr (fun m hm => ((hbu.views idx m hm).extend he).2)

end Read

/-- In a single-file torrent every piece is mapped from its own range of the file. -/
def Viewed (tp : Torrent) : Prop := tp.mi.type = .singlefile → ∀ i, (tp.piece i).len = pieceLen tp.mi i ∧
  (tp.piece i).index = i ∧ ∀ m ∈ (tp.piece i).mmaps, m = tp.mi.view i

namespace Viewed
variable {sha1 : Bytes → Bytes} {tp tp' : Torrent}

theorem create (pagesize : ℕ) (mi : Metainfo) (disk : ℕ → FileState) :
    Viewed (torrentPiecesCreate pagesize mi disk) := by
  intro _ i
  refine ⟨rfl,rfl,?_⟩
  intro m hm
  cases hm

theorem congr (h : Viewed tp) (hmi : tp'.mi = tp.mi) (hpiece : ∀ i, (tp'.piece i).len = (tp.piece i).len ∧
    (tp'.piece i).index = (tp.piece i).index ∧ ∀ m ∈ (tp'.piece i).mmaps, m ∈ (tp.piece i).mmaps) : Viewed tp' := by
  intro hs i
  rw [hmi] at hs ⊢
  obtain ⟨hlen,hindex,hviews⟩ := h hs i
  obtain ⟨hlen',hindex',hmem⟩ := hpiece i
  exact ⟨hlen'.trans hlen,hindex'.trans hindex,fun m hm => hviews m (hmem m hm)⟩

theorem setPiece (h : Viewed tp) (idx : ℕ) {f : TorrentPiece → TorrentPiece}
    (hlen : (f (tp.piece idx)).len = (tp.piece idx).len)
    (hindex : (f (tp.piece idx)).index = (tp.piece idx).index)
    (hmmaps : ∀ m ∈ (f (tp.piece idx)).mmaps, m ∈ (tp.piece idx).mmaps) : Viewed (tp.setPiece idx f) := by
  refine h.congr rfl ?_
  intro i
  by_cases hi : i = idx
  · rw [hi,Torrent.setPiece_self]
    exact ⟨hlen,hindex,hmmaps⟩
  · rw [Torrent.setPiece_ne _ _ hi]
    exact ⟨rfl,rfl,fun _ hm => hm⟩

theorem move (h : Viewed tp) (hmove : TorrentMove sha1 tp tp') : Viewed tp' := by
  cases hmove with
  | counters hmi hpiece _ => exact h.congr hmi (fun i => by rw [hpiece]; exact ⟨rfl,rfl,fun _ hm => hm⟩)
  | @map _ idx hmap =>
    intro hs i
    rw [torrentPieceMap_mi hmap] at hs ⊢
    by_cases hi : i = idx
    · subst hi
      obtain ⟨hlen,hindex,hviews⟩ := h hs i
      obtain ⟨-,rfl⟩ := (torrentPieceMap_singlefile hs).mp hmap
      rw [Torrent.setPiece_self,hlen,hindex]
      refine ⟨hlen,hindex,?_⟩
      intro m hm
      rcases List.mem_append.mp hm with hm | hm
      · exact hviews m hm
      · exact List.mem_singleton.mp hm
    · rw [torrentPieceMap_other hmap hi]
      exact h hs i
  | unmap idx =>
    obtain ⟨hmi,hpiece,-⟩ := Intact.foldl_unmapTurn (tp.piece idx).mmaps tp
    have hfold : Viewed ((tp.piece idx).mmaps.foldl unmapTurn tp) :=
      h.congr hmi (fun i => by rw [hpiece]; exact ⟨rfl,rfl,fun _ hm => hm⟩)
    exact hfold.setPiece idx rfl rfl (fun m hm => by cases hm)
  | verify _ hcheck =>
    rcases torrentPieceCheckhash_cases hcheck with ⟨-,rfl⟩ | ⟨-,rfl⟩
    · exact h.setPiece _ rfl rfl (fun _ hm => hm)
    · exact h

theorem write (h : Viewed tp) (idx off len : ℕ) (d : Bytes) : Viewed (torrentBlockWrite tp idx off len d) :=
  h.congr (torrentBlockWrite_mi _ _ _ _ _) (fun i => by rw [torrentBlockWrite_piece]; exact ⟨rfl,rfl,fun _ hm => hm⟩)

/-- What lies inside a mapped piece of a single-file torrent is the range of the file. -/
theorem window_contents (h : Viewed tp) (hb : Backed tp) (hs : tp.mi.type = .singlefile) {idx off len : ℕ}
    (hmapped : (tp.piece idx).mapped = true) (hfit : off + len ≤ (tp.piece idx).len) :
    window (tp.contents idx) off len = window (tp.fileData 0) (tp.mi.pieceLength * idx + off) len := by
  obtain ⟨hlen,-,hviews⟩ := h hs idx
  have hsized := hb.sized idx hmapped
  cases hm : (tp.piece idx).mmaps with
  | nil =>
    rw [hm] at hsized
    have hzero : len = 0 := by
      have : mmapsLen [] = 0 := rfl
      omega
    simp [hzero,window]
  | cons m rest =>
    have hmem : m ∈ (tp.piece idx).mmaps := by rw [hm]; exact List.mem_cons_self
    have hview : m = tp.mi.view idx := hviews m hmem
    have hsize : (tp.mmapBytes m).length = pieceLen tp.mi idx := by
      rw [(hb.views idx m hmem).length,hview]
      rfl
    rw [Torrent.contents,hm,List.flatMap_cons,window_append _ (by omega),hview]
    exact window_window _ (by rw [hlen] at hfit; exact hfit)

end Viewed

end Unworkable
