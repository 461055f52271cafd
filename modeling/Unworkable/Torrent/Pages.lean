import Unworkable.Torrent.Contents
import Mathlib.Order.Interval.Finset.Nat

/-! # The pages of a mapping

`torrent_mmap_create` maps from the page boundary in front of the offset, and longer by as much.
The record has the length without it, and this is what `torrent_piece_sync` and
`torrent_piece_unmap` go by.
-/
namespace Unworkable
open Library

/-- The addresses of a `struct torrent_mmap`. -/
structure MmapRecord where
  alignedAddr : ℕ
  addr : ℕ
  len : ℕ
  deriving DecidableEq, Repr

section Pages
variable (pagesize : ℕ)

def pageCount (n : ℕ) : ℕ := (n + pagesize - 1) / pagesize

/-- The pages of a range that starts with a page, as `mmap`, `msync` and `munmap` round it up. -/
def pagesFrom (addr n : ℕ) : Finset ℕ := Finset.Ico (addr / pagesize) (addr / pagesize + pageCount pagesize n)

/-- `page_off` in `torrent_mmap_create`. -/
def pageOff (off : ℕ) : ℕ := if 0 < off then off / pagesize * pagesize else 0

/-- The length that is mapped: the 32-bit `len` with what the offset is past its page. -/
def mapLen (off len : ℕ) : ℕ := if 0 < off then wrap32 (len + (off - pageOff pagesize off)) else len

/-- The end of `torrent_mmap_create`, in a process with some pages mapped. The system gives an address. -/
def mmapCreate (mapped : Finset ℕ) (addr off len : ℕ) : Except Halt (Finset ℕ × MmapRecord) :=
  if mapLen pagesize off len = 0 then .error (.errx "torrent_mmap_create: mmap")
  else .ok (mapped ∪ pagesFrom pagesize addr (mapLen pagesize off len),⟨addr,addr + (off - pageOff pagesize off),len⟩)

/-- The pages of a record that `torrent_piece_sync` and `torrent_piece_unmap` hand to `msync`. -/
def syncedPages (r : MmapRecord) : Finset ℕ := pagesFrom pagesize r.alignedAddr r.len

/-- One turn of `torrent_piece_unmap` over the records of a piece. `msync` fails on a page that is not mapped. -/
def unmapRecord (mapped : Finset ℕ) (r : MmapRecord) : Except Halt (Finset ℕ) :=
  if ¬ syncedPages pagesize r ⊆ mapped then .error (.errx "torrent_piece_unmap: msync")
  else if r.len = 0 then .error (.errx "torrent_piece_unmap: munmap")
  else .ok (mapped \ pagesFrom pagesize r.alignedAddr r.len)

/-- A record is created at an address, and gone again. -/
def mapCycle (off len : ℕ) (mapped : Finset ℕ) (addr : ℕ) : Except Halt (Finset ℕ) := do
  let (mapped,r) ← mmapCreate pagesize mapped addr off len
  unmapRecord pagesize mapped r

/-- The pages handed to `msync` and `munmap` are those that were mapped, and cycles at new addresses leave
nothing mapped. -/
structure UndoesMap (off len : ℕ) : Prop where
  range : ∀ mapped addr mapped' r, mmapCreate pagesize mapped addr off len = .ok (mapped',r) →
    syncedPages pagesize r = pagesFrom pagesize addr (mapLen pagesize off len)
  cycles : ∀ (mapped : Finset ℕ) (addrs : List ℕ) mapped',
    (∀ a ∈ addrs, Disjoint mapped (pagesFrom pagesize a (mapLen pagesize off len))) →
    addrs.foldlM (mapCycle pagesize off len) mapped = .ok mapped' → mapped' = mapped

/-- The data ends on the page that it would end on if it started with a page. The last case is that of a length that
wraps: to zero, and `mmap` fails, or to part of a page, when the data is not longer than one either. -/
def EndsAlike (off len : ℕ) : Prop :=
  off % pagesize = 0 ∨
  0 < len ∧ (len - 1) % pagesize + off % pagesize < pagesize ∧ len + off % pagesize < 4294967296 ∨
  4294967296 ≤ len + off % pagesize ∧ (4294967296 ∣ len + off % pagesize ∨ 0 < len ∧ len ≤ pagesize)

end Pages

section Counts
variable {pagesize off len : ℕ}

theorem mapLen_eq (hlen : len < 4294967296) : mapLen pagesize off len = wrap32 (len + off % pagesize) := by
  unfold mapLen pageOff
  by_cases hoff : 0 < off
  · rw [if_pos hoff,if_pos hoff,← Nat.mod_eq_sub_div_mul]
  · rw [if_neg hoff,Nat.eq_zero_of_not_pos hoff,Nat.zero_mod,Nat.add_zero,wrap32_of_lt hlen]

theorem pageCount_pos {n : ℕ} (hp : 0 < pagesize) (hn : 0 < n) : pageCount pagesize n = (n - 1) / pagesize + 1 := by
  unfold pageCount
  rw [← Nat.add_div_right _ hp]
  congr 1
  omega

theorem pageCount_one {n : ℕ} (hp : 0 < pagesize) (hn : 0 < n) : pageCount pagesize n = 1 ↔ n ≤ pagesize := by
  rw [pageCount_pos hp hn,Nat.add_eq_right,Nat.div_eq_zero_iff]
  omega

/-- As many pages with a remainder in front as without it. -/
theorem pageCount_add {n r : ℕ} (hp : 0 < pagesize) (hn : 0 < n) :
    pageCount pagesize (n + r) = pageCount pagesize n ↔ (n - 1) % pagesize + r < pagesize := by
  have hsplit : n + r - 1 = (n - 1) % pagesize + r + pagesize * ((n - 1) / pagesize) := by
    have hdiv := Nat.mod_add_div (n - 1) pagesize
    omega
  rw [pageCount_pos hp hn,pageCount_pos hp (by omega),hsplit,Nat.add_mul_div_left _ _ hp,Nat.add_right_cancel_iff,
    Nat.add_eq_right,Nat.div_eq_zero_iff]
  omega

theorem pagesFrom_inj {addr n m : ℕ} : pagesFrom pagesize addr n = pagesFrom pagesize addr m ↔
    pageCount pagesize n = pageCount pagesize m := by
  constructor
  · intro h
    have hcard := congrArg Finset.card h
    unfold pagesFrom at hcard
    rwa [Nat.card_Ico,Nat.card_Ico,Nat.add_sub_cancel_left,Nat.add_sub_cancel_left] at hcard
  · intro h
    rw [pagesFrom,h,pagesFrom]

/-- A length that wraps is at most a page. -/
theorem pageCount_wrapped {r : ℕ} (hp : 0 < pagesize) (hr : r < pagesize) (hlen : len < 4294967296)
    (hwraps : 4294967296 ≤ len + r)
    (hne : wrap32 (len + r) ≠ 0) : pageCount pagesize (wrap32 (len + r)) = 1 := by
  apply (pageCount_one hp (Nat.pos_of_ne_zero hne)).mpr
  have hlt := wrap32_lt (len + r)
  unfold wrap32 at hlt ⊢
  omega

theorem pageCount_zero (hp : 0 < pagesize) : pageCount pagesize 0 = 0 := by
  rw [pageCount,Nat.div_eq_zero_iff]
  omega

/-- The lengths are of as many pages, unless nothing is mapped. -/
theorem endsAlike_iff (hp : 0 < pagesize) (hlen : len < 4294967296) : EndsAlike pagesize off len ↔
    mapLen pagesize off len = 0 ∨ pageCount pagesize len = pageCount pagesize (mapLen pagesize off len) := by
  have hr : off % pagesize < pagesize := Nat.mod_lt _ hp
  rw [mapLen_eq hlen,EndsAlike]
  generalize off % pagesize = r at hr ⊢
  by_cases hzero : r = 0
  · have hword : wrap32 (len + 0) = len := wrap32_of_lt hlen
    rw [hzero,hword]
    exact iff_of_true (.inl rfl) (.inr rfl)
  rcases Nat.lt_or_ge (len + r) 4294967296 with hlt | hge
  · rw [wrap32_of_lt hlt]
    by_cases hpos : 0 < len
    · rw [eq_comm (a := pageCount pagesize len),pageCount_add hp hpos]
      omega
    · rw [Nat.eq_zero_of_not_pos hpos,Nat.zero_add,pageCount_zero hp,pageCount_pos hp (Nat.pos_of_ne_zero hzero)]
      constructor
      · intro h
        omega
      · rintro (h | h)
        · exact .inl h
        · exact absurd h.symm (Nat.succ_ne_zero _)
  · have hdvd : 4294967296 ∣ len + r ↔ wrap32 (len + r) = 0 := Nat.dvd_iff_mod_eq_zero
    rw [hdvd]
    by_cases hnone : wrap32 (len + r) = 0
    · exact iff_of_true (.inr (.inr ⟨hge,.inl hnone⟩)) (.inl hnone)
    · rw [pageCount_wrapped hp hr hlen hge hnone]
      by_cases hpos : 0 < len
      · rw [pageCount_one hp hpos]
        omega
      · rw [Nat.eq_zero_of_not_pos hpos,pageCount_zero hp]
        rw [Nat.eq_zero_of_not_pos hpos] at hnone
        omega

end Counts

section Cycles
variable {pagesize off len : ℕ}

theorem mmapCreate_ok {mapped mapped' : Finset ℕ} {addr : ℕ} {r : MmapRecord}
    (h : mmapCreate pagesize mapped addr off len = .ok (mapped',r)) : mapLen pagesize off len ≠ 0 ∧
      mapped' = mapped ∪ pagesFrom pagesize addr (mapLen pagesize off len) ∧
      r = ⟨addr,addr + (off - pageOff pagesize off),len⟩ := by
  unfold mmapCreate at h
  split at h
  · cases h
  · rename_i hne
    cases h
    exact ⟨hne,rfl,rfl⟩

theorem unmapRecord_ok {mapped mapped' : Finset ℕ} {r : MmapRecord} (h : unmapRecord pagesize mapped r = .ok mapped') :
    mapped' = mapped \ pagesFrom pagesize r.alignedAddr r.len := by
  unfold unmapRecord at h
  split_ifs at h
  cases h
  rfl

/-- A cycle with equal ranges takes away what it has added. -/
theorem mapCycle_keeps {mapped mapped' : Finset ℕ} {addr : ℕ}
    (hcount : pageCount pagesize len = pageCount pagesize (mapLen pagesize off len))
    (hnew : Disjoint mapped (pagesFrom pagesize addr (mapLen pagesize off len)))
    (h : mapCycle pagesize off len mapped addr = .ok mapped') : mapped' = mapped := by
  obtain ⟨⟨created,r⟩,hcreate,h⟩ := bind_ok.mp h
  obtain ⟨-,rfl,rfl⟩ := mmapCreate_ok hcreate
  rw [unmapRecord_ok h,pagesFrom_inj.mpr hcount,Finset.union_sdiff_cancel_right hnew]

theorem foldlM_mapCycle {mapped mapped' : Finset ℕ} {addrs : List ℕ}
    (hcount : pageCount pagesize len = pageCount pagesize (mapLen pagesize off len))
    (hnew : ∀ a ∈ addrs, Disjoint mapped (pagesFrom pagesize a (mapLen pagesize off len)))
    (h : addrs.foldlM (mapCycle pagesize off len) mapped = .ok mapped') : mapped' = mapped := by
  induction addrs with
  | nil =>
    cases h
    rfl
  | cons a addrs ih =>
    rw [List.foldlM_cons] at h
    obtain ⟨t,ht,h⟩ := bind_ok.mp h
    cases mapCycle_keeps hcount (hnew a List.mem_cons_self) ht
    exact ih (fun b hb => hnew b (List.mem_cons_of_mem a hb)) h

/-- Nothing is mapped where `mmap` fails. -/
theorem foldlM_mapCycle_fails {mapped mapped' : Finset ℕ} {addrs : List ℕ} (hzero : mapLen pagesize off len = 0)
    (h : addrs.foldlM (mapCycle pagesize off len) mapped = .ok mapped') : mapped' = mapped := by
  cases addrs with
  | nil =>
    cases h
    rfl
  | cons a addrs =>
    rw [List.foldlM_cons] at h
    obtain ⟨t,ht,-⟩ := bind_ok.mp h
    obtain ⟨⟨created,r⟩,hcreate,-⟩ := bind_ok.mp ht
    exact absurd hzero (mmapCreate_ok hcreate).1

end Cycles

section Records
variable {pagesize off len : ℕ}

theorem undoes_map (h : mapLen pagesize off len = 0 ∨ pageCount pagesize len =
    pageCount pagesize (mapLen pagesize off len)) :
    UndoesMap pagesize off len := by
  rcases h with hzero | hcount
  · exact ⟨fun mapped addr mapped' r h => absurd hzero (mmapCreate_ok h).1,
      fun mapped addrs mapped' _ h => foldlM_mapCycle_fails hzero h⟩
  · refine ⟨?_,fun mapped addrs mapped' hnew h => foldlM_mapCycle hcount hnew h⟩
    intro mapped addr mapped' r h
    obtain ⟨-,-,rfl⟩ := mmapCreate_ok h
    exact pagesFrom_inj.mpr hcount

/-- In a single-file torrent whose pieces start with pages all records are undone. -/
theorem Viewed.undoes_map {tp : Torrent} (h : Viewed tp) (hs : tp.mi.type = .singlefile) (hp : 0 < pagesize)
    (hpages : pagesize ∣ tp.mi.pieceLength) {i : ℕ} {m : Mmap} (hm : m ∈ (tp.piece i).mmaps)
    (hlen : m.len < 4294967296) :
    UndoesMap pagesize m.off m.len := by
  apply Unworkable.undoes_map
  apply (endsAlike_iff hp hlen).mp
  rw [(h hs i).2.2 m hm]
  exact .inl (Nat.mod_eq_zero_of_dvd (Dvd.dvd.mul_right hpages i))

end Records

/-- Unmapping undoes mapping, exactly if the end of the data is on the same page as without the offset. -/
theorem undoes_map_iff (pagesize off len : ℕ) (hp : 0 < pagesize) (hlen : len < 4294967296) :
    UndoesMap pagesize off len ↔ EndsAlike pagesize off len := by
  rw [endsAlike_iff hp hlen]
  refine ⟨?_,undoes_map⟩
  intro h
  by_cases hzero : mapLen pagesize off len = 0
  · exact .inl hzero
  · exact .inr (pagesFrom_inj.mp (h.range ∅ 0 _ _ (if_neg hzero)))

/-- A block in the middle of a page. -/
theorem undoes_map_block : UndoesMap 4096 5000 3000 :=
  (undoes_map_iff 4096 5000 3000 (by decide) (by decide)).mpr (.inr (.inl (by decide)))

/-- A page of data from the second byte on takes two pages, and one of them stays mapped in each cycle. -/
theorem page_leaks : ¬ UndoesMap 4096 1 4096 ∧
    [0,8192].foldlM (mapCycle 4096 1 4096) ∅ = .ok {1,3} := by
  constructor
  · intro h
    have hrange := h.range ∅ 0 (pagesFrom 4096 0 4097) ⟨0,1,4096⟩ rfl
    exact absurd (pagesFrom_inj.mp hrange) (by decide)
  · decide +kernel

end Unworkable
