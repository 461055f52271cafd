import Unworkable.Library.Outcome

/-! # Regions of a sequence

A region is given by its start and its length. Writing to a region keeps every region
disjoint from it, and so does appending. An overlay is a write that ends with the sequence, and
overlays that tile a sequence make it up in any order.
-/
namespace Unworkable.Library
variable {α : Type*}

/-- The elements `[off, off + len)`. -/
def window (xs : List α) (off len : ℕ) : List α := (xs.drop off).take len

/-- Replace the elements at `pos` by `ys`, keeping everything before and after. -/
def splice (xs : List α) (pos : ℕ) (ys : List α) : List α := xs.take pos ++ ys ++ xs.drop (pos + ys.length)

theorem length_window {xs : List α} {off len : ℕ} (h : off + len ≤ xs.length) : (window xs off len).length = len := by
  simp only [window,List.length_take,List.length_drop]
  omega

theorem window_append {xs : List α} (ys : List α) {off len : ℕ} (h : off + len ≤ xs.length) :
    window (xs ++ ys) off len = window xs off len := by
  unfold window
  rw [List.drop_append_of_le_length (by omega),List.take_append_of_le_length]
  rw [List.length_drop]
  omega

theorem length_splice {xs ys : List α} {pos : ℕ} (h : pos + ys.length ≤ xs.length) :
    (splice xs pos ys).length = xs.length := by
  simp only [splice,List.length_append,List.length_take,List.length_drop]
  omega

theorem getElem?_window (xs : List α) (off len i : ℕ) :
    (window xs off len)[i]? = if i < len then xs[off + i]? else none := by
  simp only [window,List.getElem?_take,List.getElem?_drop]

/-- A region of a region. -/
theorem window_window (xs : List α) {off len o n : ℕ} (h : o + n ≤ len) :
    window (window xs off len) o n = window xs (off + o) n := by
  apply List.ext_getElem?
  intro i
  rw [getElem?_window,getElem?_window,getElem?_window,Nat.add_assoc]
  split
  · rw [if_pos (by omega)]
  · rfl

/-- Up to the end of what is written. -/
theorem take_splice {xs : List α} {pos : ℕ} (ys : List α) (h : pos ≤ xs.length) :
    (splice xs pos ys).take (pos + ys.length) = xs.take pos ++ ys := by
  have hlen : (xs.take pos ++ ys).length = pos + ys.length := by simp [h]
  unfold splice
  exact List.take_left' hlen

theorem getElem?_splice_outside {xs ys : List α} {pos i : ℕ} (h : pos + ys.length ≤ xs.length)
    (hi : i < pos ∨ pos + ys.length ≤ i) : (splice xs pos ys)[i]? = xs[i]? := by
  have hpos : (xs.take pos).length = pos := by simp only [List.length_take]; omega
  unfold splice
  rcases hi with hi | hi
  · rw [List.append_assoc,List.getElem?_append_left (by omega),List.getElem?_take,if_pos hi]
  · rw [List.getElem?_append_right (by simp only [List.length_append]; omega),List.getElem?_drop]
    congr 1
    simp only [List.length_append]
    omega

/-- A region disjoint from the one written to keeps its elements. -/
theorem window_splice_disjoint {xs ys : List α} {pos off len : ℕ} (h : pos + ys.length ≤ xs.length)
    (hd : off + len ≤ pos ∨ pos + ys.length ≤ off) : window (splice xs pos ys) off len = window xs off len := by
  apply List.ext_getElem?
  intro i
  rw [getElem?_window,getElem?_window]
  split
  · exact getElem?_splice_outside h (by omega)
  · rfl

theorem getElem?_splice_inside {xs ys : List α} {pos i : ℕ} (h : pos ≤ xs.length) (hi : i < ys.length) :
    (splice xs pos ys)[pos + i]? = ys[i]? := by
  have hpos : (xs.take pos).length = pos := by rw [List.length_take,Nat.min_eq_left h]
  unfold splice
  rw [List.append_assoc,List.getElem?_append_right (by omega),hpos,Nat.add_sub_cancel_left,List.getElem?_append_left hi]

/-- Replace the elements from `pos` on by `ys`, as far as there are any. -/
def overlay (xs : List α) (pos : ℕ) (ys : List α) : List α := splice xs pos (ys.take (xs.length - pos))

@[simp] theorem length_overlay (xs : List α) (pos : ℕ) (ys : List α) : (overlay xs pos ys).length = xs.length := by
  unfold overlay splice
  simp only [List.length_append,List.length_take,List.length_drop]
  omega

theorem getElem?_overlay (xs : List α) (pos : ℕ) (ys : List α) (i : ℕ) : (overlay xs pos ys)[i]? =
    if pos ≤ i ∧ i < pos + ys.length ∧ i < xs.length then ys[i - pos]? else xs[i]? := by
  unfold overlay
  by_cases hpos : pos ≤ xs.length
  · have hlen : (ys.take (xs.length - pos)).length = min (xs.length - pos) ys.length := List.length_take
    split
    · rename_i hi
      have heq : pos + (i - pos) = i := by omega
      rw [← heq,getElem?_splice_inside hpos (by omega),heq,List.getElem?_take,if_pos (by omega)]
    · exact getElem?_splice_outside (by omega) (by omega)
  · rw [Nat.sub_eq_zero_of_le (by omega),List.take_zero,if_neg (by omega)]
    simp [splice]

theorem overlay_past {xs : List α} {pos : ℕ} (ys : List α) (h : xs.length ≤ pos) : overlay xs pos ys = xs := by
  rw [overlay,Nat.sub_eq_zero_of_le h,List.take_zero]
  simp [splice]

theorem overlay_nil (xs : List α) (pos : ℕ) : overlay xs pos [] = xs := by simp [overlay,splice]

/-- What reaches past the end does not count. -/
theorem overlay_take {xs : List α} {pos n : ℕ} (ys : List α) (h : xs.length - pos ≤ n) :
    overlay xs pos (ys.take n) = overlay xs pos ys := by
  rw [overlay,overlay,List.take_take,Nat.min_eq_left h]

theorem splice_eq_overlay {xs ys : List α} {pos : ℕ} (h : pos + ys.length ≤ xs.length) :
    splice xs pos ys = overlay xs pos ys := by
  rw [overlay,List.take_of_length_le (by omega)]

/-- What does not fit into the first part goes on at the start of the second. -/
theorem overlay_append (xs ys zs : List α) (pos : ℕ) : overlay (xs ++ ys) pos zs =
    overlay xs pos zs ++ overlay ys (pos - xs.length) (zs.drop (xs.length - pos)) := by
  apply List.ext_getElem?
  intro i
  by_cases hi : i < xs.length
  · simp only [getElem?_overlay,List.getElem?_append,length_overlay,List.length_append,hi,if_true,and_true]
    exact if_congr (by omega) rfl rfl
  · simp only [getElem?_overlay,List.getElem?_append,length_overlay,List.length_append,hi,if_false,List.length_drop,
      List.getElem?_drop]
    split
    · rw [if_pos (by omega)]
      congr 1
      omega
    · rw [if_neg (by omega)]

/-- Reading back what was written. -/
theorem window_overlay {xs ys : List α} {pos : ℕ} (h : pos + ys.length ≤ xs.length) :
    window (overlay xs pos ys) pos ys.length = ys := by
  apply List.ext_getElem?
  intro i
  rw [getElem?_window,getElem?_overlay]
  split
  · rw [if_pos (by omega),Nat.add_sub_cancel_left]
  · rw [List.getElem?_eq_none (by omega)]

/-- Parts laid end to end from `off` on, each with its place. -/
def tiling : (off : ℕ) → List (List α) → List (ℕ × List α)
  | _,[] => []
  | off,d :: ds => (off,d) :: tiling (off + d.length) ds

theorem tiling_part {off i : ℕ} {ds : List (List α)} {w : ℕ × List α} (hw : w ∈ tiling off ds) (hlow : w.1 ≤ i)
    (hhigh : i < w.1 + w.2.length) : off ≤ i ∧ w.2[i - w.1]? = ds.flatten[i - off]? := by
  induction ds generalizing off with
  | nil => cases hw
  | cons d ds ih =>
    rw [List.flatten_cons]
    rcases List.mem_cons.mp hw with rfl | hw
    · exact ⟨hlow,by rw [List.getElem?_append_left (by simp only at hlow hhigh; omega)]⟩
    · obtain ⟨hle,heq⟩ := ih hw
      refine ⟨by omega,?_⟩
      rw [List.getElem?_append_right (by omega),heq,Nat.sub_sub]

theorem tiling_covers {off i : ℕ} {ds : List (List α)} (hlow : off ≤ i) (hhigh : i < off + ds.flatten.length) :
    ∃ w ∈ tiling off ds, w.1 ≤ i ∧ i < w.1 + w.2.length := by
  induction ds generalizing off with
  | nil =>
    rw [List.flatten_nil,List.length_nil] at hhigh
    omega
  | cons d ds ih =>
    rw [List.flatten_cons,List.length_append] at hhigh
    by_cases hi : i < off + d.length
    · exact ⟨(off,d),List.mem_cons_self,hlow,hi⟩
    · obtain ⟨w,hw,hin⟩ := @ih (off + d.length) (by omega) (by omega)
      exact ⟨w,List.mem_cons_of_mem _ hw,hin⟩

/-- Overlays that agree with `whole` make it up, wherever they reach. -/
theorem foldl_overlay {whole xs : List α} {ws : List (ℕ × List α)} (hlen : xs.length = whole.length)
    (hws : ∀ w ∈ ws, ∀ i, w.1 ≤ i → i < w.1 + w.2.length → w.2[i - w.1]? = whole[i]?) {i : ℕ}
    (hi : (∃ w ∈ ws, w.1 ≤ i ∧ i < w.1 + w.2.length) ∨ xs[i]? = whole[i]?) :
    (ws.foldl (fun xs w => overlay xs w.1 w.2) xs)[i]? = whole[i]? := by
  induction ws generalizing xs with
  | nil =>
    rcases hi with ⟨w,hw,-⟩ | hi
    · cases hw
    · exact hi
  | cons w ws ih =>
    have hrest := fun v hv => hws v (List.mem_cons_of_mem w hv)
    rw [List.foldl_cons]
    apply ih (by rw [length_overlay,hlen]) hrest
    rw [getElem?_overlay]
    by_cases hin : w.1 ≤ i ∧ i < w.1 + w.2.length ∧ i < xs.length
    · right
      rw [if_pos hin]
      exact hws w List.mem_cons_self i hin.1 hin.2.1
    · rw [if_neg hin]
      rcases hi with ⟨v,hv,hlow,hhigh⟩ | hi
      · rcases List.mem_cons.mp hv with rfl | hv
        · right
          rw [List.getElem?_eq_none (by omega),List.getElem?_eq_none (by omega)]
        · exact .inl ⟨v,hv,hlow,hhigh⟩
      · exact .inr hi

/-- The parts of a tiling, overlaid in any order, make up the whole. -/
theorem foldl_overlay_tiling {xs : List α} {ds : List (List α)} {ws : List (ℕ × List α)} (hws : ws.Perm (tiling 0 ds))
    (hlen : ds.flatten.length = xs.length) : ws.foldl (fun xs w => overlay xs w.1 w.2) xs = ds.flatten := by
  apply List.ext_getElem?
  intro i
  apply foldl_overlay hlen.symm
  · intro w hw i hlow hhigh
    exact (tiling_part (hws.mem_iff.mp hw) hlow hhigh).2
  · by_cases hi : i < ds.flatten.length
    · obtain ⟨w,hw,hin⟩ := tiling_covers (Nat.zero_le i) (by rwa [Nat.zero_add])
      exact .inl ⟨w,hws.mem_iff.mpr hw,hin⟩
    · right
      rw [List.getElem?_eq_none (by omega),List.getElem?_eq_none (by omega)]

end Unworkable.Library
