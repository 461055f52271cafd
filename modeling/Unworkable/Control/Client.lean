import Unworkable.Control.Server
import Mathlib.Data.List.DropRight

/-! # The control client

`CTLconnection` reads its socket as a file, line by line. A line that has no ending yet is
handed over once the connection is closed, and an exception that no handler catches ends
the thread with the object as it is.
-/
namespace Unworkable
open Library

/-- The attributes of `CTLconnection` that a line can set. -/
structure CtlConnection where
  numPeers : ℤ := 0
  numPieces : ℤ := 0
  torrentSize : ℤ := 0
  torrentBytes : ℤ := 0
  pieces : List Bytes := []
  peers : List Bytes := []
  bytes : ℤ := 0

/-- `str.strip`. -/
def strip (bs : Bytes) : Bytes := (bs.dropWhile isSpace).rdropWhile isSpace

/-- `str.split(sep, 1)`: the part in front of the first separator, and the part behind it if
there is one. -/
def splitFirst (sep : UInt8) : Bytes → Bytes × Option Bytes
  | [] => ([],none)
  | b :: bs => if b = sep then ([],some bs) else ((b :: (splitFirst sep bs).1),(splitFirst sep bs).2)

/-- `int` of a string. -/
def pyInt (bs : Bytes) : Option ℤ := readSigned (strip bs)

/-- `split(',')` and `sort`. -/
def sortedItems (bs : Bytes) : List Bytes := (bs.splitOn 44).mergeSort (fun a b => decide (a ≤ b))

/-- One turn of `CTLconnection.run`. The value of `num_peers` is a string and never an `int`. -/
def CtlConnection.line (c : CtlConnection) (l : Bytes) : Option CtlConnection :=
  let (key,value) := splitFirst 58 (strip l)
  if key = ascii "num_peers" then value.map (fun _ => c)
  else if key = ascii "num_pieces" then (value.bind pyInt).map (fun n => { c with numPieces := n })
  else if key = ascii "torrent_size" then (value.bind pyInt).map (fun n => { c with torrentSize := n })
  else if key = ascii "torrent_bytes" then (value.bind pyInt).map (fun n => { c with torrentBytes := n })
  else if key = ascii "pieces" then
    match value with
    | some v => some { c with pieces := sortedItems v }
    | none => some c
  else if key = ascii "bytes" then (value.bind pyInt).map (fun n => { c with bytes := n })
  else if key = ascii "peers" then
    match value with
    | some v => some { c with peers := sortedItems v }
    | none => some c
  else some c

def fileLines (closed : Bool) (bs : Bytes) : List Bytes :=
  (bs.splitOn 10).dropLast ++ if closed then (bs.splitOn 10).getLast?.toList.filter (· ≠ []) else []

def CtlConnection.lines (c : CtlConnection) : List Bytes → CtlConnection
  | [] => c
  | l :: ls => match c.line l with
    | some c' => c'.lines ls
    | none => c

/-- `CTLconnection.run` on what the socket delivers. -/
def CtlConnection.run (closed : Bool) (bs : Bytes) : CtlConnection := ({} : CtlConnection).lines (fileLines closed bs)

section Lines
variable {c c' : CtlConnection} {l bs : Bytes} {closed : Bool}

theorem line_numPeers (h : c.line l = some c') : c'.numPeers = c.numPeers := by
  unfold CtlConnection.line at h
  dsimp only at h
  split_ifs at h
  case neg => cases h; rfl
  any_goals obtain ⟨v,-,rfl⟩ := Option.map_eq_some_iff.mp h; rfl
  all_goals split at h <;> cases h <;> rfl

/-- The client never learns how many peers there are. -/
theorem lines_numPeers (c : CtlConnection) (ls : List Bytes) : (c.lines ls).numPeers = c.numPeers := by
  induction ls generalizing c with
  | nil => rfl
  | cons l ls ih =>
    unfold CtlConnection.lines
    split
    · rename_i c' hline
      exact (ih c').trans (line_numPeers hline)
    · rfl

theorem lines_cons {ls : List Bytes} (h : c.line l = some c') : c.lines (l :: ls) = c'.lines ls := by
  rw [CtlConnection.lines,h]

theorem fileLines_cons (h : 10 ∉ l) : fileLines closed (l ++ 10 :: bs) = l :: fileLines closed bs := by
  obtain ⟨x,xs,hxs⟩ := List.exists_cons_of_ne_nil (List.splitOn_ne_nil 10 bs)
  simp [fileLines,List.splitOn_append_cons_self_of_not_mem h,hxs]

theorem fileLines_open (h : 10 ∉ bs) : fileLines false bs = [] := by
  simp [fileLines,List.splitOn_eq_singleton h]

theorem fileLines_closed (h : 10 ∉ bs) (hne : bs ≠ []) : fileLines true bs = [bs] := by
  simp [fileLines,List.splitOn_eq_singleton h,hne]

theorem strip_of_ends (hhead : ∀ b ∈ bs.head?, isSpace b = false) (hlast : ∀ b ∈ bs.getLast?, isSpace b = false) :
    strip bs = bs ∧ strip (bs ++ [13]) = bs := by
  cases bs with
  | nil => exact ⟨rfl,rfl⟩
  | cons b bs =>
    have hb : isSpace b = false := hhead b rfl
    have hself : (b :: bs).rdropWhile isSpace = b :: bs := by
      rw [List.rdropWhile_eq_self_iff]
      intro hne
      rw [hlast _ (List.getLast?_eq_getLast_of_ne_nil hne)]
      decide
    refine ⟨by rw [strip,List.dropWhile_cons_of_neg (by rw [hb]; decide),hself],?_⟩
    rw [strip,List.cons_append,List.dropWhile_cons_of_neg (by rw [hb]; decide),← List.cons_append,
      List.rdropWhile_concat_pos _ _ _ (by decide),hself]

theorem strip_of_forall (h : ∀ b ∈ bs, isSpace b = false) : strip bs = bs ∧ strip (bs ++ [13]) = bs :=
  strip_of_ends (fun b hb => h b (List.mem_of_mem_head? hb)) (fun b hb => h b (List.mem_of_mem_getLast? hb))

theorem splitFirst_append {sep : UInt8} (h : sep ∉ l) : splitFirst sep (l ++ sep :: bs) = (l,some bs) := by
  induction l with
  | nil => simp [splitFirst]
  | cons b l ih =>
    have hb : b ≠ sep := fun hb => h (hb ▸ List.mem_cons_self)
    simp [splitFirst,hb,ih (fun hm => h (List.mem_cons_of_mem b hm))]

theorem mem_sortedItems {t : Bytes} : t ∈ sortedItems bs ↔ t ∈ bs.splitOn 44 := List.mem_mergeSort

theorem pyInt_decimalInt (z : ℤ) : pyInt (decimalInt z) = some z := by
  rw [pyInt,(strip_of_forall fun b hb => isSpace_of_mem_decimalInt hb).1,readSigned_decimalInt]

end Lines

end Unworkable
