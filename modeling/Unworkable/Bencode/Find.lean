import Unworkable.Bencode.Value

/-! # Finding an entry

`benc_node_find` goes through a tree depth first, across lists and dictionaries, and takes the
first entry of the name. What it finds is the same value wherever the tree starts.
-/
namespace Unworkable
open Library

mutual
/-- The first entry of that name, depth first. A key counts up to its first zero. -/
def Value.find (key : Bytes) : Value → Option Value
  | .int _ => none
  | .str _ => none
  | .list items => findItems key items
  | .dict entries => findEntries key entries

def findItems (key : Bytes) : List Value → Option Value
  | [] => none
  | v :: vs => (v.find key).or (findItems key vs)

def findEntries (key : Bytes) : List (Bytes × Value) → Option Value
  | [] => none
  | (k,v) :: es => (if k.takeWhile (· ≠ 0) = key then some v else v.find key).or (findEntries key es)
end

mutual
def Node.unplaced : Node → Node
  | .string len value => .string len value
  | .int n => .int n
  | .list ns => .list (unplacedAll ns)
  | .dict ns _ => .dict (unplacedAll ns) 0
  | .entry key value => .entry key value.unplaced

def unplacedAll : List Node → List Node
  | [] => []
  | n :: ns => n.unplaced :: unplacedAll ns
end

def Value.tree (v : Value) : Node := (v.spelled.node 0).unplaced

section Unplaced
variable (key : Bytes)

theorem findAmong_append (ns ms : List Node) : findAmong key (ns ++ ms) = (findAmong key ns).or (findAmong key ms) := by
  induction ns with
  | nil => rfl
  | cons n ns ih => rw [List.cons_append,findAmong,ih,findAmong,Option.or_assoc]

theorem unplacedAll_eq_map (ns : List Node) : unplacedAll ns = ns.map Node.unplaced := by
  induction ns with
  | nil => rfl
  | cons n ns ih => rw [unplacedAll,ih,List.map_cons]

theorem children_unplaced (n : Node) : n.unplaced.children = n.children.map Node.unplaced := by
  cases n with
  | list ns => exact unplacedAll_eq_map ns
  | dict ns stop => exact unplacedAll_eq_map ns
  | string => rfl
  | int => rfl
  | entry => rfl

mutual
theorem bencNodeFind_unplaced (n : Node) : bencNodeFind key n.unplaced = (bencNodeFind key n).map Node.unplaced := by
  cases n with
  | string => rfl
  | int => rfl
  | list ns => exact findAmong_unplaced ns
  | dict ns stop => exact findAmong_unplaced ns
  | entry k v =>
    rw [Node.unplaced,bencNodeFind,bencNodeFind]
    split
    · rfl
    · exact findIn_unplaced v

theorem findIn_unplaced (n : Node) : findIn key n.unplaced = (findIn key n).map Node.unplaced := by
  cases n with
  | string => rfl
  | int => rfl
  | list ns => exact findAmong_unplaced ns
  | dict ns stop => exact findAmong_unplaced ns
  | entry k v => rfl

theorem findAmong_unplaced (ns : List Node) : findAmong key (unplacedAll ns) =
    (findAmong key ns).map Node.unplaced := by
  cases ns with
  | nil => rfl
  | cons n ns =>
    rw [unplacedAll,findAmong,findAmong,bencNodeFind_unplaced n,findAmong_unplaced ns]
    cases bencNodeFind key n with
    | none => rfl
    | some m => rfl
end

end Unplaced

section Trees

mutual
theorem unplaced_node (x : Spelled) (pos pos' : ℕ) : (x.node pos).unplaced = (x.node pos').unplaced := by
  cases x with
  | int junk text => rfl
  | str s => rfl
  | list junk items =>
    rw [Spelled.node,Spelled.node,Node.unplaced,Node.unplaced,unplaced_nodesAll items]
  | dict junk entries =>
    rw [Spelled.node,Spelled.node,Node.unplaced,Node.unplaced,unplaced_nodesEntries entries]

theorem unplaced_nodesAll (xs : List Spelled) (pos pos' : ℕ) : unplacedAll (nodesAll pos xs) = unplacedAll
    (nodesAll pos' xs) := by
  cases xs with
  | nil => rfl
  | cons x xs =>
    rw [nodesAll,nodesAll,unplacedAll,unplacedAll,unplaced_node x pos pos',unplaced_nodesAll xs]

theorem unplaced_nodesEntries (es : List (SpelledStr × Spelled)) (pos pos' : ℕ) :
    unplacedAll (nodesEntries pos es) = unplacedAll (nodesEntries pos' es) := by
  match es with
  | [] => rfl
  | (k,x) :: es =>
    rw [nodesEntries,nodesEntries,unplacedAll,unplacedAll,Node.unplaced,Node.unplaced,
      unplaced_node x,unplaced_nodesEntries es]
end

theorem tree_eq (v : Value) (pos : ℕ) : (v.spelled.node pos).unplaced = v.tree := unplaced_node v.spelled pos 0

theorem findIn_tree (key : Bytes) (v : Value) : findIn key v.tree = bencNodeFind key v.tree := by
  cases v <;> rfl

mutual
theorem find_tree (key : Bytes) (v : Value) : bencNodeFind key v.tree = (v.find key).map Value.tree := by
  cases v with
  | int n => rfl
  | str s => rfl
  | list items => exact findItems_tree key items _
  | dict entries => exact findEntries_tree key entries _

theorem findItems_tree (key : Bytes) (vs : List Value) (pos : ℕ) :
    findAmong key (unplacedAll (nodesAll pos (spelledAll vs))) = (findItems key vs).map Value.tree := by
  cases vs with
  | nil => rfl
  | cons v vs =>
    rw [spelledAll,nodesAll,unplacedAll,findAmong,tree_eq,find_tree key v,findItems_tree key vs,findItems]
    cases v.find key with
    | none => rfl
    | some w => rfl

theorem findEntries_tree (key : Bytes) (es : List (Bytes × Value)) (pos : ℕ) :
    findAmong key (unplacedAll (nodesEntries pos (spelledEntries es))) = (findEntries key es).map Value.tree := by
  match es with
  | [] => rfl
  | (k,v) :: es =>
    rw [spelledEntries,nodesEntries,unplacedAll,findAmong,Node.unplaced,tree_eq,bencNodeFind,findIn_tree,
      find_tree key v,
      findEntries_tree key es,findEntries]
    by_cases hk : k.takeWhile (· ≠ 0) = key
    · have hspells : (spelledStr k).buf.spells key = true := decide_eq_true hk
      rw [if_pos hspells,if_pos hk]
      rfl
    · have hspells : ¬ (spelledStr k).buf.spells key = true := fun h => hk (of_decide_eq_true h)
      rw [if_neg hspells,if_neg hk]
      cases v.find key with
      | none => rfl
      | some w => rfl
end

/-- What is found in the tree of a value, wherever it starts. -/
theorem find_node (key : Bytes) (v : Value) (pos : ℕ) :
    (bencNodeFind key (v.spelled.node pos)).map Node.unplaced = (v.find key).map Value.tree := by
  rw [← bencNodeFind_unplaced,tree_eq,find_tree]

theorem nodesEntries_append (es fs : List (SpelledStr × Spelled)) (pos : ℕ) :
    nodesEntries pos (es ++ fs) = nodesEntries pos es ++ nodesEntries (pos + (bytesEntries es).length) fs := by
  induction es generalizing pos with
  | nil => rfl
  | cons e es ih =>
    obtain ⟨k,x⟩ := e
    rw [List.cons_append,nodesEntries,ih,nodesEntries,List.cons_append,bytesEntries]
    congr 3
    simp only [List.length_append]
    omega

theorem spelledEntries_append (es fs : List (Bytes × Value)) : spelledEntries (es ++ fs) =
    spelledEntries es ++ spelledEntries fs := by
  induction es with
  | nil => rfl
  | cons e es ih => rw [List.cons_append,spelledEntries,ih,spelledEntries,List.cons_append]

theorem encodeEntries_append (es fs : List (Bytes × Value)) : encodeEntries (es ++ fs) =
    encodeEntries es ++ encodeEntries fs := by
  induction es with
  | nil => rfl
  | cons e es ih =>
    rw [List.cons_append,encodeEntries,ih,encodeEntries,List.append_assoc,List.append_assoc]

/-- An entry that comes first is found where it stands. -/
theorem findAmong_first {key k : Bytes} {v : Value} {pre post : List (Bytes × Value)} (pos : ℕ)
    (hk : k.takeWhile (· ≠ 0) = key)
    (hpre : findEntries key pre = none) :
    findAmong key (nodesEntries pos (spelledEntries (pre ++ (k,v) :: post))) =
      some (v.spelled.node (pos + (encodeEntries pre).length + (encodeStr k).length)) := by
  have hnone : findAmong key (nodesEntries pos (spelledEntries pre)) = none := by
    have htree := findEntries_tree key pre pos
    rwa [hpre,findAmong_unplaced,Option.map_none,Option.map_eq_none_iff] at htree
  have hspells : (spelledStr k).buf.spells key = true := decide_eq_true hk
  rw [spelledEntries_append,nodesEntries_append,findAmong_append,hnone,Option.none_or,spelledEntries_bytes,
    spelledEntries,
    nodesEntries,findAmong,bencNodeFind,if_pos hspells,Option.some_or,spelledStr_bytes]

mutual
/-- What is found stands behind a key of the name. -/
theorem find_placed (key : Bytes) (v : Value) (pos : ℕ) {w : Value} (h : v.find key = some w) :
    ∃ front k rest, k.takeWhile (· ≠ 0) = key ∧ v.encode = front ++ encodeStr k ++ (w.encode ++ rest) ∧
      bencNodeFind key (v.spelled.node pos) = some (w.spelled.node (pos + (front ++ encodeStr k).length)) := by
  cases v with
  | int n => cases h
  | str s => cases h
  | list items =>
    obtain ⟨front,k,rest,hk,heq,hfind⟩ := findItems_placed key items (pos + 1) h
    refine ⟨108 :: front,k,rest ++ [101],hk,?_,?_⟩
    · rw [Value.encode,heq]
      simp only [List.append_assoc,List.cons_append]
    · have hfind' : bencNodeFind key ((Value.list items).spelled.node pos) = _ := hfind
      rw [hfind',List.cons_append,List.length_cons]
      congr 2
      omega
  | dict entries =>
    obtain ⟨front,k,rest,hk,heq,hfind⟩ := findEntries_placed key entries (pos + 1) h
    refine ⟨100 :: front,k,rest ++ [101],hk,?_,?_⟩
    · rw [Value.encode,heq]
      simp only [List.append_assoc,List.cons_append]
    · have hfind' : bencNodeFind key ((Value.dict entries).spelled.node pos) = _ := hfind
      rw [hfind',List.cons_append,List.length_cons]
      congr 2
      omega

theorem findItems_placed (key : Bytes) (vs : List Value) (pos : ℕ) {w : Value} (h : findItems key vs = some w) :
    ∃ front k rest, k.takeWhile (· ≠ 0) = key ∧ encodeAll vs = front ++ encodeStr k ++ (w.encode ++ rest) ∧
      findAmong key (nodesAll pos (spelledAll vs)) = some (w.spelled.node (pos + (front ++ encodeStr k).length)) := by
  cases vs with
  | nil => cases h
  | cons v vs =>
    rw [findItems] at h
    rw [spelledAll,nodesAll,findAmong,encodeAll]
    cases hv : v.find key with
    | some found =>
      rw [hv,Option.some_or] at h
      cases h
      obtain ⟨front,k,rest,hk,heq,hfind⟩ := find_placed key v pos hv
      refine ⟨front,k,rest ++ encodeAll vs,hk,?_,by rw [hfind,Option.some_or]⟩
      rw [heq]
      simp only [List.append_assoc]
    | none =>
      rw [hv,Option.none_or] at h
      obtain ⟨front,k,rest,hk,heq,hfind⟩ := findItems_placed key vs (pos + v.encode.length) h
      have hnone : bencNodeFind key (v.spelled.node pos) = none := by
        have hnode := find_node key v pos
        rwa [hv,Option.map_none,Option.map_eq_none_iff] at hnode
      refine ⟨v.encode ++ front,k,rest,hk,?_,?_⟩
      · rw [heq]
        simp only [List.append_assoc]
      · rw [hnone,Option.none_or,v.spelled_bytes,hfind]
        simp only [List.length_append]
        congr 2
        omega

theorem findEntries_placed (key : Bytes) (es : List (Bytes × Value)) (pos : ℕ) {w : Value}
    (h : findEntries key es = some w) :
    ∃ front k rest, k.takeWhile (· ≠ 0) = key ∧ encodeEntries es = front ++ encodeStr k ++ (w.encode ++ rest) ∧
      findAmong key (nodesEntries pos (spelledEntries es)) =
      some (w.spelled.node (pos + (front ++ encodeStr k).length)) := by
  match es with
  | [] => cases h
  | (k,v) :: es =>
    rw [findEntries] at h
    rw [spelledEntries,nodesEntries,findAmong,encodeEntries,bencNodeFind]
    by_cases hk : k.takeWhile (· ≠ 0) = key
    · have hspells : (spelledStr k).buf.spells key = true := decide_eq_true hk
      rw [if_pos hk,Option.some_or] at h
      cases h
      refine ⟨[],k,encodeEntries es,hk,rfl,?_⟩
      rw [if_pos hspells,Option.some_or,spelledStr_bytes]
      rfl
    have hspells : ¬ (spelledStr k).buf.spells key = true := fun h => hk (of_decide_eq_true h)
    rw [if_neg hk] at h
    rw [if_neg hspells,spelledStr_bytes,v.spelled_bytes]
    have hnode : findIn key (v.spelled.node (pos + (encodeStr k).length)) =
        bencNodeFind key (v.spelled.node (pos + (encodeStr k).length)) := by cases v <;> rfl
    rw [hnode]
    cases hv : v.find key with
    | some found =>
      rw [hv,Option.some_or] at h
      cases h
      obtain ⟨front,k',rest,hk',heq,hfind⟩ := find_placed key v (pos + (encodeStr k).length) hv
      refine ⟨encodeStr k ++ front,k',rest ++ encodeEntries es,hk',?_,?_⟩
      · rw [heq]
        simp only [List.append_assoc]
      · rw [hfind,Option.some_or]
        simp only [List.length_append]
        congr 2
        omega
    | none =>
      rw [hv,Option.none_or] at h
      obtain ⟨front,k',rest,hk',heq,hfind⟩ :=
        findEntries_placed key es (pos + (encodeStr k).length + v.encode.length) h
      have hnone : bencNodeFind key (v.spelled.node (pos + (encodeStr k).length)) = none := by
        have hnode := find_node key v (pos + (encodeStr k).length)
        rwa [hv,Option.map_none,Option.map_eq_none_iff] at hnode
      refine ⟨encodeStr k ++ (v.encode ++ front),k',rest,hk',?_,?_⟩
      · rw [heq]
        simp only [List.append_assoc]
      · rw [hnone,Option.none_or,hfind]
        simp only [List.length_append]
        congr 2
        omega
end

end Trees

end Unworkable
