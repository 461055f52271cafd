import Unworkable.Torrent.InfoHash

/-! # Entries nobody asks for

Files that differ in entries `torrent_parse_file` does not look up give the same torrent, as far
as no such entry is found in the place of another one.
-/
namespace Unworkable
open Library

/-- The names of the fields that `torrent_parse_file` looks up. -/
def lookedUp : List Bytes :=
  [ascii "info",ascii "announce",ascii "comment",ascii "files",ascii "length",ascii "name",ascii "piece length",
    ascii "pieces",ascii "md5sum",ascii "path",ascii "created by",ascii "creation date"]

/-- The entries of a dictionary whose keys are looked up. -/
def known (es : List (Bytes × Value)) : List (Bytes × Value) := es.filter fun e => e.1 ∈ lookedUp

structure Description where
  type : TorrentType
  announce : CharBuf
  name : Option CharBuf
  files : List (ℤ × CharBuf)
  pieceLength : ℕ
  numPieces : ℕ
  pieces : CharBuf
  deriving DecidableEq, Repr

def ParsedTorrent.description (t : ParsedTorrent) : Description where
  type := t.type
  announce := t.announce
  name := t.name
  files := t.files.map fun f => (f.fileLength,f.path)
  pieceLength := t.pieceLength
  numPieces := t.numPieces
  pieces := t.pieces

section Same
variable {n n' : Node} {key : Bytes}

def Node.Same (n n' : Node) : Prop := n.unplaced = n'.unplaced

def FindsSame (key : Bytes) (n n' : Node) : Prop :=
  (bencNodeFind key n).map Node.unplaced = (bencNodeFind key n').map Node.unplaced

theorem Node.Same.finds (h : n.Same n') (key : Bytes) : FindsSame key n n' := by
  rw [FindsSame,← bencNodeFind_unplaced,← bencNodeFind_unplaced,h]

/-- Nothing, or nodes of one value. -/
theorem FindsSame.cases (h : FindsSame key n n') : bencNodeFind key n = none ∧ bencNodeFind key n' = none ∨
    ∃ m m', bencNodeFind key n = some m ∧ bencNodeFind key n' = some m' ∧ m.Same m' := by
  unfold FindsSame at h
  cases hn : bencNodeFind key n with
  | none =>
    rw [hn,Option.map_none] at h
    exact .inl ⟨rfl,Option.map_eq_none_iff.mp h.symm⟩
  | some m =>
    rw [hn,Option.map_some] at h
    obtain ⟨m',hm',hsame⟩ := Option.map_eq_some_iff.mp h.symm
    exact .inr ⟨m,m',rfl,hm',hsame.symm⟩

inductive Node.Alike : Node → Node → Prop
  | string (len : ℕ) (value : CharBuf) : Alike (.string len value) (.string len value)
  | int (z : ℤ) : Alike (.int z) (.int z)
  | list {ns ns' : List Node} (h : ns.map Node.unplaced = ns'.map Node.unplaced) : Alike (.list ns) (.list ns')
  | dict {ns ns' : List Node} (stop stop' : ℕ) : Alike (.dict ns stop) (.dict ns' stop')
  | entry (key : CharBuf) (v v' : Node) : Alike (.entry key v) (.entry key v')

theorem Node.Same.alike (h : n.Same n') : n.Alike n' := by
  cases n with
  | string len value =>
    cases n' with
    | string =>
      cases h
      exact .string len value
    | _ => cases h
  | int z =>
    cases n' with
    | int =>
      cases h
      exact .int z
    | _ => cases h
  | list ns =>
    cases n' with
    | list ns' =>
      apply Alike.list
      rw [← unplacedAll_eq_map,← unplacedAll_eq_map]
      exact Node.list.inj h
    | _ => cases h
  | dict ns stop =>
    cases n' with
    | dict ns' stop' => exact .dict stop stop'
    | _ => cases h
  | entry k v =>
    cases n' with
    | entry k' v' =>
      obtain ⟨rfl,-⟩ := Node.entry.inj h
      exact .entry k v v'
    | _ => cases h

theorem Node.Same.children (h : n.Same n') : n.children.map Node.unplaced = n'.children.map Node.unplaced := by
  rw [← children_unplaced,← children_unplaced,h]

/-- A loop over nodes of the same values. -/
theorem mapM_same {β : Type} {f : Node → Except Halt β} (hf : ∀ n n', n.Same n' → f n = f n') {ns ns' : List Node}
    (h : ns.map Node.unplaced = ns'.map Node.unplaced) : ns.mapM f = ns'.mapM f := by
  induction ns generalizing ns' with
  | nil =>
    rw [List.map_nil] at h
    rw [List.map_eq_nil_iff.mp h.symm]
  | cons n ns ih =>
    rw [List.map_cons] at h
    obtain ⟨n',ns',rfl,hn,hns⟩ := List.map_eq_cons_iff.mp h.symm
    rw [List.mapM_cons,List.mapM_cons,hf n n' hn.symm,ih hns.symm]

theorem foldlM_same {σ : Type} {f : σ → Node → Except Halt σ} (hf : ∀ s n n', n.Same n' → f s n = f s n')
    {ns ns' : List Node} (h : ns.map Node.unplaced = ns'.map Node.unplaced) (s : σ) :
    ns.foldlM f s = ns'.foldlM f s := by
  induction ns generalizing ns' s with
  | nil =>
    rw [List.map_nil] at h
    rw [List.map_eq_nil_iff.mp h.symm]
  | cons n ns ih =>
    rw [List.map_cons] at h
    obtain ⟨n',ns',rfl,hn,hns⟩ := List.map_eq_cons_iff.mp h.symm
    rw [List.foldlM_cons,List.foldlM_cons,hf s n n' hn.symm]
    cases f s n' with
    | error e => rfl
    | ok t => exact ih hns.symm t

end Same

section Fields
variable {n n' : Node} {snprintf : SelfJoin} {maxPathLen : ℕ} {key missing wrong : String}

theorem FindsSame.stringField (h : FindsSame (ascii key) n n') :
    stringField n key missing wrong = stringField n' key missing wrong := by
  unfold Unworkable.stringField
  rcases h.cases with ⟨hn,hn'⟩ | ⟨m,m',hn,hn',hsame⟩
  · rw [hn,hn']
  · rw [hn,hn']
    cases hsame.alike <;> rfl

theorem FindsSame.intField (h : FindsSame (ascii key) n n') :
    intField n key missing wrong = intField n' key missing wrong := by
  unfold Unworkable.intField
  rcases h.cases with ⟨hn,hn'⟩ | ⟨m,m',hn,hn',hsame⟩
  · rw [hn,hn']
  · rw [hn,hn']
    cases hsame.alike <;> rfl

theorem FindsSame.optString (h : FindsSame (ascii key) n n') : optString n key = optString n' key := by
  unfold Unworkable.optString
  rcases h.cases with ⟨hn,hn'⟩ | ⟨m,m',hn,hn',hsame⟩
  · rw [hn,hn']
  · rw [hn,hn']
    cases hsame.alike <;> rfl

theorem FindsSame.md5sumField (h : FindsSame (ascii "md5sum") n n') : md5sumField n = md5sumField n' := by
  unfold Unworkable.md5sumField
  rcases h.cases with ⟨hn,hn'⟩ | ⟨m,m',hn,hn',hsame⟩
  · rw [hn,hn']
  · rw [hn,hn']
    cases hsame.alike <;> rfl

theorem addPathElement_same (path : Bytes) (h : n.Same n') :
    addPathElement snprintf maxPathLen path n = addPathElement snprintf maxPathLen path n' := by
  cases h.alike <;> rfl

theorem pathField_same (h : n.Same n') : pathField snprintf maxPathLen n = pathField snprintf maxPathLen n' := by
  unfold pathField
  rcases (h.finds (ascii "path")).cases with ⟨hn,hn'⟩ | ⟨m,m',hn,hn',hsame⟩
  · rw [hn,hn']
  · rw [hn,hn']
    cases hsame.alike with
    | list h => exact foldlM_same (fun s n n' => addPathElement_same s) h []
    | _ => rfl

theorem multiFile_same (h : n.Same n') : multiFile snprintf maxPathLen n = multiFile snprintf maxPathLen n' := by
  unfold multiFile
  rw [(h.finds (ascii "length")).intField,pathField_same h,(h.finds (ascii "md5sum")).optString]

end Fields

/-- How a field is taken: as a string, as a number, as a string that may be missing, or as it is. -/
inductive FieldKind
  | string | number | optional | any
  deriving DecidableEq, Repr

def FieldKind.takes : FieldKind → Option Value → Bool
  | .string,some (.str _) => true
  | .number,some (.int _) => true
  | .optional,none => true
  | .optional,some (.str _) => true
  | .any,_ => true
  | _,_ => false

def singleFields : List (Bytes × FieldKind) :=
  [(ascii "length",.number),(ascii "name",.string),(ascii "piece length",.number),(ascii "pieces",.string),
    (ascii "md5sum",.optional)]

def multiFields : List (Bytes × FieldKind) :=
  [(ascii "name",.string),(ascii "piece length",.number),(ascii "pieces",.string)]

/-- The fields of a description, in the order they are looked up at the top of a file. -/
def fieldsOf (find : Bytes → Option Value) : List (Bytes × FieldKind) :=
  (ascii "announce",.string) :: (ascii "files",.any) ::
    if find (ascii "files") = none then singleFields else multiFields

def askedFor (find : Bytes → Option Value) : List (Bytes × FieldKind) → List Bytes
  | [] => []
  | (key,kind) :: fields => key :: if kind.takes (find key) then askedFor find fields else []

/-- The names that `torrent_parse_file` looks up at the top of a file with these entries, apart from `info`. -/
def asked (es : List (Bytes × Value)) : List Bytes :=
  askedFor (fun key => findEntries key es) (fieldsOf fun key => findEntries key es)

section Asked
variable {find find' : Bytes → Option Value} {fields : List (Bytes × FieldKind)}

theorem askedFor_congr (h : ∀ key ∈ askedFor find fields, find key = find' key) :
    askedFor find fields = askedFor find' fields := by
  induction fields with
  | nil => rfl
  | cons field fields ih =>
    obtain ⟨key,kind⟩ := field
    rw [askedFor,List.forall_mem_cons] at h
    rw [askedFor,askedFor,← h.1]
    split
    · rename_i htakes
      rw [if_pos htakes] at h
      rw [ih h.2]
    · rfl

theorem askedFor_all (h : ∀ field ∈ fields, field.2.takes (find field.1) = true) :
    askedFor find fields = fields.map Prod.fst := by
  induction fields with
  | nil => rfl
  | cons field fields ih =>
    rw [List.forall_mem_cons] at h
    rw [askedFor,if_pos h.1,ih h.2,List.map_cons]

/-- If the same is found under the names asked for, the same names are asked for. -/
theorem asked_congr (h : ∀ key ∈ askedFor find (fieldsOf find), find key = find' key) :
    askedFor find (fieldsOf find) = askedFor find' (fieldsOf find') := by
  rw [askedFor_congr h]
  by_cases hannounce : FieldKind.string.takes (find (ascii "announce")) = true
  · have hfiles : find (ascii "files") = find' (ascii "files") := by
      apply h
      rw [fieldsOf,askedFor,if_pos hannounce]
      exact List.mem_cons_of_mem _ List.mem_cons_self
    rw [fieldsOf,fieldsOf,hfiles]
  · have heq : find (ascii "announce") = find' (ascii "announce") := h _ List.mem_cons_self
    rw [heq] at hannounce
    rw [fieldsOf,fieldsOf,askedFor,if_neg hannounce,askedFor,if_neg hannounce]

end Asked

section Fields
variable {n n' : Node} {snprintf : SelfJoin} {maxPathLen : ℕ} {hash hash' : Bytes} {announce : CharBuf}
  {t : ParsedTorrent}

theorem singleBody_same (hsame : ∀ field ∈ singleFields, FindsSame field.1 n n')
    (h : singleBody n announce hash = .ok t) :
    ∃ t', singleBody n' announce hash' = .ok t' ∧ t'.description = t.description := by
  have hlength : FindsSame (ascii "length") n n' := hsame (_,.number) (by decide)
  have hname : FindsSame (ascii "name") n n' := hsame (_,.string) (by decide)
  have hpieceLength : FindsSame (ascii "piece length") n n' := hsame (_,.number) (by decide)
  have hpieces : FindsSame (ascii "pieces") n n' := hsame (_,.string) (by decide)
  have hmd5sum : FindsSame (ascii "md5sum") n n' := hsame (_,.optional) (by decide)
  unfold singleBody at h ⊢
  rw [hlength.intField,hname.stringField,hpieceLength.intField,hpieces.stringField,hmd5sum.md5sumField] at h
  obtain ⟨fileLength,hfileLength,h⟩ := bind_ok.mp h
  obtain ⟨name,hname,h⟩ := bind_ok.mp h
  obtain ⟨pieceLength,hpieceLength,h⟩ := bind_ok.mp h
  obtain ⟨pieces,hpieces,h⟩ := bind_ok.mp h
  obtain ⟨md5sum,hmd5sum,h⟩ := bind_ok.mp h
  rw [hfileLength,ok_bind,hname,ok_bind,hpieceLength,ok_bind,hpieces,ok_bind,hmd5sum,ok_bind]
  cases h
  exact ⟨_,rfl,rfl⟩

theorem multiBody_same {f f' : Node} (hsame : ∀ field ∈ multiFields, FindsSame field.1 n n') (hf : f.Same f')
    (h : multiBody snprintf maxPathLen n f announce hash = .ok t) :
    ∃ t', multiBody snprintf maxPathLen n' f' announce hash' = .ok t' ∧ t'.description = t.description := by
  have hname : FindsSame (ascii "name") n n' := hsame (_,.string) (by decide)
  have hpieceLength : FindsSame (ascii "piece length") n n' := hsame (_,.number) (by decide)
  have hpieces : FindsSame (ascii "pieces") n n' := hsame (_,.string) (by decide)
  have hfiles : f.children.mapM (multiFile snprintf maxPathLen) = f'.children.mapM (multiFile snprintf maxPathLen) :=
    mapM_same (fun _ _ => multiFile_same) hf.children
  unfold multiBody at h ⊢
  rw [hname.stringField,hpieceLength.intField,hpieces.stringField,hfiles] at h
  obtain ⟨name,hname,h⟩ := bind_ok.mp h
  obtain ⟨pieceLength,hpieceLength,h⟩ := bind_ok.mp h
  obtain ⟨pieces,hpieces,h⟩ := bind_ok.mp h
  obtain ⟨files,hfiles,h⟩ := bind_ok.mp h
  rw [hname,ok_bind,hpieceLength,ok_bind,hpieces,ok_bind,hfiles,ok_bind]
  cases h
  exact ⟨_,rfl,rfl⟩

end Fields

section Taken
variable {v v' : Value} {snprintf : SelfJoin} {maxPathLen : ℕ} {hash hash' : Bytes} {announce : CharBuf}
  {t : ParsedTorrent}
  {key missing wrong : String}

/-- The tree that `benc_parse_buf` makes of a file with this value. -/
def Value.root (v : Value) : Node := .list [v.spelled.node 0]

theorem find_root (key : Bytes) (v : Value) : (bencNodeFind key v.root).map Node.unplaced =
    (v.find key).map Value.tree := by
  rw [← find_node key v 0,Value.root,bencNodeFind,findAmong,findAmong,Option.or_none]

/-- The same fields are found in the files of values that have the same entries. -/
theorem findsSame_of_find {key : Bytes} (h : v.find key = v'.find key) : FindsSame key v.root v'.root := by
  rw [FindsSame,find_root,find_root,h]

theorem takes_of_stringField {r : ℕ × CharBuf} (h : stringField v.root key missing wrong = .ok r) :
    FieldKind.string.takes (v.find (ascii key)) = true := by
  have hfind := find_root (ascii key) v
  unfold stringField at h
  split at h
  · cases h
  · rename_i hnode
    rw [hnode] at hfind
    obtain ⟨w,hw,htree⟩ := Option.map_eq_some_iff.mp hfind.symm
    rw [hw]
    cases w with
    | str s => rfl
    | _ => cases htree
  · cases h

theorem takes_of_intField {n : ℤ} (h : intField v.root key missing wrong = .ok n) :
    FieldKind.number.takes (v.find (ascii key)) = true := by
  have hfind := find_root (ascii key) v
  unfold intField at h
  split at h
  · cases h
  · rename_i hnode
    rw [hnode] at hfind
    obtain ⟨w,hw,htree⟩ := Option.map_eq_some_iff.mp hfind.symm
    rw [hw]
    cases w with
    | int n => rfl
    | _ => cases htree
  · cases h

theorem takes_of_md5sumField {md5sum : Option CharBuf} (h : md5sumField v.root = .ok md5sum) :
    FieldKind.optional.takes (v.find (ascii "md5sum")) = true := by
  have hfind := find_root (ascii "md5sum") v
  unfold md5sumField at h
  split at h
  · rename_i hnode
    rw [hnode] at hfind
    rw [Option.map_eq_none_iff.mp hfind.symm]
    rfl
  · rename_i hnode
    rw [hnode] at hfind
    obtain ⟨w,hw,htree⟩ := Option.map_eq_some_iff.mp hfind.symm
    rw [hw]
    cases w with
    | str s => rfl
    | _ => cases htree
  · cases h

theorem singleBody_takes (h : singleBody v.root announce hash = .ok t) :
    ∀ field ∈ singleFields, field.2.takes (v.find field.1) = true := by
  obtain ⟨fileLength,hfileLength,h⟩ := bind_ok.mp h
  obtain ⟨name,hname,h⟩ := bind_ok.mp h
  obtain ⟨pieceLength,hpieceLength,h⟩ := bind_ok.mp h
  obtain ⟨pieces,hpieces,h⟩ := bind_ok.mp h
  obtain ⟨md5sum,hmd5sum,-⟩ := bind_ok.mp h
  simp only [singleFields,List.forall_mem_cons]
  exact ⟨takes_of_intField hfileLength,takes_of_stringField hname,takes_of_intField hpieceLength,
    takes_of_stringField hpieces,takes_of_md5sumField hmd5sum,List.forall_mem_nil _⟩

theorem multiBody_takes {f : Node} (h : multiBody snprintf maxPathLen v.root f announce hash = .ok t) :
    ∀ field ∈ multiFields, field.2.takes (v.find field.1) = true := by
  obtain ⟨name,hname,h⟩ := bind_ok.mp h
  obtain ⟨pieceLength,hpieceLength,h⟩ := bind_ok.mp h
  obtain ⟨pieces,hpieces,-⟩ := bind_ok.mp h
  simp only [multiFields,List.forall_mem_cons]
  exact ⟨takes_of_stringField hname,takes_of_intField hpieceLength,takes_of_stringField hpieces,List.forall_mem_nil _⟩

/-- What is found under the names asked for makes the description. -/
theorem parseFields_same (hsame : ∀ key ∈ askedFor v.find (fieldsOf v.find), v.find key = v'.find key)
    (h : parseFields snprintf maxPathLen v.root hash = .ok t) :
    ∃ t', parseFields snprintf maxPathLen v'.root hash' = .ok t' ∧ t'.description = t.description := by
  unfold parseFields at h ⊢
  obtain ⟨announce,hannounce,h⟩ := bind_ok.mp h
  have hany : FieldKind.any.takes (v.find (ascii "files")) = true := rfl
  rw [fieldsOf,askedFor,if_pos (takes_of_stringField hannounce),askedFor,if_pos hany,List.forall_mem_cons,
    List.forall_mem_cons] at hsame
  obtain ⟨hsameannounce,hsamefiles,hsame⟩ := hsame
  have hkeys : ∀ {fields : List (Bytes × FieldKind)}, (∀ key ∈ fields.map Prod.fst, v.find key = v'.find key) →
      ∀ field ∈ fields, FindsSame field.1 v.root v'.root := by
    intro fields hall field hfield
    exact findsSame_of_find (hall _ (List.mem_map_of_mem hfield))
  rw [(findsSame_of_find hsameannounce).stringField] at hannounce
  rw [hannounce,ok_bind]
  have hfiles := find_root (ascii "files") v
  rcases (findsSame_of_find hsamefiles).cases with ⟨hn,hn'⟩ | ⟨f,f',hn,hn',hf⟩
  · rw [hn] at h hfiles
    rw [hn']
    have hnone : v.find (ascii "files") = none := Option.map_eq_none_iff.mp hfiles.symm
    rw [if_pos hnone,askedFor_all (singleBody_takes h)] at hsame
    exact singleBody_same (hkeys hsame) h
  · rw [hn] at h hfiles
    rw [hn']
    have hsome : v.find (ascii "files") ≠ none := by
      intro hnone
      rw [hnone] at hfiles
      cases hfiles
    rw [if_neg hsome,askedFor_all (multiBody_takes h)] at hsame
    exact multiBody_same (hkeys hsame) hf h

end Taken

/-- Two files give torrents of one description, or neither gives any. -/
def Inert (sha1 : Bytes → Bytes) (snprintf : SelfJoin) (maxPathLen : ℕ) (f f' : Bytes) : Prop :=
  (∀ t, torrentParseFile sha1 snprintf maxPathLen f = .ok t →
    ∃ t', torrentParseFile sha1 snprintf maxPathLen f' = .ok t' ∧ t'.description = t.description) ∧
  ∀ t', torrentParseFile sha1 snprintf maxPathLen f' = .ok t' →
    ∃ t, torrentParseFile sha1 snprintf maxPathLen f = .ok t ∧ t.description = t'.description

/-- The entries get as far as the info hash: the parser takes them, the first `info` is a dictionary, and the text
"4:info" is in the file in front of its first zero. -/
structure Hashable (es : List (Bytes × Value)) : Prop where
  taken : (Value.dict es).spelled.Ok 15
  info : ∃ entries, findEntries (ascii "info") es = some (.dict entries)
  text : ascii "4:info" <:+: (Value.dict es).encode.takeWhile (· ≠ 0)

section Files
variable {sha1 : Bytes → Bytes} {snprintf : SelfJoin} {maxPathLen : ℕ} {v v' : Value} {es es' : List (Bytes × Value)}
  {f : Bytes} {t : ParsedTorrent}

theorem infoDigested_tree {r : ℕ × ℕ} (h : infoDigested f = .ok r) :
    ∃ troot info, metainfoTree f = .ok troot ∧ infoNode troot = .ok info ∧ infoRange f info.stop = .ok r := by
  obtain ⟨troot,hroot,h⟩ := bind_ok.mp h
  obtain ⟨info,hinfo,h⟩ := bind_ok.mp h
  exact ⟨troot,info,hroot,hinfo,h⟩

theorem infoDigested_parses {r : ℕ × ℕ} (h : infoDigested v.encode = .ok r) : Parses v.encode := by
  obtain ⟨troot,info,hroot,-⟩ := infoDigested_tree h
  apply parses_of_tree
  rw [hroot]
  rfl

/-- A file whose info hash is found is read from the tree of its value. -/
theorem torrentParseFile_digested {r : ℕ × ℕ} (h : infoDigested v.encode = .ok r) :
    torrentParseFile sha1 snprintf maxPathLen v.encode =
      parseFields snprintf maxPathLen v.root (sha1 (window v.encode r.1 r.2)) := by
  obtain ⟨troot,info,hroot,hinfo,hrange⟩ := infoDigested_tree h
  have htroot : troot = v.root := Except.ok.inj (hroot.symm.trans (metainfoTree_encode (infoDigested_parses h)))
  rw [torrentParseFile,hroot,ok_bind,hinfo,ok_bind,torrentParseInfohash,hrange,htroot]
  rfl

/-- A dictionary that is found ends behind the bytes that settle the search for the text. -/
theorem infoRange_placed {front : Bytes} {stop : ℕ} (hfront : Stops front) (hfile : front <+: f)
    (hstop : front.length ≤ stop)
    (hzero : 0 < stop) (htext : ascii "4:info" <:+: f.takeWhile (· ≠ 0)) : ∃ r, infoRange f stop = .ok r := by
  obtain ⟨p,hp⟩ := (strstr_some_iff (by decide) (by decide)).mpr htext
  have hlen : f.length - p.length + 6 ≤ front.length := by
    obtain ⟨rest,rfl⟩ := hfile
    rcases strstr_settled (by decide) (by decide) hfront with hnone | ⟨head,body,rfl,-,hfound⟩
    · rw [hnone rest] at hp
      cases hp
    · rw [hfound rest] at hp
      cases hp
      have hsix : (ascii "4:info").length = 6 := rfl
      simp only [List.length_append,hsix]
      omega
  refine ⟨(f.length - p.length + 6,stop - (f.length - p.length + 6)),?_⟩
  rw [infoRange,if_neg (by omega),hp,ok_bind]
  dsimp only
  rw [if_neg (by omega)]

theorem digested_iff : (∃ r, infoDigested (Value.dict es).encode = .ok r) ↔ Hashable es := by
  constructor
  · rintro ⟨r,hr⟩
    have hparses := infoDigested_parses hr
    obtain ⟨troot,info,hroot,hinfo,hrange⟩ := infoDigested_tree hr
    have htroot : troot = (Value.dict es).root := Except.ok.inj (hroot.symm.trans (metainfoTree_encode hparses))
    unfold infoRange at hrange
    split at hrange
    · cases hrange
    rename_i hstop
    obtain ⟨found,hfound,hrange⟩ := bind_ok.mp hrange
    refine ⟨(parses_encode _).mp hparses,?_,?_⟩
    · unfold infoNode at hinfo
      split at hinfo
      · cases hinfo
      · rename_i node hnode
        cases hinfo
        have hfind := find_root (ascii "info") (.dict es)
        rw [← htroot,hnode] at hfind
        obtain ⟨w,hw,htree⟩ := Option.map_eq_some_iff.mp hfind.symm
        cases w with
        | dict entries => exact ⟨entries,hw⟩
        | _ =>
          cases info with
          | dict => cases htree
          | _ => exact absurd rfl hstop
    · cases found with
      | none => cases hrange
      | some p => exact (strstr_some_iff (by decide) (by decide)).mp ⟨p,hfound⟩
  · rintro ⟨htaken,⟨entries,hinfo⟩,htext⟩
    have hfind : (Value.dict es).find (ascii "info") = some (.dict entries) := hinfo
    obtain ⟨front,k,rest,hk,heq,hnode⟩ := find_placed (ascii "info") (.dict es) 0 hfind
    have hroot := metainfoTree_encode ((parses_encode _).mpr htaken)
    have hinfo : infoNode (.list [(Value.dict es).spelled.node 0]) =
        .ok ((Value.dict entries).spelled.node (0 + (front ++ encodeStr k).length)) := by
      unfold infoNode
      rw [bencNodeFind,findAmong,findAmong,hnode,Option.or_none]
    have hsize : 0 < (Value.dict entries).encode.length := Nat.succ_pos _
    rw [infoDigested,hroot,ok_bind,hinfo,ok_bind]
    refine infoRange_placed (stops_of_key front hk) (heq ▸ List.prefix_append _ _) ?_ ?_ htext
    · rw [stop_dict]
      omega
    · rw [stop_dict]
      omega

/-- The same is found under the names asked for as without the entries that are not looked up. -/
def Unmixed (es : List (Bytes × Value)) : Prop := ∀ key ∈ asked (known es), findEntries key es =
    findEntries key (known es)

theorem torrentParseFile_same (hextras : known es = known es') (hhash : Hashable es → Hashable es')
    (hes : Hashable es → Unmixed es) (hes' : Hashable es' → Unmixed es')
    (h : torrentParseFile sha1 snprintf maxPathLen (Value.dict es).encode = .ok t) :
    ∃ t', torrentParseFile sha1 snprintf maxPathLen (Value.dict es').encode = .ok t' ∧ t'.description =
      t.description := by
  obtain ⟨r,hr,-⟩ := torrentParseFile_infoHash h
  have hashable := digested_iff.mp ⟨r,hr⟩
  obtain ⟨r',hr'⟩ := digested_iff.mpr (hhash hashable)
  rw [torrentParseFile_digested hr] at h
  rw [torrentParseFile_digested hr']
  have hunmixed := hes hashable
  have hunmixed' := hes' (hhash hashable)
  have hasked : asked (known es) = asked es := asked_congr fun key hkey => (hunmixed key hkey).symm
  refine parseFields_same ?_ h
  intro key hkey
  have hmem : key ∈ asked (known es) := by
    rw [hasked]
    exact hkey
  have heq : findEntries key es = findEntries key es' := by
    rw [hunmixed key hmem,hextras,← hunmixed' key (hextras ▸ hmem)]
  exact heq

end Files

/-- Entries that are not looked up make no difference, as far as no field that is asked for is found in one of them and
they do not keep the file from getting its info hash. -/
theorem extras_inert (sha1 : Bytes → Bytes) (snprintf : SelfJoin) (maxPathLen : ℕ) (es es' : List (Bytes × Value))
    (hextras : known es = known es') (hhash : Hashable es ↔ Hashable es')
    (hes : Hashable es → Unmixed es) (hes' : Hashable es' → Unmixed es') :
    Inert sha1 snprintf maxPathLen (Value.dict es).encode (Value.dict es').encode := by
  constructor
  · intro t ht
    exact torrentParseFile_same hextras hhash.mp hes hes' ht
  · intro t ht
    exact torrentParseFile_same hextras.symm hhash.mpr hes' hes ht

/-- A metainfo file of one byte, with more entries at its ends. -/
def oneByteEntries (pre post : List (Bytes × Value)) : List (Bytes × Value) :=
  pre ++ (ascii "announce",.str (ascii "u")) :: (ascii "info",.dict oneByte) :: post

def listedEntries (pre post : List (Bytes × Value)) : List (Bytes × Value) :=
  pre ++ (ascii "announce",.str (ascii "u")) :: (ascii "info",.dict
    [(ascii "files",.list [.dict [(ascii "length",.int 1),(ascii "path",.list [.str (ascii "b")])]]),
      (ascii "name",.str (ascii "n")),(ascii "piece length",.int 1),(ascii "pieces",.str (List.replicate 20 120))])
        :: post

/-- A length in an entry in front, which is not asked for where there is a list of files, and an announce URL
in an entry at the end. -/
theorem extras_inert_listed : Inert (fun _ => List.replicate 20 0) .openbsd 1024
    (Value.dict (listedEntries [(ascii "a",.dict [(ascii "length",.int 5)])] [])).encode
    (Value.dict (listedEntries [] [(ascii "x",.dict [(ascii "announce",.str (ascii "w"))])])).encode := by
  have hashable : ∀ es ∈ [listedEntries [(ascii "a",.dict [(ascii "length",.int 5)])] [],
      listedEntries [] [(ascii "x",.dict [(ascii "announce",.str (ascii "w"))])]], Hashable es := by
    simp only [List.forall_mem_cons]
    refine ⟨⟨?_,⟨_,rfl⟩,by decide +kernel⟩,⟨?_,⟨_,rfl⟩,by decide +kernel⟩,List.forall_mem_nil _⟩
    · exact (parses_encode _).mp (parses_of_tree (by decide +kernel))
    · exact (parses_encode _).mp (parses_of_tree (by decide +kernel))
  have hasked : asked (listedEntries [] []) =
      [ascii "announce",ascii "files",ascii "name",ascii "piece length",ascii "pieces"] := rfl
  apply extras_inert
  · rfl
  · exact iff_of_true (hashable _ List.mem_cons_self) (hashable _ (List.mem_cons_of_mem _ List.mem_cons_self))
  · intro _
    have hknown : known (listedEntries [(ascii "a",.dict [(ascii "length",.int 5)])] []) = listedEntries [] [] := rfl
    rw [Unmixed,hknown,hasked]
    simp only [List.forall_mem_cons]
    exact ⟨rfl,rfl,rfl,rfl,rfl,List.forall_mem_nil _⟩
  · intro _
    have hknown : known (listedEntries [] [(ascii "x",.dict [(ascii "announce",.str (ascii "w"))])]) =
      listedEntries [] [] := rfl
    rw [Unmixed,hknown,hasked]
    simp only [List.forall_mem_cons]
    exact ⟨rfl,rfl,rfl,rfl,rfl,List.forall_mem_nil _⟩

/-- An announce URL in an entry in front: the torrent gets it for its own. -/
theorem extra_announce :
    known (oneByteEntries [(ascii "a",.dict [(ascii "announce",.str (ascii "w"))])] []) = known (oneByteEntries [] []) ∧
    (∃ t, torrentParseFile (fun _ => List.replicate 20 0) .openbsd 1024
        (Value.dict (oneByteEntries [(ascii "a",.dict [(ascii "announce",.str (ascii "w"))])] [])).encode = .ok t ∧
      t.description.announce.cString.toOption = some (ascii "w")) ∧
    ∃ t, torrentParseFile (fun _ => List.replicate 20 0) .openbsd 1024 (Value.dict (oneByteEntries [] [])).encode =
      .ok t ∧
      t.description.announce.cString.toOption = some (ascii "u") := by
  refine ⟨rfl,?_,?_⟩
  · obtain ⟨t,ht,hannounce⟩ := @exists_ok _ _ (torrentParseFile (fun _ => List.replicate 20 0) .openbsd 1024
        (Value.dict (oneByteEntries [(ascii "a",.dict [(ascii "announce",.str (ascii "w"))])] [])).encode)
      (fun t => t.description.announce.cString.toOption = some (ascii "w")) (by decide +kernel)
    exact ⟨t,ht,of_decide_eq_true hannounce⟩
  · obtain ⟨t,ht,hannounce⟩ := @exists_ok _ _ (torrentParseFile (fun _ => List.replicate 20 0) .openbsd 1024
        (Value.dict (oneByteEntries [] [])).encode)
      (fun t => t.description.announce.cString.toOption = some (ascii "u")) (by decide +kernel)
    exact ⟨t,ht,of_decide_eq_true hannounce⟩

end Unworkable
