import Unworkable.Library.Path
import Unworkable.Torrent.InfoHash

/-! # Where the files of a torrent are

The paths that `torrent_mmap_create` opens, with the directories made for them, go through
no check: the name and the path elements of the metainfo are put together with slashes.
-/
namespace Unworkable
open Library

/-- What `mkpath` has still to do: it is done at the directory it starts from. -/
def mkpathLeft (s : Bytes) : ℕ := if s = [46] ∨ s = [47] then 0 else s.length + 1

theorem mkpathLeft_dirname {s : Bytes} (h : ¬ (s = [46] ∨ s = [47])) : mkpathLeft (dirname s) < mkpathLeft s := by
  rw [mkpathLeft,mkpathLeft,if_neg h]
  rcases length_dirname s with hdot | hroot | hlt
  · rw [if_pos (.inl hdot)]
    exact Nat.succ_pos _
  · rw [if_pos (.inr hroot)]
    exact Nat.succ_pos _
  · split <;> omega

/-- `mkpath`: the paths handed to `mkdir` one after the other, as long as none of the calls fails. -/
def mkpath (s : Bytes) : List Bytes :=
  if _ : s = [46] ∨ s = [47] then [] else mkpath (dirname s) ++ [s]
termination_by mkpathLeft s
decreasing_by exact mkpathLeft_dirname ‹_›

section Mkpath
variable {s d : Bytes} {ms : List (Move Bytes)}

theorem prefix_dropLast_of_ne {ns : List (Move Bytes)} (h : ms <+: ns) (hne : ms ≠ ns) : ms <+: ns.dropLast := by
  rcases List.eq_nil_or_concat ns with rfl | ⟨front,m,rfl⟩
  · exact (hne (List.prefix_nil.mp h)).elim
  · rw [List.concat_eq_append] at h hne ⊢
    rw [List.dropLast_concat]
    exact (List.prefix_concat_iff.mp h).resolve_left hne

/-- The directories made are on the way. -/
theorem mem_mkpath (hs : Relative s) (h : d ∈ mkpath s) : Relative d ∧ moves d <+: moves s := by
  induction s using mkpath.induct with
  | case1 s hstop =>
    rw [mkpath,dif_pos hstop] at h
    cases h
  | case2 s hstop ih =>
    rw [mkpath,dif_neg hstop,List.mem_append,List.mem_singleton] at h
    rcases h with h | rfl
    · obtain ⟨hrel,hmoves⟩ := dirname_relative hs
      obtain ⟨hd,hway⟩ := ih hrel h
      refine ⟨hd,hway.trans ?_⟩
      rcases hmoves with hmoves | hmoves
      · rw [hmoves]
      · rw [hmoves]
        exact List.dropLast_prefix _
    · exact ⟨hs,List.prefix_rfl⟩

/-- Every directory on the way is made, or is there. -/
theorem exists_mem_mkpath (hs : Relative s) (hms : ms <+: moves s) (hne : ms ≠ []) : ∃ d ∈ mkpath s, moves d = ms := by
  induction s using mkpath.induct with
  | case1 s hstop =>
    have hnil : moves s = [] := by rcases hstop with rfl | rfl <;> decide
    rw [hnil,List.prefix_nil] at hms
    exact (hne hms).elim
  | case2 s hstop ih =>
    rw [mkpath,dif_neg hstop]
    by_cases heq : ms = moves s
    · exact ⟨s,List.mem_append_right _ List.mem_cons_self,heq.symm⟩
    · obtain ⟨hrel,hmoves⟩ := dirname_relative hs
      have hway : ms <+: moves (dirname s) := by
        rcases hmoves with hmoves | hmoves
        · rwa [hmoves]
        · rw [hmoves]
          exact prefix_dropLast_of_ne hms heq
      obtain ⟨d,hd,hmoves⟩ := ih hrel hway
      exact ⟨d,List.mem_append_left _ hd,hmoves⟩

end Mkpath

/-- What a call of `torrent_mmap_create` opens, and the directories it makes before. -/
structure Opening where
  dirs : List Bytes
  file : Bytes
  deriving DecidableEq

/-- The path of `torrent_mmap_create`: that of a single file is cut to the size of the buffer. The calls
are those of a process in which none of them fails. -/
def ParsedTorrent.opening (maxPathLen : ℕ) (tp : ParsedTorrent) (tfp : ParsedFile) : Except Halt Opening :=
  match tp.type,tp.name with
  | .singlefile,_ => tfp.path.cString.map fun path => ⟨[],path.take (maxPathLen - 1)⟩
  | .multifile,none => .error .wild
  | .multifile,some name => do
    let dir ← name.cString
    let path ← tfp.path.cString
    let buf := dir ++ 47 :: path
    if maxPathLen ≤ buf.length then .error (.errx "torrent_mmap_create: path too long")
    else .ok ⟨mkpath (dirname buf),buf⟩

/-- The file is strictly below the current directory, whichever that is, and no directory is made outside it. -/
structure Opening.Inside (o : Opening) : Prop where
  file_relative : Relative o.file
  dirs_relative : ∀ d ∈ o.dirs, Relative d
  file_below : ∀ cwd, (∀ a ∈ cwd, IsName a) → Below cwd (resolve cwd o.file)
  dirs_inside : ∀ cwd, (∀ a ∈ cwd, IsName a) → ∀ d ∈ o.dirs, cwd <+: resolve cwd d

/-- The file is strictly below the directory called `name`, and a directory is made only there or on the way there. -/
structure Opening.InName (o : Opening) (name : Bytes) : Prop where
  file_below : ∀ cwd, (∀ a ∈ cwd, IsName a) → Below (resolve cwd name) (resolve cwd o.file)
  dirs_inside : ∀ cwd, (∀ a ∈ cwd, IsName a) → ∀ d ∈ o.dirs,
    resolve cwd d <+: resolve cwd name ∨ resolve cwd name <+: resolve cwd d

/-- The way of a path stays below the directory it starts from, and ends below it. -/
def StaysBelow (ms : List (Move Bytes)) : Prop := ∃ l, l ≠ [] ∧ walkBelow [] ms = some l

/-- The way through a directory `name`, and on, ends strictly below that directory. It never leaves the directory
it starts from, and goes through no directory that is neither in the one called `name` nor on the way there. -/
def WayInside (name way : List (Move Bytes)) : Prop :=
  ∃ l rest, rest ≠ [] ∧ walkBelow [] name = some l ∧ walkBelow l way = some (l ++ rest) ∧
    ∀ ms, ms <+: name ++ way → ∀ m, walkBelow [] ms = some m → m <+: l ∨ l <+: m

section Ways
variable {s name path : Bytes} {ms ns : List (Move Bytes)} {cwd l : List Bytes}

theorem walkBelow_front {loc : List Bytes} (h : walkBelow loc ns = some l) (hms : ms <+: ns) :
    ∃ m, walkBelow loc ms = some m := by
  obtain ⟨rest,rfl⟩ := hms
  rw [walkBelow_append,Option.bind_eq_some_iff] at h
  obtain ⟨m,hm,-⟩ := h
  exact ⟨m,hm⟩

theorem resolve_of_below (hs : Relative s) (h : walkBelow [] (moves s) = some l) : resolve cwd s = cwd ++ l := by
  have hwalk := walk_of_below cwd h
  rwa [List.append_nil,← resolve_relative hs] at hwalk

theorem below_append {rest : List Bytes} (h : rest ≠ []) : Below cwd (cwd ++ rest) :=
  ⟨List.prefix_append _ _,fun heq => h (List.append_right_eq_self.mp heq.symm)⟩

def freshName (n : ℕ) : Bytes := List.replicate (n + 1) 97

theorem freshName_isName (n : ℕ) : IsName (freshName n) := by
  have hmem : ∀ b ∈ freshName n, b = 97 := fun b hb => List.eq_of_mem_replicate hb
  have hcons : freshName n = 97 :: List.replicate n 97 := rfl
  refine ⟨by rw [hcons]; exact List.cons_ne_nil _ _,?_,?_,fun h => absurd (hmem _ h) (by decide),
    fun h => absurd (hmem _ h) (by decide)⟩
  · intro h
    rw [h] at hmem
    exact absurd (hmem 46 List.mem_cons_self) (by decide)
  · intro h
    rw [h] at hmem
    exact absurd (hmem 46 List.mem_cons_self) (by decide)

/-- A directory whose name is not on the way. -/
theorem exists_freshName (ms : List (Move Bytes)) : ∃ a, IsName a ∧ Move.down a ∉ ms := by
  obtain ⟨n,hn⟩ := @exists_fresh Bytes _ freshName (fun i j hij => Nat.succ.inj (List.replicate_left_inj.mp hij)) ms
  exact ⟨_,freshName_isName n,hn⟩

/-- A path that leads inside every directory it can start from leaves none of them. -/
theorem exists_walkBelow (hs : Relative s) (h : ∀ cwd, (∀ a ∈ cwd, IsName a) → cwd <+: resolve cwd s) :
    ∃ l, walkBelow [] (moves s) = some l := by
  obtain ⟨a,ha,hfresh⟩ := exists_freshName (moves s)
  cases hwalk : walkBelow [] (moves s) with
  | some l => exact ⟨l,rfl⟩
  | none =>
    have hin := h [a] (fun b hb => List.mem_singleton.mp hb ▸ ha)
    rw [resolve_relative hs] at hin
    exact (walk_leaves hwalk hfresh hin).elim

theorem below_iff (hs : Relative s) :
    (∀ cwd, (∀ a ∈ cwd, IsName a) → Below cwd (resolve cwd s)) ↔ StaysBelow (moves s) := by
  constructor
  · intro h
    obtain ⟨l,hl⟩ := exists_walkBelow hs (fun cwd hcwd => (h cwd hcwd).1)
    refine ⟨l,?_,hl⟩
    rintro rfl
    have hroot := (h [] (List.forall_mem_nil _)).2
    rw [resolve_of_below hs hl] at hroot
    exact hroot rfl
  · rintro ⟨l,hne,hl⟩ cwd -
    rw [resolve_of_below hs hl]
    exact below_append hne

theorem single_inside_iff : Opening.Inside ⟨[],s⟩ ↔ Relative s ∧ StaysBelow (moves s) := by
  constructor
  · intro h
    exact ⟨h.file_relative,(below_iff h.file_relative).mp h.file_below⟩
  · rintro ⟨hs,hbelow⟩
    exact ⟨hs,List.forall_mem_nil _,(below_iff hs).mpr hbelow,fun _ _ => List.forall_mem_nil _⟩

theorem relative_joined : Relative (name ++ 47 :: path) ↔ name ≠ [] ∧ Relative name := by
  cases name with
  | nil => simp [Relative]
  | cons b name => simp [Relative]

/-- The directories made for a file of several are all those on the way to it. -/
theorem mem_dirs (hpath : Relative path) (h : s ∈ mkpath (dirname path)) : Relative s ∧ moves s <+: moves path := by
  obtain ⟨hrel,hmoves⟩ := dirname_relative hpath
  obtain ⟨hs,hway⟩ := mem_mkpath hrel h
  refine ⟨hs,hway.trans ?_⟩
  rcases hmoves with hmoves | hmoves
  · rw [hmoves]
  · rw [hmoves]
    exact List.dropLast_prefix _

theorem exists_mem_dirs (hpath : Relative path) (hms : ms <+: moves path) (hne : ms ≠ moves path) (hnil : ms ≠ []) :
    ∃ d ∈ mkpath (dirname path), Relative d ∧ moves d = ms := by
  obtain ⟨hrel,hmoves⟩ := dirname_relative hpath
  have hway : ms <+: moves (dirname path) := by
    rcases hmoves with hmoves | hmoves
    · rwa [hmoves]
    · rw [hmoves]
      exact prefix_dropLast_of_ne hms hne
  obtain ⟨d,hd,hmoves⟩ := exists_mem_mkpath hrel hway hnil
  exact ⟨d,hd,(mem_mkpath hrel hd).1,hmoves⟩

/-- Wherever it is run, what a file of several is opened by stays inside exactly if its way does. -/
theorem multi_inside_iff : (Opening.Inside ⟨mkpath (dirname (name ++ 47 :: path)),name ++ 47 :: path⟩ ∧
    Opening.InName ⟨mkpath (dirname (name ++ 47 :: path)),name ++ 47 :: path⟩ name) ↔
      name ≠ [] ∧ Relative name ∧ WayInside (moves name) (moves path) := by
  constructor
  · rintro ⟨hin,hname⟩
    obtain ⟨hne,hrel⟩ := relative_joined.mp hin.file_relative
    obtain ⟨m,hm⟩ := exists_walkBelow hin.file_relative (fun cwd hcwd => (hin.file_below cwd hcwd).1)
    obtain ⟨a,ha,-⟩ := exists_freshName []
    have hcwd : ∀ b ∈ [a], IsName b := fun b hb => List.mem_singleton.mp hb ▸ ha
    have hfile := hname.file_below [a] hcwd
    rw [resolve_of_below hin.file_relative hm] at hfile
    have hm' := hm
    rw [moves_slash,walkBelow_append,Option.bind_eq_some_iff] at hm'
    obtain ⟨l,hl,hpath⟩ := hm'
    rw [resolve_of_below hrel hl] at hfile
    obtain ⟨rest,rfl⟩ := (List.prefix_append_right_inj _).mp hfile.1
    refine ⟨hne,hrel,l,rest,?_,hl,hpath,?_⟩
    · rintro rfl
      rw [List.append_nil] at hfile
      exact hfile.2 rfl
    · intro ms hms m hwalk
      rw [← moves_slash] at hms
      by_cases heq : ms = moves (name ++ 47 :: path)
      · rw [heq,hm] at hwalk
        cases hwalk
        exact .inr (List.prefix_append _ _)
      by_cases hnil : ms = []
      · rw [hnil] at hwalk
        cases hwalk
        exact .inl List.nil_prefix
      obtain ⟨d,hd,hdrel,rfl⟩ := exists_mem_dirs hin.file_relative hms heq hnil
      have hdir := hname.dirs_inside [a] hcwd d hd
      rw [resolve_of_below hdrel hwalk,resolve_of_below hrel hl] at hdir
      exact hdir.imp (List.prefix_append_right_inj _).mp (List.prefix_append_right_inj _).mp
  · rintro ⟨hne,hrel,l,rest,hrest,hl,hpath,hways⟩
    have hfile : Relative (name ++ 47 :: path) := relative_joined.mpr ⟨hne,hrel⟩
    have hwalk : walkBelow [] (moves (name ++ 47 :: path)) = some (l ++ rest) := by
      rw [moves_slash,walkBelow_append,hl]
      exact hpath
    have hdirs : ∀ d ∈ mkpath (dirname (name ++ 47 :: path)), Relative d ∧ ∃ m, walkBelow [] (moves d) = some m ∧
        (m <+: l ∨ l <+: m) := by
      intro d hd
      obtain ⟨hdrel,hway⟩ := mem_dirs hfile hd
      obtain ⟨m,hm⟩ := walkBelow_front hwalk hway
      rw [moves_slash] at hway
      exact ⟨hdrel,m,hm,hways _ hway m hm⟩
    refine ⟨⟨hfile,fun d hd => (hdirs d hd).1,(below_iff hfile).mpr ⟨l ++ rest,by simp [hrest],hwalk⟩,?_⟩,?_,?_⟩
    · intro cwd _ d hd
      obtain ⟨hdrel,m,hm,-⟩ := hdirs d hd
      rw [resolve_of_below hdrel hm]
      exact List.prefix_append _ _
    · intro cwd _
      rw [resolve_of_below hfile hwalk,resolve_of_below hrel hl,← List.append_assoc]
      exact below_append hrest
    · intro cwd _ d hd
      obtain ⟨hdrel,m,hm,hnear⟩ := hdirs d hd
      rw [resolve_of_below hdrel hm,resolve_of_below hrel hl]
      exact hnear.imp (List.prefix_append_right_inj _).mpr (List.prefix_append_right_inj _).mpr

end Ways

/-- The C string of an element of a path. -/
def Node.text : Node → Bytes
  | .string _ value => value.text.takeWhile (· ≠ 0)
  | _ => []

def pathElements (childnode : Node) : List Bytes :=
  match bencNodeFind (ascii "path") childnode with
  | some (.list elements) => elements.map Node.text
  | _ => []

/-- The elements put together. Empty ones in front are passed over. -/
def joinElements (snprintf : SelfJoin) (path : Bytes) (elements : List Bytes) : Bytes :=
  elements.foldl (fun path s => if path = [] then s else snprintf.text path s) path

section Elements
variable {snprintf : SelfJoin} {maxPathLen : ℕ} {path p : Bytes}

/-- With OpenBSD's `snprintf` the way is that of the elements one after the other. -/
theorem moves_joinElements (path : Bytes) (elements : List Bytes) :
    moves (joinElements .openbsd path elements) = moves path ++ elements.flatMap moves := by
  induction elements generalizing path with
  | nil => exact (List.append_nil _).symm
  | cons s elements ih =>
    rw [joinElements,List.foldl_cons,← joinElements,ih,List.flatMap_cons]
    split
    · rename_i hnil
      rw [hnil]
      rfl
    · rw [SelfJoin.openbsd,moves_slash,List.append_assoc]

theorem CharBuf.cString_eq {b : CharBuf} {s : Bytes} (h : b.cString = .ok s) : s = b.text.takeWhile (· ≠ 0) := by
  unfold CharBuf.cString at h
  split at h
  · cases h
    rfl
  · cases h

/-- One element is put behind the path. -/
theorem addPathElement_eq {e : Node} (h : addPathElement snprintf maxPathLen path e = .ok p) :
    p = (if path = [] then e.text else snprintf.text path e.text) ∧ p.length < maxPathLen := by
  cases e with
  | string len value =>
    obtain ⟨s,hs,h⟩ := bind_ok.mp h
    have htext : (Node.string len value).text = s := (CharBuf.cString_eq hs).symm
    rw [htext]
    dsimp only at h
    generalize (if path = [] then s else snprintf.text path s) = joined at h ⊢
    split at h
    · cases h
    · rename_i hlen
      cases h
      exact ⟨rfl,Nat.lt_of_not_le hlen⟩
  | _ => cases h

theorem foldlM_addPathElement {es : List Node} (hpath : path.length < maxPathLen)
    (h : es.foldlM (addPathElement snprintf maxPathLen) path = .ok p) :
    p = joinElements snprintf path (es.map Node.text) ∧ p.length < maxPathLen := by
  induction es generalizing path with
  | nil =>
    cases h
    exact ⟨rfl,hpath⟩
  | cons e es ih =>
    rw [List.foldlM_cons] at h
    obtain ⟨q,hq,h⟩ := bind_ok.mp h
    obtain ⟨rfl,hlen⟩ := addPathElement_eq hq
    exact ih hlen h

theorem pathField_eq {childnode : Node} (hmax : 0 < maxPathLen) (h : pathField snprintf maxPathLen childnode = .ok p) :
    p = joinElements snprintf [] (pathElements childnode) ∧ p.length < maxPathLen := by
  unfold pathField at h
  unfold pathElements
  split at h
  · cases h
  · rename_i es hes
    rw [hes]
    exact foldlM_addPathElement hmax h
  · cases h

theorem not_mem_text (n : Node) : 0 ∉ n.text := by
  cases n with
  | string len value =>
    intro h
    simpa using List.mem_takeWhile_imp h
  | _ => exact List.not_mem_nil

theorem not_mem_joinElements {elements : List Bytes} (hpath : 0 ∉ path) (h : ∀ s ∈ elements, 0 ∉ s) :
    0 ∉ joinElements snprintf path elements := by
  induction elements generalizing path with
  | nil => exact hpath
  | cons s elements ih =>
    obtain ⟨hs,helements⟩ := List.forall_mem_cons.mp h
    apply ih _ helements
    dsimp only
    split
    · exact hs
    · exact snprintf.no_nul _ _ hpath hs

theorem not_mem_pathElements (childnode : Node) : ∀ s ∈ pathElements childnode, 0 ∉ s := by
  unfold pathElements
  split
  · rw [List.forall_mem_map]
    exact fun e _ => not_mem_text e
  · exact List.forall_mem_nil _

/-- The path of a file of several is in its buffer whole. -/
theorem multiFile_path {childnode : Node} {tfp : ParsedFile} (hmax : 0 < maxPathLen)
    (h : multiFile snprintf maxPathLen childnode = .ok tfp) :
    tfp.path.cString = .ok (joinElements snprintf [] (pathElements childnode)) := by
  obtain ⟨fileLength,-,h⟩ := bind_ok.mp h
  obtain ⟨path,hpath,h⟩ := bind_ok.mp h
  cases h
  obtain ⟨rfl,hlen⟩ := pathField_eq hmax hpath
  have hnul : 0 ∉ joinElements snprintf [] (pathElements childnode) :=
    not_mem_joinElements List.not_mem_nil (not_mem_pathElements childnode)
  rw [CharBuf.cString_of_lt hlen]
  apply congrArg
  rw [List.takeWhile_eq_self_iff]
  intro b hb
  simpa using ne_of_mem_of_not_mem hb hnul

end Elements

/-- A call of `torrent_mmap_create` for one of the files: it does not go by a string that has no end, and what it
opens is inside. A path that is too long is not opened. -/
def ParsedTorrent.Confines (maxPathLen : ℕ) (tp : ParsedTorrent) (tfp : ParsedFile) : Prop :=
  tp.opening maxPathLen tfp ≠ .error .wild ∧ ∀ o, tp.opening maxPathLen tfp = .ok o → o.Inside ∧
    ∀ buf name, tp.type = .multifile → tp.name = some buf → buf.cString = .ok name → o.InName name

/-- All files stay inside the directory the program is run in, those of several inside the torrent's own. -/
def StaysInside (maxPathLen : ℕ) (tp : ParsedTorrent) : Prop := ∀ tfp ∈ tp.files, tp.Confines maxPathLen tfp

def NameInside (maxPathLen : ℕ) (name : Bytes) : Prop :=
  Relative (name.take (maxPathLen - 1)) ∧ StaysBelow (moves (name.take (maxPathLen - 1)))

def PathInside (maxPathLen : ℕ) (name path : Bytes) : Prop :=
  name.length + 1 + path.length < maxPathLen → name ≠ [] ∧ Relative name ∧ WayInside (moves name) (moves path)

/-- The strings in a metainfo tree keep the files inside. The name's string has an end if any file is to be opened. -/
def NamesInside (snprintf : SelfJoin) (maxPathLen : ℕ) (troot : Node) : Prop :=
  ∃ len value, bencNodeFind (ascii "name") troot = some (.string len value) ∧
    match bencNodeFind (ascii "files") troot with
    | none => ∃ name, value.cString = .ok name ∧ NameInside maxPathLen name
    | some filenode => ∀ childnode ∈ filenode.children,
      ∃ name, value.cString = .ok name ∧ PathInside maxPathLen name (joinElements snprintf [] (pathElements childnode))

section Files
variable {snprintf : SelfJoin} {maxPathLen : ℕ} {tp : ParsedTorrent} {tfp : ParsedFile} {value : CharBuf}

theorem cString_outcome (b : CharBuf) : (∃ s, b.cString = .ok s) ∨ b.cString = .error .wild := by
  unfold CharBuf.cString
  split
  · exact .inl ⟨_,rfl⟩
  · exact .inr rfl

theorem confines_single (htype : tp.type = .singlefile) (hpath : tfp.path = value) :
    tp.Confines maxPathLen tfp ↔ ∃ name, value.cString = .ok name ∧ NameInside maxPathLen name := by
  have hopening : tp.opening maxPathLen tfp = value.cString.map fun path => ⟨[],path.take (maxPathLen - 1)⟩ := by
    rw [ParsedTorrent.opening,htype,hpath]
  rw [ParsedTorrent.Confines,hopening]
  rcases cString_outcome value with ⟨name,hname⟩ | hwild
  · rw [hname]
    constructor
    · rintro ⟨-,h⟩
      exact ⟨name,rfl,single_inside_iff.mp (h _ rfl).1⟩
    · rintro ⟨_,heq,h⟩
      cases heq
      refine ⟨nofun,?_⟩
      intro o ho
      cases ho
      refine ⟨single_inside_iff.mpr h,?_⟩
      intro _ _ hmulti
      rw [htype] at hmulti
      cases hmulti
  · rw [hwild]
    constructor
    · rintro ⟨h,-⟩
      exact (h rfl).elim
    · rintro ⟨_,heq,-⟩
      cases heq

theorem confines_multi {path : Bytes} (htype : tp.type = .multifile) (hname : tp.name = some value)
    (hpath : tfp.path.cString = .ok path) :
    tp.Confines maxPathLen tfp ↔ ∃ name, value.cString = .ok name ∧ PathInside maxPathLen name path := by
  have hopening : tp.opening maxPathLen tfp = value.cString >>= fun dir =>
      if maxPathLen ≤ (dir ++ 47 :: path).length then .error (.errx "torrent_mmap_create: path too long")
      else .ok ⟨mkpath (dirname (dir ++ 47 :: path)),dir ++ 47 :: path⟩ := by
    rw [ParsedTorrent.opening,htype,hname]
    dsimp only
    rw [hpath]
    rfl
  rw [ParsedTorrent.Confines,hopening]
  rcases cString_outcome value with ⟨name,hcstring⟩ | hwild
  · have hlen : (name ++ 47 :: path).length = name.length + 1 + path.length := by
      rw [List.length_append,List.length_cons]
      omega
    rw [hcstring,ok_bind,hlen]
    by_cases hlong : maxPathLen ≤ name.length + 1 + path.length
    · rw [if_pos hlong]
      refine iff_of_true ⟨nofun,nofun⟩ ⟨name,rfl,?_⟩
      intro hfit
      omega
    · rw [if_neg hlong]
      constructor
      · rintro ⟨-,h⟩
        obtain ⟨hin,hinname⟩ := h _ rfl
        refine ⟨name,rfl,fun _ => ?_⟩
        exact multi_inside_iff.mp ⟨hin,hinname value name htype hname hcstring⟩
      · rintro ⟨_,heq,h⟩
        cases heq
        obtain ⟨hin,hinname⟩ := multi_inside_iff.mpr (h (by omega))
        refine ⟨nofun,?_⟩
        intro o ho
        cases ho
        refine ⟨hin,?_⟩
        intro buf name' _ hbuf hname'
        cases hname.symm.trans hbuf
        cases hcstring.symm.trans hname'
        exact hinname
  · rw [hwild]
    constructor
    · rintro ⟨h,-⟩
      exact (h rfl).elim
    · rintro ⟨_,heq,-⟩
      cases heq

theorem stringField_ok {node : Node} {key missing wrong : String} {r : ℕ × CharBuf}
    (h : stringField node key missing wrong = .ok r) : bencNodeFind (ascii key) node = some (.string r.1 r.2) := by
  unfold stringField at h
  split at h
  · cases h
  · rename_i hfind
    cases h
    exact hfind
  · cases h

theorem parseFields_inside {troot : Node} {infoHash : Bytes} (hmax : 0 < maxPathLen)
    (h : parseFields snprintf maxPathLen troot infoHash = .ok tp) :
    StaysInside maxPathLen tp ↔ NamesInside snprintf maxPathLen troot := by
  obtain ⟨announce,-,h⟩ := bind_ok.mp h
  unfold NamesInside
  cases hfiles : bencNodeFind (ascii "files") troot with
  | none =>
    rw [hfiles] at h
    obtain ⟨fileLength,-,h⟩ := bind_ok.mp h
    obtain ⟨name,hname,h⟩ := bind_ok.mp h
    obtain ⟨pieceLength,-,h⟩ := bind_ok.mp h
    obtain ⟨pieces,-,h⟩ := bind_ok.mp h
    obtain ⟨md5sum,-,h⟩ := bind_ok.mp h
    have hfind := stringField_ok hname
    cases h
    rw [StaysInside,List.forall_mem_singleton,confines_single rfl rfl]
    constructor
    · intro hinside
      exact ⟨_,_,hfind,hinside⟩
    · rintro ⟨len,value,hvalue,hinside⟩
      cases hfind.symm.trans hvalue
      exact hinside
  | some filenode =>
    rw [hfiles] at h
    obtain ⟨name,hname,h⟩ := bind_ok.mp h
    obtain ⟨pieceLength,-,h⟩ := bind_ok.mp h
    obtain ⟨pieces,-,h⟩ := bind_ok.mp h
    obtain ⟨files,hmap,h⟩ := bind_ok.mp h
    have hfind := stringField_ok hname
    obtain ⟨hto,hof⟩ := mem_mapM hmap
    have hfile : ∀ {childnode tfp}, multiFile snprintf maxPathLen childnode = .ok tfp → (tp.Confines maxPathLen tfp ↔
        ∃ s, name.2.cString = .ok s ∧ PathInside maxPathLen s (joinElements snprintf [] (pathElements childnode))) := by
      intro childnode tfp hchild
      cases h
      exact confines_multi rfl rfl (multiFile_path hmax hchild)
    have htpfiles : tp.files = files := by
      cases h
      rfl
    rw [StaysInside,htpfiles]
    constructor
    · intro hinside
      refine ⟨_,_,hfind,?_⟩
      intro childnode hchild
      obtain ⟨tfp,htfp,hparse⟩ := hto childnode hchild
      exact (hfile hparse).mp (hinside tfp htfp)
    · rintro ⟨len,value,hvalue,hinside⟩ tfp htfp
      cases hfind.symm.trans hvalue
      obtain ⟨childnode,hchild,hparse⟩ := hof tfp htfp
      exact (hfile hparse).mpr (hinside childnode hchild)

end Files

/-- The files of an accepted metainfo file stay inside exactly if the strings in its tree keep them there. -/
theorem stays_inside_iff (sha1 : Bytes → Bytes) (snprintf : SelfJoin) (maxPathLen : ℕ) (file : Bytes)
    (tp : ParsedTorrent)
    (hmax : 0 < maxPathLen) (h : torrentParseFile sha1 snprintf maxPathLen file = .ok tp) :
    StaysInside maxPathLen tp ↔ ∃ troot, metainfoTree file = .ok troot ∧ NamesInside snprintf maxPathLen troot := by
  obtain ⟨troot,hroot,h⟩ := bind_ok.mp h
  obtain ⟨info,-,h⟩ := bind_ok.mp h
  obtain ⟨digest,-,h⟩ := bind_ok.mp h
  rw [parseFields_inside hmax h]
  constructor
  · intro hinside
    exact ⟨troot,hroot,hinside⟩
  · rintro ⟨_,htree,hinside⟩
    cases hroot.symm.trans htree
    exact hinside

/-- A metainfo value whose `info` has these entries in front of the pieces. -/
def namedValue (entries : List (Bytes × Value)) : Value :=
  .dict [(ascii "announce",.str (ascii "u")),(ascii "info",.dict (entries ++
    [(ascii "piece length",.int 1),(ascii "pieces",.str (List.replicate 20 0))]))]

def singleValue (name : Bytes) : Value := namedValue [(ascii "length",.int 1),(ascii "name",.str name)]

def multiValue (name : Bytes) (elements : List Bytes) : Value :=
  namedValue [(ascii "files",.list [.dict [(ascii "length",.int 1),(ascii "path",.list (elements.map .str))]]),
    (ascii "name",.str name)]

theorem wayInside_of {name way : List (Move Bytes)} {l rest : List Bytes} (hrest : rest ≠ [])
    (hl : walkBelow [] name = some l)
    (hway : walkBelow l way = some (l ++ rest))
    (hall : ∀ ms ∈ (name ++ way).inits, ∀ m ∈ walkBelow [] ms, m <+: l ∨ l <+: m) : WayInside name way :=
  ⟨l,rest,hrest,hl,hway,fun ms hms m hm => hall ms ((List.mem_inits _ _).mpr hms) m hm⟩

/-- An empty element in front, a slash in the next and a step back; and a way that leads out of the directory, but
for what glibc leaves of it. -/
theorem stays_inside_joined :
    (∃ tp, torrentParseFile (fun _ => []) .openbsd 1024 (multiValue [110] [[],[97,47,98],[46,46],[99]]).encode =
      .ok tp ∧
      StaysInside 1024 tp) ∧
    ∃ tp, torrentParseFile (fun _ => []) .glibc 1024 (multiValue [110] [[46,46],[46,46],[120]]).encode = .ok tp ∧
      StaysInside 1024 tp := by
  constructor
  · obtain ⟨tp,htp,-⟩ := @exists_ok _ _ (torrentParseFile (fun _ => []) .openbsd 1024
      (multiValue [110] [[],[97,47,98],[46,46],[99]]).encode) (fun _ => true) (by decide +kernel)
    refine ⟨tp,htp,(stays_inside_iff _ .openbsd 1024 _ tp (by decide) htp).mpr ?_⟩
    refine ⟨_,metainfoTree_encode (parses_of_tree (by decide +kernel)),1,_,rfl,?_⟩
    intro childnode hchild
    have hway : moves (joinElements .openbsd [] (pathElements childnode)) = [.down [97],.down [98],.up,.down [99]] := by
      rw [moves_joinElements,List.mem_singleton.mp hchild]
      decide
    refine ⟨[110],rfl,fun _ => ⟨by decide,by decide,?_⟩⟩
    rw [hway]
    exact @wayInside_of _ _ [[110]] [[97],[99]] (by decide) (by decide) (by decide) (by decide)
  · obtain ⟨tp,htp,-⟩ := @exists_ok _ _ (torrentParseFile (fun _ => []) .glibc 1024
      (multiValue [110] [[46,46],[46,46],[120]]).encode) (fun _ => true) (by decide +kernel)
    refine ⟨tp,htp,(stays_inside_iff _ .glibc 1024 _ tp (by decide) htp).mpr ?_⟩
    refine ⟨_,metainfoTree_encode (parses_of_tree (by decide +kernel)),1,_,rfl,?_⟩
    intro childnode hchild
    have hway : moves (joinElements .glibc [] (pathElements childnode)) = [.down [120]] := by
      rw [List.mem_singleton.mp hchild]
      decide
    refine ⟨[110],rfl,fun _ => ⟨by decide,by decide,?_⟩⟩
    rw [hway]
    exact @wayInside_of _ _ [[110]] [[120]] (by decide) (by decide) (by decide) (by decide)

/-- From a directory called `a` below the root, an opened path leads elsewhere. -/
theorem not_staysInside {tp : ParsedTorrent} {path : Bytes} (hout : ¬ [freshName 0] <+: resolve [freshName 0] path)
    (hopen : tp.files.map (fun tfp => (tp.opening 1024 tfp).toOption.map Opening.file) = [some path]) :
    ¬ StaysInside 1024 tp := by
  intro hinside
  obtain ⟨tfp,htfp,hfile⟩ := List.map_eq_singleton_iff.mp hopen
  obtain ⟨o,ho,rfl⟩ := Option.map_eq_some_iff.mp hfile
  have hin := (hinside tfp (by rw [htfp]; exact List.mem_singleton_self _)).2 _ (ok_of_toOption ho)
  have hname : ∀ a ∈ [freshName 0], IsName a := fun a ha => List.mem_singleton.mp ha ▸ freshName_isName 0
  exact hout (hin.1.file_below _ hname).1

/-- A metainfo file that is accepted, and whose only file is opened outside at the given path. -/
def Escapes (snprintf : SelfJoin) (v : Value) (path : Bytes) : Prop :=
  ∃ tp, torrentParseFile (fun _ => []) snprintf 1024 v.encode = .ok tp ∧
    tp.files.map (fun tfp => (tp.opening 1024 tfp).toOption.map Opening.file) = [some path] ∧ ¬ StaysInside 1024 tp

theorem Escapes.of_opening {snprintf : SelfJoin} {v : Value} {path : Bytes}
    (hout : ¬ [freshName 0] <+: resolve [freshName 0] path)
    (h : (torrentParseFile (fun _ => []) snprintf 1024 v.encode).toOption.map (fun tp =>
      decide (tp.files.map (fun tfp => (tp.opening 1024 tfp).toOption.map Opening.file) = [some path])) = some true) :
    Escapes snprintf v path := by
  obtain ⟨tp,htp,hopen⟩ := exists_ok h
  have hopen := of_decide_eq_true hopen
  exact ⟨tp,htp,hopen,not_staysInside hout hopen⟩

/-- An absolute name, and an element that leads back out of the directory. No second element is put behind it, so that
it is the same on every system. -/
theorem files_escape : Escapes .openbsd (singleValue [47,120]) (ascii "/x") ∧
    Escapes .glibc (singleValue [47,120]) (ascii "/x") ∧
    Escapes .openbsd (multiValue [110] [ascii "../../x"]) (ascii "n/../../x") ∧
    Escapes .glibc (multiValue [110] [ascii "../../x"]) (ascii "n/../../x") := by
  have habsolute : ¬ [freshName 0] <+: resolve [freshName 0] (ascii "/x") := by decide
  have hback : ¬ [freshName 0] <+: resolve [freshName 0] (ascii "n/../../x") := by decide
  refine ⟨.of_opening habsolute ?_,.of_opening habsolute ?_,.of_opening hback ?_,.of_opening hback ?_⟩ <;>
    decide +kernel

end Unworkable
