import Unworkable.Bencode.Accepts
import Unworkable.Bencode.Find
import Unworkable.Torrent.ParseFile

/-! # The info hash

The start of the bytes that are hashed is found by their text, the end by the tree. They
belong to the same dictionary as long as nothing in front of it stops the search for the text.
-/
namespace Unworkable
open Library

section Tree
variable {v : Value} {sha1 : Bytes → Bytes} {snprintf : SelfJoin} {maxPathLen : ℕ} {file : Bytes} {t : ParsedTorrent}

theorem bencParseBuf_encode (h : v.spelled.Ok 15) :
    bencParseBuf {} [] v.encode = some (.accept (.list [v.spelled.node 0]) {} []) := by
  have hreads : bencParseBuf {} [] (bytesAll [v.spelled] ++ []) = _ :=
    bencParseBuf_reads ⟨h,trivial⟩ (List.forall_mem_nil _)
  rw [List.append_nil,bytesAll,bytesAll,List.append_nil,v.spelled_bytes] at hreads
  exact hreads

/-- The parser reads a value if its canonical spelling is one that it takes. -/
theorem parses_encode (v : Value) : Parses v.encode ↔ v.spelled.Ok 15 := by
  constructor
  · rintro ⟨root,lex,bstack,hparse⟩
    have hbytes : bytesAll [v.spelled] = v.encode := by rw [bytesAll,bytesAll,List.append_nil,v.spelled_bytes]
    have hformed : FormedAll [v.spelled] := ⟨v.spelled_formed,trivial⟩
    rcases bencParseBuf_formed hformed with hok | hrefuses
    · exact hok.1
    · rw [hbytes] at hrefuses
      exact absurd hparse (hrefuses root lex bstack)
  · exact fun h => ⟨_,_,_,bencParseBuf_encode h⟩

/-- The tree of a file that is read has the nodes of the value encoded in it. -/
theorem metainfoTree_encode (h : Parses v.encode) : metainfoTree v.encode = .ok (.list [v.spelled.node 0]) := by
  have hparse := bencParseBuf_encode ((parses_encode v).mp h)
  unfold metainfoTree
  rw [hparse]

theorem parses_of_tree (h : (metainfoTree file).toOption.isSome = true) : Parses file := by
  unfold metainfoTree at h
  split at h
  · rename_i root lex bstack hparse
    exact ⟨root,lex,bstack,hparse⟩
  · cases h
  · cases h

theorem torrentParseInfohash_ok {stop : ℕ} {digest : Bytes} (h : torrentParseInfohash sha1 file stop = .ok digest) :
    ∃ r, infoRange file stop = .ok r ∧ digest = sha1 (window file r.1 r.2) := by
  unfold torrentParseInfohash at h
  cases hr : infoRange file stop with
  | error e =>
    rw [hr] at h
    cases h
  | ok r =>
    rw [hr] at h
    cases h
    exact ⟨r,rfl,rfl⟩

/-- The hash of a torrent is that of the bytes digested. -/
theorem torrentParseFile_infoHash (h : torrentParseFile sha1 snprintf maxPathLen file = .ok t) :
    ∃ r, infoDigested file = .ok r ∧ t.infoHash = sha1 (window file r.1 r.2) := by
  obtain ⟨troot,hroot,h⟩ := bind_ok.mp h
  obtain ⟨info,hinfo,h⟩ := bind_ok.mp h
  obtain ⟨digest,hdigest,h⟩ := bind_ok.mp h
  unfold parseFields at h
  obtain ⟨announce,-,h⟩ := bind_ok.mp h
  have ht : t.infoHash = digest := by
    split at h
    · obtain ⟨_,-,h⟩ := bind_ok.mp h
      obtain ⟨_,-,h⟩ := bind_ok.mp h
      obtain ⟨_,-,h⟩ := bind_ok.mp h
      obtain ⟨_,-,h⟩ := bind_ok.mp h
      obtain ⟨_,-,h⟩ := bind_ok.mp h
      cases h
      rfl
    · obtain ⟨_,-,h⟩ := bind_ok.mp h
      obtain ⟨_,-,h⟩ := bind_ok.mp h
      obtain ⟨_,-,h⟩ := bind_ok.mp h
      obtain ⟨_,-,h⟩ := bind_ok.mp h
      cases h
      rfl
  obtain ⟨r,hr,hsha⟩ := torrentParseInfohash_ok hdigest
  refine ⟨r,?_,ht.trans hsha⟩
  rw [infoDigested,hroot,ok_bind,hinfo,ok_bind]
  exact hr

end Tree

section Names

theorem mem_encodeStr {c : UInt8} {k : Bytes} (h : c ∈ k) : c ∈ encodeStr k :=
  List.mem_append_right _ (List.mem_cons_of_mem _ h)

/-- A key of that name is spelled out, if it does not have a zero in it. -/
theorem infix_encodeStr {k : Bytes} (h : k.takeWhile (· ≠ 0) = ascii "info") :
    0 ∈ encodeStr k ∨ ascii "4:info" <:+: encodeStr k := by
  by_cases hzero : 0 ∈ k
  · exact .inl (mem_encodeStr hzero)
  · have hk : k = ascii "info" := by
      rw [← h]
      symm
      apply List.takeWhile_eq_self_iff.mpr
      intro c hc
      apply decide_eq_true
      rintro rfl
      exact hzero hc
    rw [hk]
    exact .inr (List.infix_refl _)

def Stops (w : Bytes) : Prop := 0 ∈ w ∨ ascii "4:info" <:+: w

theorem Stops.mono {u w : Bytes} (h : Stops u) (huw : u <:+: w) : Stops w :=
  h.imp (fun hmem => huw.subset hmem) (fun hin => hin.trans huw)

theorem stops_of_key (front : Bytes) {k : Bytes} (hk : k.takeWhile (· ≠ 0) = ascii "info") :
    Stops (front ++ encodeStr k) := by
  have hstops : Stops (encodeStr k) := infix_encodeStr hk
  exact hstops.mono (List.suffix_append _ _).isInfix

/-- Where an entry of that name is found, the search for the text does not get by. -/
theorem stops_of_findEntries (es : List (Bytes × Value)) (h : findEntries (ascii "info") es ≠ none) :
    Stops (encodeEntries es) := by
  obtain ⟨w,hw⟩ := Option.ne_none_iff_exists'.mp h
  obtain ⟨front,k,rest,hk,heq,-⟩ := findEntries_placed (ascii "info") es 0 hw
  rw [heq]
  exact (stops_of_key front hk).mono (List.prefix_append _ _).isInfix

end Names

/-- A metainfo file with an `info` dictionary, and entries in front of and behind it. -/
def infoFile (pre es post : List (Bytes × Value)) : Bytes :=
  (Value.dict (pre ++ (ascii "info",.dict es) :: post)).encode

def infoOffset (pre : List (Bytes × Value)) : ℕ := 1 + (encodeEntries pre).length + 6

section Range
variable (pre es post : List (Bytes × Value))

theorem infoFile_eq : infoFile pre es post =
    (100 :: encodeEntries pre) ++ (ascii "4:info" ++ ((Value.dict es).encode ++ (encodeEntries post ++ [101]))) := by
  have hkey : encodeStr (ascii "info") = ascii "4:info" := rfl
  rw [infoFile,Value.encode,encodeEntries_append,encodeEntries,hkey]
  simp only [List.append_assoc,List.cons_append]

theorem window_infoFile :
    window (infoFile pre es post) (infoOffset pre) (Value.dict es).encode.length = (Value.dict es).encode := by
  have hlen : infoOffset pre = ((100 :: encodeEntries pre) ++ ascii "4:info").length := by
    have hsix : (ascii "4:info").length = 6 := rfl
    rw [List.length_append,List.length_cons,hsix,infoOffset]
    omega
  rw [infoFile_eq,← List.append_assoc,window,hlen,List.drop_left,List.take_left]

theorem stops_cons {w : Bytes} : Stops (100 :: w) ↔ Stops w := by
  unfold Stops
  rw [List.mem_cons,List.infix_cons_iff]
  constructor
  · rintro ((h | h) | h | h)
    · cases h
    · exact .inl h
    · exact absurd (List.cons_prefix_cons.mp h).1 (by decide)
    · exact .inr h
  · rintro (h | h)
    · exact .inl (.inr h)
    · exact .inr (.inr h)

theorem strstr_infoFile : strstr (ascii "4:info") (infoFile pre es post) =
      .ok (some (ascii "4:info" ++ ((Value.dict es).encode ++ (encodeEntries post ++ [101])))) ↔
    ¬ Stops (encodeEntries pre) := by
  rw [infoFile_eq,← @stops_cons (encodeEntries pre),Stops,not_or]
  exact strstr_first (by decide)

/-- `benc_node_find` gets the dictionary, if there is no entry of the name in front of it. -/
theorem infoNode_infoFile (hpre : findEntries (ascii "info") pre = none) :
    infoNode (.list [(Value.dict (pre ++ (ascii "info",.dict es) :: post)).spelled.node 0]) =
      .ok ((Value.dict es).spelled.node (infoOffset pre)) := by
  have hfirst := @findAmong_first (ascii "info") (ascii "info") (.dict es) pre post 1 (by decide) hpre
  have hfind : findAmong (ascii "info") [(Value.dict (pre ++ (ascii "info",.dict es) :: post)).spelled.node 0] = _ :=
    congrArg (Option.or · none) hfirst
  rw [Option.or_none] at hfind
  unfold infoNode
  rw [bencNodeFind,hfind]
  rfl

theorem stop_dict (pos : ℕ) : ((Value.dict es).spelled.node pos).stop = pos + (Value.dict es).encode.length := by
  rw [← (Value.dict es).spelled_bytes,Value.spelled,Spelled.node,Node.stop,Spelled.bytes]
  simp only [List.length_nil,List.length_append,List.length_cons]
  omega

/-- The bytes digested are those of the dictionary, exactly if the text in front of it is the first. -/
theorem infoDigested_infoFile (hparses : Parses (infoFile pre es post)) :
    infoDigested (infoFile pre es post) = .ok (infoOffset pre,(Value.dict es).encode.length) ↔
      ¬ Stops (encodeEntries pre) := by
  have hlen := congrArg List.length (infoFile_eq pre es post)
  have hsix : (ascii "4:info").length = 6 := rfl
  simp only [List.length_append,List.length_cons,List.length_nil,hsix] at hlen
  have hroot : metainfoTree (infoFile pre es post) = _ := metainfoTree_encode hparses
  rw [← strstr_infoFile pre es post,infoDigested,hroot,ok_bind]
  constructor
  · intro h
    obtain ⟨info,-,h⟩ := bind_ok.mp h
    unfold infoRange at h
    split at h
    · cases h
    obtain ⟨found,hfound,h⟩ := bind_ok.mp h
    cases found with
    | none => cases h
    | some p =>
      dsimp only at h
      split at h
      · cases h
      · obtain ⟨hsuffix,-⟩ := strstr_suffix hfound
        have hoff : (infoFile pre es post).length - p.length + 6 = infoOffset pre := congrArg Prod.fst (Except.ok.inj h)
        have hle := hsuffix.length_le
        unfold infoOffset at hoff
        have hp : p = ascii "4:info" ++ ((Value.dict es).encode ++ (encodeEntries post ++ [101])) := by
          have hother : ascii "4:info" ++ ((Value.dict es).encode ++ (encodeEntries post ++ [101]))
              <:+ infoFile pre es post := by
            rw [infoFile_eq]
            exact List.suffix_append _ _
          apply (List.suffix_of_suffix_length_le hsuffix hother ?_).eq_of_length
          · simp only [List.length_append,List.length_cons,List.length_nil,hsix]
            omega
          · simp only [List.length_append,List.length_cons,List.length_nil,hsix]
            omega
        rw [hfound,hp]
  · intro hfound
    have hstops := (strstr_infoFile pre es post).mp hfound
    have hpre : findEntries (ascii "info") pre = none := by
      by_contra hne
      exact hstops (stops_of_findEntries pre hne)
    have hsize : 0 < (Value.dict es).encode.length := Nat.succ_pos _
    rw [infoNode_infoFile pre es post hpre,ok_bind,infoRange,stop_dict,if_neg (by omega),hfound,ok_bind]
    dsimp only
    have hoff : (infoFile pre es post).length -
        (ascii "4:info" ++ ((Value.dict es).encode ++ (encodeEntries post ++ [101]))).length + 6 = infoOffset pre := by
      simp only [List.length_append,List.length_cons,List.length_nil,hsix]
      unfold infoOffset
      omega
    rw [hoff,if_neg (by omega),Nat.add_sub_cancel_left]

end Range

/-- The info hash is that of the `info` dictionary at the top, exactly if no entry in front of it has a zero
or the text "4:info" in its encoding. -/
theorem infoHash_iff (sha1 : Bytes → Bytes) (snprintf : SelfJoin) (maxPathLen : ℕ) (pre es post : List (Bytes × Value))
    (hparses : Parses (infoFile pre es post)) :
    (infoDigested (infoFile pre es post) = .ok (infoOffset pre,(Value.dict es).encode.length) ↔
      0 ∉ encodeEntries pre ∧ ¬ ascii "4:info" <:+: encodeEntries pre) ∧
    (0 ∉ encodeEntries pre ∧ ¬ ascii "4:info" <:+: encodeEntries pre →
      ∀ t, torrentParseFile sha1 snprintf maxPathLen (infoFile pre es post) = .ok t →
        t.infoHash = sha1 (Value.dict es).encode) := by
  have hiff := infoDigested_infoFile pre es post hparses
  rw [Stops,not_or] at hiff
  refine ⟨hiff,?_⟩
  intro hcond t ht
  obtain ⟨r,hr,hhash⟩ := torrentParseFile_infoHash ht
  rw [hiff.mpr hcond] at hr
  cases hr
  rw [hhash,window_infoFile]

/-- An announce URL in front of the dictionary. -/
theorem infoHash_announce : infoDigested (infoFile [(ascii "announce",.str (ascii "u"))] [(ascii "length",.int 1)] []) =
    .ok (20,13) := by
  have hparses : Parses (infoFile [(ascii "announce",.str (ascii "u"))] [(ascii "length",.int 1)] []) :=
    parses_of_tree (by decide +kernel)
  exact (infoHash_iff (fun _ => List.replicate 20 0) .openbsd 1024 [(ascii "announce",.str (ascii "u"))]
    [(ascii "length",.int 1)] []
    hparses).1.mpr (by decide +kernel)

/-- The `info` dictionary of a file of one byte. -/
def oneByte : List (Bytes × Value) :=
  [(ascii "length",.int 1),(ascii "name",.str (ascii "n")),(ascii "piece length",.int 1),
    (ascii "pieces",.str (List.replicate 20 120))]

/-- The text in a comment: the bytes that go into the hash begin in front of the dictionary. -/
theorem text_digested :
    infoDigested (infoFile [(ascii "announce",.str (ascii "u")),(ascii "comment",.str (ascii "4:info"))] oneByte []) =
      .ok (31,77) ∧
    infoOffset [(ascii "announce",.str (ascii "u")),(ascii "comment",.str (ascii "4:info"))] = 37 ∧
    ∃ t, torrentParseFile (fun w => w) .openbsd 1024
        (infoFile [(ascii "announce",.str (ascii "u")),(ascii "comment",.str (ascii "4:info"))] oneByte []) = .ok t ∧
      t.infoHash = ascii "4:info" ++ (Value.dict oneByte).encode := by
  refine ⟨ok_of_toOption ?_,?_,?_⟩
  · decide +kernel
  · decide
  · obtain ⟨t,ht,hash⟩ := @exists_ok _ _ (torrentParseFile (fun w => w) .openbsd 1024
      (infoFile [(ascii "announce",.str (ascii "u")),(ascii "comment",.str (ascii "4:info"))] oneByte []))
      (fun t => t.infoHash = ascii "4:info" ++ (Value.dict oneByte).encode) (by decide +kernel)
    exact ⟨t,ht,of_decide_eq_true hash⟩

end Unworkable
