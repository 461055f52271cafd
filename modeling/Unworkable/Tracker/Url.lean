import Unworkable.Session.Tracker
import Mathlib.Data.List.TakeWhile

/-! # The announce URL

`announce` takes its URL apart into a host, a port and a path. They are copied into arrays on the
stack, two of which have system-dependent sizes.
-/
namespace Unworkable
open Library

/-- The arrays of `announce`, as C strings. -/
structure UrlArrays where
  host : Bytes
  port : Bytes
  path : Bytes
  deriving DecidableEq

def strcspn (c reject : Bytes) : ℕ := (c.takeWhile (· ∉ reject)).length

/-- `memcpy` into an array, and a terminator. -/
def terminated (size : ℕ) (text : Bytes) : Except Halt Bytes :=
  if size < text.length + 1 then .error .wild else .ok text

/-- Strip a trailing slash. The test looks at the byte in front of the terminator. -/
def stripSlash (path : Bytes) : Except Halt Bytes :=
  match path.getLast? with
  | none => .error .wild
  | some b => .ok (if b = 47 then path.dropLast else path)

section Split
variable (maxhostnamelen maxpathlen : ℕ)

/-- `announce`, from the port on. -/
def announcePort (c : Bytes) : Except Halt (Bytes × Bytes) :=
  if c.head? = some 58 then
    let c := c.drop 1
    let n := strcspn c [47]
    if 6 < n then .error (.errx "n is greater than sizeof(port)")
    else do
      let port ← terminated 6 (c.take n)
      .ok (port,c.drop n)
  else .ok (ascii "80",c)

/-- `announce`, from the path on, with the host and the port copied. -/
def announcePath (host port c : Bytes) : Except Halt UrlArrays :=
  if maxpathlen ≤ c.length then .error (.errx "string truncation")
  else do
    let path ← stripSlash c
    .ok ⟨host,port,path⟩

/-- `announce`, as far as it separates hostname, port and path. -/
def announceUrl (announce : Bytes) : Except Halt UrlArrays :=
  match announce.tails.find? ((ascii "http://").isPrefixOf ·) with
  | none => .error (.errx "unsupported announce protocol: %s")
  | some c =>
    let c := c.drop 7
    let n := strcspn c [58,47]
    if maxhostnamelen - 1 < n then .error (.errx "n is greater than sizeof(host) - 1")
    else do
      let host ← terminated maxhostnamelen (c.take n)
      let (port,c) ← announcePort (c.drop n)
      announcePath maxpathlen host port c

/-- What the request asks for: the parameters start with the info hash. -/
def requestTarget (path params : Bytes) : Bytes := path ++ ascii "?info_hash=" ++ params

end Split

section Components
variable (c : Bytes)

def urlHost : Bytes := c.takeWhile (· ∉ ([58,47] : Bytes))

def urlPort : Option Bytes :=
  if (c.dropWhile (· ∉ ([58,47] : Bytes))).head? = some 58 then
    some ((c.dropWhile (· ∉ ([58,47] : Bytes))).tail.takeWhile (· ≠ 47))
  else none

def urlPath : Bytes := c.dropWhile (· ≠ 47)

end Components

/-- The arrays hold the components, up to a trailing slash of the path. -/
structure UrlArrays.Splits (u : UrlArrays) (c : Bytes) : Prop where
  host : u.host = urlHost c
  port : u.port = (urlPort c).getD (ascii "80")
  path : u.path = urlPath c ∨ u.path ++ [47] = urlPath c
  url : u.host ++ ((urlPort c).elim [] fun port => 58 :: port) ++ urlPath c = c
  target : ∀ params, (requestTarget u.path params).head? = some 47

/-- `announce` stops with an error, or takes the URL apart inside of its arrays. -/
def SplitsUrl (maxhostnamelen maxpathlen : ℕ) (c : Bytes) : Prop :=
  (∃ msg, announceUrl maxhostnamelen maxpathlen (ascii "http://" ++ c) = .error (.errx msg)) ∨
    ∃ u, announceUrl maxhostnamelen maxpathlen (ascii "http://" ++ c) = .ok u ∧ u.Splits c

/-- The host does not fit, or the port is so long that this is noticed, or the port fits and the path
does not or has more than a slash. -/
def UrlFits (maxhostnamelen maxpathlen : ℕ) (c : Bytes) : Prop :=
  maxhostnamelen ≤ (urlHost c).length ∨ (∃ port ∈ urlPort c, 6 < port.length) ∨
    (∀ port ∈ urlPort c, port.length ≤ 5) ∧ (maxpathlen ≤ (urlPath c).length ∨ urlPath c ≠ [] ∧ urlPath c ≠ [47])

section Components
variable {c : Bytes}

theorem take_strcspn (c reject : Bytes) : c.take (strcspn c reject) = c.takeWhile (· ∉ reject) := by
  have h := List.takeWhile_append_dropWhile (p := fun b => decide (b ∉ reject)) (l := c)
  unfold strcspn
  nth_rewrite 2 [← h]
  exact List.take_left

theorem drop_strcspn (c reject : Bytes) : c.drop (strcspn c reject) = c.dropWhile (· ∉ reject) := by
  have h := List.takeWhile_append_dropWhile (p := fun b => decide (b ∉ reject)) (l := c)
  unfold strcspn
  nth_rewrite 2 [← h]
  exact List.drop_left

/-- Behind the host comes the path, or a colon, the port and the path. -/
theorem url_cases (c : Bytes) :
    (∃ t, c = urlHost c ++ 58 :: t ∧ urlPort c = some (t.takeWhile (· ≠ 47)) ∧ urlPath c = t.dropWhile (· ≠ 47)) ∨
      c = urlHost c ++ urlPath c ∧ urlPort c = none ∧ (urlPath c).head? ≠ some 58 := by
  have hsplit : c = urlHost c ++ c.dropWhile (· ∉ ([58,47] : Bytes)) := List.takeWhile_append_dropWhile.symm
  have hpath : urlPath c = (c.dropWhile (· ∉ ([58,47] : Bytes))).dropWhile (· ≠ 47) := by
    have hhost : ∀ b ∈ urlHost c, b ≠ 47 := by
      intro b hb heq
      have hout := List.mem_takeWhile_imp hb
      rw [heq] at hout
      exact absurd hout (by decide)
    unfold urlPath
    nth_rewrite 1 [hsplit]
    exact List.dropWhile_append_of_pos (by simpa using hhost)
  unfold urlPort
  cases hafter : c.dropWhile (· ∉ ([58,47] : Bytes)) with
  | nil =>
    rw [hafter] at hsplit hpath
    right
    rw [hpath]
    exact ⟨hsplit,rfl,by simp⟩
  | cons b t =>
    rw [hafter] at hsplit hpath
    have hb : b ∈ ([58,47] : Bytes) := by
      have hhead := List.head?_dropWhile_not (fun b => decide (b ∉ ([58,47] : Bytes))) c
      rw [hafter] at hhead
      exact Decidable.not_not.mp (of_decide_eq_false hhead)
    rcases List.mem_cons.mp hb with rfl | hb
    · exact .inl ⟨t,hsplit,by simp,by rw [hpath]; rfl⟩
    · rw [List.mem_singleton.mp hb] at hsplit hpath ⊢
      right
      rw [hpath]
      exact ⟨hsplit,by simp,by simp⟩

/-- The path is empty or starts with a slash. -/
theorem urlPath_head (c : Bytes) (h : urlPath c ≠ []) : (urlPath c).head? = some 47 := by
  cases hpath : urlPath c with
  | nil => exact absurd hpath h
  | cons b t =>
    have hhead := List.head?_dropWhile_not (fun b : UInt8 => decide (b ≠ 47)) c
    unfold urlPath at hpath
    rw [hpath] at hhead
    simpa using hhead

end Components

section Outcome
variable {maxhostnamelen maxpathlen : ℕ} {c x : Bytes}

theorem announceUrl_http (hc : c = urlHost c ++ x) : announceUrl maxhostnamelen maxpathlen (ascii "http://" ++ c) =
    if maxhostnamelen - 1 < (urlHost c).length then .error (.errx "n is greater than sizeof(host) - 1")
    else (do
      let host ← terminated maxhostnamelen (urlHost c)
      let (port,c') ← announcePort x
      announcePath maxpathlen host port c') := by
  have hfind : (ascii "http://" ++ c).tails.find? ((ascii "http://").isPrefixOf ·) = some (ascii "http://" ++ c) :=
    List.find?_cons_of_pos (List.isPrefixOf_iff_prefix.mpr ⟨c,rfl⟩)
  have hn : strcspn c [58,47] = (urlHost c).length := rfl
  have htake : c.take (urlHost c).length = urlHost c := take_strcspn c [58,47]
  have hdrop : c.drop (urlHost c).length = x := by
    nth_rewrite 2 [hc]
    exact List.drop_left
  unfold announceUrl
  rw [hfind]
  simp only [show (ascii "http://" ++ c).drop 7 = c from rfl,hn,htake,hdrop]

theorem announcePort_colon (t : Bytes) : announcePort (58 :: t) =
    if 6 < (t.takeWhile (· ≠ 47)).length then .error (.errx "n is greater than sizeof(port)")
    else (do
      let port ← terminated 6 (t.takeWhile (· ≠ 47))
      .ok (port,t.dropWhile (· ≠ 47))) := by
  have hslash : (fun b : UInt8 => decide (b ∉ ([47] : Bytes))) = fun b => decide (b ≠ 47) := by
    funext b
    simp
  have htake := take_strcspn t [47]
  have hdrop := drop_strcspn t [47]
  have hn : strcspn t [47] = (t.takeWhile (· ≠ 47)).length := by rw [strcspn,hslash]
  rw [hslash,hn] at htake hdrop
  unfold announcePort
  rw [if_pos (show (58 :: t).head? = some 58 from rfl)]
  simp only [List.drop_one,List.tail_cons,htake,hdrop,hn]

/-- A path that starts with a slash still does so without a trailing one, unless there is no other. -/
theorem stripSlash_ok {path : Bytes} (hhead : path.head? = some 47) (hslash : path ≠ [47]) :
    ∃ stripped, stripSlash path = .ok stripped ∧ (stripped = path ∨ stripped ++ [47] = path) ∧
      stripped.head? = some 47 := by
  rcases List.eq_nil_or_concat path with rfl | ⟨init,b,rfl⟩
  · cases hhead
  rw [List.concat_eq_append] at hhead hslash ⊢
  unfold stripSlash
  rw [List.getLast?_concat]
  dsimp only
  split
  · rename_i hb
    rw [List.dropLast_concat]
    refine ⟨init,rfl,.inr (by rw [hb]),?_⟩
    cases init with
    | nil => exact absurd (by rw [hb]; rfl) hslash
    | cons a init => exact hhead
  · exact ⟨_,rfl,.inl rfl,hhead⟩

/-- What `announce` does, once the host and the port are copied. -/
theorem announcePath_splits (hurl : urlHost c ++ ((urlPort c).elim [] fun port => 58 :: port) ++ urlPath c = c) :
    ((∃ msg, announcePath maxpathlen (urlHost c) ((urlPort c).getD (ascii "80")) (urlPath c) = .error (.errx msg)) ∨
      ∃ u, announcePath maxpathlen (urlHost c) ((urlPort c).getD (ascii "80")) (urlPath c) = .ok u ∧ u.Splits c) ↔
      maxpathlen ≤ (urlPath c).length ∨ urlPath c ≠ [] ∧ urlPath c ≠ [47] := by
  unfold announcePath
  by_cases hlong : maxpathlen ≤ (urlPath c).length
  · rw [if_pos hlong]
    exact iff_of_true (.inl ⟨_,rfl⟩) (.inl hlong)
  rw [if_neg hlong]
  constructor
  · rintro (⟨msg,hmsg⟩ | ⟨u,hu,hsplits⟩)
    · exfalso
      unfold stripSlash at hmsg
      split at hmsg <;> cases hmsg
    · right
      constructor
      · intro hnil
        rw [hnil] at hu
        cases hu
      · intro hslash
        have htarget := hsplits.target []
        rw [hslash] at hu
        cases hu
        exact absurd htarget (by simp [requestTarget,ascii])
  · rintro (hlen | ⟨hnil,hslash⟩)
    · exact absurd hlen hlong
    right
    obtain ⟨path,hpath,hstripped,hhead⟩ := stripSlash_ok (urlPath_head c hnil) hslash
    rw [hpath]
    exact ⟨_,rfl,⟨rfl,rfl,hstripped,hurl,fun params => by simp [requestTarget,hhead]⟩⟩

/-- `announce` stops with an error or takes the URL apart inside of its arrays, if and only if the host
is too long, or the port is longer than the array that it is copied to, or the port fits and the path is too
long, or neither empty nor a slash. -/
theorem splits_url_iff (maxhostnamelen maxpathlen : ℕ) (hpos : 0 < maxhostnamelen) (c : Bytes) :
    SplitsUrl maxhostnamelen maxpathlen c ↔ UrlFits maxhostnamelen maxpathlen c := by
  unfold SplitsUrl UrlFits
  by_cases hhost : maxhostnamelen ≤ (urlHost c).length
  · have hc : c = urlHost c ++ c.dropWhile (· ∉ ([58,47] : Bytes)) := List.takeWhile_append_dropWhile.symm
    have herr := @announceUrl_http maxhostnamelen maxpathlen _ _ hc
    rw [if_pos (by omega)] at herr
    exact iff_of_true (.inl ⟨_,herr⟩) (.inl hhost)
  have hterm : terminated maxhostnamelen (urlHost c) = .ok (urlHost c) := if_neg (by omega)
  simp only [hhost,false_or]
  rcases url_cases c with ⟨t,hc,hport,hpath⟩ | ⟨hc,hport,hcolon⟩
  · rw [announceUrl_http hc,if_neg (by omega),hterm,ok_bind]
    have hpart := @announcePath_splits maxpathlen c (by
      rw [hport,hpath,Option.elim_some,List.append_assoc,List.cons_append,List.takeWhile_append_dropWhile]
      exact hc.symm)
    rw [hport] at hpart ⊢
    simp only [Option.mem_some_iff,exists_eq_left',forall_eq']
    rw [announcePort_colon]
    by_cases hlong : 6 < (t.takeWhile (· ≠ 47)).length
    · rw [if_pos hlong]
      exact iff_of_true (.inl ⟨_,rfl⟩) (.inl hlong)
    rw [if_neg hlong]
    unfold terminated
    by_cases hsix : 6 < (t.takeWhile (· ≠ 47)).length + 1
    · rw [if_pos hsix]
      refine iff_of_false ?_ (by omega)
      rintro (⟨msg,hmsg⟩ | ⟨u,hu,-⟩)
      · cases hmsg
      · cases hu
    · rw [if_neg hsix,ok_bind,ok_bind,← hpath]
      have hfits : (t.takeWhile (· ≠ 47)).length ≤ 5 := by omega
      simp only [hlong,hfits,false_or,true_and]
      exact hpart
  · rw [announceUrl_http hc,if_neg (by omega),hterm,ok_bind]
    have hpart := @announcePath_splits maxpathlen c (by
      rw [hport]
      simpa using hc.symm)
    have hnone : announcePort (urlPath c) = .ok (ascii "80",urlPath c) := if_neg hcolon
    rw [hport] at hpart ⊢
    rw [hnone,ok_bind]
    simp only [Option.mem_def,reduceCtorEq,false_and,exists_false,false_implies,implies_true,false_or,true_and]
    exact hpart

/-- A URL with all three components. -/
theorem splits_url_announce : SplitsUrl 256 1024 (ascii "tracker.test:6969/announce") := by
  have hport : urlPort (ascii "tracker.test:6969/announce") = some (ascii "6969") := by decide +kernel
  refine (splits_url_iff 256 1024 (by decide) _).mpr (.inr (.inr ⟨?_,.inr ⟨by decide +kernel,by decide +kernel⟩⟩))
  rintro port hmem
  cases hport.symm.trans hmem
  decide

/-- A URL without a path: the slash is looked for in front of the array. -/
theorem splits_url_not_bare : ¬ SplitsUrl 256 1024 (ascii "tracker.test") := by
  have hwild : announceUrl 256 1024 (ascii "http://" ++ ascii "tracker.test") = .error .wild := by decide +kernel
  rintro (⟨msg,hmsg⟩ | ⟨u,hu,-⟩)
  · cases hwild.symm.trans hmsg
  · cases hwild.symm.trans hu

end Outcome

end Unworkable
