import Unworkable.Session.Tracker

/-! # Types of the nodes in a response

The tree of a response is looked at through lookups that may find nothing, and through members of a
union that the flags of a node tell apart. Here every use of a lookup and every read of a member is
checked; where none is a misuse, this is what the client does.
-/
namespace Unworkable
open Library

inductive Misuse where
  /-- The result of a lookup that has found nothing is used. -/
  | absent
  /-- A member is read that the flags of the node do not announce. -/
  | illTyped
  deriving DecidableEq

inductive Fault where
  | misuse (m : Misuse)
  | halt (h : Halt)
  deriving DecidableEq

def untyped {α : Type} (x : Except Halt α) : Except Fault α := x.mapError .halt

section Members

/-- `n->flags`, of a node that has been looked up. -/
def found : Option Node → Except Fault Node
  | none => .error (.misuse .absent)
  | some n => .ok n

/-- `flags & BSTRING` -/
def Node.isString : Node → Bool
  | .string _ _ => true
  | _ => false

/-- `flags & BINT` -/
def Node.isInt : Node → Bool
  | .int _ => true
  | _ => false

/-- `flags & BLIST` -/
def Node.isList : Node → Bool
  | .list _ => true
  | _ => false

def Node.bodyString : Node → Except Fault (ℕ × CharBuf)
  | .string len value => .ok (len,value)
  | _ => .error (.misuse .illTyped)

def Node.bodyNumber : Node → Except Fault ℤ
  | .int n => .ok n
  | _ => .error (.misuse .illTyped)

end Members

section Handle
variable (resolve : Bytes → ℤ → Except Halt ℕ)

def checkNumberTyped (root : Node) (key msg : String) : Except Fault Unit :=
  match bencNodeFind (ascii key) root with
  | none => .ok ()
  | some node =>
    if !node.isInt then .error (.halt (.errx msg))
    else do
      let _ ← node.bodyNumber
      .ok ()

/-- `handle_announce_error` behind the parser, up to the peers. A failure reason that is no string is
noticed, but traced all the same. -/
def contentReplyTyped (root : Node) : Except Fault TrackerReply :=
  match bencNodeFind (ascii "failure reason") root with
  | some node => do
    let _ ← node.bodyString
    .ok .failed
  | none => do
    checkNumberTyped root "interval" "interval is not a number"
    checkNumberTyped root "complete" "complete is not a number"
    checkNumberTyped root "incomplete" "incomplete is not a number"
    match bencNodeFind (ascii "peers") root with
    | none => .ok .peerless
    | some node => .ok (.peers node)

/-- One turn of `network_peerlist_update_dict`. -/
def dictPeerTyped (dict : Node) : Except Fault ℕ := do
  let n ← found (bencNodeFind (ascii "ip") dict)
  if !n.isString then .error (.halt (.errx "node is not a string"))
  else
    let (_,ip) ← n.bodyString
    let n ← found (bencNodeFind (ascii "port") dict)
    if !n.isInt then .error (.halt (.errx "node is not an integer"))
    else
      let number ← n.bodyNumber
      let port := toInt32 (wrapInt32 number)
      if 6 ≤ (decimalInt port).length then
        .error (.halt (.errx "network_peerlist_update_dict() string truncations"))
      else match bencNodeFind (ascii "peer id") dict with
        | none => .error (.halt (.errx "couldn't find peer id field"))
        | some n =>
          if !n.isString then .error (.halt (.errx "node is not a string"))
          else
            let (_,id) ← n.bodyString
            if id.size < 20 then .error (.halt .wild)
            else untyped do
              let ip ← ip.cString
              resolve ip port

/-- `network_peerlist_update`, up to the addresses. -/
def peerlistAddrsTyped (peers : Node) : Except Fault (List ℕ) :=
  if peers.isString then do
    let (len,value) ← peers.bodyString
    untyped (networkPeerlistUpdateString len value)
  else if !peers.isList then .error (.halt (.errx "peers object is not a list"))
  else peers.children.mapM (dictPeerTyped resolve)

/-- What is done with a tree: the addresses of its peers, if there is no failure. -/
def handleTree (root : Node) : Except Fault (Option (List ℕ)) := do
  match ← contentReplyTyped root with
  | .peers node => (peerlistAddrsTyped resolve node).map some
  | _ => .ok none

def Misused {α : Type} (x : Except Fault α) : Prop := ∃ m, x = .error (.misuse m)

/-- No absent node is used, and no member that a node does not have. -/
def TypeSafe (root : Node) : Prop := ¬ Misused (handleTree resolve root)

end Handle

section Erase

def Erases {α : Type} : Except Fault α → Except Halt α → Prop
  | .ok a,y => y = .ok a
  | .error (.halt h),y => y = .error h
  | .error (.misuse _),_ => True

theorem erases_untyped {α : Type} (y : Except Halt α) : Erases (untyped y) y := by
  cases y <;> rfl

theorem Erases.bind {α β : Type} {x : Except Fault α} {y : Except Halt α} {f : α → Except Fault β}
    {g : α → Except Halt β}
    (h : Erases x y) (hnext : ∀ a, Erases (f a) (g a)) : Erases (x >>= f) (y >>= g) := by
  rcases x with (m | e) | a
  · trivial
  · cases h
    rfl
  · cases h
    exact hnext a

theorem Erases.ite {α : Type} {c : Prop} [Decidable c] {x x' : Except Fault α} {y y' : Except Halt α} (h : Erases x y)
    (h' : Erases x' y') : Erases (if c then x else x') (if c then y else y') := by
  split
  · exact h
  · exact h'

theorem Erases.mapM {α : Type} {f : Node → Except Fault α} {g : Node → Except Halt α} (h : ∀ e, Erases (f e) (g e))
    (es : List Node) : Erases (es.mapM f) (es.mapM g) := by
  induction es with
  | nil => exact rfl
  | cons e es ih =>
    rw [List.mapM_cons,List.mapM_cons]
    apply (h e).bind
    intro a
    apply ih.bind
    intro as
    exact rfl

theorem checkNumberTyped_erases (root : Node) (key msg : String) :
    Erases (checkNumberTyped root key msg) (checkNumber root key msg) := by
  unfold checkNumberTyped checkNumber
  cases bencNodeFind (ascii key) root with
  | none => exact rfl
  | some node => cases node <;> exact rfl

theorem contentReplyTyped_erases (root : Node) : Erases (contentReplyTyped root) (contentReply root) := by
  unfold contentReplyTyped contentReply
  cases bencNodeFind (ascii "failure reason") root with
  | some node => cases node <;> first | exact rfl | trivial
  | none =>
    rw [if_neg (by simp)]
    refine (checkNumberTyped_erases root _ _).bind fun _ => ?_
    refine (checkNumberTyped_erases root _ _).bind fun _ => ?_
    refine (checkNumberTyped_erases root _ _).bind fun _ => ?_
    cases bencNodeFind (ascii "peers") root <;> exact rfl

section Peers
variable (resolve : Bytes → ℤ → Except Halt ℕ)

theorem dictPeerTyped_erases (dict : Node) : Erases (dictPeerTyped resolve dict) (dictPeer resolve dict) := by
  unfold dictPeerTyped dictPeer
  cases bencNodeFind (ascii "ip") dict with
  | none => trivial
  | some ip =>
    cases ip with
    | string len ip =>
      cases bencNodeFind (ascii "port") dict with
      | none => trivial
      | some port =>
        cases port with
        | int n =>
          refine Erases.ite rfl ?_
          cases bencNodeFind (ascii "peer id") dict with
          | none => exact rfl
          | some id =>
            cases id with
            | string len id =>
              show Erases (if id.size < 20 then _ else _) (if id.size < 20 then _ else _)
              exact Erases.ite rfl (erases_untyped _)
            | _ => exact rfl
        | _ => exact rfl
    | _ => exact rfl

theorem peerlistAddrsTyped_erases (peers : Node) : Erases (peerlistAddrsTyped resolve peers)
    (peerlistAddrs resolve peers) := by
  unfold peerlistAddrsTyped peerlistAddrs
  cases peers with
  | string len value => exact erases_untyped _
  | list es => exact Erases.mapM (dictPeerTyped_erases resolve) es
  | _ => exact rfl

/-- Where no node is misused, the client does what its model says that it does. -/
theorem handleTree_erases (root : Node) : Erases (handleTree resolve root) (do
    match ← contentReply root with
    | .peers node => (peerlistAddrs resolve node).map some
    | _ => .ok none) := by
  apply (contentReplyTyped_erases root).bind
  intro reply
  cases reply with
  | peers node =>
    show Erases ((peerlistAddrsTyped resolve node).map some) ((peerlistAddrs resolve node).map some)
    have h := peerlistAddrsTyped_erases resolve node
    rcases hx : peerlistAddrsTyped resolve node with (m | e) | addrs
    · trivial
    · rw [hx] at h
      rw [show peerlistAddrs resolve node = .error e from h]
      exact rfl
    · rw [hx] at h
      rw [show peerlistAddrs resolve node = .ok addrs from h]
      exact rfl
  | _ => exact rfl

end Peers

end Erase

section Condition
variable (resolve : Bytes → ℤ → Except Halt ℕ)

/-- A peer that is added: everything is there, of the right type and of a fitting length, and its name
resolves. -/
def Node.Passes (e : Node) : Prop := ∃ len ip n idlen id text addr,
  bencNodeFind (ascii "ip") e = some (.string len ip) ∧ bencNodeFind (ascii "port") e = some (.int n) ∧
    (decimalInt (toInt32 (wrapInt32 n))).length < 6 ∧ bencNodeFind (ascii "peer id") e = some (.string idlen id) ∧
    20 ≤ id.size ∧ ip.cString = .ok text ∧ resolve text (toInt32 (wrapInt32 n)) = .ok addr

/-- There is something under "ip", and if it is a string there is something under "port". -/
def Node.HasAddress (e : Node) : Prop :=
  ∃ ip, bencNodeFind (ascii "ip") e = some ip ∧ (ip.isString = true → (bencNodeFind (ascii "port") e).isSome = true)

def PeersTyped : List Node → Prop
  | [] => True
  | e :: es => e.HasAddress ∧ (e.Passes resolve → PeersTyped es)

/-- A failure reason is a string. Without one, the process ends with an interval or a count that is no number,
or all peers of a list have an address. -/
def FieldsTyped (root : Node) : Prop :=
  match bencNodeFind (ascii "failure reason") root with
  | some reason => reason.isString = true
  | none => (∃ key ∈ ["interval","complete","incomplete"], ∃ node, bencNodeFind (ascii key) root = some node ∧
      node.isInt = false) ∨
    ∀ peers, bencNodeFind (ascii "peers") root = some (.list peers) → PeersTyped resolve peers

theorem misused_bind {α β : Type} {x : Except Fault α} {f : α → Except Fault β} :
    Misused (x >>= f) ↔ Misused x ∨ ∃ a, x = .ok a ∧ Misused (f a) := by
  rcases x with e | a
  · constructor
    · rintro ⟨m,hm⟩
      exact .inl ⟨m,congrArg Except.error (Except.error.inj hm)⟩
    · rintro (⟨m,hm⟩ | ⟨a,ha,-⟩)
      · exact ⟨m,congrArg Except.error (Except.error.inj hm)⟩
      · cases ha
  · constructor
    · exact fun h => .inr ⟨a,rfl,h⟩
    · rintro (⟨m,hm⟩ | ⟨a,ha,h⟩)
      · cases hm
      · cases ha
        exact h

theorem not_misused_ok {α : Type} (a : α) : ¬ Misused (.ok a : Except Fault α) := by
  rintro ⟨m,hm⟩
  cases hm

theorem misused_map {α β : Type} {x : Except Fault α} {f : α → β} : Misused (x.map f) ↔ Misused x := by
  rcases x with e | a
  · constructor
    · rintro ⟨m,hm⟩
      exact ⟨m,congrArg Except.error (Except.error.inj hm)⟩
    · rintro ⟨m,hm⟩
      exact ⟨m,congrArg Except.error (Except.error.inj hm)⟩
  · exact iff_of_false (not_misused_ok _) (not_misused_ok _)

theorem not_misused_untyped {α : Type} (y : Except Halt α) : ¬ Misused (untyped y) := by
  rintro ⟨m,hm⟩
  cases y <;> cases hm

theorem not_misused_halt {α : Type} (h : Halt) : ¬ Misused (.error (.halt h) : Except Fault α) := by
  rintro ⟨m,hm⟩
  cases hm

/-- What a turn comes to: a misuse, the end of the process, or a peer. -/
inductive Turn (e : Node) : Except Fault ℕ → Prop where
  | misused (m : Misuse) (h : ¬ e.HasAddress) : Turn e (.error (.misuse m))
  | halted (h : Halt) (ha : e.HasAddress) (hp : ¬ e.Passes resolve) : Turn e (.error (.halt h))
  | passed (addr : ℕ) (ha : e.HasAddress) (hp : e.Passes resolve) : Turn e (.ok addr)

/-- The end of a turn that has found all that it looks for. -/
theorem turn_resolved {e : Node} {len idlen : ℕ} {ip id : CharBuf} {n : ℤ}
    (hip : bencNodeFind (ascii "ip") e = some (.string len ip)) (hport : bencNodeFind (ascii "port") e = some (.int n))
    (hshort : (decimalInt (toInt32 (wrapInt32 n))).length < 6)
    (hid : bencNodeFind (ascii "peer id") e = some (.string idlen id)) :
    Turn resolve e (if id.size < 20 then .error (.halt .wild) else untyped do
      let ip ← ip.cString
      resolve ip (toInt32 (wrapInt32 n))) := by
  have haddress : e.HasAddress := ⟨_,hip,fun _ => by rw [hport]; rfl⟩
  have hpasses : e.Passes resolve → ∃ text addr, 20 ≤ id.size ∧ ip.cString = .ok text ∧
      resolve text (toInt32 (wrapInt32 n)) = .ok addr := by
    rintro ⟨len',ip',n',idlen',id',text,addr,hip',hport',-,hid',hsize,htext,haddr⟩
    cases hip.symm.trans hip'
    cases hport.symm.trans hport'
    cases hid.symm.trans hid'
    exact ⟨text,addr,hsize,htext,haddr⟩
  split
  · rename_i hsize
    refine .halted _ haddress fun hp => ?_
    obtain ⟨text,addr,hle,-⟩ := hpasses hp
    omega
  rename_i hsize
  cases htext : ip.cString with
  | error h =>
    refine .halted h haddress fun hp => ?_
    obtain ⟨text,addr,-,hok,-⟩ := hpasses hp
    cases htext.symm.trans hok
  | ok text =>
    rw [ok_bind]
    cases haddr : resolve text (toInt32 (wrapInt32 n)) with
    | error h =>
      refine .halted h haddress fun hp => ?_
      obtain ⟨text',addr,-,hok,hres⟩ := hpasses hp
      cases htext.symm.trans hok
      cases haddr.symm.trans hres
    | ok addr =>
      exact .passed addr haddress ⟨len,ip,n,idlen,id,text,addr,hip,hport,hshort,hid,by omega,htext,haddr⟩

theorem dictPeerTyped_turn (e : Node) : Turn resolve e (dictPeerTyped resolve e) := by
  unfold dictPeerTyped
  cases hip : bencNodeFind (ascii "ip") e with
  | none =>
    refine .misused .absent ?_
    rintro ⟨ip,hsome,-⟩
    cases hip.symm.trans hsome
  | some ipNode =>
    by_cases hstring : ipNode.isString = true
    swap
    · rw [Bool.not_eq_true] at hstring
      show Turn resolve e (if !ipNode.isString then _ else _)
      rw [hstring]
      refine .halted _ ⟨ipNode,hip,fun h => absurd (hstring.symm.trans h) (by decide)⟩ ?_
      rintro ⟨len,ip,n,idlen,id,text,addr,hsome,-⟩
      cases hip.symm.trans hsome
      cases hstring
    obtain ⟨len,ip,rfl⟩ : ∃ len ip, ipNode = .string len ip := by
      cases ipNode with
      | string len ip => exact ⟨len,ip,rfl⟩
      | _ => cases hstring
    cases hport : bencNodeFind (ascii "port") e with
    | none =>
      refine .misused .absent ?_
      rintro ⟨ip',hsome,hneeds⟩
      cases hip.symm.trans hsome
      have hport' := hneeds rfl
      rw [hport] at hport'
      cases hport'
    | some portNode =>
      have haddress : e.HasAddress := ⟨_,hip,fun _ => by rw [hport]; rfl⟩
      by_cases hint : portNode.isInt = true
      swap
      · rw [Bool.not_eq_true] at hint
        show Turn resolve e (if !portNode.isInt then _ else _)
        rw [hint]
        refine .halted _ haddress ?_
        rintro ⟨len',ip',n,idlen,id,text,addr,-,hsome,-⟩
        cases hport.symm.trans hsome
        cases hint
      obtain ⟨n,rfl⟩ : ∃ n, portNode = .int n := by
        cases portNode with
        | int n => exact ⟨n,rfl⟩
        | _ => cases hint
      show Turn resolve e (if 6 ≤ (decimalInt (toInt32 (wrapInt32 n))).length then _ else _)
      split
      · rename_i hlong
        refine .halted _ haddress ?_
        rintro ⟨len',ip',n',idlen,id,text,addr,-,hsome,hshort,-⟩
        cases hport.symm.trans hsome
        exact absurd hshort (by omega)
      rename_i hshort
      cases hid : bencNodeFind (ascii "peer id") e with
      | none =>
        refine .halted _ haddress ?_
        rintro ⟨len',ip',n',idlen,id,text,addr,-,-,-,hsome,-⟩
        cases hid.symm.trans hsome
      | some idNode =>
        by_cases hidString : idNode.isString = true
        swap
        · rw [Bool.not_eq_true] at hidString
          show Turn resolve e (if !idNode.isString then _ else _)
          rw [hidString]
          refine .halted _ haddress ?_
          rintro ⟨len',ip',n',idlen,id,text,addr,-,-,-,hsome,-⟩
          cases hid.symm.trans hsome
          cases hidString
        obtain ⟨idlen,id,rfl⟩ : ∃ idlen id, idNode = .string idlen id := by
          cases idNode with
          | string idlen id => exact ⟨idlen,id,rfl⟩
          | _ => cases hidString
        exact turn_resolved resolve hip hport (by omega) hid

theorem Turn.misused_iff {e : Node} {x : Except Fault ℕ} (h : Turn resolve e x) : Misused x ↔ ¬ e.HasAddress := by
  cases h with
  | misused m hno => exact iff_of_true ⟨m,rfl⟩ hno
  | halted e ha hp => exact iff_of_false (not_misused_halt e) (not_not.mpr ha)
  | passed addr ha hp => exact iff_of_false (not_misused_ok addr) (not_not.mpr ha)

theorem Turn.ok_iff {e : Node} {x : Except Fault ℕ} (h : Turn resolve e x) : (∃ a, x = .ok a) ↔ e.Passes resolve := by
  cases h with
  | misused m hno =>
    refine iff_of_false (by rintro ⟨a,ha⟩; cases ha) ?_
    rintro ⟨len,ip,n,idlen,id,text,addr,hip,hport,-⟩
    exact hno ⟨_,hip,fun _ => by rw [hport]; rfl⟩
  | halted e ha hp => exact iff_of_false (by rintro ⟨a,ha⟩; cases ha) hp
  | passed addr ha hp => exact iff_of_true ⟨addr,rfl⟩ hp

theorem mapM_misused (es : List Node) : Misused (es.mapM (dictPeerTyped resolve)) ↔ ¬ PeersTyped resolve es := by
  induction es with
  | nil => exact iff_of_false (not_misused_ok []) (fun h => h trivial)
  | cons e es ih =>
    have hrest : ∀ a, Misused (es.mapM (dictPeerTyped resolve) >>= fun as => .ok (a :: as)) ↔
        ¬ PeersTyped resolve es := by
      intro a
      rw [misused_bind,ih,or_iff_left]
      rintro ⟨as,-,h⟩
      exact not_misused_ok _ h
    rw [List.mapM_cons]
    show Misused (dictPeerTyped resolve e >>= fun a => es.mapM (dictPeerTyped resolve) >>= fun as => .ok (a :: as)) ↔ _
    have hturn := dictPeerTyped_turn resolve e
    rw [misused_bind,hturn.misused_iff]
    simp only [hrest]
    rw [exists_and_right,hturn.ok_iff,PeersTyped]
    tauto

theorem peerlistAddrsTyped_misused (node : Node) : Misused (peerlistAddrsTyped resolve node) ↔
    ∃ peers, node = .list peers ∧ ¬ PeersTyped resolve peers := by
  cases node with
  | string len value =>
    refine iff_of_false (not_misused_untyped _) ?_
    rintro ⟨peers,heq,-⟩
    cases heq
  | list peers =>
    refine (mapM_misused resolve peers).trans ⟨fun h => ⟨peers,rfl,h⟩,?_⟩
    rintro ⟨peers',heq,h⟩
    cases heq
    exact h
  | _ =>
    refine iff_of_false (not_misused_halt _) ?_
    rintro ⟨peers,heq,-⟩
    cases heq

theorem checkNumberTyped_eq (root : Node) (key msg : String) :
    (∃ node, bencNodeFind (ascii key) root = some node ∧ node.isInt = false) ∧
        checkNumberTyped root key msg = .error (.halt (.errx msg)) ∨
      (¬ ∃ node, bencNodeFind (ascii key) root = some node ∧ node.isInt = false) ∧
        checkNumberTyped root key msg = .ok () := by
  unfold checkNumberTyped
  cases hnode : bencNodeFind (ascii key) root with
  | none =>
    refine .inr ⟨?_,rfl⟩
    rintro ⟨node,hsome,-⟩
    cases hsome
  | some node =>
    cases node with
    | int n =>
      refine .inr ⟨?_,rfl⟩
      rintro ⟨node,hsome,hint⟩
      cases hsome
      cases hint
    | _ => exact .inl ⟨⟨_,rfl,rfl⟩,rfl⟩

/-- Without a failure reason the reply is decided by the three numbers and by the peers. -/
theorem contentReplyTyped_none {root : Node} (hreason : bencNodeFind (ascii "failure reason") root = none) :
    (∃ key ∈ ["interval","complete","incomplete"], ∃ node, bencNodeFind (ascii key) root = some node ∧
        node.isInt = false) ∧ (∃ h, contentReplyTyped root = .error (.halt h)) ∨
      (¬ ∃ key ∈ ["interval","complete","incomplete"], ∃ node, bencNodeFind (ascii key) root = some node ∧
        node.isInt = false) ∧ contentReplyTyped root = .ok (match bencNodeFind (ascii "peers") root with
          | none => .peerless
          | some node => .peers node) := by
  unfold contentReplyTyped
  rw [hreason]
  dsimp only
  simp only [List.mem_cons,List.not_mem_nil,or_false,exists_eq_or_imp,exists_eq_left]
  rcases checkNumberTyped_eq root "interval" "interval is not a number" with ⟨hbad,herr⟩ | ⟨hgood,hok⟩
  · rw [herr]
    exact .inl ⟨.inl hbad,_,rfl⟩
  rw [hok]
  rcases checkNumberTyped_eq root "complete" "complete is not a number" with ⟨hbad,herr⟩ | ⟨hgood',hok'⟩
  · rw [herr]
    exact .inl ⟨.inr (.inl hbad),_,rfl⟩
  rw [hok']
  rcases checkNumberTyped_eq root "incomplete" "incomplete is not a number" with ⟨hbad,herr⟩ | ⟨hgood'',hok''⟩
  · rw [herr]
    exact .inl ⟨.inr (.inr hbad),_,rfl⟩
  rw [hok'']
  refine .inr ⟨?_,?_⟩
  · rintro (h | h | h)
    · exact hgood h
    · exact hgood' h
    · exact hgood'' h
  · cases bencNodeFind (ascii "peers") root <;> rfl

end Condition

/-- No absent node and no foreign member is used, if and only if a failure reason is a string, or there is none
and a number is missing its type, or all peers of a list have an address. -/
theorem type_safe_iff (resolve : Bytes → ℤ → Except Halt ℕ) (root : Node) :
    TypeSafe resolve root ↔ FieldsTyped resolve root := by
  unfold TypeSafe FieldsTyped handleTree
  cases hreason : bencNodeFind (ascii "failure reason") root with
  | some reason =>
    have hreply : contentReplyTyped root = (do
        let _ ← reason.bodyString
        .ok .failed) := by
      unfold contentReplyTyped
      rw [hreason]
    rw [hreply]
    cases reason with
    | string len value => exact iff_of_true (not_misused_ok none) rfl
    | _ => exact iff_of_false (fun h => h ⟨.illTyped,rfl⟩) Bool.false_ne_true
  | none =>
    rcases contentReplyTyped_none hreason with ⟨hbad,h,herr⟩ | ⟨hgood,hreply⟩
    · rw [herr]
      exact iff_of_true (not_misused_halt h) (.inl hbad)
    · rw [hreply,ok_bind]
      cases hpeers : bencNodeFind (ascii "peers") root with
      | none =>
        refine iff_of_true (not_misused_ok none) (.inr ?_)
        intro peers hsome
        cases hsome
      | some node =>
        show ¬ Misused ((peerlistAddrsTyped resolve node).map some) ↔ _
        rw [misused_map,peerlistAddrsTyped_misused]
        constructor
        · intro h
          right
          intro peers hsome
          cases hsome
          by_contra hno
          exact h ⟨peers,rfl,hno⟩
        · rintro (h | h)
          · exact absurd h hgood
          · rintro ⟨peers,rfl,hno⟩
            exact hno (h peers rfl)

section Test

/-- In a list of peers that holds a number there is no "ip", and a failure reason may be a number. -/
theorem type_unsafe :
    (∃ root, bencTree (ascii "d5:peersli0eee") = .ok root ∧ ¬ TypeSafe (fun _ _ => .ok 0) root) ∧
      ∃ root, bencTree (ascii "d14:failure reasoni5ee") = .ok root ∧ ¬ TypeSafe (fun _ _ => .ok 0) root := by
  have hpeers : (bencTree (ascii "d5:peersli0eee")).toOption.map (fun root =>
      decide (handleTree (fun _ _ => .ok 0) root = .error (.misuse .absent))) = some true := by decide +kernel
  have hreason : (bencTree (ascii "d14:failure reasoni5ee")).toOption.map (fun root =>
      decide (handleTree (fun _ _ => .ok 0) root = .error (.misuse .illTyped))) = some true := by decide +kernel
  obtain ⟨root,hroot,habsent⟩ := exists_ok hpeers
  obtain ⟨root',hroot',hill⟩ := exists_ok hreason
  exact ⟨⟨root,hroot,fun h => h ⟨.absent,of_decide_eq_true habsent⟩⟩,
    ⟨root',hroot',fun h => h ⟨.illTyped,of_decide_eq_true hill⟩⟩⟩

end Test

end Unworkable
