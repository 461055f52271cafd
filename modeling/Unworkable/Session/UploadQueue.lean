import Unworkable.Session.Account
import Unworkable.Session.Serving

/-! # The upload queues

The queue of a peer over a whole run is a queue that allows cancelling: an accepted REQUEST arrives, a
CANCEL meets all equal ones that wait, and a tick serves the head by a call of `network_peer_write_piece`.
-/
namespace Unworkable
open Library

section History
variable (sha1 : Bytes → Bytes) (p : PeerId)

/-- What happens at the upload queue of `p` in a run, the step that stops the process included. -/
def uploadHistory : Session → List (Env × Event) → List (QueueEvent PieceUl)
  | _,[] => []
  | s,e :: es => e.2.queueEvents e.1 s p ++ match step sha1 s e with
    | .ok t => uploadHistory t es
    | .error _ => []

end History

/-- Between two events the queue of `p` is what its history `h` leaves waiting. -/
structure Queues (p : PeerId) (h : List (QueueEvent PieceUl)) (s : Session) : Prop where
  census : s.roster.Census ∧ s.roster.Connected
  listed : p ∈ s.peers → QueueHistory h (s.accounts p).uls
  fresh : s.nextPeer ≤ p → h = []
  any : ∃ q, QueueHistory h q

section Runs
variable {sha1 : Bytes → Bytes} {p : PeerId} {h : List (QueueEvent PieceUl)} {s s' : Session}

/-- One event, whether it stops the process or not. -/
theorem Queues.extend (hs : Queues p h s) (env : Env) (e : Event) : ∃ q, QueueHistory (h ++ e.queueEvents env s p) q ∧
    (p ∈ s.peers → q = (e.queueEvents env s p).foldl QueueEvent.after (s.accounts p).uls) := by
  rcases @queueEvents_cases env s p hs.census.1 e with hnil | ⟨hmem,x,hx,hserves⟩
  · rw [hnil,List.append_nil]
    by_cases hp : p ∈ s.peers
    · exact ⟨_,hs.listed hp,fun _ => rfl⟩
    · obtain ⟨q,hq⟩ := hs.any
      exact ⟨q,hq,fun hmem => (hp hmem).elim⟩
  · rw [hx]
    exact ⟨_,(hs.listed hmem).snoc x hserves,fun _ => rfl⟩

theorem Queues.step (hs : Queues p h s) {env : Env} {e : Event} (hstep : step sha1 s (env,e) = .ok s') :
    Queues p (h ++ e.queueEvents env s p) s' := by
  obtain ⟨hnext,hall⟩ := step_accounts hs.census.1 hstep
  obtain ⟨q,hq,hqueue⟩ := hs.extend env e
  have hgone : s.nextPeer ≤ p → h ++ e.queueEvents env s p = [] := by
    intro hle
    have hnot : p ∉ s.peers := fun hmem => absurd (hs.census.1.lt p hmem) (Nat.not_lt.mpr hle)
    rw [hs.fresh hle]
    exact (queueEvents_cases hs.census.1 e).resolve_right (fun hyp => hnot hyp.1)
  refine ⟨step_census hs.census.1 hs.census.2 hstep,?_,fun hle => hgone (hnext.trans hle),⟨q,hq⟩⟩
  intro hp
  rcases hall p hp with ⟨hmem,hacc⟩ | ⟨hle,hacc⟩
  · rw [hacc]
    rw [hqueue hmem] at hq
    exact hq
  · rw [hacc,hgone hle]
    exact .nil

theorem Queues.run (hs : Queues p h s) (es : List (Env × Event)) :
    ∃ q, QueueHistory (h ++ uploadHistory sha1 p s es) q ∧
      ∀ s', run sha1 s es = .ok s' → Queues p (h ++ uploadHistory sha1 p s es) s' := by
  induction es generalizing s h with
  | nil =>
    obtain ⟨q,hq⟩ := hs.any
    rw [uploadHistory,List.append_nil]
    refine ⟨q,hq,?_⟩
    rintro s' ⟨⟩
    exact hs
  | cons e es ih =>
    rw [uploadHistory,← List.append_assoc]
    cases ht : Unworkable.step sha1 s e with
    | error err =>
      obtain ⟨q,hq,-⟩ := hs.extend e.1 e.2
      refine ⟨q,by rw [List.append_nil]; exact hq,?_⟩
      intro s' hrun
      rw [Unworkable.run,List.foldlM_cons,ht] at hrun
      cases hrun
    | ok t =>
      obtain ⟨q,hq,hend⟩ := ih (hs.step ht)
      refine ⟨q,hq,?_⟩
      intro s' hrun
      rw [Unworkable.run,List.foldlM_cons,ht] at hrun
      exact hend s' hrun

theorem queues_initial (tp : Torrent) (maxfds : ℕ) (peerid : Bytes) (seed : Bool) (now : ℕ) :
    Queues p [] (.initial tp maxfds peerid seed now) where
  census := initial_census tp maxfds peerid seed now
  listed hp := absurd hp List.not_mem_nil
  fresh _ := rfl
  any := ⟨[],.nil⟩

theorem tickHands_length_le (hs : s.roster.Census) {env : Env} : (tickHands env p s.peers s).length ≤ 1 := by
  have hone := @queueEvents_cases env s p hs .scheduler
  have hlen : (tickHands env p s.peers s).length = (Event.queueEvents env s p .scheduler).length :=
    (List.length_map _).symm
  rw [hlen]
  rcases hone with hnil | ⟨-,x,hx,-⟩
  · rw [hnil]
    exact Nat.zero_le 1
  · rw [hx]
    exact le_refl 1

/-- A CANCEL in range removes all equal entries from the queue of its sender and no others. -/
theorem cancel_queue (hs : s.roster.Census) {env : Env} {avail msg : Bytes} (hp : p ∈ s.peers)
    (hmsg : completed env (s.peer p) avail = some msg) (hid : msg.headD 0 = msgCancelId)
    (hidx : indexRefused s (msgField env msg 1) = false) (hstep : step sha1 s (env,.response p avail) = .ok s') :
    (s'.peer p).uls = (s.peer p).uls.filter (· ≠ requestedUl env msg) := by
  have hp' : p ∈ s'.peers := response_peers hstep ▸ hp
  rcases (step_accounts hs hstep).2 p hp' with ⟨-,hacc⟩ | ⟨hle,-⟩
  · have hevents : Event.queueEvents env s p (.response p avail) = [.cancel (requestedUl env msg)] := by
      rw [Event.queueEvents,if_pos ⟨rfl,hp⟩,inputEvents,hmsg]
      dsimp only
      rw [hid,messageEvents,if_neg (by decide),if_pos rfl,hidx,if_neg Bool.false_ne_true]
    rw [hevents] at hacc
    exact congrArg Account.uls hacc
  · exact absurd (hs.lt p hp) (Nat.not_lt.mpr hle)

/-- In every run, what was handed to `network_peer_write_piece` for a peer comes first, in order, among its
accepted REQUESTs less those cancelled while they waited, each of them was handed over once, and the
rest of these is its queue. A tick hands over at most one, and a CANCEL takes away exactly its equals. -/
theorem uploads_in_order (sha1 : Bytes → Bytes) (b : Boot) (s₀ : Session) (hboot : b.session sha1 = .ok s₀)
    (es : List (Env × Event)) (p : PeerId) :
    servings (uploadHistory sha1 p s₀ es) <+: kept (uploadHistory sha1 p s₀ es) ∧
    servings (uploadHistory sha1 p s₀ es) = withFate .served (uploadHistory sha1 p s₀ es) ∧
    arrivals (uploadHistory sha1 p s₀ es) = (ledger (uploadHistory sha1 p s₀ es)).map Prod.fst ∧
    ∀ s, run sha1 s₀ es = .ok s → (∀ env, (tickHands env p s.peers s).length ≤ 1) ∧
      (p ∈ s.peers → (s.peer p).uls = withFate .waiting (uploadHistory sha1 p s₀ es) ∧
        ∀ env avail msg s', completed env (s.peer p) avail = some msg → msg.headD 0 = msgCancelId →
          indexRefused s (msgField env msg 1) = false → step sha1 s (env,.response p avail) = .ok s' →
          (s'.peer p).uls = (s.peer p).uls.filter (· ≠ requestedUl env msg)) := by
  obtain ⟨tp,-,rfl⟩ := Boot.session_ok hboot
  obtain ⟨q,hq,hend⟩ := @Queues.run sha1 p [] _ (queues_initial tp b.maxfds b.peerid b.seed b.now) es
  rw [List.nil_append] at hq hend
  refine ⟨?_,hq.served.symm,(map_fst_ledger _).symm,?_⟩
  · rw [hq.kept]
    exact List.prefix_append _ q
  · intro s hrun
    have hs := hend s hrun
    refine ⟨fun env => tickHands_length_le hs.census.1,fun hp => ⟨(hs.listed hp).waiting.symm,?_⟩⟩
    intro env avail msg s' hmsg hid hidx hstep
    exact cancel_queue hs.census.1 hp hmsg hid hidx hstep

end Runs

section Small

/-- A peer asks for three blocks and takes back the first and the last of them, which are equal. -/
def cancelRun : List (Env × Event) :=
  requestRun 1 ++ inputs 1000 0 (messagePortions [msgRequestId,0,0,0,0,0,0,0,0,0,0,0,0]) ++
    inputs 1000 0 (messagePortions [msgRequestId,0,0,0,0,0,0,0,0,0,0,0,1]) ++
    inputs 1000 0 (messagePortions [msgCancelId,0,0,0,0,0,0,0,0,0,0,0,1]) ++ [(.plain 1001,.scheduler)]

/-- The block between them is handed over at the next tick. -/
theorem uploads_in_order_cancelled : ∃ s₀, Boot.seeded.session sha1ZeroByte = .ok s₀ ∧
    arrivals (uploadHistory sha1ZeroByte 0 s₀ cancelRun) = [⟨0,0,1⟩,⟨0,0,0⟩,⟨0,0,1⟩] ∧
    servings (uploadHistory sha1ZeroByte 0 s₀ cancelRun) = [⟨0,0,0⟩] ∧
    servings (uploadHistory sha1ZeroByte 0 s₀ cancelRun) <+: kept (uploadHistory sha1ZeroByte 0 s₀ cancelRun) := by
  have hcheck : (Boot.seeded.session sha1ZeroByte).toOption.map (fun s₀ =>
      decide (arrivals (uploadHistory sha1ZeroByte 0 s₀ cancelRun) = [⟨0,0,1⟩,⟨0,0,0⟩,⟨0,0,1⟩] ∧
        servings (uploadHistory sha1ZeroByte 0 s₀ cancelRun) = [⟨0,0,0⟩])) = some true := by decide +kernel
  obtain ⟨s₀,h₀,hP⟩ := exists_ok hcheck
  obtain ⟨harrived,hserved⟩ := of_decide_eq_true hP
  exact ⟨s₀,h₀,harrived,hserved,(uploads_in_order sha1ZeroByte _ s₀ h₀ cancelRun 0).1⟩

end Small

end Unworkable
