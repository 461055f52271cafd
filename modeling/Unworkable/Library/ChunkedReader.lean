import Unworkable.Library.Outcome

/-! # Resumable readers do not depend on how their input is cut

A resumable reader asks for a number of bytes, takes what is there, and comes back for
the rest; when it has them all it acts and asks for the next portion. Its callback is
entered again while input is left. The result of a whole stream, and the calls made on
the way, are those of feeding it byte by byte.
-/
namespace Unworkable.Library

/-- The calls made so far, and the state or the reason why there is none. -/
structure Traced (κ ε σ : Type*) where
  calls : List κ
  result : Except ε σ

namespace Traced
variable {κ ε σ τ υ : Type*}

def pure (s : σ) : Traced κ ε σ := ⟨[],.ok s⟩

def bind (t : Traced κ ε σ) (f : σ → Traced κ ε τ) : Traced κ ε τ :=
  match t.result with
  | .ok s => ⟨t.calls ++ (f s).calls,(f s).result⟩
  | .error e => ⟨t.calls,.error e⟩

@[simp] theorem pure_bind (s : σ) (f : σ → Traced κ ε τ) : (pure s : Traced κ ε σ).bind f = f s := rfl

@[simp] theorem bind_pure (t : Traced κ ε σ) : t.bind pure = t := by
  rcases t with ⟨calls,result⟩
  cases result <;> simp [bind,pure]

theorem bind_result_ok {t : Traced κ ε σ} {f : σ → Traced κ ε τ} {b : τ} :
    (t.bind f).result = .ok b ↔ ∃ a, t.result = .ok a ∧ (f a).result = .ok b := by
  rcases t with ⟨calls,result⟩
  cases result <;> simp [bind]

theorem avoids_bind {e : ε} {t : Traced κ ε σ} {f : σ → Traced κ ε τ} (ht : Avoids e t.result)
    (hf : ∀ a, t.result = .ok a → Avoids e (f a).result) : Avoids e (t.bind f).result := by
  rcases t with ⟨calls,result⟩
  cases result with
  | error e' =>
    rw [avoids_error] at ht
    exact avoids_error.mpr ht
  | ok a => exact hf a rfl

theorem mem_calls_bind {t : Traced κ ε σ} {f : σ → Traced κ ε τ} {c : κ} :
    c ∈ (t.bind f).calls ↔ c ∈ t.calls ∨ ∃ s, t.result = .ok s ∧ c ∈ (f s).calls := by
  rcases t with ⟨calls,result⟩
  cases result <;> simp [bind]

theorem bind_assoc (t : Traced κ ε σ) (f : σ → Traced κ ε τ) (g : τ → Traced κ ε υ) :
    (t.bind f).bind g = t.bind (fun s => (f s).bind g) := by
  rcases t with ⟨calls,result⟩
  cases result with
  | error e => rfl
  | ok s =>
    simp only [bind]
    cases (f s).result <;> simp

end Traced

/-- `arm` prepares the next portion when none is pending, `finish` acts on a complete one,
and `settle` is what every entry of the callback does last. -/
structure Reader (κ ε σ : Type*) where
  arm : σ → σ
  pending : σ → ℕ
  push : σ → Bytes → σ
  finish : σ → Traced κ ε σ
  settle : σ → Except ε σ

namespace Reader
variable {κ ε σ : Type*} (R : Reader κ ε σ)

/-- One entry of the callback with `avail` in the input buffer. -/
def invoke (s : σ) (avail : Bytes) : Traced κ ε σ :=
  let s := R.push (R.arm s) (avail.take (R.pending (R.arm s)))
  (if 0 < R.pending s then .pure s else R.finish s).bind (fun s => ⟨[],R.settle s⟩)

def remaining (s : σ) (avail : Bytes) : Bytes := avail.drop (R.pending (R.arm s))

/-- The callback, entered again while input is left, with what it leaves in the buffer on
return; `none` when it was entered `fuel` times and still has input. -/
def handle : ℕ → σ → Bytes → Option (Traced κ ε (σ × Bytes))
  | 0, _, _ => none
  | fuel + 1, s, avail =>
    let t := R.invoke s avail
    match t.result with
    | .error e => some ⟨t.calls,.error e⟩
    | .ok s' =>
      if R.remaining s avail = [] then some ⟨t.calls,.ok (s',R.remaining s avail)⟩
      else (handle fuel s' (R.remaining s avail)).map (fun u => t.bind (fun _ => u))

/-- Successive arrivals, each appended to what is left in the buffer and then handled. -/
def handles (s : σ) (left : Bytes) : List Bytes → Option (Traced κ ε (σ × Bytes))
  | [] => some (.pure (s,left))
  | c :: cs => do
    let t ← R.handle (left ++ c).length s (left ++ c)
    match t.result with
    | .error e => some ⟨t.calls,.error e⟩
    | .ok (s',left) =>
      let u ← handles s' left cs
      some (t.bind (fun _ => u))

def feed (s : σ) : Bytes → Traced κ ε σ
  | [] => .pure s
  | b :: rest => (R.invoke s [b]).bind (fun s => feed s rest)

theorem feed_append (s : σ) (a b : Bytes) : R.feed s (a ++ b) = (R.feed s a).bind (fun s => R.feed s b) := by
  induction a generalizing s with
  | nil => rfl
  | cons x rest ih =>
    simp only [List.cons_append,feed,Traced.bind_assoc]
    congr 1
    funext s'
    exact ih s'

/-- The laws of a resumable reader, on the states in which nothing waits to be settled. -/
structure Lawful (quiet : σ → Prop) : Prop where
  pending_arm : ∀ s, quiet s → 0 < R.pending (R.arm s)
  arm_pending : ∀ s, quiet s → 0 < R.pending s → R.arm s = s
  quiet_arm : ∀ s, quiet s → quiet (R.arm s)
  quiet_push : ∀ s bs, quiet s → quiet (R.push s bs)
  pending_push : ∀ s bs, R.pending (R.push s bs) = R.pending s - bs.length
  push_push : ∀ s a b, R.push (R.push s a) b = R.push s (a ++ b)
  settle_quiet : ∀ s, quiet s → R.settle s = .ok s
  quiet_settle : ∀ s s', R.settle s = .ok s' → quiet s'

variable {R} {quiet : σ → Prop}

theorem Lawful.quiet_invoke (h : R.Lawful quiet) {s s' : σ} {avail : Bytes}
    (he : (R.invoke s avail).result = .ok s') : quiet s' := by
  unfold invoke at he
  simp only [Traced.bind] at he
  split at he
  · exact h.quiet_settle _ _ he
  · cases he

/-- While more than one byte is pending, an entry takes its first byte on its own. -/
theorem Lawful.invoke_cons (h : R.Lawful quiet) {s : σ} (hs : quiet s) (b : UInt8) (rest : Bytes)
    (hp : 1 < R.pending (R.arm s)) :
    ∃ s', R.invoke s [b] = .pure s' ∧ quiet s' ∧ R.pending (R.arm s') = R.pending (R.arm s) - 1 ∧
      R.invoke s (b :: rest) = R.invoke s' rest := by
  have hq := h.quiet_push (R.arm s) [b] (h.quiet_arm s hs)
  have hpend : R.pending (R.push (R.arm s) [b]) = R.pending (R.arm s) - 1 := by
    simpa using h.pending_push (R.arm s) [b]
  have harm : R.arm (R.push (R.arm s) [b]) = R.push (R.arm s) [b] :=
    h.arm_pending _ hq (by omega)
  refine ⟨R.push (R.arm s) [b],?_,hq,by rw [harm,hpend],?_⟩
  · have ht : ([b] : Bytes).take (R.pending (R.arm s)) = [b] := List.take_of_length_le (by simp; omega)
    simp only [invoke,ht]
    rw [if_pos (by omega),Traced.pure_bind,h.settle_quiet _ hq]
    rfl
  · have ht : (b :: rest).take (R.pending (R.arm s)) = [b] ++ rest.take (R.pending (R.arm s) - 1) := by
      obtain ⟨n,hn⟩ : ∃ n, R.pending (R.arm s) = n + 1 := ⟨R.pending (R.arm s) - 1,by omega⟩
      simp [hn]
    simp only [invoke,harm,hpend,ht,h.push_push]

/-- One entry of the callback takes the bytes it has room for one by one. -/
theorem Lawful.invoke_eq_feed (h : R.Lawful quiet) {s : σ} (hs : quiet s) {avail : Bytes}
    (hne : avail ≠ []) : R.invoke s avail = R.feed s (avail.take (R.pending (R.arm s))) := by
  have hpos := h.pending_arm s hs
  induction avail generalizing s with
  | nil => exact (hne rfl).elim
  | cons b rest ih =>
    by_cases hp : 1 < R.pending (R.arm s)
    · obtain ⟨s',hb,hs',hpend,hrest⟩ := h.invoke_cons hs b rest hp
      obtain ⟨n,hn⟩ : ∃ n, R.pending (R.arm s) = n + 1 := ⟨R.pending (R.arm s) - 1,by omega⟩
      rw [hn,List.take_succ_cons,feed,hb,Traced.pure_bind,hrest]
      cases rest with
      | nil => rw [List.take_nil,feed,← hb,← hrest]
      | cons c more =>
        rw [ih hs' (by simp) (h.pending_arm s' hs'),hpend,hn]
        rfl
    · have h1 : R.pending (R.arm s) = 1 := by omega
      simp only [invoke,h1,List.take_succ_cons,List.take_zero,feed]
      exact (Traced.bind_pure _).symm

def drained (s : σ) : Traced κ ε (σ × Bytes) := .pure (s,[])

/-- The whole callback on one buffer is the buffer fed byte by byte. It needs no more
entries than there are bytes, and it returns with the buffer drained. -/
theorem Lawful.handle_eq_feed (h : R.Lawful quiet) {s : σ} (hs : quiet s) {avail : Bytes}
    (hne : avail ≠ []) {fuel : ℕ} (hf : avail.length ≤ fuel) :
    R.handle fuel s avail = some ((R.feed s avail).bind drained) := by
  induction fuel generalizing s avail with
  | zero => exact (hne (List.length_eq_zero_iff.mp (by omega))).elim
  | succ fuel ih =>
    have hpos := h.pending_arm s hs
    have hi := h.invoke_eq_feed hs hne
    have hsplit : R.feed s avail = (R.invoke s avail).bind (fun s' => R.feed s' (R.remaining s avail)) := by
      rw [hi,← feed_append,remaining,List.take_append_drop]
    simp only [handle]
    cases hr : (R.invoke s avail).result with
    | error e => simp only [hsplit,Traced.bind,hr]
    | ok s' =>
      by_cases hrem : R.remaining s avail = []
      · simp only [hrem,if_true,hsplit,feed,Traced.bind,hr,Traced.pure,drained,List.append_nil]
      · have hlen : (R.remaining s avail).length ≤ fuel := by
          simp only [remaining,List.length_drop]
          omega
        simp only [hrem,if_false,ih (h.quiet_invoke hr) hrem hlen,Option.map_some,hsplit,Traced.bind_assoc]
        simp only [Traced.bind,hr]

theorem Lawful.quiet_feed (h : R.Lawful quiet) {s s' : σ} (hs : quiet s) {bs : Bytes}
    (he : (R.feed s bs).result = .ok s') : quiet s' := by
  induction bs generalizing s with
  | nil => cases he; exact hs
  | cons b rest ih =>
    simp only [feed,Traced.bind] at he
    split at he
    · rename_i s₁ h₁
      exact ih (h.quiet_invoke h₁) he
    · cases he

/-- However a stream arrives in non-empty portions, the calls and the result are those of
the stream fed byte by byte, and the buffer is drained at the end. -/
theorem Lawful.handles_eq_feed (h : R.Lawful quiet) {s : σ} (hs : quiet s) {chunks : List Bytes}
    (hne : ∀ c ∈ chunks, c ≠ []) :
    R.handles s [] chunks = some ((R.feed s chunks.flatten).bind drained) := by
  induction chunks generalizing s with
  | nil => rfl
  | cons c cs ih =>
    have hc := h.handle_eq_feed hs (hne c List.mem_cons_self) (le_refl c.length)
    simp only [handles,List.nil_append,hc,Option.bind_eq_bind,Option.bind_some,List.flatten_cons,
      feed_append,Traced.bind_assoc]
    cases hr : (R.feed s c).result with
    | error e => simp only [Traced.bind,hr]
    | ok s' =>
      have hcs := ih (h.quiet_feed hs hr) (fun c hc => hne c (List.mem_cons_of_mem _ hc))
      simp only [Traced.bind,hr,drained,Traced.pure,hcs,Option.bind_some,List.append_nil,List.nil_append]

end Reader

end Unworkable.Library
