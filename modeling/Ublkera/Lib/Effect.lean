import Mathlib.Tactic

/-!
# Programs that call the outside world

A `Prog` returns a value, fails with an error, or calls an effect and goes on
with the answer.  What the effects do is not part of it: a `Handler` says
which answers a call may get in a state of the world, and which state it
leaves.  So one program can be run against several worlds.

* `Runs` is the run of a program in a world.
* `wp` is the weakest precondition, by recursion on the program.  The
  postcondition speaks about failures too.  `wp_iff_runs` says that `wp` is
  about the runs and about nothing else.
* The rules of `wp`: one for each constructor, `wp_bind`, `wp_mono`,
  `wp_and`, and `wp_loop` for a loop over a list.
* `Only P` says that a program makes no call but those in `P`.  It keeps what
  these keep (`wp_only`).
* `Ends` says that no run gets stuck: wherever it has come to, it can go on to
  an end.  A program ends in a world that answers its calls (`ends_only`), and
  in one that has room for them (`ends_within`); `Within n` says that the
  calls of a program cost `n` at most.

Nothing in this module is about a particular program or world.
-/

namespace Effect

variable {E : Type} {R : E → Type} {ε ε' α β γ σ : Type}

/-- A program with effects `E`, where the answer to `e` is of type `R e`. -/
inductive Prog (E : Type) (R : E → Type) (ε α : Type) where
  | ret (a : α)
  | fail (err : ε)
  | call (e : E) (k : R e → Prog E R ε α)

namespace Prog

def bind : Prog E R ε α → (α → Prog E R ε β) → Prog E R ε β
  | ret a, f => f a
  | fail err, _ => .fail err
  | call e k, f => .call e fun r => (k r).bind f

instance : Monad (Prog E R ε) where
  pure := .ret
  bind := .bind

/-- One call. -/
def ask (e : E) : Prog E R ε (R e) := .call e .ret

/-- The same with other errors. -/
def mapError (f : ε → ε') : Prog E R ε α → Prog E R ε' α
  | ret a => .ret a
  | fail err => .fail (f err)
  | call e k => .call e fun r => (k r).mapError f

/-- A loop over a list with an accumulator. -/
def loop (body : β → γ → Prog E R ε β) : List γ → β → Prog E R ε β
  | [], b => .ret b
  | x :: rest, b => (body b x).bind (loop body rest)

end Prog

open Prog

/-! ## Runs -/

/-- The answers that the world may give to a call, and the state that it is
in then. -/
abbrev Handler (σ : Type) (E : Type) (R : E → Type) := σ → (e : E) → R e → σ → Prop

inductive Runs (H : Handler σ E R) : Prog E R ε α → σ → Except ε α → σ → Prop where
  | ret {a : α} {s : σ} : Runs H (.ret a) s (.ok a) s
  | fail {err : ε} {s : σ} : Runs H (.fail err) s (.error err) s
  | call {e : E} {k : R e → Prog E R ε α} {s t u : σ} {r : R e} {out : Except ε α}
      (answer : H s e r t) (rest : Runs H (k r) t out u) : Runs H (.call e k) s out u

variable {H : Handler σ E R}

/-- The run of a sequence. -/
theorem Runs.bind {p : Prog E R ε α} {f : α → Prog E R ε β} {s t u : σ} {a : α}
    {out : Except ε β} (first : Runs H p s (.ok a) t) (rest : Runs H (f a) t out u) :
    Runs H (p >>= f) s out u := by
  change Runs H (p.bind f) s out u
  induction p generalizing s with
  | ret b =>
    cases first
    exact rest
  | fail err => cases first
  | call e k ih =>
    cases first with
    | call answer run => exact .call answer (ih _ run)

/-! ## Weakest preconditions -/

/-- Every run from this state ends in a result and a state with `Q`. -/
def wp (H : Handler σ E R) : Prog E R ε α → (Except ε α → σ → Prop) → σ → Prop
  | .ret a, Q, s => Q (.ok a) s
  | .fail err, Q, s => Q (.error err) s
  | .call e k, Q, s => ∀ r t, H s e r t → wp H (k r) Q t

theorem wp_iff_runs {p : Prog E R ε α} {Q : Except ε α → σ → Prop} {s : σ} :
    wp H p Q s ↔ ∀ out t, Runs H p s out t → Q out t := by
  constructor
  · intro h out t hrun
    induction hrun with
    | ret | fail => exact h
    | call answer _ ih => exact ih (h _ _ answer)
  · intro h
    induction p generalizing s with
    | ret a => exact h _ _ .ret
    | fail err => exact h _ _ .fail
    | call e k ih =>
      intro r t hanswer
      exact ih r fun out u hrun => h out u (.call hanswer hrun)

@[simp] theorem wp_ret {a : α} {Q : Except ε α → σ → Prop} {s : σ} :
    wp H (.ret a) Q s ↔ Q (.ok a) s := Iff.rfl

@[simp] theorem wp_fail {err : ε} {Q : Except ε α → σ → Prop} {s : σ} :
    wp H (.fail err) Q s ↔ Q (.error err) s := Iff.rfl

theorem wp_call {e : E} {k : R e → Prog E R ε α} {Q : Except ε α → σ → Prop} {s : σ} :
    wp H (.call e k) Q s ↔ ∀ r t, H s e r t → wp H (k r) Q t := Iff.rfl

theorem wp_mono {p : Prog E R ε α} {Q Q' : Except ε α → σ → Prop} {s : σ}
    (h : wp H p Q s) (hQ : ∀ out t, Q out t → Q' out t) : wp H p Q' s := by
  rw [wp_iff_runs] at h ⊢
  intro out t hrun
  exact hQ out t (h out t hrun)

/-- A world with fewer answers has fewer runs. -/
theorem wp_sub {H' : Handler σ E R} (hsub : ∀ s e r t, H' s e r t → H s e r t)
    {p : Prog E R ε α} {Q : Except ε α → σ → Prop} {s : σ} (h : wp H p Q s) : wp H' p Q s := by
  induction p generalizing s with
  | ret | fail => exact h
  | call e k ih =>
    intro r t hanswer
    exact ih r (h r t (hsub s e r t hanswer))

theorem wp_and {p : Prog E R ε α} {Q Q' : Except ε α → σ → Prop} {s : σ}
    (h : wp H p Q s) (h' : wp H p Q' s) : wp H p (fun out t => Q out t ∧ Q' out t) s := by
  rw [wp_iff_runs] at h h' ⊢
  intro out t hrun
  exact ⟨h out t hrun, h' out t hrun⟩

/-- The rule of a sequence: a failure of the first part ends it. -/
theorem wp_bind {p : Prog E R ε α} {f : α → Prog E R ε β} {Q : Except ε β → σ → Prop} {s : σ} :
    wp H (p.bind f) Q s ↔
      wp H p (fun out t => match out with
        | .ok a => wp H (f a) Q t
        | .error err => Q (.error err) t) s := by
  induction p generalizing s with
  | ret a | fail err => simp [Prog.bind]
  | call e k ih => simp only [Prog.bind, wp_call, ih]

/-- The sequence of a `do` block. -/
@[simp] theorem wp_monad_bind {p : Prog E R ε α} {f : α → Prog E R ε β}
    {Q : Except ε β → σ → Prop} {s : σ} :
    wp H (p >>= f) Q s ↔
      wp H p (fun out t => match out with
        | .ok a => wp H (f a) Q t
        | .error err => Q (.error err) t) s := wp_bind

/-- The first part may do anything. -/
theorem wp_bind_of_forall {p : Prog E R ε α} {f : α → Prog E R ε β} {Q : Except ε β → σ → Prop}
    {s : σ} (h : ∀ a t, wp H (f a) Q t) (failed : ∀ err t, Q (.error err) t) :
    wp H (p >>= f) Q s := by
  rw [wp_monad_bind, wp_iff_runs]
  intro out t _
  cases out with
  | ok a => exact h a t
  | error err => exact failed err t

@[simp] theorem wp_mapError {f : ε → ε'} {p : Prog E R ε α} {Q : Except ε' α → σ → Prop}
    {s : σ} : wp H (p.mapError f) Q s ↔ wp H p (fun out t => Q (out.mapError f) t) s := by
  induction p generalizing s with
  | ret a | fail err => simp [mapError, Except.mapError]
  | call e k ih => simp only [mapError, wp_call, ih]

/-- The rule of a loop.  The invariant may read the part of the list that is
done. -/
theorem wp_loop {body : β → γ → Prog E R ε β} {Q : Except ε β → σ → Prop}
    (I : List γ → β → σ → Prop) {l : List γ} {b : β} {s : σ} (init : I [] b s)
    (step : ∀ done x rest b s, l = done ++ x :: rest → I done b s →
      wp H (body b x) (fun out t => match out with
        | .ok b => I (done ++ [x]) b t
        | .error err => Q (.error err) t) s)
    (final : ∀ b s, I l b s → Q (.ok b) s) : wp H (loop body l b) Q s := by
  have key : ∀ rest done b s, l = done ++ rest → I done b s → wp H (loop body rest b) Q s := by
    intro rest
    induction rest with
    | nil =>
      intro done b s hl hI
      rw [List.append_nil] at hl
      subst hl
      exact final b s hI
    | cons x rest ih =>
      intro done b s hl hI
      rw [loop, wp_bind]
      refine wp_mono (step done x rest b s hl hI) ?_
      intro out t hout
      cases out with
      | error err => exact hout
      | ok b' => exact ih (done ++ [x]) b' t (by simpa using hl) hout
  exact key l [] b s rfl init

theorem loop_map {δ : Type} (f : δ → γ) (body : β → γ → Prog E R ε β) (l : List δ) (b : β) :
    loop body (l.map f) b = loop (fun b x => body b (f x)) l b := by
  induction l generalizing b with
  | nil => rfl
  | cons x rest ih =>
    rw [List.map_cons, loop, loop]
    congr 1
    funext b
    exact ih b

/-! ## The calls of a program -/

/-- Every call that the program can make, whatever the answers, is in `P`. -/
def Prog.Only (P : E → Prop) : Prog E R ε α → Prop
  | .ret _ => True
  | .fail _ => True
  | .call e k => P e ∧ ∀ r, (k r).Only P

variable {P : E → Prop}

@[simp] theorem only_ret {a : α} : (Prog.ret a : Prog E R ε α).Only P := trivial

@[simp] theorem only_fail {err : ε} : (Prog.fail err : Prog E R ε α).Only P := trivial

@[simp] theorem only_ask {e : E} : (ask e : Prog E R ε (R e)).Only P ↔ P e := by
  simp [ask, Prog.Only]

theorem only_bind {p : Prog E R ε α} {f : α → Prog E R ε β} (h : p.Only P)
    (hf : ∀ a, (f a).Only P) : (p >>= f).Only P := by
  induction p with
  | ret a => exact hf a
  | fail => trivial
  | call e k ih => exact ⟨h.1, fun r => ih r (h.2 r)⟩

theorem only_loop {body : β → γ → Prog E R ε β} {l : List γ} {b : β}
    (h : ∀ b x, x ∈ l → (body b x).Only P) : (loop body l b).Only P := by
  induction l generalizing b with
  | nil => trivial
  | cons x rest ih =>
    refine only_bind (h b x List.mem_cons_self) fun b => ?_
    exact ih fun b x hx => h b x (List.mem_cons_of_mem _ hx)

theorem only_mapError {f : ε → ε'} {p : Prog E R ε α} (h : p.Only P) :
    (p.mapError f).Only P := by
  induction p with
  | ret | fail => trivial
  | call e k ih => exact ⟨h.1, fun r => ih r (h.2 r)⟩

theorem only_of_forall (h : ∀ e, P e) (p : Prog E R ε α) : p.Only P := by
  induction p with
  | ret | fail => trivial
  | call e k ih => exact ⟨h e, ih⟩

theorem only_mono {P' : E → Prop} {p : Prog E R ε α} (h : p.Only P) (hP : ∀ e, P e → P' e) :
    p.Only P' := by
  induction p with
  | ret | fail => trivial
  | call e k ih => exact ⟨hP e h.1, fun r => ih r (h.2 r)⟩

/-- What the calls of a program keep, the program keeps. -/
theorem wp_only (I : σ → Prop) (keeps : ∀ s e r t, P e → I s → H s e r t → I t)
    {p : Prog E R ε α} (hp : p.Only P) {s : σ} (h : I s) : wp H p (fun _ t => I t) s := by
  induction p generalizing s with
  | ret | fail => exact h
  | call e k ih =>
    intro r t hanswer
    exact ih r (hp.2 r) (keeps s e r t hp.1 h hanswer)

/-! ## Runs that end -/

/-- The calls of a program cost `n` at most. -/
def Prog.Within (cost : E → Nat) : Nat → Prog E R ε α → Prop
  | _, .ret _ => True
  | _, .fail _ => True
  | n, .call e k => cost e ≤ n ∧ ∀ r, (k r).Within cost (n - cost e)

section Within

variable {cost : E → Nat} {m n : Nat}

@[simp] theorem within_ret {a : α} : (Prog.ret a : Prog E R ε α).Within cost n := trivial

theorem within_mono {p : Prog E R ε α} (h : p.Within cost m) (hle : m ≤ n) :
    p.Within cost n := by
  induction p generalizing m n with
  | ret | fail => trivial
  | call e k ih => exact ⟨h.1.trans hle, fun r => ih r (h.2 r) (by omega)⟩

theorem within_bind {p : Prog E R ε α} {f : α → Prog E R ε β} (h : p.Within cost m)
    (hf : ∀ a, (f a).Within cost n) : (p >>= f).Within cost (m + n) := by
  induction p generalizing m with
  | ret a => exact within_mono (hf a) (Nat.le_add_left _ _)
  | fail => trivial
  | call e k ih =>
    have hcost := h.1
    refine ⟨by omega, fun r => ?_⟩
    have hrest := ih r (h.2 r)
    rw [← Nat.sub_add_comm hcost] at hrest
    exact hrest

/-- The first part costs nothing. -/
theorem within_bind_right {p : Prog E R ε α} {f : α → Prog E R ε β} (h : p.Within cost 0)
    (hf : ∀ a, (f a).Within cost n) : (p >>= f).Within cost n := by
  rw [← Nat.zero_add n]
  exact within_bind h hf

theorem within_loop {body : β → γ → Prog E R ε β} {l : List γ} {b : β}
    (h : ∀ b x, (body b x).Within cost n) : (loop body l b).Within cost (n * l.length) := by
  induction l generalizing b with
  | nil => trivial
  | cons x rest ih =>
    rw [List.length_cons, Nat.mul_succ, Nat.add_comm]
    exact within_bind (h b x) fun b => ih

theorem within_mapError {f : ε → ε'} {p : Prog E R ε α} (h : p.Within cost n) :
    (p.mapError f).Within cost n := by
  induction p generalizing n with
  | ret | fail => trivial
  | call e k ih => exact ⟨h.1, fun r => ih r (h.2 r)⟩

end Within

/-- The run has come to the rest of the program, in this state. -/
inductive Reaches (H : Handler σ E R) : Prog E R ε α → σ → Prog E R ε α → σ → Prop where
  | here {p : Prog E R ε α} {s : σ} : Reaches H p s p s
  | call {e : E} {k : R e → Prog E R ε α} {q : Prog E R ε α} {s t u : σ} {r : R e}
      (answer : H s e r t) (rest : Reaches H (k r) t q u) : Reaches H (.call e k) s q u

/-- No run gets stuck in a call without an answer. -/
def Ends (H : Handler σ E R) (p : Prog E R ε α) (s : σ) : Prop :=
  ∀ q t, Reaches H p s q t → ∃ out u, Runs H q t out u

/-- In a world that answers the calls that it has room for, a program can come
to an end. -/
theorem exists_runs_within {cost : E → Nat} (I : Nat → σ → Prop)
    (answers : ∀ n s e, cost e ≤ n → I n s → ∃ r t, H s e r t)
    (keeps : ∀ n s e r t, cost e ≤ n → I n s → H s e r t → I (n - cost e) t) {n : Nat}
    {p : Prog E R ε α} (hp : p.Within cost n) {s : σ} (h : I n s) :
    ∃ out t, Runs H p s out t := by
  induction p generalizing n s with
  | ret a => exact ⟨_, s, .ret⟩
  | fail err => exact ⟨_, s, .fail⟩
  | call e k ih =>
    obtain ⟨r, t, hanswer⟩ := answers n s e hp.1 h
    obtain ⟨out, u, hrun⟩ := ih r (hp.2 r) (keeps n s e r t hp.1 h hanswer)
    exact ⟨out, u, .call hanswer hrun⟩

/-- No run of a program gets stuck that keeps within the room of the world. -/
theorem ends_within {cost : E → Nat} (I : Nat → σ → Prop)
    (answers : ∀ n s e, cost e ≤ n → I n s → ∃ r t, H s e r t)
    (keeps : ∀ n s e r t, cost e ≤ n → I n s → H s e r t → I (n - cost e) t) {n : Nat}
    {p : Prog E R ε α} (hp : p.Within cost n) {s : σ} (h : I n s) : Ends H p s := by
  intro q t hreaches
  induction hreaches generalizing n with
  | here => exact exists_runs_within I answers keeps hp h
  | call answer _ ih => exact ih (hp.2 _) (keeps n _ _ _ _ hp.1 h answer)

/-- In a world that answers its calls, and goes on to do so, no run of a
program gets stuck. -/
theorem ends_only (I : σ → Prop) (answers : ∀ s e, P e → I s → ∃ r t, H s e r t)
    (keeps : ∀ s e r t, P e → I s → H s e r t → I t) {p : Prog E R ε α} (hp : p.Only P) {s : σ}
    (h : I s) : Ends H p s := by
  intro q t hreaches
  induction hreaches with
  | @here p s =>
    induction p generalizing s with
    | ret a => exact ⟨_, s, .ret⟩
    | fail err => exact ⟨_, s, .fail⟩
    | call e k ih =>
      obtain ⟨r, t, hanswer⟩ := answers s e hp.1 h
      obtain ⟨out, u, hrun⟩ := ih r (hp.2 r) (keeps s e r t hp.1 h hanswer)
      exact ⟨out, u, .call hanswer hrun⟩
  | call answer _ ih => exact ih (hp.2 _) (keeps _ _ _ _ hp.1 h answer)

end Effect
