import Mathlib.Tactic

/-!
# Runs of a labelled step relation

A system is given by a step relation `step : σ → α → σ → Prop`, where the
label of type `α` says what happened.  `Run step s trace t` holds when the
labels of `trace`, oldest first, lead from `s` to `t`.

The label list is kept because the properties proved over these runs speak
about it: how many steps of one kind a run has, whether a step of one kind
ever follows a step of another kind, or that every step of a run meets a
side condition.

Nothing in this module is about a particular system.
-/

namespace Trace

variable {σ α τ β : Type}

/-- A run of the step relation.  The constructor `snoc` adds the latest
step, so an induction over a run removes the latest step first. -/
inductive Run (step : σ → α → σ → Prop) (s : σ) : List α → σ → Prop where
  | nil : Run step s [] s
  | snoc {trace : List α} {t u : σ} {label : α}
      (run : Run step s trace t) (last : step t label u) :
      Run step s (trace ++ [label]) u

variable {step : σ → α → σ → Prop}

theorem Run.single {s t : σ} {label : α} (h : step s label t) :
    Run step s [label] t := by
  have hrun : Run step s ([] ++ [label]) t := .snoc .nil h
  simpa using hrun

/-- Two runs that meet are one run. -/
theorem Run.append {s t u : σ} {before after : List α}
    (h : Run step s before t) (h' : Run step t after u) :
    Run step s (before ++ after) u := by
  induction h' with
  | nil => simpa using h
  | snoc _ last ih =>
    rw [← List.append_assoc]
    exact .snoc ih last

/-- A run starts with a step. -/
theorem Run.cons {s t u : σ} {label : α} {trace : List α}
    (first : step s label t) (h : Run step t trace u) :
    Run step s (label :: trace) u :=
  (Run.single first).append h

/-- The last step of a run. -/
theorem Run.last {s u : σ} {trace : List α} {label : α} (h : Run step s (trace ++ [label]) u) :
    ∃ t, Run step s trace t ∧ step t label u := by
  generalize heq : trace ++ [label] = labels at h
  cases h with
  | nil => simp at heq
  | snoc run last =>
    obtain ⟨rfl, hl⟩ := List.append_inj' heq rfl
    obtain rfl : label = _ := List.singleton_inj.mp hl
    exact ⟨_, run, last⟩

/-- A run goes through a state after every prefix of its labels. -/
theorem Run.split {s u : σ} {before after : List α} (h : Run step s (before ++ after) u) :
    ∃ t, Run step s before t ∧ Run step t after u := by
  induction after using List.reverseRecOn generalizing u with
  | nil =>
    rw [List.append_nil] at h
    exact ⟨u, h, .nil⟩
  | append_singleton after label ih =>
    rw [← List.append_assoc] at h
    obtain ⟨v, hrun, hlast⟩ := h.last
    obtain ⟨t, hbefore, hafter⟩ := ih hrun
    exact ⟨t, hbefore, hafter.snoc hlast⟩

/-- The invariant rule.  The invariant `I` may read the labels so far, and
the side condition `P` is a condition on the labels that every prefix of a
good label list meets too. -/
theorem Run.invariant {s : σ} (P : List α → Prop) (I : List α → σ → Prop)
    (hclosed : ∀ trace label, P (trace ++ [label]) → P trace)
    (hinit : I [] s)
    (hstep : ∀ trace t label u, P (trace ++ [label]) → I trace t →
      step t label u → I (trace ++ [label]) u)
    {trace : List α} {t : σ} (h : Run step s trace t) (hP : P trace) :
    I trace t := by
  induction h with
  | nil => exact hinit
  | snoc run last ih => exact hstep _ _ _ _ hP (ih (hclosed _ _ hP)) last

/-- The invariant rule for an invariant of the state alone. -/
theorem Run.state_invariant {s : σ} (I : σ → Prop) (hinit : I s)
    (hstep : ∀ t label u, I t → step t label u → I u)
    {trace : List α} {t : σ} (h : Run step s trace t) : I t :=
  Run.invariant (fun _ => True) (fun _ => I) (fun _ _ _ => trivial) hinit
    (fun _ t label u _ hI hs => hstep t label u hI hs) h trivial

/-- A run of a narrower step relation is a run. -/
theorem Run.mono {step' : σ → α → σ → Prop}
    (hstep : ∀ s label t, step s label t → step' s label t)
    {s t : σ} {trace : List α} (h : Run step s trace t) : Run step' s trace t := by
  induction h with
  | nil => exact .nil
  | snoc _ last ih => exact .snoc ih (hstep _ _ _ last)

/-- A run whose labels all meet a condition is a run of the steps that meet
it. -/
theorem Run.guard {P : α → Prop} {s t : σ} {trace : List α} (h : Run step s trace t)
    (hP : ∀ label ∈ trace, P label) :
    Run (fun s label t => step s label t ∧ P label) s trace t := by
  induction h with
  | nil => exact .nil
  | @snoc trace t u label run last ih =>
    have hrun := ih fun l hl => hP l (List.mem_append_left _ hl)
    exact hrun.snoc ⟨last, hP label (by simp)⟩

/-- A counter that the steps of one kind increment has counted them, as long
as it does not wrap. -/
theorem Run.counter (count : σ → UInt32) (kind : α → Bool)
    (hstep : ∀ s label t, step s label t → count t = count s + if kind label then 1 else 0)
    {s t : σ} {trace : List α} (h : Run step s trace t)
    (hbound : (count s).toNat + trace.countP kind < 2 ^ 32) :
    (count t).toNat = (count s).toNat + trace.countP kind := by
  induction h with
  | nil => rfl
  | @snoc trace t u l run last ih =>
    rw [List.countP_append, List.countP_singleton] at hbound ⊢
    have hprev := ih (by omega)
    have h1 : (1 : UInt32).toNat = 1 := rfl
    have h0 : (0 : UInt32).toNat = 0 := rfl
    rw [hstep t l u last, UInt32.toNat_add, hprev]
    split
    · rename_i hl
      rw [if_pos hl] at hbound
      omega
    · rename_i hl
      rw [if_neg hl] at hbound
      omega

/-- A run of one component is a run of the system around it. -/
theorem Run.map (step' : τ → β → τ → Prop) (f : σ → τ) (g : α → β)
    (hstep : ∀ s label t, step s label t → step' (f s) (g label) (f t))
    {s t : σ} {trace : List α} (h : Run step s trace t) :
    Run step' (f s) (trace.map g) (f t) := by
  induction h with
  | nil => exact .nil
  | snoc _ last ih =>
    rw [List.map_append]
    exact .snoc ih (hstep _ _ _ last)

/-! ## Conditions on the labels of a run -/

/-- Every label meets `Q` with the labels that came before it. -/
def Along (Q : List α → α → Prop) (trace : List α) : Prop :=
  ∀ before label after, trace = before ++ label :: after → Q before label

theorem along_nil (Q : List α → α → Prop) : Along Q [] := by
  intro before label after h
  simp at h

theorem along_snoc {Q : List α → α → Prop} {trace : List α} {label : α} :
    Along Q (trace ++ [label]) ↔ Along Q trace ∧ Q trace label := by
  constructor
  · intro h
    refine ⟨?_, h trace label [] rfl⟩
    intro before l after heq
    apply h before l (after ++ [label])
    rw [heq]
    simp
  · intro ⟨h, hlast⟩ before l after heq
    rcases List.eq_nil_or_concat after with rfl | ⟨init, last, rfl⟩
    · obtain ⟨rfl, hl⟩ := List.append_inj' heq rfl
      obtain rfl : label = l := by simpa using hl
      exact hlast
    · rw [List.concat_eq_append, ← List.cons_append, ← List.append_assoc] at heq
      obtain ⟨rfl, -⟩ := List.append_inj' heq rfl
      exact h before l init rfl

end Trace
