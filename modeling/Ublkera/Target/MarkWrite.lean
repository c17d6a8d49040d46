import Ublkera.Target.Acking

/-!
# The retry loop of `mark_write`

Any number of callers run `mark_write` at a time, each over its own range, and
checkpoints come between any two atomic operations.  The order of the atomic
operations is total.

* `PhaseInv` is what a half-finished pass knows, whatever the others do, and
  `Grows` is what the others may do to it.
* `Tally` counts the passes of a call and the checkpoints since it began.  A
  pass that has to be repeated has seen a checkpoint (`TallyInv`).
* `mark_write_delivers` is the promise of the loop: what a call that returns
  has done, and how many passes it has needed.
* `run_of_served`: the tags of a device are such callers.
-/

namespace Ublkera

namespace MarkWrite

open Trace Io

/-! ## The calls -/

inductive CallPhase where
  | outside
  /-- Inside `mark_write(offset, len)`, over the chunks `first..=last`. -/
  | inside (offset len : UInt64) (first last : Nat) (pc : MarkPc)
  deriving DecidableEq

structure State (ι : Type) where
  map : EraState
  calls : ι → CallPhase

/-- Nobody is inside. -/
def start {ι : Type} (map : EraState) : State ι := { map, calls := fun _ => .outside }

inductive Label (ι : Type) where
  | call (i : ι) (offset len : UInt64)
  | load (i : ι) (era : UInt32)
  | stamp (i : ι) (chunk : Nat)
  /-- The second load has seen another era. -/
  | retry (i : ι) (seen : UInt32)
  /-- The second load has seen the era of the first one. -/
  | leave (i : ι) (seen : UInt32)
  | checkpoint (closed new : UInt32)

/-- The caller whose step it is. -/
def Label.caller {ι : Type} : Label ι → Option ι
  | .call i _ _ | .load i _ | .stamp i _ | .retry i _ | .leave i _ => some i
  | .checkpoint _ _ => none

def Label.checkpoints {ι : Type} : Label ι → Bool
  | .checkpoint _ _ => true
  | _ => false

variable {ι : Type} [DecidableEq ι]

/-- The label begins a call of `i`. -/
def Label.calls (i : ι) : Label ι → Bool
  | .call j _ _ => j = i
  | _ => false

/-- The label begins a pass of `i`. -/
def Label.loads (i : ι) : Label ι → Bool
  | .load j _ => j = i
  | _ => false

def State.goto (s : State ι) (map : EraState) (i : ι) (phase : CallPhase) : State ι :=
  { map, calls := Function.update s.calls i phase }

/-- One atomic operation.  A call whose range ends before it starts panics on
its slice, and takes no step. -/
inductive Step : State ι → Label ι → State ι → Prop where
  | call {s : State ι} {i : ι} {offset len : UInt64} {first last : Nat}
      (outside : s.calls i = .outside)
      (range : s.map.markRange offset len = some (first, last)) (slice : first ≤ last + 1) :
      Step s (.call i offset len) (s.goto s.map i (.inside offset len first last .load))
  /-- There is nothing to stamp. -/
  | skip {s : State ι} {i : ι} {offset len : UInt64} (outside : s.calls i = .outside)
      (range : s.map.markRange offset len = none) : Step s (.call i offset len) s
  | load {s : State ι} {i : ι} {offset len : UInt64} {first last : Nat}
      (inside : s.calls i = .inside offset len first last .load) :
      Step s (.load i s.map.currentEra)
        (s.goto s.map i (.inside offset len first last (.stampFrom s.map.currentEra first last)))
  | stamp {s : State ι} {i : ι} {offset len : UInt64} {first last c : Nat} {era : UInt32}
      (inside : s.calls i = .inside offset len first last (.stamp era c)) :
      Step s (.stamp i c)
        (s.goto (s.map.fetchMax c era) i
          (.inside offset len first last (.stampFrom era (c + 1) last)))
  | retry {s : State ι} {i : ι} {offset len : UInt64} {first last : Nat} {era : UInt32}
      (inside : s.calls i = .inside offset len first last (.check era))
      (moved : s.map.currentEra ≠ era) :
      Step s (.retry i s.map.currentEra) (s.goto s.map i (.inside offset len first last .load))
  | leave {s : State ι} {i : ι} {offset len : UInt64} {first last : Nat} {era : UInt32}
      (inside : s.calls i = .inside offset len first last (.check era))
      (same : s.map.currentEra = era) :
      Step s (.leave i s.map.currentEra) (s.goto s.map i .outside)
  | checkpoint {s : State ι} :
      Step s (.checkpoint s.map.checkpoint.2.1 s.map.checkpoint.2.2)
        { s with map := s.map.checkpoint.1 }

/-! ## What a caller knows -/

def PhaseInv (map : EraState) : CallPhase → Prop
  | .outside => True
  | .inside offset len first last pc =>
    map.markRange offset len = some (first, last) ∧ MarkInv map first last pc

theorem PhaseInv.mono {s t : EraState} {phase : CallPhase} (h : PhaseInv s phase)
    (hg : Grows s t) : PhaseInv t phase := by
  cases phase with
  | outside => trivial
  | inside offset len first last pc =>
    obtain ⟨hrange, hmark⟩ := h
    refine ⟨?_, hmark.mono hg⟩
    rw [EraState.markRange_congr hg.granularity hg.nrChunks]
    exact hrange

def Inv {ι : Type} (s : State ι) : Prop := ∀ i, PhaseInv s.map (s.calls i)

theorem Inv.inside {ι : Type} {s : State ι} (h : Inv s) {i : ι} {offset len : UInt64}
    {first last : Nat} {pc : MarkPc} (inside : s.calls i = .inside offset len first last pc) :
    s.map.markRange offset len = some (first, last) ∧ MarkInv s.map first last pc := by
  have hi := h i
  rw [inside] at hi
  exact hi

/-- A step stamps, or it is a checkpoint. -/
theorem step_grows {s t : State ι} {l : Label ι} (hs : Step s l t)
    (hw : l.checkpoints = true → s.map.currentEra < s.map.currentEra + 1) :
    Grows s.map t.map := by
  cases hs with
  | stamp => exact grows_fetchMax _ _ _
  | checkpoint => exact grows_checkpoint (hw rfl)
  | call | skip | load | retry | leave => exact Grows.refl _

theorem Inv.goto {s : State ι} (h : Inv s) {map : EraState} (hg : Grows s.map map) {i : ι}
    {phase : CallPhase} (hphase : PhaseInv map phase) : Inv (s.goto map i phase) := by
  intro j
  show PhaseInv map (Function.update s.calls i phase j)
  by_cases hj : j = i
  · subst hj
    rw [Function.update_self]
    exact hphase
  · rw [Function.update_of_ne hj]
    exact (h j).mono hg

/-- One atomic operation of one caller keeps what every caller knows. -/
theorem Inv.step {s t : State ι} {l : Label ι} (h : Inv s) (hs : Step s l t)
    (hw : l.checkpoints = true → s.map.currentEra < s.map.currentEra + 1) : Inv t := by
  have hgrows := step_grows hs hw
  cases hs with
  | call outside range slice => exact h.goto hgrows ⟨range, trivial⟩
  | skip => exact h
  | load inside =>
    obtain ⟨hrange, -⟩ := h.inside inside
    refine h.goto hgrows ⟨hrange, ?_⟩
    exact markInv_stampFrom (UInt32.le_refl _) (Nat.le_refl _) (fun c h1 h2 _ => by omega)
  | @stamp i offset len first last c era inside =>
    obtain ⟨hrange, hmark⟩ := h.inside inside
    have hlast := (EraState.markRange_bounds hrange).2
    have hc : c ≤ last := hmark.2.2.1
    refine h.goto hgrows ⟨?_, hmark.stamp (by omega)⟩
    rw [EraState.markRange_congr hgrows.granularity hgrows.nrChunks]
    exact hrange
  | retry inside moved =>
    obtain ⟨hrange, -⟩ := h.inside inside
    exact h.goto hgrows ⟨hrange, trivial⟩
  | leave => exact h.goto hgrows trivial
  | checkpoint => exact fun i => (h i).mono hgrows

/-- A chunk whose era is not above the counter stays so. -/
theorem step_era_le {s t : State ι} {l : Label ι} (h : Inv s) (hs : Step s l t)
    (hw : l.checkpoints = true → s.map.currentEra < s.map.currentEra + 1) {c : Nat}
    (hle : s.map.era c ≤ s.map.currentEra) : t.map.era c ≤ t.map.currentEra := by
  cases hs with
  | @stamp i offset len first last d era inside =>
    obtain ⟨hrange, hera, -, hd, -⟩ := h.inside inside
    have hlast := (EraState.markRange_bounds hrange).2
    exact era_fetchMax_le (by omega) hle hera
  | checkpoint => exact UInt32.le_trans hle (UInt32.le_of_lt (hw rfl))
  | call | skip | load | retry | leave => exact hle

/-- A caller raises chunks of its own range only. -/
theorem frame {s t : State ι} {l : Label ι} (h : Inv s) (hs : Step s l t) {i : ι}
    (own : l.caller = some i) {c : Nat} (hne : t.map.era c ≠ s.map.era c) :
    ∃ offset len first last pc, s.calls i = .inside offset len first last pc ∧
      s.map.markRange offset len = some (first, last) ∧ first ≤ c ∧ c ≤ last := by
  cases hs with
  | @stamp j offset len first last d era inside =>
    obtain ⟨hrange, hera, hfirst, hlast, -⟩ := h.inside inside
    obtain rfl : j = i := Option.some.inj own
    have hbound := (EraState.markRange_bounds hrange).2
    have hcd : d = c := by
      by_contra hcd
      apply hne
      show (s.map.fetchMax d era).era c = s.map.era c
      rw [s.map.era_fetchMax d c era (by omega), if_neg hcd]
    subst hcd
    exact ⟨offset, len, first, last, _, inside, hrange, hfirst, hlast⟩
  | checkpoint => cases own
  | call | skip | load | retry | leave => exact absurd rfl hne

/-! ## The passes of a call -/

/-- The passes of the last call of a caller, and the checkpoints since it
began. -/
structure Tally where
  passes : Nat
  checkpoints : Nat

def Tally.next (i : ι) (n : Tally) (l : Label ι) : Tally :=
  if l.calls i then ⟨0, 0⟩
  else
    { passes := n.passes + if l.loads i then 1 else 0
      checkpoints := n.checkpoints + if l.checkpoints then 1 else 0 }

def tally (i : ι) (trace : List (Label ι)) : Tally := trace.foldl (Tally.next i) ⟨0, 0⟩

theorem tally_snoc (i : ι) (trace : List (Label ι)) (l : Label ι) :
    tally i (trace ++ [l]) = (tally i trace).next i l := by
  rw [tally, List.foldl_append, List.foldl_cons, List.foldl_nil]
  rfl

/-- The counts since the last call. -/
theorem tally_call (i : ι) (before during : List (Label ι)) (offset len : UInt64)
    (last : ∀ l ∈ during, l.calls i = false) :
    tally i (before ++ .call i offset len :: during)
      = ⟨during.countP (Label.loads i), during.countP Label.checkpoints⟩ := by
  induction during using List.reverseRecOn with
  | nil =>
    have hcall : (Label.call i offset len).calls i = true := decide_eq_true rfl
    rw [tally_snoc, Tally.next, if_pos hcall]
    rfl
  | append_singleton during l ih =>
    have hl : l.calls i = false := last l (by simp)
    rw [← List.cons_append, ← List.append_assoc, tally_snoc,
      ih fun l' hl' => last l' (List.mem_append_left _ hl'), Tally.next, hl, List.countP_append,
      List.countP_append, List.countP_singleton, List.countP_singleton]
    rfl

/-- A pass that has to be repeated has seen a checkpoint: the counter has
moved on since its first load. -/
def TallyInv (map : EraState) (n : Tally) : CallPhase → Prop
  | .outside => n.passes ≤ n.checkpoints + 1
  | .inside _ _ _ _ .load => n.passes ≤ n.checkpoints
  | .inside _ _ _ _ (.stamp era _) | .inside _ _ _ _ (.check era) =>
    n.passes + (map.currentEra.toNat - era.toNat) ≤ n.checkpoints + 1

theorem TallyInv.le {map : EraState} {n : Tally} {phase : CallPhase} (h : TallyInv map n phase) :
    n.passes ≤ n.checkpoints + 1 := by
  cases phase with
  | outside => exact h
  | inside offset len first last pc =>
    cases pc with
    | load => exact Nat.le_succ_of_le h
    | stamp era c => exact Nat.le_trans (Nat.le_add_right _ _) h
    | check era => exact Nat.le_trans (Nat.le_add_right _ _) h

theorem tallyInv_stampFrom {map : EraState} {n : Tally} {offset len : UInt64}
    {first last c : Nat} {era : UInt32}
    (h : n.passes + (map.currentEra.toNat - era.toNat) ≤ n.checkpoints + 1) :
    TallyInv map n (.inside offset len first last (.stampFrom era c last)) := by
  unfold MarkPc.stampFrom
  split
  · exact h
  · exact h

/-- The steps of the other callers do not count. -/
theorem Tally.next_of_ne {i : ι} {l : Label ι} (n : Tally) (h : l.caller ≠ some i)
    (hcheckpoint : l.checkpoints = false) : n.next i l = n := by
  have hne : ∀ j : ι, l.caller = some j → decide (j = i) = false := by
    intro j hj
    refine decide_eq_false fun heq => h ?_
    rw [hj, heq]
  cases l with
  | call j offset len => simp [next, Label.calls, Label.loads, Label.checkpoints, hne j rfl]
  | load j era => simp [next, Label.calls, Label.loads, Label.checkpoints, hne j rfl]
  | stamp | retry | leave => rfl
  | checkpoint => cases hcheckpoint

theorem calls_of_ne {s t : State ι} {l : Label ι} (hs : Step s l t) {i : ι}
    (h : l.caller ≠ some i) : t.calls i = s.calls i := by
  have hne : ∀ j : ι, l.caller = some j → i ≠ j := by
    intro j hj heq
    exact h (by rw [hj, heq])
  cases hs with
  | skip | checkpoint => rfl
  | call | load | stamp | retry | leave => exact Function.update_of_ne (hne _ rfl) _ _

/-- A checkpoint moves the counter, and nothing else does. -/
theorem step_currentEra {s t : State ι} {l : Label ι} (hs : Step s l t) :
    t.map.currentEra = s.map.currentEra + if l.checkpoints then 1 else 0 := by
  cases hs with
  | checkpoint => rfl
  | call | skip | load | stamp | retry | leave => exact (UInt32.add_zero _).symm

theorem tallyInv_step {s t : State ι} {l : Label ι} {n : Tally} {i : ι} (hinv : Inv s)
    (h : TallyInv s.map n (s.calls i)) (hs : Step s l t)
    (hw : l.checkpoints = true → s.map.currentEra.toNat + 1 < 2 ^ 32) :
    TallyInv t.map (n.next i l) (t.calls i) := by
  by_cases hown : l.caller = some i
  · cases hs with
    | @call j offset len first last outside range slice =>
      obtain rfl : j = i := Option.some.inj hown
      show TallyInv _ _ (Function.update s.calls j _ j)
      rw [Function.update_self]
      simp [TallyInv, Tally.next, Label.calls]
    | @skip j offset len outside range =>
      obtain rfl : j = i := Option.some.inj hown
      rw [outside]
      simp [TallyInv, Tally.next, Label.calls]
    | @load j offset len first last inside =>
      obtain rfl : j = i := Option.some.inj hown
      rw [inside] at h
      show TallyInv _ _ (Function.update s.calls j _ j)
      rw [Function.update_self]
      apply tallyInv_stampFrom
      have hpasses : n.passes ≤ n.checkpoints := h
      simp [Tally.next, Label.calls, Label.loads, Label.checkpoints, State.goto]
      exact hpasses
    | @stamp j offset len first last c era inside =>
      obtain rfl : j = i := Option.some.inj hown
      rw [inside] at h
      show TallyInv _ _ (Function.update s.calls j _ j)
      rw [Function.update_self]
      exact tallyInv_stampFrom h
    | @retry j offset len first last era inside moved =>
      obtain rfl : j = i := Option.some.inj hown
      obtain ⟨-, hera, -⟩ := hinv.inside inside
      rw [inside] at h
      show TallyInv _ _ (Function.update s.calls j _ j)
      rw [Function.update_self]
      -- the counter is above the era of the pass
      have hlt : era.toNat < s.map.currentEra.toNat := by
        have hle := UInt32.le_iff_toNat_le.mp hera
        have hne : era.toNat ≠ s.map.currentEra.toNat :=
          fun heq => moved (UInt32.toNat.inj heq).symm
        omega
      have hpasses : n.passes + (s.map.currentEra.toNat - era.toNat) ≤ n.checkpoints + 1 := h
      show n.passes + 0 ≤ n.checkpoints + 0
      omega
    | @leave j offset len first last era inside same =>
      obtain rfl : j = i := Option.some.inj hown
      show TallyInv _ _ (Function.update s.calls j _ j)
      rw [Function.update_self]
      exact h.le
    | checkpoint => cases hown
  · rw [calls_of_ne hs hown]
    cases hcheckpoint : l.checkpoints with
    | false =>
      have hera : t.map.currentEra = s.map.currentEra := by
        rw [step_currentEra hs, hcheckpoint]
        exact UInt32.add_zero _
      rw [n.next_of_ne hown hcheckpoint]
      unfold TallyInv at h ⊢
      rw [hera]
      exact h
    | true =>
      have hone : (1 : UInt32).toNat = 1 := rfl
      have hera : t.map.currentEra.toNat = s.map.currentEra.toNat + 1 := by
        rw [step_currentEra hs, hcheckpoint, if_pos rfl, UInt32.toNat_add, hone,
          Nat.mod_eq_of_lt (hw hcheckpoint)]
      have hnext : n.next i l = { n with checkpoints := n.checkpoints + 1 } := by
        cases l with
        | checkpoint => rfl
        | call | load | stamp | retry | leave => cases hcheckpoint
      rw [hnext]
      cases hphase : s.calls i with
      | outside =>
        rw [hphase] at h
        exact Nat.le_succ_of_le h
      | inside offset len first last pc =>
        rw [hphase] at h
        cases pc with
        | load => exact Nat.le_succ_of_le h
        | stamp era c | check era =>
          show n.passes + (t.map.currentEra.toNat - era.toNat) ≤ n.checkpoints + 1 + 1
          have hpasses : n.passes + (s.map.currentEra.toNat - era.toNat) ≤ n.checkpoints + 1 := h
          omega

/-! ## Runs -/

/-- The counter does not wrap in a run that is short enough. -/
theorem noWrap_of_bound {s t : State ι} {trace : List (Label ι)} {l : Label ι}
    (h : Run Step s trace t)
    (hbound : s.map.currentEra.toNat + (trace ++ [l]).countP Label.checkpoints < 2 ^ 32)
    (hl : l.checkpoints = true) : t.map.currentEra.toNat + 1 < 2 ^ 32 := by
  rw [List.countP_append, List.countP_singleton, if_pos hl] at hbound
  have hera := h.counter (fun s => s.map.currentEra) Label.checkpoints
    (fun _ _ _ hs => step_currentEra hs) (by omega)
  omega

theorem run_grows {s t : State ι} {trace : List (Label ι)} (h : Run Step s trace t)
    (hbound : s.map.currentEra.toNat + trace.countP Label.checkpoints < 2 ^ 32) :
    Grows s.map t.map := by
  induction h with
  | nil => exact Grows.refl _
  | snoc run last ih =>
    have hw := noWrap_of_bound run hbound
    rw [List.countP_append] at hbound
    exact (ih (by omega)).trans
      (step_grows last fun hl => EraState.lt_succ_of_noWrap (hw hl))

/-- What holds in every state of a run. -/
structure RunInv (map : EraState) (trace : List (Label ι)) (s : State ι) : Prop where
  inv : Inv s
  era_le : ∀ c, map.era c ≤ map.currentEra → s.map.era c ≤ s.map.currentEra
  /-- The counter is at the new era of every checkpoint, or above it. -/
  closed : ∀ closed new, .checkpoint closed new ∈ trace → new ≤ s.map.currentEra
  tallied : ∀ i, TallyInv s.map (tally i trace) (s.calls i)

theorem run_inv {map : EraState} {trace : List (Label ι)} {s : State ι}
    (h : Run Step (start map) trace s)
    (hbound : map.currentEra.toNat + trace.countP Label.checkpoints < 2 ^ 32) :
    RunInv map trace s := by
  induction h with
  | nil =>
    exact ⟨fun _ => trivial, fun _ => id, fun _ _ hmem => (List.not_mem_nil hmem).elim,
      fun _ => Nat.zero_le _⟩
  | @snoc trace s t l run last ih =>
    have hw : l.checkpoints = true → s.map.currentEra.toNat + 1 < 2 ^ 32 :=
      noWrap_of_bound run hbound
    have hwrap : l.checkpoints = true → s.map.currentEra < s.map.currentEra + 1 :=
      fun hl => EraState.lt_succ_of_noWrap (hw hl)
    rw [List.countP_append] at hbound
    obtain ⟨hinv, hle, hclosed, htallied⟩ := ih (by omega)
    refine ⟨hinv.step last hwrap, fun c hc => step_era_le hinv last hwrap (hle c hc), ?_, ?_⟩
    · intro closed new hmem
      rcases List.mem_append.mp hmem with hmem | hmem
      · exact UInt32.le_trans (hclosed closed new hmem) (step_grows last hwrap).currentEra
      · obtain rfl := List.mem_singleton.mp hmem
        cases last with
        | checkpoint => exact UInt32.le_refl _
    · intro i
      rw [tally_snoc]
      exact tallyInv_step hinv (htallied i) last hw

/-- The exit branch is taken by a call that has just seen the counter at the
era of its pass. -/
theorem leave_stamped {s t : State ι} (h : Inv s) {i : ι} {seen : UInt32}
    (hs : Step s (.leave i seen) t) :
    ∃ offset len first last, s.calls i = .inside offset len first last (.check seen) ∧
      s.map.markRange offset len = some (first, last) ∧ seen = s.map.currentEra ∧
      ∀ c, first ≤ c → c ≤ last → seen ≤ t.map.era c := by
  cases hs with
  | @leave i offset len first last era inside same =>
    subst same
    obtain ⟨hrange, -, hdone⟩ := h.inside inside
    exact ⟨offset, len, first, last, inside, hrange, rfl, hdone⟩

theorem mark_write_delivers {map : EraState} {before after : List (Label ι)} {s t : State ι}
    (hbefore : Run Step (start map) before s) (hafter : Run Step s after t)
    (hbound :
      map.currentEra.toNat + (before ++ after).countP Label.checkpoints < 2 ^ 32) :
    (∀ c, map.era c ≤ map.currentEra → s.map.era c ≤ s.map.currentEra) ∧
      (∀ c, s.map.era c ≤ t.map.era c) ∧
      (∀ i seen u, Step s (.leave i seen) u →
        ∃ offset len first last, s.calls i = .inside offset len first last (.check seen) ∧
          s.map.markRange offset len = some (first, last) ∧ seen = s.map.currentEra ∧
          ∀ c, first ≤ c → c ≤ last → seen ≤ u.map.era c ∧
            ∀ closed new, .checkpoint closed new ∈ before → new ≤ u.map.era c) ∧
      (∀ i l u c, Step s l u → l.caller = some i → u.map.era c ≠ s.map.era c →
        ∃ offset len first last pc, s.calls i = .inside offset len first last pc ∧
          s.map.markRange offset len = some (first, last) ∧ first ≤ c ∧ c ≤ last) ∧
      ∀ i offset len earlier during, before = earlier ++ .call i offset len :: during →
        (∀ l ∈ during, l.calls i = false) →
        during.countP (Label.loads i) ≤ during.countP Label.checkpoints + 1 := by
  rw [List.countP_append, ← Nat.add_assoc] at hbound
  obtain ⟨hinv, hle, hclosed, htallied⟩ := run_inv hbefore (by omega)
  have hera := hbefore.counter (fun s => s.map.currentEra) Label.checkpoints
    (fun _ _ _ hs => step_currentEra hs) (show map.currentEra.toNat + _ < _ by omega)
  have hgrows := run_grows hafter (by rw [hera]; exact hbound)
  refine ⟨hle, hgrows.era, ?_, fun i l u c hs own hne => frame hinv hs own hne, ?_⟩
  · intro i seen u hs
    obtain ⟨offset, len, first, last, hinside, hrange, hseen, hdone⟩ := leave_stamped hinv hs
    refine ⟨offset, len, first, last, hinside, hrange, hseen, fun c h1 h2 => ?_⟩
    refine ⟨hdone c h1 h2, fun closed new hmem => ?_⟩
    have hnew := hclosed closed new hmem
    rw [← hseen] at hnew
    exact UInt32.le_trans hnew (hdone c h1 h2)
  · intro i offset len earlier during heq hlast
    have htally := (htallied i).le
    rw [heq, tally_call i earlier during offset len hlast] at htally
    exact htally

/-- A call of 4 KiB, and a checkpoint between its first load and its
stamp. -/
def raced : List (Label Unit) :=
  [.call () 0 4096, .load () 1, .checkpoint 1 2, .stamp () 0, .retry () 2, .load () 2, .stamp () 0]

theorem raced_run :
    ∃ s : State Unit, Run Step (start EraState.oneChunk) raced s ∧
      s.calls () = .inside 0 4096 0 0 (.check 2) ∧ s.map.currentEra = 2 := by
  have hcall := Run.nil.snoc (show Step (start EraState.oneChunk) (.call () 0 4096) _ from
    .call rfl rfl (by decide))
  have hload := hcall.snoc (show Step _ (.load () 1) _ from .load rfl)
  have hcheckpoint := hload.snoc (show Step _ (.checkpoint 1 2) _ from .checkpoint)
  have hstamp := hcheckpoint.snoc (show Step _ (.stamp () 0) _ from .stamp rfl)
  have hretry := hstamp.snoc (show Step _ (.retry () 2) _ from .retry rfl (by decide))
  have hagain := hretry.snoc (show Step _ (.load () 2) _ from .load rfl)
  exact ⟨_, hagain.snoc (show Step _ (.stamp () 0) _ from .stamp rfl), rfl, rfl⟩

/-- The call has needed its second pass, and leaves with the new era. -/
theorem mark_write_delivers_oneChunk :
    ∃ s t : State Unit, Run Step (start EraState.oneChunk) raced s ∧
      Step s (.leave () 2) t ∧ s.map.era 0 ≤ t.map.era 0 ∧ (2 : UInt32) ≤ t.map.era 0 ∧
      raced.tail.countP (Label.loads ()) ≤ raced.tail.countP Label.checkpoints + 1 := by
  obtain ⟨s, hrun, hinside, hera⟩ := raced_run
  have hleave : Step s (.leave () s.map.currentEra) _ := .leave hinside hera
  rw [hera] at hleave
  obtain ⟨-, hmono, hexit, -, hpasses⟩ :=
    mark_write_delivers hrun (Run.single hleave) (by decide)
  obtain ⟨offset, len, first, last, hinside', -, -, hall⟩ := hexit () 2 _ hleave
  rw [hinside] at hinside'
  cases hinside'
  exact ⟨s, _, hrun, hleave, hmono 0, (hall 0 (Nat.le_refl 0) (Nat.le_refl 0)).1,
    hpasses () 0 4096 [] _ rfl (by decide)⟩

/-! ## The tags of a device -/

variable {D : Type}

def callOf : TagPhase → CallPhase
  | .marking iod _ first last pc => .inside iod.off iod.bytes first last pc
  | _ => .outside

def ofIo (s : IoState D) : State Tag := { map := s.map, calls := fun t => callOf (s.tags t) }

theorem ofIo_update (s : IoState D) (map : EraState) (medium : D) (t : Tag) (phase : TagPhase) :
    ofIo { map, medium, tags := Function.update s.tags t phase }
      = (ofIo s).goto map t (callOf phase) := by
  have hcalls : (fun u => callOf (Function.update s.tags t phase u))
      = Function.update (fun u => callOf (s.tags u)) t (callOf phase) :=
    funext fun u => Function.apply_update (fun _ => callOf) s.tags t phase u
  exact congrArg (State.mk map) hcalls

theorem goto_self {s : State ι} {i : ι} {phase : CallPhase} (h : s.calls i = phase) :
    s.goto s.map i phase = s := by
  subst h
  exact congrArg (State.mk s.map) (Function.update_eq_self i s.calls)

/-- A request inside the device has a chunk. -/
theorem slice_of_inDevice {map : EraState} {iod : IoDesc} {first last : Nat}
    (hin : iod.InDevice map.devSize) (h : map.markRange iod.off iod.bytes = some (first, last)) :
    first ≤ last + 1 := by
  rcases Nat.eq_zero_or_pos iod.bytes.toNat with hzero | hpos
  · have hlen : iod.bytes = 0 := UInt64.toNat.inj hzero
    rw [EraState.markRange, if_pos hlen] at h
    cases h
  · obtain ⟨first', last', hrange, hfirst, hlast⟩ :=
      EraState.mem_markRange (IoDesc.end_le hin) (Nat.le_refl _) (Nat.lt_add_of_pos_right hpos)
    rw [h] at hrange
    cases hrange
    omega

/-- A step of a tag is a step of its call, or it is none at all. -/
theorem step_ofIo {B : Backing D} {s s' : IoState D} {l : Io.Label} (hinv : Io.Inv s)
    (hs : Io.Step B s l s') :
    ofIo s' = ofIo s ∨ ∃ l', Step (ofIo s) l' (ofIo s') ∧ l'.checkpoints = false := by
  have hcall : ∀ {t : Tag} {phase : TagPhase}, s.tags t = phase →
      (ofIo s).calls t = callOf phase := fun h => congrArg callOf h
  have hstart : ∀ iod : IoDesc, callOf ((handleIoCmd.start iod).phase s.map iod) = .outside := by
    intro iod
    unfold handleIoCmd.start
    split
    · rfl
    · rfl
  cases hs with
  | @fetch t iod idle inDevice =>
    left
    rw [ofIo_update]
    refine goto_self ((hcall idle).trans ?_)
    exact (hstart iod).symm
  | land => exact .inl rfl
  | @cqe t iod sqe res backend =>
    rw [ofIo_update]
    have hin : iod.InDevice s.map.devSize := (hinv.phase backend).1
    have houtside : (ofIo s).calls t = .outside := hcall backend
    by_cases hfinal : res = negEAGAIN
    · left
      have hagain : handleIoCmd iod (some res) = handleIoCmd.start iod := by
        simp [handleIoCmd, hfinal]
      rw [hagain, hstart iod]
      exact goto_self houtside
    · cases hop : iod.op.changesData with
      | false =>
        rw [handleIoCmd_unchanged hop hfinal]
        exact .inl (goto_self houtside)
      | true =>
        rw [handleIoCmd_changed hop hfinal]
        cases hrange : s.map.markRange iod.off iod.bytes with
        | none =>
          simp only [IoAction.phase, hrange]
          exact .inl (goto_self houtside)
        | some range =>
          simp only [IoAction.phase, hrange]
          exact .inr ⟨_, .call houtside hrange (slice_of_inDevice hin hrange), rfl⟩
  | markLoad marking =>
    right
    rw [ofIo_update]
    exact ⟨_, .load (hcall marking), rfl⟩
  | markStamp marking =>
    right
    rw [ofIo_update]
    exact ⟨_, .stamp (hcall marking), rfl⟩
  | @markCheck t iod res first last era marking =>
    right
    rw [ofIo_update]
    split
    · rename_i same
      exact ⟨_, .leave (hcall marking) same, rfl⟩
    · rename_i moved
      exact ⟨_, .retry (hcall marking) moved, rfl⟩
  | ack acking =>
    left
    rw [ofIo_update]
    exact goto_self ((hcall acking).trans rfl)

theorem run_of_served {B : Backing D} {map : EraState} {medium : D}
    {trace : List (Option Io.Label)} {s : Served D}
    (h : Run (ServeStep B) (Io.start map medium) trace s)
    (hbound : map.currentEra.toNat + trace.countP Option.isNone < 2 ^ 32) :
    ∃ calls, Run Step (start map) calls (ofIo s.io) ∧
      calls.countP Label.checkpoints = trace.countP Option.isNone ∧ Io.Inv s.io := by
  induction h with
  | nil => exact ⟨[], .nil, rfl, fun _ => trivial⟩
  | @snoc trace s s' l run last ih =>
    rw [List.countP_append, List.countP_singleton] at hbound ⊢
    obtain ⟨calls, hrun, hcount, hinv⟩ := ih (by omega)
    cases last with
    | io step =>
      rcases step_ofIo hinv step with heq | ⟨l', hstep, hl⟩
      · refine ⟨calls, ?_, hcount, step_inv hinv step⟩
        rw [heq]
        exact hrun
      · refine ⟨calls ++ [l'], hrun.snoc hstep, ?_, step_inv hinv step⟩
        rw [List.countP_append, List.countP_singleton, hl, hcount]
        rfl
    | checkpoint =>
      refine ⟨_, hrun.snoc .checkpoint, ?_, hinv.checkpoint (EraState.lt_succ_of_noWrap ?_)⟩
      · rw [List.countP_append, List.countP_singleton, hcount]
        rfl
      · have hera := hrun.counter (fun s => s.map.currentEra) Label.checkpoints
          (fun _ _ _ hs => step_currentEra hs) (show map.currentEra.toNat + _ < _ by omega)
        have hnow : s.io.map.currentEra.toNat = map.currentEra.toNat + calls.countP _ := hera
        have hnone : (none : Option Io.Label).isNone = true := rfl
        rw [if_pos hnone] at hbound
        omega

end MarkWrite

end Ublkera
