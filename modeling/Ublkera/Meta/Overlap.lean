import Ublkera.Meta.Save

/-!
# Saves that overlap

Any set of `save` calls, each on its own path and with its own era map, runs
in any interleaving, and the process may die after any step.  Some calls never
overlap: a thread makes its calls one after another, and the marker of an
`add` is written before the supervisor is there that makes the final save.
`Calls.before` says which call has to return before which one starts.

`Atomic` is the promise of the replacement by rename: a metadata path holds
what it held before, or the complete bytes of a save of that path.

* `atomic_of_exclusive`: the promise holds in a run in which no save creates
  its temp file while another save has it open or is about to rename it.
* `atomic_iff`: every run keeps the promise exactly when no path is its own
  temp name and no two calls that may overlap share a temp name.
-/

namespace Ublkera

namespace Overlap

open LittleEndian PosixFs Trace

variable {ι : Type} [DecidableEq ι]

/-- The calls of `save`, by the threads that make them. -/
structure Calls (ι : Type) where
  path : ι → MetaPath
  clean : ι → Bool
  /-- `i` returns before `j` starts. -/
  before : ι → ι → Prop
  irrefl : ∀ i, ¬ before i i
  trans : ∀ i j k, before i j → before j k → before i k

/-- The files, the era map that each call serialises, and where each call
stands. -/
structure State (ι : Type) where
  fs : MetaFs
  maps : ι → EraState
  pcs : ι → SavePc

inductive Label (ι : Type) where
  | save (i : ι) (l : SaveLabel)
  /-- Other threads change the era maps. -/
  | other
  deriving DecidableEq

/-- Every call that comes before this one has returned. -/
def Turn (c : Calls ι) (s : State ι) (i : ι) : Prop :=
  ∀ j, c.before j i → (s.pcs j).returned = true

/-- One step of one of the calls, or of another thread. -/
inductive Step (c : Calls ι) : State ι → Label ι → State ι → Prop where
  | save {s : State ι} {i : ι} {l : SaveLabel} {fs : MetaFs} {pc : SavePc}
      (turn : s.pcs i = .create → Turn c s i)
      (move : SaveStep (c.path i) (c.clean i) (s.maps i) s.fs (s.pcs i) l fs pc) :
      Step c s (.save i l) { s with fs, pcs := Function.update s.pcs i pc }
  | other {s : State ι} (maps : ι → EraState) : Step c s .other { s with maps }

def init (fs : MetaFs) (maps : ι → EraState) : State ι :=
  { fs, maps, pcs := fun _ => .create }

/-- Every metadata path holds what it held before, or the complete bytes of
a save of that path. -/
def Atomic (c : Calls ι) (before : MetaFs) (s : State ι) : Prop :=
  ∀ i, s.fs.read (c.path i) = before.read (c.path i) ∨
    ∃ j buf, c.path j = c.path i ∧ (s.pcs j).buf = some buf ∧ s.fs.read (c.path i) = some buf

/-- No other save has the temp file of `i` open or is about to rename it. -/
def Alone (c : Calls ι) (s : State ι) (i : ι) : Prop :=
  ∀ j, j ≠ i → (s.pcs j).inWindow = true → (c.path j).tmp ≠ (c.path i).tmp

/-- A step that creates no temp file which another save is using. -/
def ExclusiveStep (c : Calls ι) (s : State ι) (l : Label ι) (s' : State ι) : Prop :=
  Step c s l s' ∧ ∀ i, l = .save i .create → Alone c s i

/-! ## Exclusive windows -/

/-- The invariant of exclusive runs: each save in its window has a temp file
of its own. -/
structure Inv (c : Calls ι) (before : MetaFs) (s : State ι) : Prop where
  holds : ∀ i, (s.pcs i).Holds s.fs (c.path i).tmp
  apart : ∀ i j, i ≠ j → (s.pcs i).inWindow = true → (s.pcs j).inWindow = true →
    (c.path i).tmp ≠ (c.path j).tmp
  atomic : Atomic c before s

omit [DecidableEq ι] in
theorem inv_init (c : Calls ι) (fs : MetaFs) (maps : ι → EraState) :
    Inv c fs (init fs maps) :=
  ⟨fun _ => trivial, fun _ _ _ h => (Bool.false_ne_true h).elim, fun _ => Or.inl rfl⟩

/-- The bytes that the calls have serialised stay when one of them moves. -/
theorem buf_update {c : Calls ι} {s : State ι} {i j : ι}
    {l : SaveLabel} {fs : MetaFs} {pc : SavePc} {buf : Bytes}
    (move : SaveStep (c.path i) (c.clean i) (s.maps i) s.fs (s.pcs i) l fs pc)
    (h : (s.pcs j).buf = some buf) : (Function.update s.pcs i pc j).buf = some buf := by
  by_cases hj : j = i
  · subst hj
    rw [Function.update_self]
    exact move.buf_stable h
  · rw [Function.update_of_ne hj]
    exact h

/-- A move of a call that has its temp name for itself keeps the
invariant. -/
theorem Inv.move {c : Calls ι} {before : MetaFs}
    (hself : ∀ i, (c.path i).tmp ≠ some (c.path i)) {s : State ι} {i : ι} {l : SaveLabel}
    {fs : MetaFs} {pc : SavePc} (h : Inv c before s) (halone : Alone c s i)
    (move : SaveStep (c.path i) (c.clean i) (s.maps i) s.fs (s.pcs i) l fs pc) :
    Inv c before { s with fs, pcs := Function.update s.pcs i pc } := by
  have hpath : ∀ j, (c.path j).tmp ≠ some (c.path i) :=
    fun j => MetaPath.ne_tmp (hself i) (c.path j)
  refine ⟨fun j => ?_, fun j k hjk hj hk => ?_, fun j => ?_⟩
  · show (Function.update s.pcs i pc j).Holds fs (c.path j).tmp
    by_cases hj : j = i
    · subst hj
      rw [Function.update_self]
      exact move.holds (h.holds j)
    · rw [Function.update_of_ne hj]
      cases hwin : (s.pcs j).inWindow with
      | false => exact SavePc.holds_of_not_inWindow hwin _ _
      | true => exact move.holds_other (h.holds i) (halone j hj hwin) (hpath j) (h.holds j)
  · change (Function.update s.pcs i pc j).inWindow = true at hj
    change (Function.update s.pcs i pc k).inWindow = true at hk
    by_cases hji : j = i
    · subst hji
      rw [Function.update_of_ne (Ne.symm hjk)] at hk
      exact Ne.symm (halone k (Ne.symm hjk) hk)
    · rw [Function.update_of_ne hji] at hj
      by_cases hki : k = i
      · subst hki
        exact halone j hjk hj
      · rw [Function.update_of_ne hki] at hk
        exact h.apart j k hjk hj hk
  · show fs.read (c.path j) = before.read (c.path j) ∨ ∃ k buf, c.path k = c.path j ∧
      (Function.update s.pcs i pc k).buf = some buf ∧ fs.read (c.path j) = some buf
    have hold : fs.read (c.path j) = s.fs.read (c.path j) →
        fs.read (c.path j) = before.read (c.path j) ∨ ∃ k buf, c.path k = c.path j ∧
          (Function.update s.pcs i pc k).buf = some buf ∧ fs.read (c.path j) = some buf := by
      intro hread
      rw [hread]
      rcases h.atomic j with hsame | ⟨k, buf, hk, hbuf, heq⟩
      · exact Or.inl hsame
      · exact Or.inr ⟨k, buf, hk, buf_update move hbuf, heq⟩
    by_cases hij : c.path j = c.path i
    · rw [hij] at hold ⊢
      rcases move.read_path (h.holds i) (hself i) with hread | ⟨buf, -, hpc, hread⟩
      · exact hold hread
      · refine Or.inr ⟨i, buf, rfl, ?_, hread⟩
        rw [Function.update_self, hpc]
        rfl
    · exact hold (move.read_other (h.holds i) (MetaPath.ne_tmp (hself j) _) hij)

/-- An exclusive step keeps the invariant. -/
theorem Inv.step {c : Calls ι} {before : MetaFs}
    (hself : ∀ i, (c.path i).tmp ≠ some (c.path i)) {s s' : State ι} {l : Label ι}
    (h : Inv c before s) (hs : ExclusiveStep c s l s') :
    Inv c before s' := by
  obtain ⟨hstep, halone⟩ := hs
  cases hstep with
  | other => exact ⟨h.holds, h.apart, h.atomic⟩
  | @save i l fs pc turn move =>
    rcases move.inWindow_or_create with hwin | rfl | rfl
    · exact h.move hself (fun j hj hj' => h.apart j i hj hj' hwin) move
    · exact h.move hself (halone i rfl) move
    · -- a failure moves the call alone
      obtain ⟨rfl, hpc⟩ := move.fail_fs
      refine ⟨fun j => ?_, fun j k hjk hj hk => ?_, fun j => ?_⟩
      · show (Function.update s.pcs i pc j).Holds s.fs (c.path j).tmp
        by_cases hj : j = i
        · rw [hj, Function.update_self]
          exact SavePc.holds_of_not_inWindow hpc _ _
        · rw [Function.update_of_ne hj]
          exact h.holds j
      · have hwas : ∀ {k}, (Function.update s.pcs i pc k).inWindow = true →
            (s.pcs k).inWindow = true := by
          intro k hk
          by_cases hki : k = i
          · rw [hki, Function.update_self, hpc] at hk
            cases hk
          · rwa [Function.update_of_ne hki] at hk
        exact h.apart j k hjk (hwas hj) (hwas hk)
      · rcases h.atomic j with hsame | ⟨k, buf, hk, hbuf, heq⟩
        · exact Or.inl hsame
        · exact Or.inr ⟨k, buf, hk, buf_update move hbuf, heq⟩

/-- A run in which no save creates its temp file while another save is using
it replaces every metadata file atomically. -/
theorem atomic_of_exclusive {c : Calls ι}
    (hself : ∀ i, (c.path i).tmp ≠ some (c.path i)) {fs : MetaFs} {maps : ι → EraState}
    {trace : List (Label ι)} {s : State ι}
    (h : Run (ExclusiveStep c) (init fs maps) trace s) : Atomic c fs s :=
  (h.state_invariant (Inv c fs) (inv_init c fs maps)
    (fun _ _ _ hinv hs => hinv.step hself hs)).atomic

/-! ## Every overlap -/

/-- The calls that may overlap have temp files of their own. -/
def Separate (c : Calls ι) : Prop :=
  (∀ i, (c.path i).tmp ≠ some (c.path i)) ∧
    ∀ i j, i ≠ j → ¬ c.before i j → ¬ c.before j i →
      ∀ tmp, (c.path i).tmp = some tmp → (c.path j).tmp ≠ some tmp

/-- A call starts when the calls before it have returned. -/
def Ordered (c : Calls ι) (s : State ι) : Prop := ∀ i, s.pcs i ≠ .create → Turn c s i

theorem turn_update {c : Calls ι} {s : State ι} {i : ι} {l : SaveLabel} {fs : MetaFs}
    {pc : SavePc}
    (move : SaveStep (c.path i) (c.clean i) (s.maps i) s.fs (s.pcs i) l fs pc) {j : ι}
    (h : Turn c s j) : Turn c { s with fs, pcs := Function.update s.pcs i pc } j := by
  intro k hk
  by_cases hki : k = i
  · subst hki
    have hreturned := h k hk
    rw [move.not_returned] at hreturned
    cases hreturned
  · show (Function.update s.pcs i pc k).returned = true
    rw [Function.update_of_ne hki]
    exact h k hk

theorem Ordered.step {c : Calls ι} {s s' : State ι} {l : Label ι} (h : Ordered c s)
    (hs : Step c s l s') : Ordered c s' := by
  cases hs with
  | other => exact h
  | @save i l fs pc turn move =>
    intro j hj
    refine turn_update move ?_
    by_cases hji : j = i
    · subst hji
      by_cases hcreate : s.pcs j = .create
      · exact turn hcreate
      · exact h j hcreate
    · change Function.update s.pcs i pc j ≠ .create at hj
      rw [Function.update_of_ne hji] at hj
      exact h j hj

/-- Calls that have temp files of their own where they may overlap never
disturb each other. -/
theorem exclusive_of_separate {c : Calls ι} (h : Separate c) {fs : MetaFs} {maps : ι → EraState}
    {trace : List (Label ι)} {s : State ι} (hrun : Run (Step c) (init fs maps) trace s) :
    Run (ExclusiveStep c) (init fs maps) trace s := by
  have hboth : Run (ExclusiveStep c) (init fs maps) trace s ∧ Ordered c s := by
    induction hrun with
    | nil => exact ⟨.nil, fun i hi => (hi rfl).elim⟩
    | @snoc trace t u l run last ih =>
      obtain ⟨hrun', hordered⟩ := ih
      refine ⟨hrun'.snoc ⟨last, ?_⟩, hordered.step last⟩
      rintro i rfl j hji hwin
      cases last with
      | @save _ _ fs' pc turn move =>
        have hcreate := move.eq_create
        have hstarted : t.pcs j ≠ .create := by
          intro hj
          rw [hj] at hwin
          cases hwin
        -- neither of the two has returned, so they may overlap
        have hij : ¬ c.before i j := by
          intro hbefore
          have hreturned := hordered j hstarted i hbefore
          rw [hcreate] at hreturned
          cases hreturned
        have hji' : ¬ c.before j i := by
          intro hbefore
          have hreturned := turn hcreate j hbefore
          cases hpc : t.pcs j <;> rw [hpc] at hwin hreturned <;> simp_all [SavePc.inWindow,
            SavePc.returned]
        obtain ⟨tmp, named⟩ := move.create_named
        rw [named]
        exact h.2 i j (Ne.symm hji) hij hji' tmp named
  exact hboth.1

/-- A call that runs while the others stand still. -/
theorem run_call {c : Calls ι} {s : State ι} {i : ι} (turn : Turn c s i)
    {trace : List SaveLabel} {fs : MetaFs} {pc : SavePc}
    (h : Run (SaveStep.Paired (c.path i) (c.clean i) (s.maps i)) (s.fs, s.pcs i) trace (fs, pc)) :
    Run (Step c) s (trace.map (Label.save i))
      { s with fs, pcs := Function.update s.pcs i pc } := by
  have hrun := h.map (Step c)
    (fun t => { s with fs := t.1, pcs := Function.update s.pcs i t.2 }) (Label.save i) ?_
  · simpa using hrun
  · intro t l u hs
    have hmove : SaveStep (c.path i) (c.clean i) (s.maps i) t.1
        (Function.update s.pcs i t.2 i) l u.1 u.2 := by
      rw [Function.update_self]
      exact hs
    have hturn : Turn c { s with fs := t.1, pcs := Function.update s.pcs i t.2 } i := by
      intro j hj
      have hji : j ≠ i := fun heq => c.irrefl i (heq ▸ hj)
      show (Function.update s.pcs i t.2 j).returned = true
      rw [Function.update_of_ne hji]
      exact turn j hj
    have hstep : Step c
        { s with fs := t.1, pcs := Function.update s.pcs i t.2 } (.save i l) _ :=
      .save (fun _ => hturn) hmove
    simpa using hstep

/-- A call can run to its end. -/
theorem exists_returned (path : MetaPath) (clean : Bool) (map : EraState) (fs : MetaFs) :
    ∃ trace fs' pc, Run (SaveStep.Paired path clean map) (fs, .create) trace (fs', pc) ∧
      pc.returned = true := by
  cases named : path.tmp with
  | none =>
    have hfail : SaveStep path clean map fs .create .fail fs _ := .fail rfl
    exact ⟨_, _, _, .single hfail, rfl⟩
  | some tmp =>
    obtain ⟨fs', hrun, -⟩ := save_completes path named clean map fs
    exact ⟨_, _, _, hrun, rfl⟩

/-- The calls that come before some others can all return before any of
these starts. -/
theorem run_before {c : Calls ι} [Finite ι] (first : Set ι)
    (closed : ∀ i j, c.before i j → j ∈ first → i ∈ first) (todo : Finset ι) (s : State ι)
    (htodo : ∀ i, i ∈ todo ↔ i ∈ first ∧ s.pcs i = .create)
    (hdone : ∀ i, i ∈ first → s.pcs i = .create ∨ (s.pcs i).returned = true) :
    ∃ trace t, Run (Step c) s trace t ∧ (∀ i, i ∈ first → (t.pcs i).returned = true) ∧
      ∀ i, i ∉ first → t.pcs i = s.pcs i := by
  induction todo using Finset.strongInduction generalizing s with
  | H todo ih =>
    have hwf : WellFounded c.before :=
      haveI : Std.Irrefl c.before := ⟨c.irrefl⟩
      haveI : IsTrans ι c.before := ⟨c.trans⟩
      Finite.wellFounded_of_trans_of_irrefl c.before
    rcases todo.eq_empty_or_nonempty with rfl | hne
    · refine ⟨[], s, .nil, fun i hi => ?_, fun _ _ => rfl⟩
      rcases hdone i hi with hcreate | hreturned
      · exact absurd ((htodo i).mpr ⟨hi, hcreate⟩) (Finset.notMem_empty i)
      · exact hreturned
    · -- the next call is one that none of the others has to wait for
      obtain ⟨i, hi, hmin⟩ := hwf.has_min (todo : Set ι) hne
      obtain ⟨hfirst, hcreate⟩ := (htodo i).mp hi
      have hturn : Turn c s i := by
        intro j hj
        have hj' := closed j i hj hfirst
        rcases hdone j hj' with hpc | hreturned
        · exact absurd hj (hmin j ((htodo j).mpr ⟨hj', hpc⟩))
        · exact hreturned
      obtain ⟨labels, fs', pc, hcall, hreturned⟩ :=
        exists_returned (c.path i) (c.clean i) (s.maps i) s.fs
      rw [← hcreate] at hcall
      have hrun := run_call hturn hcall
      have hnot : pc ≠ .create := by
        intro hpc
        rw [hpc] at hreturned
        cases hreturned
      obtain ⟨trace, t, hrest, hall, hothers⟩ := ih (todo.erase i) (Finset.erase_ssubset hi)
        { s with fs := fs', pcs := Function.update s.pcs i pc } (by
          intro j
          rw [Finset.mem_erase, htodo]
          by_cases hj : j = i
          · subst hj
            simp [hnot]
          · simp [hj]) (by
          intro j hj
          by_cases hji : j = i
          · subst hji
            simp [hreturned]
          · simpa [hji] using hdone j hj)
      refine ⟨_, t, hrun.append hrest, hall, fun j hj => ?_⟩
      have hji : j ≠ i := fun heq => hj (heq ▸ hfirst)
      rw [hothers j hj]
      exact Function.update_of_ne hji _ _

/-- The calls that come before `i` or `j` have returned, and these two have
not started. -/
theorem exists_ready {c : Calls ι} [Finite ι] {i j : ι} (hij : ¬ c.before i j)
    (hji : ¬ c.before j i) (fs : MetaFs) (maps : ι → EraState) :
    ∃ trace s, Run (Step c) (init fs maps) trace s ∧ s.pcs i = .create ∧ s.pcs j = .create ∧
      Turn c s i ∧ Turn c s j := by
  have := Fintype.ofFinite ι
  classical
  obtain ⟨trace, s, hrun, hfirst, hothers⟩ := run_before (c := c)
    {k | c.before k i ∨ c.before k j}
    (fun k m hkm hm => hm.imp (c.trans k m i hkm) (c.trans k m j hkm))
    (Finset.univ.filter fun k => c.before k i ∨ c.before k j) (init fs maps)
    (fun k => by simp [init]) (fun _ _ => Or.inl rfl)
  refine ⟨trace, s, hrun, ?_, ?_, fun k hk => hfirst k (Or.inl hk), fun k hk => hfirst k (Or.inr hk)⟩
  · exact hothers i fun hi => hi.elim (c.irrefl i) hij
  · exact hothers j fun hj => hj.elim hji (c.irrefl j)

/-- No call has serialised an empty file. -/
def Written (s : State ι) : Prop := ∀ i buf, (s.pcs i).buf = some buf → buf ≠ []

theorem Written.step {c : Calls ι} {s s' : State ι} {l : Label ι} (h : Written s)
    (hs : Step c s l s') : Written s' := by
  cases hs with
  | other => exact h
  | @save i l fs pc turn move =>
    intro j buf hbuf
    change (Function.update s.pcs i pc j).buf = some buf at hbuf
    by_cases hj : j = i
    · rw [hj, Function.update_self] at hbuf
      exact move.buf_ne_nil (fun old => h i old) buf hbuf
    · rw [Function.update_of_ne hj] at hbuf
      exact h j buf hbuf

/-- A path that holds an empty file, where there was none before. -/
theorem not_atomic_of_empty {c : Calls ι} {maps : ι → EraState} {trace : List (Label ι)}
    {s : State ι} (hrun : Run (Step c) (init Fs.empty maps) trace s) {i : ι}
    (hread : s.fs.read (c.path i) = some []) : ¬ Atomic c Fs.empty s := by
  intro h
  have hwritten : Written s := hrun.state_invariant Written nofun
    fun _ _ _ hw hs => hw.step hs
  have hi := h i
  rw [hread] at hi
  rcases hi with hi | ⟨j, buf, -, hbuf, heq⟩
  · cases hi
  · exact hwritten j buf hbuf (Option.some.inj heq).symm

/-- A path that is its own temp name is empty after the first step of its
save. -/
theorem not_atomic_of_self {c : Calls ι} [Finite ι] {i : ι}
    (hself : (c.path i).tmp = some (c.path i)) (maps : ι → EraState) :
    ∃ trace s, Run (Step c) (init Fs.empty maps) trace s ∧ ¬ Atomic c Fs.empty s := by
  obtain ⟨trace, s, hrun, hcreate, -, hturn, -⟩ :=
    exists_ready (c.irrefl i) (c.irrefl i) Fs.empty maps
  have hmove : SaveStep (c.path i) (c.clean i) (s.maps i) s.fs (s.pcs i) .create
      (s.fs.create (c.path i)) (.readEra (s.fs.openIno (c.path i))) := by
    rw [hcreate]
    exact .create hself
  have hrun' := hrun.snoc (.save (fun _ => hturn) hmove)
  exact ⟨_, _, hrun', not_atomic_of_empty hrun' (Fs.read_create_self _ _)⟩

/-- Two saves that may overlap with one temp name: the second one empties the
file that the first one is about to rename into place. -/
theorem not_atomic_of_shared {c : Calls ι} [Finite ι] {i j : ι} {tmp : MetaPath} (hne : i ≠ j)
    (hij : ¬ c.before i j) (hji : ¬ c.before j i) (hself : (c.path i).tmp ≠ some (c.path i))
    (hi : (c.path i).tmp = some tmp) (hj : (c.path j).tmp = some tmp) (maps : ι → EraState) :
    ∃ trace s, Run (Step c) (init Fs.empty maps) trace s ∧ ¬ Atomic c Fs.empty s := by
  obtain ⟨trace, s, hrun, hcreate, hcreate', hturn, hturn'⟩ :=
    exists_ready hij hji Fs.empty maps
  -- the first save runs up to its rename
  have halone := save_alone (c.path i) hi (c.clean i) (s.maps i) s.fs
  rw [← hcreate] at halone
  have hfirst := hrun.append (run_call hturn halone)
  generalize (s.fs.create tmp).writeAt (s.fs.openIno tmp) 0 ((s.maps i).metaBytes (c.clean i))
    = fs at hfirst
  generalize (s.maps i).metaBytes (c.clean i) = buf at hfirst
  -- the second one creates the shared temp file
  have hmove : SaveStep (c.path j) (c.clean j) (s.maps j) fs
      (Function.update s.pcs i (.rename buf) j) .create (fs.create tmp)
      (.readEra (fs.openIno tmp)) := by
    rw [Function.update_of_ne (Ne.symm hne), hcreate']
    exact .create hj
  have hturn'' : Turn c { s with fs, pcs := Function.update s.pcs i (.rename buf) } j := by
    intro k hk
    have hki : k ≠ i := fun heq => hij (heq ▸ hk)
    show (Function.update s.pcs i (.rename buf) k).returned = true
    rw [Function.update_of_ne hki]
    exact hturn' k hk
  have hsecond := hfirst.snoc (.save (fun _ => hturn'') hmove)
  -- the first one renames it
  obtain ⟨fs', hrename⟩ : ∃ fs', (fs.create tmp).rename tmp (c.path i) = some fs' := by
    cases h : (fs.create tmp).rename tmp (c.path i) with
    | some fs' => exact ⟨fs', rfl⟩
    | none =>
      rw [Fs.rename_eq_none, Fs.dir_create_self] at h
      cases h
  have htmp : tmp ≠ c.path i := fun heq => hself (heq ▸ hi)
  have hread : fs'.read (c.path i) = some [] :=
    (Fs.read_rename htmp hrename).1.trans (Fs.read_create_self _ _)
  have hpc : Function.update (Function.update s.pcs i (.rename buf)) j
      (.readEra (fs.openIno tmp)) i = .rename buf := by
    rw [Function.update_of_ne hne, Function.update_self]
  have hmove' : SaveStep (c.path i) (c.clean i) (s.maps i) (fs.create tmp)
      (Function.update (Function.update s.pcs i (.rename buf)) j (.readEra (fs.openIno tmp)) i)
      .rename fs' (.ok buf) := by
    rw [hpc]
    exact .rename hi hrename
  have hthird := hsecond.snoc (.save (fun h => absurd (hpc.symm.trans h) (by simp)) hmove')
  exact ⟨_, _, hthird, not_atomic_of_empty hthird hread⟩

/-- Metadata replacement is atomic in every interleaving, from every file
system, exactly when no path is its own temp name and the saves that may
overlap have temp files of their own. -/
theorem atomic_iff [Finite ι] (c : Calls ι) (maps : ι → EraState) :
    (∀ fs trace s, Run (Step c) (init fs maps) trace s → Atomic c fs s) ↔ Separate c := by
  constructor
  · intro h
    have hself : ∀ i, (c.path i).tmp ≠ some (c.path i) := by
      intro i hi
      obtain ⟨trace, s, hrun, hnot⟩ := not_atomic_of_self hi maps
      exact hnot (h _ _ _ hrun)
    refine ⟨hself, fun i j hne hij hji tmp hi hj => ?_⟩
    obtain ⟨trace, s, hrun, hnot⟩ := not_atomic_of_shared hne hij hji (hself i) hi hj maps
    exact hnot (h _ _ _ hrun)
  · intro h fs trace s hrun
    exact atomic_of_exclusive h.1 (exclusive_of_separate h hrun)

/-- The marker of an `add` and a checkpoint after it, both to `a.meta`. -/
def markerThenCheckpoint : Calls Bool where
  path := fun _ => MetaPath.aMeta
  clean := fun _ => false
  before := fun i j => i = false ∧ j = true
  irrefl := by simp
  trans := by simp

/-- They go through one temp file, one after the other. -/
theorem atomic_markerThenCheckpoint : Separate markerThenCheckpoint ∧
    ∀ fs trace s, Run (Step markerThenCheckpoint) (init fs fun _ => EraState.oneChunk) trace s →
      Atomic markerThenCheckpoint fs s := by
  have separate : Separate markerThenCheckpoint := by
    refine ⟨fun _ => ?_, ?_⟩
    · show MetaPath.aMeta.tmp ≠ some MetaPath.aMeta
      decide
    · simp [markerThenCheckpoint]
  exact ⟨separate, (atomic_iff markerThenCheckpoint _).mpr separate⟩

/-- Two devices with the metadata files `a.meta` and `a.db`, and their final
saves. -/
def aMetaAndADb : Calls Bool where
  path := fun b => if b then MetaPath.aDb else MetaPath.aMeta
  clean := fun _ => true
  before := fun _ _ => False
  irrefl := by simp
  trans := by simp

/-- They go through `a.tmp` both, and one of the files ends up empty. -/
theorem not_atomic_aMeta_aDb :
    ∃ (trace : List (Label Bool)) (s : State Bool),
      Run (Step aMetaAndADb) (init Fs.empty fun _ => EraState.oneChunk) trace s ∧
      ¬ Atomic aMetaAndADb Fs.empty s :=
  not_atomic_of_shared (i := false) (j := true) (by decide) id id (by decide) MetaPath.tmp_aMeta
    (by decide) _

end Overlap

end Ublkera
