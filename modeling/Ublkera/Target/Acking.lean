import Ublkera.Lib.Run
import Ublkera.Era.DirtyMap
import Ublkera.Target.Stamping

/-!
# What happens to a command

`emits` is what one step of a tag does to the outside: a command comes in, a
backing IO goes out and comes back, a chunk is stamped, the command goes back
to the driver.  `ServeStep` runs all tags with these events in one log for
each tag, and a checkpoint may close the era at any time.

`Complete` is the log of one command from its fetch to its completion, and
`Opened` is the log of the command that a tag is working on.  `Logged` says
that the log of a tag is complete commands and one open one.

A command that is past its backing IO is completed by steps of its own tag:
`rank` is the number of them, and only a checkpoint can add to it.
-/

namespace Ublkera

namespace Io

open Trace

variable {D : Type}

/-! ## Events -/

inductive Event where
  | fetched (iod : IoDesc)
  | submitted (sqe : Sqe)
  /-- The result of the backing IO. -/
  | returned (res : Int)
  /-- One `fetch_max` of `mark_write`. -/
  | stamped (chunk : Nat) (era : UInt32)
  | completed (res : Int)
  deriving DecidableEq, Repr

/-- The tag that takes the step. -/
def Label.tag : Label → Tag
  | .fetch t _ | .land t | .cqe t _ | .markLoad t | .markStamp t | .markCheck t | .ack t => t

/-- The submission of an action. -/
def submission : IoAction → List Event
  | .submit sqe => [.submitted sqe]
  | _ => []

/-- What a step of a tag does to the outside. -/
def emits (tags : Tag → TagPhase) : Label → List Event
  | .fetch _ iod => .fetched iod :: submission (handleIoCmd iod none)
  | .cqe t res =>
    match tags t with
    | .backend iod _ => .returned res :: submission (handleIoCmd iod (some res))
    | _ => []
  | .markStamp t =>
    match tags t with
    | .marking _ _ _ _ (.stamp era i) => [.stamped i era]
    | _ => []
  | .ack t =>
    match tags t with
    | .acking _ res => [.completed res]
    | _ => []
  | .land _ | .markLoad _ | .markCheck _ => []

/-- The map after an event. -/
def Event.apply (map : EraState) : Event → EraState
  | .stamped chunk era => map.fetchMax chunk era
  | _ => map

theorem foldl_submission (map : EraState) (action : IoAction) :
    (submission action).foldl Event.apply map = map := by
  cases action with
  | submit | markThenComplete | complete => rfl

/-- The events of a step are all that it does to the map. -/
theorem map_eq_emits {B : Backing D} {s s' : IoState D} {l : Label} (hs : Step B s l s') :
    s'.map = (emits s.tags l).foldl Event.apply s.map := by
  cases hs with
  | fetch idle inDevice =>
    exact (foldl_submission s.map _).symm
  | cqe backend =>
    simp only [emits, backend]
    exact (foldl_submission s.map _).symm
  | markStamp marking =>
    simp only [emits, marking]
    rfl
  | ack acking =>
    simp only [emits, acking]
    rfl
  | land | markLoad | markCheck => rfl

/-! ## The log of a command -/

/-- `n + 1` submissions, with an EAGAIN after all but the last. -/
def tries (sqe : Sqe) : Nat → List Event
  | 0 => [.submitted sqe]
  | n + 1 => tries sqe n ++ [.returned negEAGAIN, .submitted sqe]

/-- The stamps of a `mark_write`, and nothing else. -/
def OnlyStamps (events : List Event) : Prop :=
  ∀ e, e ∈ events → ∃ chunk era, e = .stamped chunk era

/-- One pass of `mark_write` has stamped every chunk of the request. -/
def FullyStamped (granularity devSize : UInt64) (iod : IoDesc) (events : List Event) : Prop :=
  ∃ era, ∀ x, iod.Spans x → x < devSize.toNat →
    .stamped (x / granularity.toNat) era ∈ events

/-- The events of a command from its fetch to its completion. -/
inductive Complete (granularity devSize : UInt64) (iod : IoDesc) : List Event → Prop where
  | rejected (unsupported : makeSqe iod.op iod.off iod.bytes = none) :
      Complete granularity devSize iod [.completed negEINVAL]
  | passed {sqe : Sqe} {n : Nat} {res : Int}
      (supported : makeSqe iod.op iod.off iod.bytes = some sqe)
      (reads : iod.op.changesData = false) (final : res ≠ negEAGAIN) :
      Complete granularity devSize iod (tries sqe n ++ [.returned res, .completed res])
  | recorded {sqe : Sqe} {n : Nat} {res : Int} {stamps : List Event}
      (supported : makeSqe iod.op iod.off iod.bytes = some sqe)
      (changes : iod.op.changesData = true) (final : res ≠ negEAGAIN)
      (only : OnlyStamps stamps) (full : FullyStamped granularity devSize iod stamps) :
      Complete granularity devSize iod
        (tries sqe n ++ (.returned res :: stamps) ++ [.completed res])

/-- The stamps of a `mark_write` over `first..=last` that stands at `pc`. -/
def StampedTo (first last : Nat) (pc : MarkPc) (events : List Event) : Prop :=
  match pc with
  | .load => True
  | .stamp era i =>
    first ≤ i ∧ i ≤ last ∧ ∀ c, first ≤ c → c < i → .stamped c era ∈ events
  | .check era => ∀ c, first ≤ c → c ≤ last → .stamped c era ∈ events

/-- The events of the command that a tag is working on. -/
inductive Opened (map : EraState) : TagPhase → List Event → Prop where
  | idle : Opened map .idle []
  | backend {iod : IoDesc} {sqe : Sqe} {n : Nat} (inDevice : iod.InDevice map.devSize)
      (supported : makeSqe iod.op iod.off iod.bytes = some sqe) :
      Opened map (.backend iod sqe) (.fetched iod :: tries sqe n)
  | marking {iod : IoDesc} {sqe : Sqe} {n first last : Nat} {res : Int} {pc : MarkPc}
      {stamps : List Event} (inDevice : iod.InDevice map.devSize)
      (supported : makeSqe iod.op iod.off iod.bytes = some sqe)
      (changes : iod.op.changesData = true) (final : res ≠ negEAGAIN)
      (range : map.markRange iod.off iod.bytes = some (first, last))
      (only : OnlyStamps stamps) (stamped : StampedTo first last pc stamps) :
      Opened map (.marking iod res first last pc)
        (.fetched iod :: (tries sqe n ++ .returned res :: stamps))
  | acking {iod : IoDesc} {res : Int} {events : List Event}
      (complete : Complete map.granularity map.devSize iod (events ++ [.completed res])) :
      Opened map (.acking iod res) (.fetched iod :: events)

/-- The log of the commands that a tag has completed. -/
def history (done : List (IoDesc × List Event)) : List Event :=
  (done.map fun c => .fetched c.1 :: c.2).flatten

/-- The log of a tag: complete commands, and the one in progress. -/
def Logged (map : EraState) (phase : TagPhase) (log : List Event) : Prop :=
  ∃ done opened, log = history done ++ opened ∧
    (∀ c, c ∈ done → Complete map.granularity map.devSize c.1 c.2) ∧
    Opened map phase opened

/-! ## One step of a log -/

theorem tries_no_completed (sqe : Sqe) (n : Nat) (res : Int) : .completed res ∉ tries sqe n := by
  induction n with
  | zero => simp [tries]
  | succ n ih => simp [tries, ih]

theorem tries_no_final {sqe : Sqe} {n : Nat} {res : Int} (h : .returned res ∈ tries sqe n) :
    res = negEAGAIN := by
  induction n with
  | zero => simp [tries] at h
  | succ n ih =>
    rcases List.mem_append.mp h with h | h
    · exact ih h
    · simpa using h

theorem OnlyStamps.nil : OnlyStamps [] := nofun

theorem OnlyStamps.snoc {events : List Event} (h : OnlyStamps events) (chunk : Nat)
    (era : UInt32) : OnlyStamps (events ++ [.stamped chunk era]) := by
  intro e he
  rcases List.mem_append.mp he with he | he
  · exact h e he
  · exact ⟨chunk, era, by simpa using he⟩

/-- A map of the same shape has the same log. -/
theorem Opened.congr {map map' : EraState} {phase : TagPhase} {events : List Event}
    (h : Opened map phase events) (hg : map'.granularity = map.granularity)
    (hd : map'.devSize = map.devSize) (hn : map'.nrChunks = map.nrChunks) :
    Opened map' phase events := by
  cases h with
  | idle => exact .idle
  | backend inDevice supported => exact .backend (hd ▸ inDevice) supported
  | marking inDevice supported changes final range only stamped =>
    refine .marking (hd ▸ inDevice) supported changes final ?_ only stamped
    rw [EraState.markRange_congr hg hn]
    exact range
  | acking complete =>
    refine .acking ?_
    rw [hg, hd]
    exact complete

theorem Logged.congr {map map' : EraState} {phase : TagPhase} {log : List Event}
    (h : Logged map phase log) (hg : map'.granularity = map.granularity)
    (hd : map'.devSize = map.devSize) (hn : map'.nrChunks = map.nrChunks) :
    Logged map' phase log := by
  obtain ⟨done, opened, hlog, hdone, hopened⟩ := h
  refine ⟨done, opened, hlog, ?_, hopened.congr hg hd hn⟩
  rw [hg, hd]
  exact hdone

/-- The action of a fetched command. -/
theorem opened_fetch {map : EraState} {iod : IoDesc} (inDevice : iod.InDevice map.devSize) :
    Opened map ((handleIoCmd iod none).phase map iod)
      (.fetched iod :: submission (handleIoCmd iod none)) := by
  show Opened map ((handleIoCmd.start iod).phase map iod)
    (.fetched iod :: submission (handleIoCmd.start iod))
  unfold handleIoCmd.start
  cases hsqe : makeSqe iod.op iod.off iod.bytes with
  | some sqe => exact .backend (n := 0) inDevice hsqe
  | none => exact .acking (.rejected hsqe)

/-- The action of a completed backing IO. -/
theorem opened_cqe {map : EraState} {iod : IoDesc} {sqe : Sqe} {n : Nat}
    (inDevice : iod.InDevice map.devSize)
    (supported : makeSqe iod.op iod.off iod.bytes = some sqe) (res : Int) :
    Opened map ((handleIoCmd iod (some res)).phase map iod)
      (.fetched iod :: tries sqe n ++
        .returned res :: submission (handleIoCmd iod (some res))) := by
  by_cases hres : res = negEAGAIN
  · rw [hres, handleIoCmd_again supported]
    exact .backend (n := n + 1) inDevice supported
  · cases hop : iod.op.changesData with
    | false =>
      rw [handleIoCmd_unchanged hop hres]
      refine .acking ?_
      have hcomplete : Complete map.granularity map.devSize iod _ :=
        .passed (n := n) supported hop hres
      simpa [submission] using hcomplete
    | true =>
      rw [handleIoCmd_changed hop hres]
      unfold IoAction.phase
      cases hrange : map.markRange iod.off iod.bytes with
      | some range =>
        obtain ⟨first, last⟩ := range
        exact .marking inDevice supported hop hres hrange .nil trivial
      | none =>
        refine .acking ?_
        have hfull : FullyStamped map.granularity map.devSize iod [] := by
          refine ⟨0, fun x hx _ => ?_⟩
          obtain ⟨first, last, hsome, -⟩ :=
            EraState.mem_markRange (s := map) (IoDesc.end_le inDevice) hx.1 hx.2
          rw [hrange] at hsome
          cases hsome
        exact .recorded (n := n) supported hop hres .nil hfull

theorem stampedTo_stampFrom {first last i : Nat} {era : UInt32} {events : List Event}
    (hfirst : first ≤ i)
    (hdone : ∀ c, first ≤ c → c < i → c ≤ last → .stamped c era ∈ events) :
    StampedTo first last (.stampFrom era i last) events := by
  unfold MarkPc.stampFrom
  split
  · rename_i hi
    exact ⟨hfirst, hi, fun c h1 h2 => hdone c h1 h2 (by omega)⟩
  · exact fun c h1 h2 => hdone c h1 (by omega) h2

theorem fullyStamped_of_check {map : EraState} {iod : IoDesc} {first last : Nat} {era : UInt32}
    {stamps : List Event} (inDevice : iod.InDevice map.devSize)
    (range : map.markRange iod.off iod.bytes = some (first, last))
    (stamped : StampedTo first last (.check era) stamps) :
    FullyStamped map.granularity map.devSize iod stamps := by
  refine ⟨era, fun x hx _ => ?_⟩
  obtain ⟨first', last', hsome, hlo, hhi⟩ :=
    EraState.mem_markRange (s := map) (IoDesc.end_le inDevice) hx.1 hx.2
  rw [range] at hsome
  obtain ⟨rfl, rfl⟩ := Prod.mk.inj (Option.some.inj hsome)
  exact stamped _ hlo hhi

theorem Logged.extend {map : EraState} {phase phase' : TagPhase} {log events : List Event}
    (h : Logged map phase log)
    (hopen : ∀ opened, Opened map phase opened → Opened map phase' (opened ++ events)) :
    Logged map phase' (log ++ events) := by
  obtain ⟨done, opened, hlog, hdone, hopened⟩ := h
  refine ⟨done, opened ++ events, ?_, hdone, hopen opened hopened⟩
  rw [hlog, List.append_assoc]

/-- One step of a tag keeps the shape of its log. -/
theorem Logged.step {B : Backing D} {s s' : IoState D} {l : Label} {log : List Event}
    (h : Logged s.map (s.tags l.tag) log) (hs : Step B s l s') :
    Logged s'.map (s'.tags l.tag) (log ++ emits s.tags l) := by
  cases hs with
  | @fetch t iod idle inDevice =>
    show Logged s.map (Function.update s.tags t _ t) _
    rw [Function.update_self]
    rw [show s.tags (Label.fetch t iod).tag = .idle from idle] at h
    refine h.extend fun opened hopened => ?_
    cases hopened with
    | idle => exact opened_fetch inDevice
  | @land t iod sqe medium backend lands =>
    exact h.extend fun opened hopened => by simpa [emits] using hopened
  | @cqe t iod sqe res backend =>
    show Logged s.map (Function.update s.tags t _ t) _
    rw [Function.update_self]
    rw [show s.tags (Label.cqe t res).tag = .backend iod sqe from backend] at h
    refine h.extend fun opened hopened => ?_
    simp only [emits, backend]
    cases hopened with
    | backend inDevice supported => exact opened_cqe inDevice supported res
  | @markLoad t iod res first last marking =>
    show Logged s.map (Function.update s.tags t _ t) _
    rw [Function.update_self]
    rw [show s.tags (Label.markLoad t).tag = .marking iod res first last .load from marking] at h
    refine h.extend fun opened hopened => ?_
    cases hopened with
    | marking inDevice supported changes final range only =>
      rw [show emits s.tags (.markLoad t) = [] from rfl, List.append_nil]
      exact .marking inDevice supported changes final range only
        (stampedTo_stampFrom (Nat.le_refl _) fun c h1 h2 _ => by omega)
  | @markStamp t iod res first last era i marking =>
    have hgrows := grows_fetchMax s.map i era
    show Logged (s.map.fetchMax i era) (Function.update s.tags t _ t) _
    rw [Function.update_self]
    rw [show s.tags (Label.markStamp t).tag = .marking iod res first last (.stamp era i)
      from marking] at h
    refine (h.extend fun opened hopened => ?_).congr hgrows.granularity hgrows.devSize
      hgrows.nrChunks
    simp only [emits, marking]
    cases hopened with
    | @marking _ sqe n _ _ _ _ stamps inDevice supported changes final range only stamped =>
      obtain ⟨hfirst, hlast, hdone⟩ := stamped
      have hstamped : StampedTo first last (.stampFrom era (i + 1) last)
          (stamps ++ [.stamped i era]) := by
        refine stampedTo_stampFrom (by omega) fun c h1 h2 _ => ?_
        rw [List.mem_append]
        by_cases hc : c = i
        · subst hc
          exact Or.inr List.mem_cons_self
        · exact Or.inl (hdone c h1 (by omega))
      have hopen := Opened.marking (n := n) inDevice supported changes final range
        (only.snoc i era) hstamped
      simpa using hopen
  | @markCheck t iod res first last era marking =>
    show Logged s.map (Function.update s.tags t _ t) _
    rw [Function.update_self]
    rw [show s.tags (Label.markCheck t).tag = .marking iod res first last (.check era)
      from marking] at h
    refine h.extend fun opened hopened => ?_
    rw [show emits s.tags (.markCheck t) = [] from rfl, List.append_nil]
    cases hopened with
    | marking inDevice supported changes final range only stamped =>
      split
      · have hfull := fullyStamped_of_check inDevice range stamped
        exact .acking (.recorded supported changes final only hfull)
      · exact .marking inDevice supported changes final range only trivial
  | @ack t iod res acking =>
    show Logged s.map (Function.update s.tags t _ t) _
    rw [Function.update_self]
    rw [show s.tags (Label.ack t).tag = .acking iod res from acking] at h
    obtain ⟨done, opened, hlog, hdone, hopened⟩ := h
    simp only [emits, acking]
    cases hopened with
    | @acking _ _ events complete =>
      refine ⟨done ++ [(iod, events ++ [.completed res])], [], ?_, ?_, .idle⟩
      · simp [history, hlog]
      · intro c hc
        rcases List.mem_append.mp hc with hc | hc
        · exact hdone c hc
        · rw [List.mem_singleton.mp hc]
          exact complete

/-! ## Runs -/

/-- The tags, and the log of every tag. -/
structure Served (D : Type) where
  io : IoState D
  log : Tag → List Event

/-- One step of a tag, or a checkpoint. -/
inductive ServeStep (B : Backing D) : Served D → Option Label → Served D → Prop where
  | io {s : Served D} {l : Label} {io : IoState D} (step : Step B s.io l io) :
      ServeStep B s (some l)
        { io, log := Function.update s.log l.tag (s.log l.tag ++ emits s.io.tags l) }
  | checkpoint {s : Served D} :
      ServeStep B s none { s with io := { s.io with map := s.io.map.checkpoint.1 } }

def start (map : EraState) (medium : D) : Served D :=
  { io := { map, medium, tags := fun _ => .idle }, log := fun _ => [] }

/-- A step leaves the phases of the other tags alone. -/
theorem tags_of_ne {B : Backing D} {s s' : IoState D} {l : Label} (hs : Step B s l s') {t : Tag}
    (h : t ≠ l.tag) : s'.tags t = s.tags t := by
  cases hs with
  | land => rfl
  | fetch | cqe | markLoad | markStamp | markCheck | ack => exact Function.update_of_ne h _ _

theorem logged_step {B : Backing D} {s s' : Served D} {l : Option Label}
    (h : ∀ t, Logged s.io.map (s.io.tags t) (s.log t)) (hs : ServeStep B s l s') (t : Tag) :
    Logged s'.io.map (s'.io.tags t) (s'.log t) := by
  cases hs with
  | checkpoint => exact (h t).congr rfl rfl rfl
  | @io l io step =>
    by_cases ht : t = l.tag
    · subst ht
      show Logged io.map (io.tags l.tag) (Function.update s.log l.tag _ l.tag)
      rw [Function.update_self]
      exact (h l.tag).step step
    · have hgrows := step_grows step
      show Logged io.map (io.tags t) (Function.update s.log l.tag _ t)
      rw [Function.update_of_ne ht, tags_of_ne step ht]
      exact (h t).congr hgrows.granularity hgrows.devSize hgrows.nrChunks

theorem logged_run {B : Backing D} {map : EraState} {medium : D} {trace : List (Option Label)}
    {s : Served D} (h : Run (ServeStep B) (start map medium) trace s) (t : Tag) :
    Logged s.io.map (s.io.tags t) (s.log t) :=
  h.state_invariant (fun s => ∀ t, Logged s.io.map (s.io.tags t) (s.log t))
    (fun _ => ⟨[], [], rfl, nofun, .idle⟩) (fun _ _ _ => logged_step) t

/-! ## Progress -/

/-- The result that a tag is about to complete its command with. -/
def result : TagPhase → Option Int
  | .marking _ res _ _ _ => some res
  | .acking _ res => some res
  | _ => none

/-- The steps of a `mark_write` over `first..=last` from `pc` on, and the
step after it, as long as the era counter stays where it is. -/
def markRank (current : UInt32) (first last : Nat) : MarkPc → Nat
  | .load => last + 1 - first + 3
  | .stamp era i =>
    last + 1 - i + if era = current then 2 else last + 1 - first + 4
  | .check era => if era = current then 2 else last + 1 - first + 4

/-- The steps that a tag with a result is away from an idle one. -/
def rank (current : UInt32) : TagPhase → Nat
  | .marking _ _ first last pc => markRank current first last pc
  | .acking _ _ => 1
  | _ => 0

/-- The steps that a checkpoint can add: one more pass. -/
def passSteps : TagPhase → Nat
  | .marking _ _ first last _ => last + 1 - first + 2
  | _ => 0

/-- The stamp loop does not run past its end. -/
def InLoop : TagPhase → Prop
  | .marking _ _ _ last (.stamp _ i) => i ≤ last
  | _ => True

theorem Opened.inLoop {map : EraState} {phase : TagPhase} {events : List Event}
    (h : Opened map phase events) : InLoop phase := by
  cases h with
  | idle | backend | acking => trivial
  | @marking _ _ _ _ _ _ pc _ _ _ _ _ _ _ stamped =>
    cases pc with
    | load | check => trivial
    | stamp era i => exact stamped.2.1

theorem Logged.inLoop {map : EraState} {phase : TagPhase} {log : List Event}
    (h : Logged map phase log) : InLoop phase := by
  obtain ⟨_, _, _, _, hopened⟩ := h
  exact hopened.inLoop

theorem markRank_stampFrom (current era : UInt32) (first last i : Nat) :
    markRank current first last (.stampFrom era i last)
      = last + 1 - i + if era = current then 2 else last + 1 - first + 4 := by
  unfold MarkPc.stampFrom
  split
  · rfl
  · show (if era = current then 2 else last + 1 - first + 4) = _
    omega

theorem rank_pos (current : UInt32) {phase : TagPhase} {res : Int}
    (h : result phase = some res) : 0 < rank current phase := by
  cases phase with
  | idle | backend => cases h
  | acking => exact Nat.one_pos
  | marking iod res first last pc =>
    cases pc with
    | load =>
      show 0 < last + 1 - first + 3
      omega
    | stamp era i =>
      show 0 < last + 1 - i + if era = current then 2 else last + 1 - first + 4
      split <;> omega
    | check era =>
      show 0 < if era = current then 2 else last + 1 - first + 4
      split <;> omega

/-- A checkpoint costs one more pass at most. -/
theorem rank_checkpoint (current current' : UInt32) (phase : TagPhase) :
    rank current' phase ≤ rank current phase + passSteps phase := by
  cases phase with
  | idle | backend | acking => exact Nat.le_refl _
  | marking iod res first last pc =>
    cases pc with
    | load => exact Nat.le_add_right _ _
    | stamp era i =>
      show (last + 1 - i + if era = current' then 2 else last + 1 - first + 4)
        ≤ (last + 1 - i + if era = current then 2 else last + 1 - first + 4)
          + (last + 1 - first + 2)
      split <;> split <;> omega
    | check era =>
      show (if era = current' then 2 else last + 1 - first + 4)
        ≤ (if era = current then 2 else last + 1 - first + 4) + (last + 1 - first + 2)
      split <;> split <;> omega

/-- A tag with a result can take a step. -/
theorem exists_step (B : Backing D) {s : IoState D} {t : Tag} {res : Int}
    (h : result (s.tags t) = some res) : ∃ l s', l.tag = t ∧ Step B s l s' := by
  cases hphase : s.tags t with
  | idle | backend =>
    rw [hphase] at h
    cases h
  | acking iod r => exact ⟨.ack t, _, rfl, .ack hphase⟩
  | marking iod r first last pc =>
    cases pc with
    | load => exact ⟨.markLoad t, _, rfl, .markLoad hphase⟩
    | stamp era i => exact ⟨.markStamp t, _, rfl, .markStamp hphase⟩
    | check era => exact ⟨.markCheck t, _, rfl, .markCheck hphase⟩

/-- What a step does to the tag that takes it, when the tag has a result:
the command is completed, or there is one step less to take. -/
theorem own_step {B : Backing D} {s s' : IoState D} {l : Label} {res : Int}
    (hs : Step B s l s') (hres : result (s.tags l.tag) = some res)
    (hloop : InLoop (s.tags l.tag)) :
    emits s.tags l = [.completed res] ∨
      OnlyStamps (emits s.tags l) ∧ result (s'.tags l.tag) = some res ∧
        rank s'.map.currentEra (s'.tags l.tag) + 1 = rank s.map.currentEra (s.tags l.tag) ∧
        passSteps (s'.tags l.tag) ≤ passSteps (s.tags l.tag) := by
  cases hs with
  | fetch idle =>
    simp only [Label.tag, idle] at hres
    cases hres
  | land backend =>
    simp only [Label.tag, backend] at hres
    cases hres
  | cqe backend =>
    simp only [Label.tag, backend] at hres
    cases hres
  | @markLoad t iod r first last marking =>
    simp only [Label.tag, marking] at hres hloop ⊢
    refine Or.inr ⟨.nil, ?_⟩
    rw [Function.update_self]
    refine ⟨hres, ?_, Nat.le_refl _⟩
    show markRank _ first last _ + 1 = last + 1 - first + 3
    rw [markRank_stampFrom, if_pos rfl]
  | @markStamp t iod r first last era i marking =>
    have hi : i ≤ last := by
      simpa only [Label.tag, marking, InLoop] using hloop
    simp only [Label.tag, marking, emits] at hres ⊢
    refine Or.inr ⟨OnlyStamps.nil.snoc i era, ?_⟩
    rw [Function.update_self]
    refine ⟨hres, ?_, Nat.le_refl _⟩
    show markRank s.map.currentEra first last _ + 1
      = last + 1 - i + if era = s.map.currentEra then 2 else last + 1 - first + 4
    rw [markRank_stampFrom]
    omega
  | @markCheck t iod r first last era marking =>
    simp only [Label.tag, marking] at hres ⊢
    refine Or.inr ⟨.nil, ?_⟩
    rw [Function.update_self]
    show result _ = _ ∧ _ = (if era = s.map.currentEra then 2 else last + 1 - first + 4) ∧ _
    by_cases hera : s.map.currentEra = era
    · rw [if_pos hera, if_pos hera.symm]
      exact ⟨hres, rfl, Nat.zero_le _⟩
    · rw [if_neg hera, if_neg (Ne.symm hera)]
      exact ⟨hres, rfl, Nat.le_refl _⟩
  | @ack t iod r acking =>
    simp only [Label.tag, acking] at hres
    obtain rfl := Option.some.inj hres
    left
    simp only [emits, acking]

/-- The command that the tag has in `s` is completed in `s'`. -/
def CompletedIn (t : Tag) (res : Int) (s s' : Served D) : Prop :=
  ∃ stamps, OnlyStamps stamps ∧ s.log t ++ stamps ++ [.completed res] <+: s'.log t

/-- The steps of a tag. -/
def ownSteps (t : Tag) (trace : List (Option Label)) : Nat :=
  trace.countP fun l => l.map (·.tag) = some t

def checkpoints (trace : List (Option Label)) : Nat := trace.countP (·.isNone)

theorem log_grows {B : Backing D} {s s' : Served D} {l : Option Label} (hs : ServeStep B s l s')
    (t : Tag) : s.log t <+: s'.log t := by
  cases hs with
  | checkpoint => exact List.prefix_rfl
  | @io l io step =>
    by_cases ht : t = l.tag
    · subst ht
      show _ <+: Function.update s.log l.tag _ l.tag
      rw [Function.update_self]
      exact List.prefix_append _ _
    · show _ <+: Function.update s.log l.tag _ t
      rw [Function.update_of_ne ht]

theorem CompletedIn.step {B : Backing D} {s u s' : Served D} {l : Option Label} {t : Tag}
    {res : Int} (h : CompletedIn t res s u) (hs : ServeStep B u l s') : CompletedIn t res s s' := by
  obtain ⟨stamps, honly, hextends⟩ := h
  exact ⟨stamps, honly, hextends.trans (log_grows hs t)⟩

/-- The command is not completed yet, and the tag is as many steps closer to
that as it has taken, checkpoints aside. -/
structure Nearer (t : Tag) (res : Int) (s s' : Served D) (trace : List (Option Label)) :
    Prop where
  stamps : ∃ stamps, OnlyStamps stamps ∧ s'.log t = s.log t ++ stamps
  result : result (s'.io.tags t) = some res
  passSteps : passSteps (s'.io.tags t) ≤ passSteps (s.io.tags t)
  rank : ownSteps t trace + rank s'.io.map.currentEra (s'.io.tags t)
    ≤ rank s.io.map.currentEra (s.io.tags t) + checkpoints trace * Io.passSteps (s.io.tags t)

theorem ownSteps_snoc (t : Tag) (trace : List (Option Label)) (l : Option Label) :
    ownSteps t (trace ++ [l])
      = ownSteps t trace + if l.map (·.tag) = some t then 1 else 0 := by
  simp [ownSteps, List.countP_append, List.countP_singleton]

theorem checkpoints_snoc (trace : List (Option Label)) (l : Option Label) :
    checkpoints (trace ++ [l]) = checkpoints trace + if l.isNone then 1 else 0 := by
  simp [checkpoints, List.countP_append, List.countP_singleton]

theorem Nearer.step {B : Backing D} {s u s' : Served D} {trace : List (Option Label)}
    {l : Option Label} {t : Tag} {res : Int} (h : Nearer t res s u trace)
    (hloop : InLoop (u.io.tags t)) (hs : ServeStep B u l s') :
    CompletedIn t res s s' ∨ Nearer t res s s' (trace ++ [l]) := by
  obtain ⟨⟨stamps, honly, hlog⟩, hres, hpass, hrank⟩ := h
  cases hs with
  | checkpoint =>
    right
    have hcheckpoint := rank_checkpoint u.io.map.currentEra (u.io.map.currentEra + 1)
      (u.io.tags t)
    refine ⟨⟨stamps, honly, hlog⟩, hres, hpass, ?_⟩
    have hown : ownSteps t (trace ++ [none]) = ownSteps t trace := by simp [ownSteps_snoc]
    have hcount : checkpoints (trace ++ [none]) = checkpoints trace + 1 := by
      simp [checkpoints_snoc]
    rw [hown, hcount, Nat.add_mul]
    show _ + Io.rank (u.io.map.currentEra + 1) (u.io.tags t) ≤ _
    omega
  | @io l io step =>
    by_cases ht : t = l.tag
    · subst ht
      rcases own_step step hres hloop with hack | ⟨honly', hres', hrank', hpass'⟩
      · left
        refine ⟨stamps, honly, ?_⟩
        show _ <+: Function.update u.log l.tag _ l.tag
        rw [Function.update_self, hack, hlog]
      · right
        refine ⟨⟨stamps ++ emits u.io.tags l, ?_, ?_⟩, hres', hpass'.trans hpass, ?_⟩
        · intro e he
          rcases List.mem_append.mp he with he | he
          · exact honly e he
          · exact honly' e he
        · show Function.update u.log l.tag _ l.tag = _
          rw [Function.update_self, hlog, List.append_assoc]
        · have hown : ownSteps l.tag (trace ++ [some l]) = ownSteps l.tag trace + 1 := by
            simp [ownSteps_snoc]
          have hcount : checkpoints (trace ++ [some l]) = checkpoints trace := by
            simp [checkpoints_snoc]
          rw [hown, hcount]
          show _ + Io.rank io.map.currentEra (io.tags l.tag) ≤ _
          omega
    · right
      refine ⟨⟨stamps, honly, ?_⟩, ?_, ?_, ?_⟩
      · show Function.update u.log l.tag _ t = _
        rw [Function.update_of_ne ht, hlog]
      · show Io.result (io.tags t) = _
        rw [tags_of_ne step ht]
        exact hres
      · show Io.passSteps (io.tags t) ≤ _
        rw [tags_of_ne step ht]
        exact hpass
      · have hown : ownSteps t (trace ++ [some l]) = ownSteps t trace := by
          simp [ownSteps_snoc, Ne.symm ht]
        have hcount : checkpoints (trace ++ [some l]) = checkpoints trace := by
          simp [checkpoints_snoc]
        rw [hown, hcount]
        show _ + Io.rank io.map.currentEra (io.tags t) ≤ _
        rw [tags_of_ne step ht, step_currentEra step]
        exact hrank

/-- In every run a tag with a result completes its command, or comes
nearer. -/
theorem completedIn_or_nearer {B : Backing D} {s s' : Served D} {trace : List (Option Label)}
    {t : Tag} {res : Int} (h : Run (ServeStep B) s trace s')
    (hlog : ∀ t, Logged s.io.map (s.io.tags t) (s.log t))
    (hres : result (s.io.tags t) = some res) :
    CompletedIn t res s s' ∨ Nearer t res s s' trace := by
  have hboth : (∀ t, Logged s'.io.map (s'.io.tags t) (s'.log t)) ∧
      (CompletedIn t res s s' ∨ Nearer t res s s' trace) := by
    induction h with
    | nil =>
      refine ⟨hlog, Or.inr ⟨⟨[], .nil, (List.append_nil _).symm⟩, hres, Nat.le_refl _, ?_⟩⟩
      simp [ownSteps, checkpoints]
    | snoc run last ih =>
      refine ⟨logged_step ih.1 last, ?_⟩
      rcases ih.2 with hdone | hnearer
      · exact Or.inl (hdone.step last)
      · exact hnearer.step (ih.1 t).inLoop last
  exact hboth.2

/-- A tag that takes enough steps completes its command. -/
theorem completedIn_of_ownSteps {B : Backing D} {s s' : Served D}
    {trace : List (Option Label)} {t : Tag} {res : Int} (h : Run (ServeStep B) s trace s')
    (hlog : ∀ t, Logged s.io.map (s.io.tags t) (s.log t))
    (hres : result (s.io.tags t) = some res)
    (hsteps : rank s.io.map.currentEra (s.io.tags t)
      + checkpoints trace * passSteps (s.io.tags t) ≤ ownSteps t trace) :
    CompletedIn t res s s' := by
  rcases completedIn_or_nearer h hlog hres with hdone | hnearer
  · exact hdone
  · have hpos := rank_pos s'.io.map.currentEra hnearer.result
    have hrank := hnearer.rank
    omega

/-- A tag with a result can complete its command on its own. -/
theorem exists_completing_run (B : Backing D) {s : Served D} {t : Tag} {res : Int}
    (hlog : ∀ t, Logged s.io.map (s.io.tags t) (s.log t))
    (hres : result (s.io.tags t) = some res) :
    ∃ trace s', Run (ServeStep B) s trace s' ∧
      (∀ l, l ∈ trace → ∃ own, l = some own ∧ own.tag = t) ∧ CompletedIn t res s s' := by
  have hruns : ∀ n, ∃ trace s', Run (ServeStep B) s trace s' ∧
      (∀ l, l ∈ trace → ∃ own, l = some own ∧ own.tag = t) ∧
      (CompletedIn t res s s' ∨ n ≤ ownSteps t trace) := by
    intro n
    induction n with
    | zero => exact ⟨[], s, .nil, nofun, Or.inr (Nat.zero_le _)⟩
    | succ n ih =>
      obtain ⟨trace, u, hrun, hown, hend⟩ := ih
      rcases completedIn_or_nearer hrun hlog hres with hdone | hnearer
      · exact ⟨trace, u, hrun, hown, Or.inl hdone⟩
      · obtain ⟨l, io, hl, step⟩ := exists_step B hnearer.result
        refine ⟨trace ++ [some l], _, hrun.snoc (.io step), ?_, ?_⟩
        · intro l' hl'
          rcases List.mem_append.mp hl' with hl' | hl'
          · exact hown l' hl'
          · exact ⟨l, List.mem_singleton.mp hl', hl⟩
        · rcases hend with hdone | hsteps
          · exact Or.inl (hdone.step (.io step))
          · right
            have hcount : ownSteps t (trace ++ [some l]) = ownSteps t trace + 1 := by
              simp [ownSteps_snoc, hl]
            omega
  obtain ⟨trace, s', hrun, hown, hend⟩ := hruns (rank s.io.map.currentEra (s.io.tags t))
  refine ⟨trace, s', hrun, hown, ?_⟩
  rcases hend with hdone | hsteps
  · exact hdone
  · refine completedIn_of_ownSteps hrun hlog hres ?_
    have hnone : checkpoints trace = 0 := by
      rw [checkpoints, List.countP_eq_zero]
      intro l hl
      obtain ⟨own, rfl, -⟩ := hown l hl
      simp
    rw [hnone, Nat.zero_mul]
    exact hsteps

/-! ## A `mark_write` that runs alone -/

/-- The state with this map, and with this phase on the tag. -/
def turn (s : IoState D) (t : Tag) (map : EraState) (phase : TagPhase) : IoState D :=
  { s with map, tags := Function.update s.tags t phase }

/-- A step of `mark_write` on the tag. -/
def Label.Marks (t : Tag) (l : Label) : Prop :=
  l = .markLoad t ∨ l = .markStamp t ∨ l = .markCheck t

section Turn

variable (B : Backing D) (s : IoState D) (t : Tag) (map : EraState) (iod : IoDesc) (res : Int)
  (first last : Nat)

theorem turn_markLoad :
    Step B (turn s t map (.marking iod res first last .load)) (.markLoad t)
      (turn s t map (.marking iod res first last (.stampFrom map.currentEra first last))) := by
  have hstep := Step.markLoad (B := B)
    (s := turn s t map (.marking iod res first last .load)) (Function.update_self _ _ _)
  simpa only [turn, Function.update_idem] using hstep

theorem turn_markStamp (era : UInt32) (i : Nat) :
    Step B (turn s t map (.marking iod res first last (.stamp era i))) (.markStamp t)
      (turn s t (map.fetchMax i era)
        (.marking iod res first last (.stampFrom era (i + 1) last))) := by
  have hstep := Step.markStamp (B := B)
    (s := turn s t map (.marking iod res first last (.stamp era i))) (Function.update_self _ _ _)
  simpa only [turn, Function.update_idem] using hstep

theorem turn_markCheck {era : UInt32} (hera : map.currentEra = era) :
    Step B (turn s t map (.marking iod res first last (.check era))) (.markCheck t)
      (turn s t map (.acking iod res)) := by
  have hstep := Step.markCheck (B := B)
    (s := turn s t map (.marking iod res first last (.check era))) (Function.update_self _ _ _)
  rw [if_pos (show (turn s t map _).map.currentEra = era from hera)] at hstep
  simpa only [turn, Function.update_idem] using hstep

/-- The stamp loop over `n` chunks. -/
theorem stamp_run (era : UInt32) (n : Nat) (hn : n ≤ last + 1 - first) :
    ∃ trace, (∀ l, l ∈ trace → l.Marks t) ∧ Run (Step B)
      (turn s t map (.marking iod res first last (.stampFrom era first last))) trace
      (turn s t ((List.range' first n).foldl (fun map i => map.fetchMax i era) map)
        (.marking iod res first last (.stampFrom era (first + n) last))) := by
  induction n with
  | zero => exact ⟨[], nofun, .nil⟩
  | succ n ih =>
    obtain ⟨trace, hmarks, hrun⟩ := ih (by omega)
    have hpc : MarkPc.stampFrom era (first + n) last = .stamp era (first + n) :=
      if_pos (by omega)
    rw [hpc] at hrun
    rw [List.range'_1_concat, List.foldl_append]
    refine ⟨trace ++ [.markStamp t], fun l hl => ?_,
      hrun.snoc (turn_markStamp B s t _ iod res first last era _)⟩
    rcases List.mem_append.mp hl with hl | hl
    · exact hmarks l hl
    · exact Or.inr (Or.inl (List.mem_singleton.mp hl))

/-- A pass that no checkpoint gets in the way of. -/
theorem markPass_run :
    ∃ trace, (∀ l, l ∈ trace → l.Marks t) ∧
      Run (Step B) (turn s t map (.marking iod res first last .load)) trace
        (turn s t (map.markPass map.currentEra first last) (.acking iod res)) := by
  obtain ⟨trace, hmarks, hstamps⟩ := stamp_run B s t map iod res first last map.currentEra
    (last + 1 - first) (Nat.le_refl _)
  have hpc : MarkPc.stampFrom map.currentEra (first + (last + 1 - first)) last
      = .check map.currentEra := if_neg (by omega)
  rw [hpc] at hstamps
  have hload := turn_markLoad B s t map iod res first last
  have hcheck := turn_markCheck B s t _ iod res first last
    (EraState.markPass_currentEra map map.currentEra first last)
  have hpass : Run (Step B) _ trace (turn s t (map.markPass map.currentEra first last)
      (.marking iod res first last (.check map.currentEra))) := hstamps
  refine ⟨.markLoad t :: (trace ++ [.markCheck t]), fun l hl => ?_,
    .cons hload (hpass.snoc hcheck)⟩
  rcases List.mem_cons.mp hl with hl | hl
  · exact Or.inl hl
  · rcases List.mem_append.mp hl with hl | hl
    · exact hmarks l hl
    · exact Or.inr (Or.inr (List.mem_singleton.mp hl))

end Turn

/-- A `mark_write` that no checkpoint gets in the way of is `markWrite`. -/
theorem markWrite_run (B : Backing D) {s : IoState D} {t : Tag} {iod : IoDesc} {sqe : Sqe}
    {res : Int} (backend : s.tags t = .backend iod sqe) (changes : iod.op.changesData = true)
    (final : res ≠ negEAGAIN) :
    ∃ trace, Run (Step B) s trace
      (turn s t (s.map.markWrite iod.off iod.bytes) (.acking iod res)) := by
  have hcqe : Step B s (.cqe t res) _ := .cqe backend
  rw [handleIoCmd_changed changes final] at hcqe
  cases hrange : s.map.markRange iod.off iod.bytes with
  | none =>
    simp only [IoAction.phase, hrange] at hcqe
    simp only [EraState.markWrite, hrange]
    exact ⟨[.cqe t res], .single hcqe⟩
  | some range =>
    obtain ⟨first, last⟩ := range
    simp only [IoAction.phase, hrange] at hcqe
    simp only [EraState.markWrite, hrange]
    obtain ⟨trace, -, hrun⟩ := markPass_run B s t s.map iod res first last
    exact ⟨.cqe t res :: trace, .cons hcqe hrun⟩

/-- A data-changing command whose tag runs alone, from its fetch to its
completion. -/
theorem served_run (B : Backing D) {s : IoState D} {t : Tag} {iod : IoDesc} {sqe : Sqe} {medium : D}
    {res : Int} (idle : s.tags t = .idle) (inDevice : iod.InDevice s.map.devSize)
    (supported : makeSqe iod.op iod.off iod.bytes = some sqe)
    (changes : iod.op.changesData = true) (lands : B.lands sqe s.medium medium)
    (final : res ≠ negEAGAIN) :
    ∃ trace, Run (Step B) s trace
      { map := s.map.markWrite iod.off iod.bytes, medium, tags := s.tags } := by
  have hfetch : Step B s (.fetch t iod) _ := .fetch idle inDevice
  rw [handleIoCmd_fetched supported] at hfetch
  have hbackend : Function.update s.tags t (.backend iod sqe) t = .backend iod sqe :=
    Function.update_self ..
  have hland : Step B (turn s t s.map (.backend iod sqe)) (.land t)
      { turn s t s.map (.backend iod sqe) with medium } := .land hbackend lands
  obtain ⟨trace, hrun⟩ := markWrite_run B
    (s := { turn s t s.map (.backend iod sqe) with medium }) hbackend changes final
  have hack := Step.ack (B := B)
    (s := turn { turn s t s.map (.backend iod sqe) with medium } t
      (s.map.markWrite iod.off iod.bytes) (.acking iod res)) (t := t) (Function.update_self ..)
  have htags : Function.update s.tags t .idle = s.tags := by
    rw [← idle]
    exact Function.update_eq_self t s.tags
  simp only [turn, Function.update_idem, htags] at hrun hack
  exact ⟨_, .cons hfetch (.cons hland (hrun.snoc hack))⟩

/-! ## The promise to the driver -/

/-- The parts of a log that has the result of a backing IO. -/
theorem complete_split {g devSize : UInt64} {iod : IoDesc} {events : List Event} {res : Int}
    (h : Complete g devSize iod (events ++ [.completed res])) :
    events = [] ∨ ∃ sqe n stamps, res ≠ negEAGAIN ∧ OnlyStamps stamps ∧
      events = tries sqe n ++ .returned res :: stamps := by
  generalize hall : events ++ [.completed res] = all at h
  cases h with
  | rejected =>
    left
    simpa using congrArg List.length hall
  | @passed sqe n r _ _ final =>
    right
    have hsplit : events ++ [.completed res]
        = (tries sqe n ++ [.returned r]) ++ [.completed r] := by
      rw [hall, List.append_assoc]
      rfl
    obtain ⟨rfl, hlast⟩ := List.append_inj' hsplit rfl
    obtain rfl : res = r := by simpa using hlast
    exact ⟨sqe, n, [], final, .nil, rfl⟩
  | @recorded sqe n r stamps _ _ final only =>
    right
    obtain ⟨rfl, hlast⟩ := List.append_inj' hall rfl
    obtain rfl : res = r := by simpa using hlast
    exact ⟨sqe, n, stamps, final, only, rfl⟩

theorem not_completed_of_split {sqe : Sqe} {n : Nat} {res r : Int} {stamps : List Event}
    (honly : OnlyStamps stamps) : .completed r ∉ tries sqe n ++ .returned res :: stamps := by
  intro h
  rcases List.mem_append.mp h with h | h
  · exact tries_no_completed sqe n r h
  · rcases List.mem_cons.mp h with h | h
    · cases h
    · obtain ⟨chunk, era, h⟩ := honly _ h
      cases h

theorem eq_of_returned_split {sqe : Sqe} {n : Nat} {res r : Int} {stamps : List Event}
    (honly : OnlyStamps stamps) (hr : r ≠ negEAGAIN)
    (h : .returned r ∈ tries sqe n ++ .returned res :: stamps) : r = res := by
  rcases List.mem_append.mp h with h | h
  · exact absurd (tries_no_final h) hr
  · rcases List.mem_cons.mp h with h | h
    · exact Event.returned.inj h
    · obtain ⟨chunk, era, h⟩ := honly _ h
      cases h

/-- The command in progress is not completed. -/
theorem Opened.not_completed {map : EraState} {phase : TagPhase} {opened : List Event}
    (h : Opened map phase opened) (res : Int) : .completed res ∉ opened := by
  cases h with
  | idle => nofun
  | backend =>
    intro h
    rcases List.mem_cons.mp h with h | h
    · cases h
    · exact tries_no_completed _ _ res h
  | marking _ _ _ _ _ only =>
    intro h
    rcases List.mem_cons.mp h with h | h
    · cases h
    · exact not_completed_of_split only h
  | acking complete =>
    intro h
    rcases List.mem_cons.mp h with h | h
    · cases h
    · rcases complete_split complete with rfl | ⟨sqe, n, stamps, _, honly, rfl⟩
      · cases h
      · exact not_completed_of_split honly h

/-- A final result in the log is the result that the tag completes with. -/
theorem Opened.result {map : EraState} {phase : TagPhase} {opened : List Event} {res : Int}
    (h : Opened map phase opened) (hmem : .returned res ∈ opened) (hres : res ≠ negEAGAIN) :
    Io.result phase = some res := by
  cases h with
  | idle => cases hmem
  | backend =>
    rcases List.mem_cons.mp hmem with h | h
    · cases h
    · exact absurd (tries_no_final h) hres
  | marking _ _ _ _ _ only =>
    rcases List.mem_cons.mp hmem with h | h
    · cases h
    · rw [eq_of_returned_split only hres h]
      rfl
  | acking complete =>
    rcases List.mem_cons.mp hmem with h | h
    · cases h
    · rcases complete_split complete with rfl | ⟨sqe, n, stamps, _, honly, rfl⟩
      · cases h
      · rw [eq_of_returned_split honly hres h]
        rfl

/-- The command on the tag is completed with this result, alone and in every
run in which the tag takes its steps. -/
structure Completing (B : Backing D) (s : Served D) (t : Tag) (res : Int) : Prop where
  alone : ∃ trace s', Run (ServeStep B) s trace s' ∧
    (∀ l, l ∈ trace → ∃ own, l = some own ∧ own.tag = t) ∧ CompletedIn t res s s'
  always : ∀ trace s', Run (ServeStep B) s trace s' →
    rank s.io.map.currentEra (s.io.tags t) + checkpoints trace * passSteps (s.io.tags t)
      ≤ ownSteps t trace → CompletedIn t res s s'

/-- In every run the log of every tag is complete commands and the one in
progress, the one in progress is completed when its backing IO has returned,
and the map changes by the logged stamps alone. -/
theorem acks_once {B : Backing D} {map : EraState} {medium : D} {trace : List (Option Label)}
    {s : Served D} (h : Run (ServeStep B) (start map medium) trace s) (t : Tag) :
    (∃ done opened, s.log t = history done ++ opened ∧
      (∀ c, c ∈ done → Complete s.io.map.granularity s.io.map.devSize c.1 c.2) ∧
      Opened s.io.map (s.io.tags t) opened ∧ (∀ res, .completed res ∉ opened) ∧
      ∀ res, .returned res ∈ opened → res ≠ negEAGAIN → Completing B s t res) ∧
    ∀ l io, Step B s.io l io → io.map = (emits s.io.tags l).foldl Event.apply s.io.map := by
  have hlog := logged_run h
  obtain ⟨done, opened, heq, hdone, hopened⟩ := hlog t
  refine ⟨⟨done, opened, heq, hdone, hopened, hopened.not_completed, ?_⟩,
    fun l io step => map_eq_emits step⟩
  intro res hmem hres
  have hresult := hopened.result hmem hres
  exact ⟨exists_completing_run B hlog hresult,
    fun trace s' hrun => completedIn_of_ownSteps hrun hlog hresult⟩

/-- A WRITE of the first 4 KiB. -/
def writeA : IoDesc := { op := .write, startSector := 0, nrSectors := 8 }

def tagA : Tag := { qid := 0, tag := 0 }

/-- A WRITE whose backing IO is submitted twice and fails. -/
theorem acks_once_oneChunk :
    ∃ trace s, Run (ServeStep plainDisk) (start EraState.oneChunk fun _ => 0) trace s ∧
      s.log tagA = [.fetched writeA, .submitted (.write 0 4096), .returned negEAGAIN,
        .submitted (.write 0 4096), .returned (-5), .stamped 0 1, .completed (-5)] ∧
      ((∃ done opened, s.log tagA = history done ++ opened ∧
        (∀ c, c ∈ done → Complete s.io.map.granularity s.io.map.devSize c.1 c.2) ∧
        Opened s.io.map (s.io.tags tagA) opened ∧ (∀ res, .completed res ∉ opened) ∧
        ∀ res, .returned res ∈ opened → res ≠ negEAGAIN → Completing plainDisk s tagA res) ∧
      ∀ l io, Step plainDisk s.io l io →
        io.map = (emits s.io.tags l).foldl Event.apply s.io.map) := by
  have hfetch := Run.nil.snoc (ServeStep.io (B := plainDisk)
    (s := start EraState.oneChunk fun _ => 0)
    (show Step _ _ (.fetch tagA writeA) _ from .fetch rfl (by decide)))
  have hretry := hfetch.snoc (.io (show Step _ _ (.cqe tagA negEAGAIN) _ from .cqe rfl))
  have hfail := hretry.snoc (.io (show Step _ _ (.cqe tagA (-5)) _ from .cqe rfl))
  have hload := hfail.snoc (.io (.markLoad (t := tagA) rfl))
  have hstamp := hload.snoc (.io (.markStamp (t := tagA) rfl))
  have hcheck := hstamp.snoc (.io (.markCheck (t := tagA) rfl))
  have hack := hcheck.snoc (.io (.ack (t := tagA) rfl))
  exact ⟨_, _, hack, rfl, acks_once hack tagA⟩

end Io

end Ublkera
