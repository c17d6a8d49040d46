import Ublkera.Lib.Run

/-!
# The control socket

`bind` and `serve` of `src/ctl.rs`, and `run_daemon` of `src/main.rs`, for any
number of daemons with one socket path.

A daemon that starts asks whether somebody listens at the path, removes the
path, and binds it.  One that ends removes the path again, in its main thread
or in its signal thread.  No removal looks at what the path names by then.

* `one_listener`: while nobody starts beside a daemon that starts or ends, the
  path names the socket of the daemon that listens, there is one at most, and
  who starts beside it is refused.
* `path_kept_iff`: the path stays with the daemon that listens exactly when no
  other daemon has a removal ahead of it.

A connect that fails although a daemon listens (no permission, no descriptors)
is left out, and so is any removal by a program that is not a daemon.
-/

namespace Ublkera

namespace Socket

open Trace

/-! ## Daemons -/

/-- Where the main thread stands.  `sock` is the socket that it has bound. -/
inductive MainPc where
  | absent
  /-- Before `UnixStream::connect`. -/
  | connecting
  /-- Before the `remove_file` of `bind`. -/
  | removing
  /-- Before bind(2). -/
  | binding
  /-- Before listen(2). -/
  | bound (sock : Nat)
  /-- Before the signal thread starts. -/
  | listening (sock : Nat)
  | serving (sock : Nat)
  /-- In `shutdown_all`. -/
  | detaching (sock : Nat)
  /-- Before the `remove_file` of `serve`. -/
  | unlinking (sock : Nat)
  | closing (sock : Nat)
  | refused
  | gone
  deriving DecidableEq, Repr

/-- Where the signal thread stands. -/
inductive SigPc where
  | absent
  | waiting
  /-- In `shutdown_all`. -/
  | detaching
  /-- Before its `remove_file`. -/
  | unlinking
  | exiting
  deriving DecidableEq, Repr

/-- The socket that a client is answered at. -/
def MainPc.listens : MainPc → Option Nat
  | .listening sock | .serving sock | .detaching sock | .unlinking sock | .closing sock => some sock
  | _ => none

/-- The socket that it has bound, until it removes the path. -/
def MainPc.holds : MainPc → Option Nat
  | .bound sock | .listening sock | .serving sock | .detaching sock | .unlinking sock => some sock
  | _ => none

/-- A removal of the path is ahead of the main thread. -/
def MainPc.armed : MainPc → Bool
  | .removing | .bound _ | .listening _ | .serving _ | .detaching _ | .unlinking _ => true
  | _ => false

/-- A removal of the path is ahead of the signal thread. -/
def SigPc.armed : SigPc → Bool
  | .waiting | .detaching | .unlinking => true
  | _ => false

/-- The path and the daemons.  Sockets are numbered. -/
structure State where
  path : Option Nat
  next : Nat
  mains : Nat → MainPc
  sigs : Nat → SigPc

namespace State

def setMain (s : State) (i : Nat) (pc : MainPc) : State :=
  { s with mains := Function.update s.mains i pc }

def setSig (s : State) (i : Nat) (pc : SigPc) : State :=
  { s with sigs := Function.update s.sigs i pc }

/-- The end of the process. -/
def exited (s : State) (i : Nat) : State := (s.setMain i .gone).setSig i .absent

/-- `UnixStream::connect` gets through. -/
def Answered (s : State) : Prop := ∃ sock i, s.path = some sock ∧ (s.mains i).listens = some sock

end State

inductive Label where
  | start (i : Nat)
  | connect (i : Nat)
  | remove (i : Nat)
  | bind (i : Nat)
  | listen (i : Nat)
  | spawn (i : Nat)
  | shutdown (i : Nat)
  | detached (i : Nat)
  | unlink (i : Nat)
  | close (i : Nat)
  | signal (i : Nat)
  | sigDetached (i : Nat)
  | sigUnlink (i : Nat)
  | sigExit (i : Nat)
  | kill (i : Nat)
  deriving DecidableEq, Repr

/-- The daemon that takes the step. -/
def Label.daemon : Label → Nat
  | start i | connect i | remove i | bind i | listen i | spawn i | shutdown i | detached i
  | unlink i | close i | signal i | sigDetached i | sigUnlink i | sigExit i | kill i => i

inductive Step : State → Label → State → Prop where
  | start {s : State} {i : Nat} (absent : s.mains i = .absent) :
      Step s (.start i) (s.setMain i .connecting)
  /-- Another daemon is already listening. -/
  | refused {s : State} {i : Nat} (connecting : s.mains i = .connecting) (answered : s.Answered) :
      Step s (.connect i) (s.setMain i .refused)
  | stale {s : State} {i : Nat} (connecting : s.mains i = .connecting) (silent : ¬ s.Answered) :
      Step s (.connect i) (s.setMain i .removing)
  | remove {s : State} {i : Nat} (removing : s.mains i = .removing) :
      Step s (.remove i) ({ s with path := none }.setMain i .binding)
  | bind {s : State} {i : Nat} (binding : s.mains i = .binding) (free : s.path = none) :
      Step s (.bind i)
        ({ s with path := some s.next, next := s.next + 1 }.setMain i (.bound s.next))
  /-- Address already in use. -/
  | inUse {s : State} {i sock : Nat} (binding : s.mains i = .binding) (taken : s.path = some sock) :
      Step s (.bind i) (s.setMain i .refused)
  | listen {s : State} {i sock : Nat} (bound : s.mains i = .bound sock) :
      Step s (.listen i) (s.setMain i (.listening sock))
  | spawn {s : State} {i sock : Nat} (listening : s.mains i = .listening sock)
      (unborn : s.sigs i = .absent) :
      Step s (.spawn i) ((s.setMain i (.serving sock)).setSig i .waiting)
  /-- The shutdown command. -/
  | shutdown {s : State} {i sock : Nat} (serving : s.mains i = .serving sock) :
      Step s (.shutdown i) (s.setMain i (.detaching sock))
  | detached {s : State} {i sock : Nat} (detaching : s.mains i = .detaching sock) :
      Step s (.detached i) (s.setMain i (.unlinking sock))
  | unlink {s : State} {i sock : Nat} (unlinking : s.mains i = .unlinking sock) :
      Step s (.unlink i) ({ s with path := none }.setMain i (.closing sock))
  | close {s : State} {i sock : Nat} (closing : s.mains i = .closing sock) :
      Step s (.close i) (s.exited i)
  /-- SIGTERM or SIGINT. -/
  | signal {s : State} {i : Nat} (waiting : s.sigs i = .waiting) :
      Step s (.signal i) (s.setSig i .detaching)
  | sigDetached {s : State} {i : Nat} (detaching : s.sigs i = .detaching) :
      Step s (.sigDetached i) (s.setSig i .unlinking)
  | sigUnlink {s : State} {i : Nat} (unlinking : s.sigs i = .unlinking) :
      Step s (.sigUnlink i) ({ s with path := none }.setSig i .exiting)
  | sigExit {s : State} {i : Nat} (exiting : s.sigs i = .exiting) : Step s (.sigExit i) (s.exited i)
  /-- A crash of the process, and an end before it serves. -/
  | kill {s : State} {i : Nat} (alive : s.mains i ≠ .absent) : Step s (.kill i) (s.exited i)

/-- Nobody has started; the path may name a socket that nobody listens at. -/
def init (path : Option Nat) : State :=
  { path, next := path.elim 0 (· + 1), mains := fun _ => .absent, sigs := fun _ => .absent }

/-! ## Who may remove the path -/

def Armed (s : State) (i : Nat) : Prop := (s.mains i).armed = true ∨ (s.sigs i).armed = true

/-- The daemon is about to listen, or will remove the path. -/
def Busy (s : State) (i : Nat) : Prop := s.mains i = .binding ∨ Armed s i

/-- The daemon has bound this socket, and neither of its threads has removed
the path since. -/
def Holds (s : State) (i sock : Nat) : Prop :=
  (s.mains i).holds = some sock ∧ s.sigs i ≠ .exiting

theorem Holds.armed {s : State} {i sock : Nat} (h : Holds s i sock) : Armed s i := by
  left
  have hholds := h.1
  cases hpc : s.mains i <;> rw [hpc] at hholds <;> simp [MainPc.holds, MainPc.armed] at hholds ⊢

/-- A step changes only its own daemon, and the path. -/
theorem Step.frame {s s' : State} {l : Label} (h : Step s l s') {i : Nat} (hi : i ≠ l.daemon) :
    s'.mains i = s.mains i ∧ s'.sigs i = s.sigs i := by
  cases h <;> simp only [Label.daemon] at hi <;>
    simp [State.setMain, State.setSig, State.exited, hi]

/-- What a step does to the path, and what its daemon has ahead of it then. -/
inductive Touches (s : State) (l : Label) (s' : State) : Prop where
  | nothing (path : s'.path = s.path)
      (binding : s'.mains l.daemon = .binding → s.mains l.daemon = .binding)
      (armed : Armed s' l.daemon → Armed s l.daemon)
      (holds : ∀ sock, Holds s' l.daemon sock → Holds s l.daemon sock)
  | begins (label : l = .connect l.daemon) (silent : ¬ s.Answered) (path : s'.path = s.path)
      (holds : ∀ sock, ¬ Holds s' l.daemon sock)
  | removes (armed : Armed s l.daemon) (path : s'.path = none)
      (holds : ∀ sock, ¬ Holds s' l.daemon sock)
  | binds (binding : s.mains l.daemon = .binding) (free : s.path = none)
      (holds : ∀ sock, Holds s' l.daemon sock → s'.path = some sock)

theorem Step.touches {s s' : State} {l : Label} (h : Step s l s') : Touches s l s' := by
  cases h with
  | stale connecting silent =>
    refine .begins rfl silent rfl ?_
    simp [Holds, Label.daemon, State.setMain, MainPc.holds]
  | remove removing =>
    refine .removes ?_ rfl ?_
    · simp [Armed, Label.daemon, removing, MainPc.armed]
    · simp [Holds, Label.daemon, State.setMain, MainPc.holds]
  | bind binding free =>
    refine .binds binding free ?_
    simp [Holds, Label.daemon, State.setMain, MainPc.holds]
  | unlink unlinking =>
    refine .removes ?_ rfl ?_
    · simp [Armed, Label.daemon, unlinking, MainPc.armed]
    · simp [Holds, Label.daemon, State.setMain, MainPc.holds]
  | sigUnlink unlinking =>
    refine .removes ?_ rfl ?_
    · simp [Armed, Label.daemon, unlinking, SigPc.armed]
    · simp [Holds, Label.daemon, State.setSig]
  | _ =>
    refine .nothing rfl ?_ ?_ ?_ <;>
      simp_all [Holds, Armed, Label.daemon, State.setMain, State.setSig, State.exited,
        MainPc.holds, MainPc.armed, SigPc.armed]

/-- A daemon that has a signal thread has got to `serve`. -/
def Paired (s : State) : Prop :=
  ∀ i, s.sigs i ≠ .absent → ∃ sock, s.mains i = .serving sock ∨ s.mains i = .detaching sock ∨
    s.mains i = .unlinking sock ∨ s.mains i = .closing sock

theorem Step.paired {s s' : State} {l : Label} (h : Step s l s') (paired : Paired s) :
    Paired s' := by
  intro i hsig
  by_cases hi : i = l.daemon
  swap
  · obtain ⟨hmain, hsame⟩ := h.frame hi
    rw [hsame] at hsig
    rw [hmain]
    exact paired i hsig
  subst hi
  have hbefore := paired l.daemon
  cases h <;> simp_all [Label.daemon, State.setMain, State.setSig, State.exited]

theorem paired_run {path : Option Nat} {trace : List Label} {s : State}
    (h : Run Step (init path) trace s) : Paired s :=
  h.state_invariant Paired (fun _ hsig => absurd rfl hsig) fun _ _ _ paired hstep =>
    hstep.paired paired

/-! ## One daemon after the other -/

/-- The daemon is on its way from the removal of `bind` to listen(2), or one of
its threads has removed the path and the other has not ended yet. -/
def Unsettled (s : State) (i : Nat) : Prop :=
  (s.mains i = .removing ∨ s.mains i = .binding ∨ ∃ sock, s.mains i = .bound sock) ∨
    (s.sigs i = .exiting ∧ (s.mains i).armed = true) ∨
      ((∃ sock, s.mains i = .closing sock) ∧ (s.sigs i).armed = true)

/-- A step in a run where nobody starts beside a daemon that starts or ends. -/
def Serial (s : State) (l : Label) (s' : State) : Prop :=
  Step s l s' ∧ ∀ i, l = .connect i → ∀ j, j ≠ i → ¬ Unsettled s j

structure SerialInv (s : State) : Prop where
  paired : Paired s
  alone : ∀ i j, Busy s i → Busy s j → i = j
  named : ∀ i sock, Holds s i sock → s.path = some sock

/-- The daemon listens, and neither of its threads has removed the path. -/
structure Owns (s : State) (i sock : Nat) : Prop where
  listens : (s.mains i).listens = some sock
  holds : Holds s i sock

/-- Who is about to bind or to remove the path owns it, or is unsettled. -/
theorem Busy.unsettled_or_owns {s : State} {i : Nat} (h : Busy s i) (paired : Paired s) :
    Unsettled s i ∨ ∃ sock, Owns s i sock := by
  rcases h with hbinding | hmain | hsig
  · exact Or.inl (Or.inl (Or.inr (Or.inl hbinding)))
  · by_cases hexiting : s.sigs i = .exiting
    · exact Or.inl (Or.inr (Or.inl ⟨hexiting, hmain⟩))
    cases hpc : s.mains i with
    | removing => exact Or.inl (Or.inl (Or.inl hpc))
    | bound sock => exact Or.inl (Or.inl (Or.inr (Or.inr ⟨sock, hpc⟩)))
    | listening sock | serving sock | detaching sock | unlinking sock =>
      refine Or.inr ⟨sock, ?_, ?_, hexiting⟩ <;> rw [hpc] <;> rfl
    | absent | connecting | binding | closing | refused | gone =>
      rw [hpc] at hmain
      cases hmain
  · have hne : s.sigs i ≠ .exiting ∧ s.sigs i ≠ .absent := by
      constructor <;> intro heq <;> rw [heq] at hsig <;> cases hsig
    obtain ⟨sock, hpc | hpc | hpc | hpc⟩ := paired i hne.2
    · exact Or.inr ⟨sock, by rw [hpc]; rfl, by rw [hpc]; rfl, hne.1⟩
    · exact Or.inr ⟨sock, by rw [hpc]; rfl, by rw [hpc]; rfl, hne.1⟩
    · exact Or.inr ⟨sock, by rw [hpc]; rfl, by rw [hpc]; rfl, hne.1⟩
    · exact Or.inl (Or.inr (Or.inr ⟨⟨sock, hpc⟩, hsig⟩))

/-- What a daemon has ahead of it behind a step, it had ahead of it before, or
nobody answered its connect. -/
theorem Touches.busy {s s' : State} {l : Label} (h : Touches s l s') (hbusy : Busy s' l.daemon) :
    Busy s l.daemon ∨ (l = .connect l.daemon ∧ ¬ s.Answered) := by
  cases h with
  | nothing path binding armed holds => exact Or.inl (hbusy.imp binding armed)
  | begins label silent path holds => exact Or.inr ⟨label, silent⟩
  | removes armed path holds => exact Or.inl (Or.inr armed)
  | binds binding free holds => exact Or.inl (Or.inl binding)

theorem Step.busy_frame {s s' : State} {l : Label} (h : Step s l s') {i : Nat}
    (hi : i ≠ l.daemon) : Busy s' i ↔ Busy s i := by
  obtain ⟨hmain, hsig⟩ := h.frame hi
  rw [Busy, Busy, Armed, Armed, hmain, hsig]

theorem Step.holds_frame {s s' : State} {l : Label} (h : Step s l s') {i sock : Nat}
    (hi : i ≠ l.daemon) : Holds s' i sock ↔ Holds s i sock := by
  obtain ⟨hmain, hsig⟩ := h.frame hi
  rw [Holds, Holds, hmain, hsig]

/-- Where a connect is not answered, no settled daemon is up to anything. -/
theorem SerialInv.idle {s : State} (inv : SerialInv s) (silent : ¬ s.Answered) {i : Nat}
    (settled : ¬ Unsettled s i) : ¬ Busy s i := by
  intro hbusy
  obtain ⟨sock, owns⟩ := (hbusy.unsettled_or_owns inv.paired).resolve_left settled
  exact silent ⟨sock, i, inv.named i sock owns.holds, owns.listens⟩

theorem Serial.inv {s s' : State} {l : Label} (h : Serial s l s') (inv : SerialInv s) :
    SerialInv s' := by
  obtain ⟨hstep, hsettled⟩ := h
  have htouches := hstep.touches
  -- nobody else is up to anything, once the daemon of the step is
  have hothers : Busy s' l.daemon → ∀ j, j ≠ l.daemon → ¬ Busy s j := by
    intro hbusy j hj hj'
    rcases htouches.busy hbusy with hbefore | ⟨label, silent⟩
    · exact hj (inv.alone j l.daemon hj' hbefore)
    · exact inv.idle silent (hsettled l.daemon label j hj) hj'
  refine ⟨hstep.paired inv.paired, ?_, ?_⟩
  · intro i j hi hj
    by_cases hid : i = l.daemon <;> by_cases hjd : j = l.daemon
    · rw [hid, hjd]
    · rw [hid] at hi
      exact absurd ((hstep.busy_frame hjd).mp hj) (hothers hi j hjd)
    · rw [hjd] at hj
      exact absurd ((hstep.busy_frame hid).mp hi) (hothers hj i hid)
    · exact inv.alone i j ((hstep.busy_frame hid).mp hi) ((hstep.busy_frame hjd).mp hj)
  · intro i sock hholds
    by_cases hi : i = l.daemon
    · subst hi
      cases htouches with
      | nothing path binding armed holds =>
        rw [path]
        exact inv.named _ sock (holds sock hholds)
      | begins label silent path holds => exact absurd hholds (holds sock)
      | removes armed path holds => exact absurd hholds (holds sock)
      | binds binding free holds => exact holds sock hholds
    · have hbefore := (hstep.holds_frame hi).mp hholds
      have hpath := inv.named i sock hbefore
      cases htouches with
      | nothing path binding armed holds => exact path.trans hpath
      | begins label silent path holds => exact path.trans hpath
      | removes armed path holds =>
        exact absurd (inv.alone i l.daemon (Or.inr hbefore.armed) (Or.inr armed)) hi
      | binds binding free holds =>
        exact absurd (inv.alone i l.daemon (Or.inr hbefore.armed) (Or.inl binding)) hi

theorem serialInv_init (path : Option Nat) : SerialInv (init path) := by
  refine ⟨fun _ hsig => absurd rfl hsig, ?_, ?_⟩
  · intro i j hi
    simp [Busy, Armed, init, MainPc.armed, SigPc.armed] at hi
  · intro i sock hholds
    simp [Holds, init, MainPc.holds] at hholds

/-- While nobody starts beside a daemon that starts or ends, the path names the
socket of the daemon that listens.  Nobody else is about to bind or to remove
it, and who connects is refused. -/
theorem one_listener {path : Option Nat} {trace : List Label} {s : State} {i sock : Nat}
    (hrun : Run Serial (init path) trace s) (owns : Owns s i sock) :
    s.path = some sock ∧ (∀ j, j ≠ i → ¬ Busy s j) ∧
      ∀ j t, Step s (.connect j) t → t.mains j = .refused := by
  have inv : SerialInv s := hrun.state_invariant SerialInv (serialInv_init path)
    fun _ _ _ inv hstep => hstep.inv inv
  have hpath := inv.named i sock owns.holds
  refine ⟨hpath, ?_, ?_⟩
  · intro j hj hbusy
    exact hj (inv.alone j i hbusy (Or.inr owns.holds.armed))
  · intro j t hstep
    cases hstep with
    | refused connecting answered => simp [State.setMain]
    | stale connecting silent => exact absurd ⟨sock, i, hpath, owns.listens⟩ silent

theorem not_answered {s : State} (hnone : s.path = none) : ¬ s.Answered := by
  rintro ⟨sock, i, hpath, -⟩
  rw [hnone] at hpath
  cases hpath

/-- One daemon serves, and a second one is about to ask. -/
theorem serving_run : ∃ trace s, Run Serial (init none) trace s ∧ Owns s 0 0 ∧
    s.path = some 0 ∧ s.mains 1 = .connecting ∧ ∀ j, j ≠ 0 → ¬ Armed s j := by
  have quiet : ∀ {s s' : State} {l : Label}, Step s l s' → (∀ i, l ≠ .connect i) → Serial s l s' :=
    fun hstep hl => ⟨hstep, fun i hi => absurd hi (hl i)⟩
  have start : Run Serial (init none) [.start 0] _ := .single (quiet (.start rfl) (by simp))
  have connect := start.snoc (show Serial _ (.connect 0) _ from
    ⟨.stale rfl (not_answered rfl), by
      rintro i hi j hj
      cases hi
      simp [Unsettled, init, State.setMain, hj, MainPc.armed]⟩)
  have remove := connect.snoc (show Serial _ (.remove 0) _ from quiet (.remove rfl) (by simp))
  have bind := remove.snoc (show Serial _ (.bind 0) _ from quiet (.bind rfl rfl) (by simp))
  have listen := bind.snoc (show Serial _ (.listen 0) _ from quiet (.listen rfl) (by simp))
  have spawn := listen.snoc (show Serial _ (.spawn 0) _ from quiet (.spawn rfl rfl) (by simp))
  have second := spawn.snoc (show Serial _ (.start 1) _ from quiet (.start rfl) (by simp))
  refine ⟨_, _, second, ⟨rfl, rfl, by decide⟩, rfl, rfl, ?_⟩
  intro j hj
  by_cases hone : j = 1
  · subst hone
    simp [Armed, init, State.setMain, State.setSig, MainPc.armed, SigPc.armed]
  · simp [Armed, init, State.setMain, State.setSig, MainPc.armed, SigPc.armed, hj, hone]

/-- The second daemon is refused. -/
theorem one_listener_second : ∃ trace s, Run Serial (init none) trace s ∧
    s.mains 1 = .connecting ∧ s.path = some 0 ∧
      ∀ t, Step s (.connect 1) t → t.mains 1 = .refused := by
  obtain ⟨trace, s, hrun, owns, -, hconnecting, -⟩ := serving_run
  obtain ⟨hpath, -, hrefused⟩ := one_listener hrun owns
  exact ⟨trace, s, hrun, hconnecting, hpath, hrefused 1⟩

/-! ## Who loses the path -/

/-- The daemon has got past listen(2), or has ended. -/
def Past (s : State) (i : Nat) : Prop :=
  s.mains i ≠ .absent ∧ s.mains i ≠ .connecting ∧ s.mains i ≠ .removing ∧
    s.mains i ≠ .binding ∧ ∀ sock, s.mains i ≠ .bound sock

theorem Step.past {s s' : State} {l : Label} (h : Step s l s') {i : Nat} (past : Past s i) :
    Past s' i := by
  by_cases hi : i = l.daemon
  swap
  · rw [Past, (h.frame hi).1]
    exact past
  subst hi
  cases h <;> simp_all [Past, Label.daemon, State.setMain, State.setSig, State.exited]

theorem Past.listens {s : State} {i sock : Nat} (past : Past s i) (holds : Holds s i sock) :
    (s.mains i).listens = some sock := by
  obtain ⟨-, -, -, -, hbound⟩ := past
  have hholds := holds.1
  cases hpc : s.mains i <;> rw [hpc] at hholds <;>
    simp_all [MainPc.holds, MainPc.listens]

theorem Owns.past {s : State} {i sock : Nat} (h : Owns s i sock) : Past s i := by
  have hlistens := h.listens
  refine ⟨?_, ?_, ?_, ?_, ?_⟩ <;> intros <;> intro hpc <;> rw [hpc] at hlistens <;> cases hlistens

/-- A step of a run in which no other daemon has a removal ahead. -/
theorem Step.keeps {s s' : State} {l : Label} (h : Step s l s') {i sock : Nat} (past : Past s i)
    (kept : Holds s i sock → s.path = some sock ∧ ∀ j, j ≠ i → ¬ Armed s j)
    (holds : Holds s' i sock) : s'.path = some sock ∧ ∀ j, j ≠ i → ¬ Armed s' j := by
  have harmed : ∀ {j}, j ≠ l.daemon → Armed s' j → Armed s j := by
    intro j hj
    rw [Armed, Armed, (h.frame hj).1, (h.frame hj).2]
    exact id
  have htouches := h.touches
  by_cases hi : i = l.daemon
  · subst hi
    cases htouches with
    | nothing path binding armed hbefore =>
      obtain ⟨hpath, hothers⟩ := kept (hbefore sock holds)
      exact ⟨path.trans hpath, fun j hj hj' => hothers j hj (harmed hj hj')⟩
    | begins label silent path hnot => exact absurd holds (hnot sock)
    | removes armed path hnot => exact absurd holds (hnot sock)
    | binds binding free hpath => exact absurd binding past.2.2.2.1
  · have hbefore := (h.holds_frame hi).mp holds
    obtain ⟨hpath, hothers⟩ := kept hbefore
    cases htouches with
    | nothing path binding armed hnot =>
      refine ⟨path.trans hpath, fun j hj hj' => hothers j hj ?_⟩
      by_cases hjd : j = l.daemon
      · rw [hjd] at hj' ⊢
        exact armed hj'
      · exact harmed hjd hj'
    | begins label silent path hnot => exact absurd ⟨sock, i, hpath, past.listens hbefore⟩ silent
    | removes armed path hnot => exact absurd armed (hothers _ (Ne.symm hi))
    | binds binding free hbound =>
      rw [free] at hpath
      cases hpath

/-- The daemon can go on alone until it has removed the path. -/
def Removes (s : State) (j : Nat) : Prop :=
  ∃ trace t, Run Step s trace t ∧ (∀ l ∈ trace, l.daemon = j) ∧ t.path = none

theorem Removes.of_step {s s' : State} {l : Label} (h : Step s l s') (hpath : s'.path = none) :
    Removes s l.daemon := by
  refine ⟨[l], s', .single h, ?_, hpath⟩
  intro l' hl'
  rw [List.mem_singleton.mp hl']

theorem Removes.cons {s s' : State} {l : Label} (h : Step s l s') (rest : Removes s' l.daemon) :
    Removes s l.daemon := by
  obtain ⟨trace, t, hrun, hown, hpath⟩ := rest
  refine ⟨l :: trace, t, hrun.cons h, ?_, hpath⟩
  intro l' hl'
  rcases List.mem_cons.mp hl' with rfl | hl'
  · rfl
  · exact hown l' hl'

theorem removes_unlinking {s : State} {j k : Nat} (h : s.mains j = .unlinking k) : Removes s j :=
  .of_step (l := .unlink j) (.unlink h) rfl

theorem removes_detaching {s : State} {j k : Nat} (h : s.mains j = .detaching k) : Removes s j :=
  .cons (l := .detached j) (.detached h)
    (removes_unlinking (k := k) (by simp [State.setMain, Label.daemon]))

theorem removes_serving {s : State} {j k : Nat} (h : s.mains j = .serving k) : Removes s j :=
  .cons (l := .shutdown j) (.shutdown h)
    (removes_detaching (k := k) (by simp [State.setMain, Label.daemon]))

theorem removes_listening {s : State} {j k : Nat} (h : s.mains j = .listening k)
    (unborn : s.sigs j = .absent) : Removes s j :=
  .cons (l := .spawn j) (.spawn h unborn)
    (removes_serving (k := k) (by simp [State.setMain, State.setSig, Label.daemon]))

theorem removes_sigUnlinking {s : State} {j : Nat} (h : s.sigs j = .unlinking) : Removes s j :=
  .of_step (l := .sigUnlink j) (.sigUnlink h) rfl

theorem removes_sigDetaching {s : State} {j : Nat} (h : s.sigs j = .detaching) : Removes s j :=
  .cons (l := .sigDetached j) (.sigDetached h)
    (removes_sigUnlinking (by simp [State.setSig, Label.daemon]))

/-- Whoever has a removal ahead of it can come to it, whatever the others
do. -/
theorem Armed.removes {s : State} {j : Nat} (h : Armed s j) (paired : Paired s) : Removes s j := by
  -- before `serve` there is no signal thread
  have unborn : ∀ {pc}, s.mains j = pc → (∀ sock, pc ≠ .serving sock ∧ pc ≠ .detaching sock ∧
      pc ≠ .unlinking sock ∧ pc ≠ .closing sock) → s.sigs j = .absent := by
    intro pc hpc hnot
    by_contra hsig
    obtain ⟨sock, hmain⟩ := paired j hsig
    rw [hpc] at hmain
    have hnone := hnot sock
    tauto
  rcases h with hmain | hsig
  · cases hpc : s.mains j with
    | removing => exact .of_step (l := .remove j) (.remove hpc) rfl
    | bound k =>
      refine .cons (l := .listen j) (.listen hpc) (removes_listening (k := k) ?_ ?_)
      · simp [State.setMain, Label.daemon]
      · exact unborn hpc (by simp)
    | listening k => exact removes_listening hpc (unborn hpc (by simp))
    | serving k => exact removes_serving hpc
    | detaching k => exact removes_detaching hpc
    | unlinking k => exact removes_unlinking hpc
    | absent | connecting | binding | closing | refused | gone =>
      rw [hpc] at hmain
      cases hmain
  · cases hpc : s.sigs j with
    | waiting =>
      exact .cons (l := .signal j) (.signal hpc)
        (removes_sigDetaching (by simp [State.setSig, Label.daemon]))
    | detaching => exact removes_sigDetaching hpc
    | unlinking => exact removes_sigUnlinking hpc
    | absent | exiting =>
      rw [hpc] at hsig
      cases hsig

/-- A run of another daemon takes nothing from this one. -/
theorem holds_run {s t : State} {trace : List Label} (h : Run Step s trace t) {i sock : Nat}
    (hown : ∀ l ∈ trace, l.daemon ≠ i) : Holds t i sock ↔ Holds s i sock := by
  induction h with
  | nil => exact Iff.rfl
  | @snoc trace t u l run last ih =>
    have hlast := hown l (List.mem_append_right _ (List.mem_singleton_self l))
    rw [last.holds_frame (Ne.symm hlast)]
    exact ih fun l' hl' => hown l' (List.mem_append_left _ hl')

/-- The path stays with the daemon that listens exactly when no other daemon
has a removal ahead of it. -/
theorem path_kept_iff {path : Option Nat} {trace : List Label} {s : State} {i sock : Nat}
    (hrun : Run Step (init path) trace s) (owns : Owns s i sock) (hpath : s.path = some sock) :
    (∀ later t, Run Step s later t → Holds t i sock → t.path = some sock) ↔
      ∀ j, j ≠ i → ¬ Armed s j := by
  constructor
  · intro hkept j hj armed
    obtain ⟨later, t, hlater, hown, hnone⟩ := armed.removes (paired_run hrun)
    have holds : Holds t i sock :=
      (holds_run hlater fun l hl => by rw [hown l hl]; exact hj).mpr owns.holds
    have hnamed := hkept later t hlater holds
    rw [hnone] at hnamed
    cases hnamed
  · intro hothers later t hlater
    have hkept : Past t i ∧ (Holds t i sock → t.path = some sock ∧ ∀ j, j ≠ i → ¬ Armed t j) :=
      hlater.state_invariant (fun t => Past t i ∧
        (Holds t i sock → t.path = some sock ∧ ∀ j, j ≠ i → ¬ Armed t j))
        ⟨owns.past, fun _ => ⟨hpath, hothers⟩⟩
        fun _ _ _ h hstep => ⟨hstep.past h.1, hstep.keeps h.1 h.2⟩
    exact fun holds => (hkept.2 holds).1

/-- One daemon alone keeps the path; of two that have started side by side the
first loses it. -/
theorem path_kept_twoDaemons :
    (∃ trace s, Run Step (init none) trace s ∧ Owns s 0 0 ∧
      ∀ later t, Run Step s later t → Holds t 0 0 → t.path = some 0) ∧
    ∃ trace s later t, Run Step (init none) trace s ∧ Owns s 0 0 ∧ s.path = some 0 ∧
      Run Step s later t ∧ Holds t 0 0 ∧ t.path ≠ some 0 := by
  constructor
  · obtain ⟨trace, s, hrun, owns, hpath, -, hothers⟩ := serving_run
    have hstep : Run Step (init none) trace s := hrun.mono fun _ _ _ h => h.1
    exact ⟨trace, s, hstep, owns, (path_kept_iff hstep owns hpath).mpr hothers⟩
  · have start : Run Step (init none) [.start 0] _ := .single (.start rfl)
    have both := start.snoc (show Step _ (.start 1) _ from .start rfl)
    have connect := both.snoc (show Step _ (.connect 0) _ from .stale rfl (not_answered rfl))
    have second := connect.snoc (show Step _ (.connect 1) _ from .stale rfl (not_answered rfl))
    have remove := second.snoc (show Step _ (.remove 0) _ from .remove rfl)
    have bind := remove.snoc (show Step _ (.bind 0) _ from .bind rfl rfl)
    have listen := bind.snoc (show Step _ (.listen 0) _ from .listen rfl)
    have hlost := (@path_kept_iff _ _ _ 0 0 listen ⟨rfl, rfl, by decide⟩ rfl).mp.mt
      fun h => h 1 (by decide) (Or.inl rfl)
    push Not at hlost
    obtain ⟨later, t, hlater, holds, hpath⟩ := hlost
    exact ⟨_, _, later, t, listen, ⟨rfl, rfl, by decide⟩, rfl, hlater, holds, hpath⟩

end Socket

end Ublkera
