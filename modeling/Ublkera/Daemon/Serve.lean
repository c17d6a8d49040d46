import Ublkera.Daemon.Resolve

/-!
# The loop of the control socket

`serve` takes one connection at a time: `handle` reads a line, runs the
request on the manager, and writes the response.  `Step` is the loop around
`Manager.Step`, with the supervisors and the outside world beside it.

`handle` returns the decision to shut down and the error of a failed write
through one result, so a response that cannot be written is not only lost.
`lost_response_iff` says whom that hits: the runs that go through the same
states when every response is delivered are the runs in which no response to
a `shutdown` is lost.

The decoder of the requests is a parameter, and so is `fs::canonicalize`.
-/

namespace Ublkera

namespace Serve

open LittleEndian PosixFs Trace Manager

/-! ## Requests -/

inductive Request where
  | add (spec : DeviceSpec)
  | del (target : Target)
  | list
  | status (target : Target)
  | checkpoint (target : Target)
  | checkpointAll
  | dump (target : Target) (since : UInt32) (generation : Option String)
  | shutdown

/-- The decoder, which trims the line first, and the canonical paths. -/
structure Env where
  decode : String → Except String Request
  canonical : String → Option String

/-- The target of a request that has one. -/
def Request.target : Request → Option Target
  | .del target | .status target | .checkpoint target | .dump target _ _ => some target
  | .add _ | .list | .checkpointAll | .shutdown => none

/-- `resolve` refuses the target before it reaps: it is both or neither of an
id and a path. -/
def Request.Refused (req : Request) : Prop :=
  ∃ target, req.target = some target ∧ target.devId.isSome = target.backing.isSome

/-- The target of a request has a device. -/
def Found (env : Env) (s : Manager.State) (target : Target) (devId : UInt32) : Prop :=
  resolve env.canonical s.reap.devices target = .ok devId

/-- How the manager begins with a request that is not refused.  A path that
is not found has been reaped for, and no more. -/
def Begins (env : Env) (s : Manager.State) : Request → Manager.Label → Manager.State → Prop
  | .add spec, l, _ => l = .add spec ∨ ∃ e, l = .addRefused e
  | .del target, l, _ =>
    (∃ devId, Found env s target devId ∧
      (l = .del devId ∨ l = .delFailed devId ∨ ∃ e, l = .delUnknown e)) ∨
    (∀ devId, ¬ Found env s target devId) ∧ l = .list
  | .checkpoint target, l, t =>
    (∃ devId, Found env s target devId ∧ l = .checkpoint ∧
      t.ctl = match lookup s.reap.devices devId with
        | .ok m => .checkpointing [m.supervisor]
        | .error _ => .idle) ∨
    (∀ devId, ¬ Found env s target devId) ∧ l = .list
  | .checkpointAll, l, t =>
    l = .checkpoint ∧ ∃ order : List Managed, order.Perm s.reap.devices ∧
      t.ctl = .checkpointing (order.map (·.supervisor))
  | .list, l, _ | .status _, l, _ | .dump _ _ _, l, _ => l = .list
  | .shutdown, _, _ => False

/-! ## The loop -/

inductive Phase where
  /-- `listener.incoming()`. -/
  | accepting
  /-- The request is decoded, and the manager has not begun. -/
  | handling (req : Request)
  /-- The manager works on the request. -/
  | running
  /-- Before the two `write_all`. -/
  | responding (shutdown : Bool)
  /-- Out of the loop, before `shutdown_all`. -/
  | leaving
  | detaching
  /-- The socket file is removed. -/
  | stopped

structure State where
  manager : Manager.State
  phase : Phase

inductive Label where
  | acceptFailed
  /-- `try_clone` or `read_line` failed. -/
  | readFailed
  | request (line : String)
  | manager (l : Manager.Label)
  | handled
  /-- The response is written, or one of the writes has failed. -/
  | respond (lost : Bool)
  | unlink

/-- The step of a supervisor, or of the outside world. -/
def background : Manager.Label → Bool
  | .save (.sup _) _ | .startFailed _ | .runFailed _ | .lateUp _ _ | .stamp _
  | .externalDelete _ | .exit _ => true
  | _ => false

/-- The phase after the line of a connection is read. -/
def Env.read (env : Env) (line : String) : Phase :=
  match env.decode line with
  | .error _ => .responding false
  | .ok .shutdown => .responding true
  | .ok req => .handling req

/-- Where `serve` goes on with the result of `handle`.  A write error is an
`Err`, whatever the request was. -/
def Phase.responded (shutdown lost : Bool) : Phase :=
  if lost then .accepting else if shutdown then .leaving else .accepting

inductive Step (env : Env) : State → Label → State → Prop where
  | acceptFailed {s : State} (accepting : s.phase = .accepting) : Step env s .acceptFailed s
  | readFailed {s : State} (accepting : s.phase = .accepting) : Step env s .readFailed s
  | request {s : State} {line : String} (accepting : s.phase = .accepting) :
      Step env s (.request line) { s with phase := env.read line }
  | background {s : State} {l : Manager.Label} {manager : Manager.State}
      (step : Manager.Step s.manager l manager) (other : background l = true) :
      Step env s (.manager l) { s with manager }
  | refused {s : State} {req : Request} (handling : s.phase = .handling req)
      (refused : req.Refused) : Step env s .handled { s with phase := .responding false }
  | begin {s : State} {req : Request} {l : Manager.Label} {manager : Manager.State}
      (handling : s.phase = .handling req) (accepted : ¬ req.Refused)
      (step : Manager.Step s.manager l manager)
      (begins : Begins env s.manager req l manager) (own : Serve.background l = false) :
      Step env s (.manager l) { manager, phase := .running }
  /-- The ctl thread goes on with what it has begun. -/
  | work {s : State} {l : Manager.Label} {manager : Manager.State}
      (working : s.phase = .running ∨ s.phase = .detaching) (busy : s.manager.ctl ≠ .idle)
      (step : Manager.Step s.manager l manager) (own : Serve.background l = false) :
      Step env s (.manager l) { s with manager }
  | handled {s : State} (running : s.phase = .running) (done : s.manager.ctl = .idle) :
      Step env s .handled { s with phase := .responding false }
  | respond {s : State} {shutdown lost : Bool} (responding : s.phase = .responding shutdown) :
      Step env s (.respond lost) { s with phase := .responded shutdown lost }
  | shutdownAll {s : State} {manager : Manager.State} (leaving : s.phase = .leaving)
      (step : Manager.Step s.manager .shutdownAll manager) :
      Step env s (.manager .shutdownAll) { manager, phase := .detaching }
  | unlink {s : State} (detaching : s.phase = .detaching) (done : s.manager.ctl = .idle) :
      Step env s .unlink { s with phase := .stopped }

def init (fs : MetaFs) : State := { manager := Manager.init fs, phase := .accepting }

def Label.ofManager : Label → Option Manager.Label
  | .manager l => some l
  | _ => none

/-- The loop drives the manager by its own steps. -/
theorem run_manager {env : Env} {fs : MetaFs} {trace : List Label} {s : State}
    (h : Run (Step env) (init fs) trace s) :
    Run Manager.Step (Manager.init fs) (trace.filterMap Label.ofManager) s.manager := by
  induction h with
  | nil => exact .nil
  | @snoc trace s t l run last ih =>
    rw [List.filterMap_append]
    cases last with
    | acceptFailed | readFailed | request | refused | handled | respond | unlink =>
      rw [List.filterMap_cons_none rfl, List.filterMap_nil, List.append_nil]
      exact ih
    | background step | begin _ _ step | work _ _ step | shutdownAll _ step => exact ih.snoc step

/-! ## Lost responses -/

/-- The same with every response delivered. -/
def Label.delivered : Label → Label
  | .respond _ => .respond false
  | l => l

def Label.line : Label → Option String
  | .request line => some line
  | _ => none

/-- The last line that was read. -/
def lastLine (trace : List Label) : Option String := (trace.filterMap Label.line).getLast?

theorem lastLine_request (trace : List Label) (line : String) :
    lastLine (trace ++ [.request line]) = some line := by
  simp [lastLine, Label.line]

theorem lastLine_of_none (trace : List Label) {l : Label} (h : l.line = none) :
    lastLine (trace ++ [l]) = lastLine trace := by
  simp [lastLine, h]

theorem mem_of_lastLine {trace : List Label} {line : String} (h : lastLine trace = some line) :
    .request line ∈ trace := by
  obtain ⟨l, hl, hline⟩ := List.mem_filterMap.mp (List.mem_of_getLast? h)
  cases l with
  | request line' =>
    obtain rfl := Option.some.inj hline
    exact hl
  | acceptFailed | readFailed | manager | handled | respond | unlink => cases hline

/-- No response to a `shutdown` is lost. -/
def NoShutdownLost (env : Env) (trace : List Label) : Prop :=
  Along (fun before l => l = .respond true →
    ∀ line, lastLine before = some line → env.decode line ≠ .ok .shutdown) trace

/-- Every state of a run over these labels is the state that the run with
all responses delivered comes to. -/
def SameStates (env : Env) (fs : MetaFs) (trace : List Label) (s : State) : Prop :=
  ∀ before after t, trace = before ++ after → Run (Step env) (init fs) before t →
    Run (Step env) t after s → Run (Step env) (init fs) (before.map Label.delivered) t

variable {env : Env} {fs : MetaFs}

theorem read_eq_responding_true {line : String} (h : env.read line = .responding true) :
    env.decode line = .ok .shutdown := by
  unfold Env.read at h
  split at h
  · cases h
  · assumption
  · cases h

/-- Only a `shutdown` is answered with the decision to leave. -/
theorem line_of_responding {trace : List Label} {s : State}
    (h : Run (Step env) (init fs) trace s) (responding : s.phase = .responding true) :
    ∃ line, lastLine trace = some line ∧ env.decode line = .ok .shutdown := by
  induction h with
  | nil => cases responding
  | @snoc trace s t l run last ih =>
    cases last with
    | acceptFailed | readFailed =>
      rw [lastLine_of_none _ rfl]
      exact ih responding
    | @request line accepting =>
      exact ⟨line, lastLine_request _ _, read_eq_responding_true responding⟩
    | background step other =>
      rw [lastLine_of_none _ rfl]
      exact ih responding
    | work working busy step own =>
      rw [lastLine_of_none _ rfl]
      exact ih responding
    | refused | begin | handled | shutdownAll | unlink => cases responding
    | @respond shutdown lost _ =>
      unfold Phase.responded at responding
      split at responding
      · cases responding
      · split at responding
        · cases responding
        · cases responding

/-- A step whose response is not the one to a `shutdown` goes the same way
when the response is delivered. -/
theorem Step.delivered {s t : State} {l : Label} (hs : Step env s l t)
    (h : l = .respond true → s.phase ≠ .responding true) : Step env s l.delivered t := by
  cases hs with
  | @respond shutdown lost responding =>
    have hsame : Phase.responded shutdown lost = Phase.responded shutdown false := by
      cases lost with
      | false => rfl
      | true =>
        cases shutdown with
        | false => rfl
        | true => exact absurd responding (h rfl)
    rw [hsame]
    exact .respond responding
  | acceptFailed accepting => exact .acceptFailed accepting
  | readFailed accepting => exact .readFailed accepting
  | request accepting => exact .request accepting
  | background step other => exact .background step other
  | refused handling refused => exact .refused handling refused
  | begin handling accepted step begins own => exact .begin handling accepted step begins own
  | work working busy step own => exact .work working busy step own
  | handled running done => exact .handled running done
  | shutdownAll leaving step => exact .shutdownAll leaving step
  | unlink detaching done => exact .unlink detaching done

theorem run_delivered {trace : List Label} {s : State} (h : Run (Step env) (init fs) trace s)
    (kept : NoShutdownLost env trace) :
    Run (Step env) (init fs) (trace.map Label.delivered) s := by
  induction h with
  | nil => exact .nil
  | snoc run last ih =>
    obtain ⟨hbefore, hlast⟩ := along_snoc.mp kept
    rw [List.map_append]
    refine (ih hbefore).snoc (last.delivered ?_)
    intro hlost hresponding
    obtain ⟨line, hline, hdecode⟩ := line_of_responding run hresponding
    exact hlast hlost line hline hdecode

/-! ## A delivered shutdown -/

def Phase.left : Phase → Bool
  | .leaving | .detaching | .stopped => true
  | _ => false

/-- `shutdown` is decided, or done. -/
def Phase.stops (phase : Phase) : Prop := phase = .responding true ∨ phase.left = true

theorem stops_step {s t : State} {l : Label} (hs : Step env s l t) (h : s.phase.stops)
    (delivered : l ≠ .respond true) : t.phase.stops := by
  have hbusy : ∀ {phase : Phase}, s.phase = phase → phase.left = false →
      phase ≠ .responding true → t.phase.stops := by
    intro phase heq hleft hresponding
    rcases h with h | h
    · exact absurd (heq.symm.trans h) hresponding
    · rw [heq, hleft] at h
      cases h
  cases hs with
  | acceptFailed | readFailed | background | work => exact h
  | request accepting => exact hbusy accepting rfl (fun heq => by cases heq)
  | refused handling => exact hbusy handling rfl (fun heq => by cases heq)
  | begin handling => exact hbusy handling rfl (fun heq => by cases heq)
  | handled running => exact hbusy running rfl (fun heq => by cases heq)
  | @respond shutdown lost responding =>
    cases lost with
    | true => exact absurd rfl delivered
    | false =>
      cases shutdown with
      | true => exact .inr rfl
      | false => exact hbusy responding rfl (fun heq => by cases heq)
  | shutdownAll | unlink => exact .inr rfl

/-- When all responses are delivered, a well-formed `shutdown` stops the
daemon. -/
theorem stops_of_delivered {trace : List Label} {s : State}
    (h : Run (Step env) (init fs) trace s) (delivered : ∀ l ∈ trace, l ≠ .respond true)
    {line : String} (request : .request line ∈ trace)
    (decoded : env.decode line = .ok .shutdown) : s.phase.stops := by
  induction h with
  | nil => exact absurd request List.not_mem_nil
  | @snoc trace s t l run last ih =>
    rcases List.mem_append.mp request with hmem | hmem
    · exact stops_step last
        (ih (fun l hl => delivered l (List.mem_append_left _ hl)) hmem) (delivered l (by simp))
    · obtain rfl := List.mem_singleton.mp hmem
      cases last with
      | request accepting =>
        refine .inl ?_
        show env.read line = _
        rw [Env.read, decoded]

theorem lost_response_iff {trace : List Label} {s : State}
    (h : Run (Step env) (init fs) trace s) :
    SameStates env fs trace s ↔ NoShutdownLost env trace := by
  constructor
  · intro hsame before l after heq hlost line hline hdecode
    subst hlost
    rw [List.append_cons] at heq
    subst heq
    obtain ⟨u, hrun, hafter⟩ := h.split
    have hdelivered := hsame _ _ u rfl hrun hafter
    have hstops : u.phase.stops := by
      refine stops_of_delivered hdelivered ?_ ?_ hdecode
      · intro l hl hfalse
        obtain ⟨l', -, rfl⟩ := List.mem_map.mp hl
        cases l' with
        | acceptFailed | readFailed | request | manager | handled | respond | unlink =>
          cases hfalse
      · have hmem := mem_of_lastLine hline
        exact List.mem_map.mpr ⟨_, List.mem_append_left _ hmem, rfl⟩
    have haccepting : u.phase = .accepting := by
      obtain ⟨t, -, hlast⟩ := hrun.last
      cases hlast with
      | respond => rfl
    rw [haccepting] at hstops
    rcases hstops with hstops | hstops
    · cases hstops
    · cases hstops
  · intro hkept before after t heq hrun _
    refine run_delivered hrun ?_
    intro before' l after' heq'
    exact hkept before' l (after' ++ after) (by rw [heq, heq', List.append_assoc, List.cons_append])

/-! ### A client that does not wait -/

def shutdownLine : String := "\x7b\"cmd\":\"shutdown\"\x7d"

/-- A decoder that knows one line. -/
def oneLine : Env :=
  { decode := fun line =>
      if line = shutdownLine then .ok .shutdown else .error "expected value at line 1 column 1"
    canonical := fun _ => none }

theorem decode_shutdownLine : oneLine.decode shutdownLine = .ok .shutdown := by
  simp [oneLine]

def answered (lost : Bool) : State :=
  { manager := Manager.init Fs.empty, phase := .responded true lost }

theorem shutdown_run (lost : Bool) :
    Run (Step oneLine) (init Fs.empty) [.request shutdownLine, .respond lost]
      (answered lost) := by
  have hread : oneLine.read shutdownLine = .responding true := by
    rw [Env.read, decode_shutdownLine]
  have hrequest := Run.nil.snoc (show Step oneLine (init Fs.empty) (.request shutdownLine) _ from
    .request rfl)
  exact hrequest.snoc (.respond hread)

theorem lost_response_shutdown :
    SameStates oneLine Fs.empty [.request shutdownLine, .respond true] (answered true) ↔
      NoShutdownLost oneLine [.request shutdownLine, .respond true] :=
  lost_response_iff (shutdown_run true)

/-- The client has sent a `shutdown` and gone away, and the daemon waits for
the next connection. -/
theorem shutdown_lost :
    Run (Step oneLine) (init Fs.empty) [.request shutdownLine, .respond true] (answered true) ∧
      (answered true).phase = .accepting ∧ (answered false).phase = .leaving ∧
      ¬ SameStates oneLine Fs.empty [.request shutdownLine, .respond true] (answered true) := by
  refine ⟨shutdown_run true, rfl, rfl, fun h => ?_⟩
  have hdelivered := h _ [] _ (List.append_nil _).symm (shutdown_run true) .nil
  have hstops := stops_of_delivered hdelivered (by simp [Label.delivered])
    (List.mem_cons_self : Label.request shutdownLine ∈ _) decode_shutdownLine
  rcases hstops with hstops | hstops
  · cases hstops
  · cases hstops

end Serve

end Ublkera
