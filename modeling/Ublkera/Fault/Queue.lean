import Ublkera.Fault.Perform

/-!
# The queues of the fault device

The queue handler of `ublkfault/src/main.rs` serves a request with `perform`,
or parks it.  A `thaw` command wakes the queues over an eventfd: each of them
drains the list of parked tags and releases what it has drained.

Every queue has its own thread and its own tags, with a descriptor and a
buffer for each.  The list of parked tags is shared, and so is the model.  A
handler is cut into its atomic actions, so any step of another thread may come
between two of them.

`Libublk` is what `complete_io_cmd_unified` makes of a tag, and `Completes` is
what the handler relies on.  `Numbered` and `ThawInv` hold over every run;
`Ublkera.Fault.Thaw` is about what a thaw releases.
-/

namespace Ublkera

namespace Fault

open LittleEndian WriteCache Trace

/-! ## The threads -/

/-- A descriptor of the driver, with the buffer of its tag. -/
structure Request where
  op : FaultOp := .read
  off : Nat := 0
  len : Nat := 0
  buf : Bytes := []
  deriving DecidableEq, Repr

/-- Who has the tag. -/
inductive Slot where
  /-- The driver. -/
  | free
  /-- The server, before its handler runs. -/
  | arrived
  /-- The handler. -/
  | handled
  | parked
  deriving DecidableEq, Repr

/-- An entry of the list of parked tags.  The source keeps the tag alone;
`queue` is where the request arrived. -/
structure Parked where
  queue : Nat
  tag : Nat
  deriving DecidableEq, Repr

/-- Where the thread of a queue stands. -/
inductive Pc where
  | idle
  /-- Before the tag goes on the list. -/
  | parking (tag : Nat)
  /-- The eventfd has been read. -/
  | woken
  /-- `thaw_result` has been loaded. -/
  | thawing (thaw : Int)
  /-- The loop over the drained tags. -/
  | releasing (thaw : Int) (tags : List Parked)
  deriving DecidableEq, Repr

/-- The one-shot poll of the eventfd. -/
inductive Poll where
  | armed
  | fired
  | off
  deriving DecidableEq, Repr

structure Server where
  model : Model
  parked : List Parked
  thawResult : Int
  /-- The eventfd. -/
  efd : Nat
  /-- The `thaw` commands that have not written the eventfd yet. -/
  unsignalled : Nat
  slots : Nat → Nat → Slot
  requests : Nat → Nat → Request
  pcs : Nat → Pc
  polls : Nat → Poll

namespace Server

def setSlot (s : Server) (q t : Nat) (slot : Slot) : Server :=
  { s with slots := Function.update s.slots q (Function.update (s.slots q) t slot) }

def setRequest (s : Server) (q t : Nat) (req : Request) : Server :=
  { s with requests := Function.update s.requests q (Function.update (s.requests q) t req) }

def setPc (s : Server) (q : Nat) (pc : Pc) : Server :=
  { s with pcs := Function.update s.pcs q pc }

def setPoll (s : Server) (q : Nat) (poll : Poll) : Server :=
  { s with polls := Function.update s.polls q poll }

end Server

/-- `complete_io_cmd_unified`: who has the tag after it, or that it fails, on
which the handler panics. -/
structure Libublk where
  complete : Slot → Option Slot

/-- What the handler relies on: the completion is taken, and a tag that the
server has goes back to the driver. -/
structure Libublk.Completes (lib : Libublk) : Prop where
  taken : ∀ slot, lib.complete slot ≠ none
  handled : lib.complete .handled = some .free
  parked : lib.complete .parked = some .free

/-- Every completion is taken; a command that is still in the ring stays
there. -/
def Libublk.taking : Libublk := ⟨fun slot => some (if slot = .arrived then .arrived else .free)⟩

theorem Libublk.taking_completes : Libublk.taking.Completes := ⟨nofun, rfl, rfl⟩

inductive QueueLabel where
  | arrive (q t : Nat) (req : Request)
  | serve (q t : Nat) (res : Int)
  | hang (q t : Nat)
  | park (q t : Nat)
  | thaw (res : Int)
  | signal
  | wake (q : Nat)
  | load (q : Nat)
  | drain (q : Nat)
  | release (q t : Nat) (res : Int)
  | rearm (q : Nat)
  /-- A `crash` or a `set`. -/
  | control (c : Call)
  deriving DecidableEq

inductive QueueStep (lib : Libublk) (queues : Nat) : Server → QueueLabel → Server → Prop where
  /-- The driver hands a request to a queue. -/
  | arrive {s : Server} {q t : Nat} {req : Request} (queue : q < queues)
      (free : s.slots q t = .free) :
      QueueStep lib queues s (.arrive q t req) ((s.setSlot q t .arrived).setRequest q t req)
  | serve {s : Server} {q t : Nat} {res : Int} {buf : Bytes} {m : Model} {slot : Slot}
      (idle : s.pcs q = .idle) (arrived : s.slots q t = .arrived)
      (decided : s.model.hang.1 = false)
      (performed : perform s.model.hang.2 (s.requests q t).op (s.requests q t).off
        (s.requests q t).len (s.requests q t).buf = some (res, buf, m))
      (completed : lib.complete .handled = some slot) :
      QueueStep lib queues s (.serve q t res)
        ({ s with model := m }.setSlot q t slot |>.setRequest q t
          { s.requests q t with buf })
  | hang {s : Server} {q t : Nat} (idle : s.pcs q = .idle) (arrived : s.slots q t = .arrived)
      (decided : s.model.hang.1 = true) :
      QueueStep lib queues s (.hang q t)
        ({ s with model := s.model.hang.2 }.setSlot q t .handled |>.setPc q (.parking t))
  | park {s : Server} {q t : Nat} (parking : s.pcs q = .parking t) :
      QueueStep lib queues s (.park q t)
        ({ s with parked := s.parked ++ [Parked.mk q t] }.setSlot q t .parked |>.setPc q .idle)
  /-- The control thread stores the result of a thaw: 0, or `-EIO`. -/
  | thaw {s : Server} {res : Int} (result : res = 0 ∨ res = negEio) :
      QueueStep lib queues s (.thaw res)
        { s with thawResult := res, unsignalled := s.unsignalled + 1 }
  /-- It writes the eventfd, and the armed polls complete. -/
  | signal {s : Server} (pending : 0 < s.unsignalled) :
      QueueStep lib queues s .signal
        { s with
          unsignalled := s.unsignalled - 1
          efd := s.efd + 1
          polls := fun q => if s.polls q = .armed then .fired else s.polls q }
  | wake {s : Server} {q : Nat} (idle : s.pcs q = .idle) (fired : s.polls q = .fired) :
      QueueStep lib queues s (.wake q) ({ s with efd := 0 }.setPoll q .off |>.setPc q .woken)
  | load {s : Server} {q : Nat} (woken : s.pcs q = .woken) :
      QueueStep lib queues s (.load q) (s.setPc q (.thawing s.thawResult))
  | drain {s : Server} {q : Nat} {thaw : Int} (thawing : s.pcs q = .thawing thaw) :
      QueueStep lib queues s (.drain q)
        ({ s with parked := [] }.setPc q (.releasing thaw s.parked))
  /-- The tag is looked up among the tags of the queue that has drained it. -/
  | releaseOk {s : Server} {q : Nat} {p : Parked} {rest : List Parked} {res : Int} {buf : Bytes}
      {m : Model} {slot : Slot} (releasing : s.pcs q = .releasing 0 (p :: rest))
      (performed : perform s.model (s.requests q p.tag).op (s.requests q p.tag).off
        (s.requests q p.tag).len (s.requests q p.tag).buf = some (res, buf, m))
      (completed : lib.complete (s.slots q p.tag) = some slot) :
      QueueStep lib queues s (.release q p.tag res)
        ({ s with model := m }.setSlot q p.tag slot |>.setRequest q p.tag
          { s.requests q p.tag with buf } |>.setPc q (.releasing 0 rest))
  | releaseFailed {s : Server} {q : Nat} {p : Parked} {rest : List Parked} {thaw : Int}
      {slot : Slot} (releasing : s.pcs q = .releasing thaw (p :: rest)) (failed : thaw ≠ 0)
      (completed : lib.complete (s.slots q p.tag) = some slot) :
      QueueStep lib queues s (.release q p.tag thaw)
        (s.setSlot q p.tag slot |>.setPc q (.releasing thaw rest))
  | rearm {s : Server} {q : Nat} {thaw : Int} (done : s.pcs q = .releasing thaw []) :
      QueueStep lib queues s (.rearm q)
        (s.setPc q .idle |>.setPoll q (if 0 < s.efd then .fired else .armed))
  | control {s : Server} {c : Call} {reply : Reply} {m : Model}
      (command : (∃ mode, c = .crash mode) ∨ ∃ policy, c = .setPolicy policy)
      (done : s.model.call c = some (reply, m)) :
      QueueStep lib queues s (.control c) { s with model := m }

/-- A device that has just been started. -/
def Server.init (queues : Nat) (model : Model) : Server :=
  { model, parked := [], thawResult := 0, efd := 0, unsignalled := 0
    slots := fun _ _ => .free
    requests := fun _ _ => {}
    pcs := fun _ => .idle
    polls := fun q => if q < queues then .armed else .off }

/-! ## Looking at the threads -/

/-- The thread is in the handler of the eventfd. -/
def Pc.thaws : Pc → Bool
  | .woken | .thawing _ | .releasing _ _ => true
  | .idle | .parking _ => false

/-- The result that the thread has loaded. -/
def Pc.loaded : Pc → Option Int
  | .thawing thaw | .releasing thaw _ => some thaw
  | .idle | .parking _ | .woken => none

theorem slots_setSlot (s : Server) (q t q' t' : Nat) (slot : Slot) :
    (s.setSlot q t slot).slots q' t'
      = if q' = q ∧ t' = t then slot else s.slots q' t' := by
  by_cases hq : q' = q
  · subst hq
    by_cases ht : t' = t
    · subst ht
      simp [Server.setSlot]
    · simp [Server.setSlot, ht]
  · simp [Server.setSlot, hq]

theorem pcs_setPc (s : Server) (q q' : Nat) (pc : Pc) :
    (s.setPc q pc).pcs q' = if q' = q then pc else s.pcs q' := by
  by_cases hq : q' = q
  · subst hq
    simp [Server.setPc]
  · simp [Server.setPc, hq]

theorem requests_setRequest (s : Server) (q t q' t' : Nat) (req : Request) :
    (s.setRequest q t req).requests q' t'
      = if q' = q ∧ t' = t then req else s.requests q' t' := by
  by_cases hq : q' = q
  · subst hq
    by_cases ht : t' = t
    · subst ht
      simp [Server.setRequest]
    · simp [Server.setRequest, ht]
  · simp [Server.setRequest, hq]

variable {lib : Libublk} {queues : Nat}

/-! ## The queues of the device -/

/-- Only the queues of the device do anything. -/
structure Numbered (queues : Nat) (s : Server) : Prop where
  slots : ∀ q t, s.slots q t ≠ .free → q < queues
  pcs : ∀ q, s.pcs q ≠ .idle → q < queues
  polls : ∀ q, s.polls q ≠ .off → q < queues
  parked : ∀ p, p ∈ s.parked → p.queue < queues

theorem Numbered.setSlot {s : Server} (h : Numbered queues s) {q : Nat}
    (hq : q < queues) (t : Nat) (slot : Slot) : Numbered queues (s.setSlot q t slot) := by
  refine ⟨fun q' t' hslot => ?_, h.pcs, h.polls, h.parked⟩
  rw [slots_setSlot] at hslot
  split at hslot
  · rename_i heq
    rw [heq.1]
    exact hq
  · exact h.slots q' t' hslot

theorem Numbered.setPc {s : Server} (h : Numbered queues s) {q : Nat}
    (hq : q < queues) (pc : Pc) : Numbered queues (s.setPc q pc) := by
  refine ⟨h.slots, fun q' hpc => ?_, h.polls, h.parked⟩
  rw [pcs_setPc] at hpc
  split at hpc
  · rename_i heq
    rw [heq]
    exact hq
  · exact h.pcs q' hpc

theorem Numbered.setPoll {s : Server} (h : Numbered queues s) {q : Nat}
    (hq : q < queues) (poll : Poll) : Numbered queues (s.setPoll q poll) := by
  refine ⟨h.slots, h.pcs, fun q' hpoll => ?_, h.parked⟩
  by_cases heq : q' = q
  · rw [heq]
    exact hq
  · rw [show (s.setPoll q poll).polls q' = s.polls q' from Function.update_of_ne heq _ _] at hpoll
    exact h.polls q' hpoll

theorem Numbered.congr {s s' : Server} (h : Numbered queues s)
    (hslots : s'.slots = s.slots) (hpcs : s'.pcs = s.pcs) (hpolls : s'.polls = s.polls)
    (hparked : ∀ p, p ∈ s'.parked → p.queue < queues) : Numbered queues s' :=
  ⟨hslots ▸ h.slots, hpcs ▸ h.pcs, hpolls ▸ h.polls, hparked⟩

theorem Numbered.step {s s' : Server} {l : QueueLabel} (h : Numbered queues s)
    (hs : QueueStep lib queues s l s') : Numbered queues s' := by
  cases hs with
  | @arrive q t req queue free =>
    exact (h.setSlot queue t .arrived).congr rfl rfl rfl h.parked
  | @serve q t res buf m slot idle arrived decided performed completed =>
    have hq := h.slots q t (by rw [arrived]; nofun)
    exact (h.setSlot hq t slot).congr rfl rfl rfl h.parked
  | @hang q t idle arrived decided =>
    have hq := h.slots q t (by rw [arrived]; nofun)
    exact ((h.setSlot hq t .handled).setPc hq (.parking t)).congr rfl rfl rfl h.parked
  | @park q t parking =>
    have hq := h.pcs q (by rw [parking]; nofun)
    refine ((h.setSlot hq t .parked).setPc hq .idle).congr rfl rfl rfl fun p hp => ?_
    rcases List.mem_append.mp hp with hp | hp
    · exact h.parked p hp
    · rw [List.mem_singleton.mp hp]
      exact hq
  | thaw | control => exact h.congr rfl rfl rfl h.parked
  | signal pending =>
    refine ⟨h.slots, h.pcs, fun q hpoll => ?_, h.parked⟩
    refine h.polls q fun hoff => hpoll ?_
    show (if s.polls q = .armed then Poll.fired else s.polls q) = .off
    rw [hoff, if_neg (by nofun)]
  | @wake q idle fired =>
    have hq := h.polls q (by rw [fired]; nofun)
    exact ((h.setPoll hq .off).setPc hq .woken).congr rfl rfl rfl h.parked
  | @load q woken =>
    have hq := h.pcs q (by rw [woken]; nofun)
    exact h.setPc hq _
  | @drain q thaw thawing =>
    have hq := h.pcs q (by rw [thawing]; nofun)
    exact (h.setPc hq (.releasing thaw s.parked)).congr rfl rfl rfl nofun
  | @releaseOk q p rest res buf m slot releasing performed completed =>
    have hq := h.pcs q (by rw [releasing]; nofun)
    exact ((h.setSlot hq p.tag _).setPc hq (.releasing 0 rest)).congr rfl rfl rfl h.parked
  | @releaseFailed q p rest thaw slot releasing failed completed =>
    have hq := h.pcs q (by rw [releasing]; nofun)
    exact ((h.setSlot hq p.tag _).setPc hq (.releasing thaw rest)).congr rfl rfl rfl h.parked
  | @rearm q thaw done =>
    have hq := h.pcs q (by rw [done]; nofun)
    exact (h.setPc hq .idle).setPoll hq _

theorem numbered_init (model : Model) : Numbered queues (.init queues model) := by
  refine ⟨fun _ _ hfree => (hfree rfl).elim, fun _ hidle => (hidle rfl).elim, fun q hpoll => ?_,
    nofun⟩
  by_cases hq : q < queues
  · exact hq
  · exact (hpoll (if_neg hq)).elim

/-! ## The eventfd -/

/-- A poll is off as long as the handler of the eventfd runs, and the results
of a thaw are 0 and `-EIO`. -/
structure ThawInv (queues : Nat) (s : Server) : Prop where
  off : ∀ q, (s.pcs q).thaws = true → s.polls q = .off
  on : ∀ q, q < queues → s.polls q = .off → (s.pcs q).thaws = true
  result : s.thawResult = 0 ∨ s.thawResult = negEio
  loaded : ∀ q thaw, (s.pcs q).loaded = some thaw → thaw = 0 ∨ thaw = negEio

theorem thawInv_init (model : Model) : ThawInv queues (.init queues model) := by
  refine ⟨nofun, fun q hq hoff => ?_, Or.inl rfl, nofun⟩
  rw [show (Server.init queues model).polls q = .armed from if_pos hq] at hoff
  cases hoff

theorem ThawInv.congr {s s' : Server} (h : ThawInv queues s) (hpcs : s'.pcs = s.pcs)
    (hpolls : s'.polls = s.polls) (hresult : s'.thawResult = s.thawResult) :
    ThawInv queues s' :=
  ⟨hpcs ▸ hpolls ▸ h.off, hpcs ▸ hpolls ▸ h.on, hresult ▸ h.result, hpcs ▸ h.loaded⟩

/-- A thread goes on that stays in the handler, or out of it. -/
theorem ThawInv.setPc {s : Server} (h : ThawInv queues s) {q : Nat} {pc : Pc}
    (hthaws : pc.thaws = (s.pcs q).thaws)
    (hloaded : ∀ thaw, pc.loaded = some thaw → thaw = 0 ∨ thaw = negEio) :
    ThawInv queues (s.setPc q pc) := by
  have hsame : ∀ q', ((s.setPc q pc).pcs q').thaws = (s.pcs q').thaws := by
    intro q'
    rw [pcs_setPc]
    split
    · rename_i hq
      rw [hq]
      exact hthaws
    · rfl
  refine ⟨?_, ?_, h.result, ?_⟩
  · intro q' hq'
    rw [hsame] at hq'
    exact h.off q' hq'
  · intro q' hq' hoff
    rw [hsame]
    exact h.on q' hq' hoff
  · intro q' thaw hq'
    rw [pcs_setPc] at hq'
    split at hq'
    · exact hloaded thaw hq'
    · exact h.loaded q' thaw hq'

/-- A thread goes into the handler, or out of it. -/
theorem ThawInv.turn {s s' : Server} (h : ThawInv queues s) {q : Nat} {pc : Pc} {poll : Poll}
    (hpcs : s'.pcs = (s.setPc q pc).pcs) (hpolls : s'.polls = (s.setPoll q poll).polls)
    (hresult : s'.thawResult = s.thawResult) (hloaded : pc.loaded = none)
    (hpoll : pc.thaws = true ↔ poll = .off) : ThawInv queues s' := by
  have hpc : ∀ q', s'.pcs q' = if q' = q then pc else s.pcs q' := by
    intro q'
    rw [hpcs, pcs_setPc]
  have hpolled : ∀ q', s'.polls q' = if q' = q then poll else s.polls q' := by
    intro q'
    rw [hpolls]
    exact Function.update_apply ..
  refine ⟨?_, ?_, hresult ▸ h.result, ?_⟩
  · intro q' hq'
    rw [hpc] at hq'
    rw [hpolled]
    split
    · rename_i heq
      rw [if_pos heq] at hq'
      exact hpoll.mp hq'
    · rename_i hne
      rw [if_neg hne] at hq'
      exact h.off q' hq'
  · intro q' hq' hoff
    rw [hpolled] at hoff
    rw [hpc]
    split
    · rename_i heq
      rw [if_pos heq] at hoff
      exact hpoll.mpr hoff
    · rename_i hne
      rw [if_neg hne] at hoff
      exact h.on q' hq' hoff
  · intro q' thaw hq'
    rw [hpc] at hq'
    split at hq'
    · rw [hloaded] at hq'
      cases hq'
    · exact h.loaded q' thaw hq'

theorem ThawInv.step {s s' : Server} {l : QueueLabel} (h : ThawInv queues s)
    (hs : QueueStep lib queues s l s') : ThawInv queues s' := by
  cases hs with
  | arrive | serve | control => exact h.congr rfl rfl rfl
  | @hang q t idle arrived decided =>
    have hpc : ThawInv queues (s.setPc q (.parking t)) := h.setPc (by rw [idle]; rfl) nofun
    exact hpc.congr rfl rfl rfl
  | @park q t parking =>
    have hpc : ThawInv queues (s.setPc q .idle) := h.setPc (by rw [parking]; rfl) nofun
    exact hpc.congr rfl rfl rfl
  | thaw result => exact ⟨h.off, h.on, result, h.loaded⟩
  | signal pending =>
    refine ⟨?_, ?_, h.result, h.loaded⟩
    · intro q hq
      show (if s.polls q = .armed then Poll.fired else s.polls q) = .off
      rw [h.off q hq, if_neg (by nofun)]
    · intro q hq hoff
      refine h.on q hq ?_
      have hpoll : (if s.polls q = .armed then Poll.fired else s.polls q) = .off := hoff
      split at hpoll
      · cases hpoll
      · exact hpoll
  | wake idle fired => exact h.turn rfl rfl rfl rfl (iff_of_true rfl rfl)
  | @load q woken =>
    refine h.setPc (by rw [woken]; rfl) fun thaw hthaw => ?_
    rw [← Option.some.inj hthaw]
    exact h.result
  | @drain q thaw thawing =>
    have hpc : ThawInv queues (s.setPc q (.releasing thaw s.parked)) :=
      h.setPc (by rw [thawing]; rfl) fun thaw' hthaw' =>
        h.loaded q thaw' (by rw [thawing]; exact hthaw')
    exact hpc.congr rfl rfl rfl
  | @releaseOk q p rest res buf m slot releasing performed completed =>
    have hpc : ThawInv queues (s.setPc q (.releasing 0 rest)) :=
      h.setPc (by rw [releasing]; rfl) fun thaw hthaw =>
        h.loaded q thaw (by rw [releasing]; exact hthaw)
    exact hpc.congr rfl rfl rfl
  | @releaseFailed q p rest thaw slot releasing failed completed =>
    have hpc : ThawInv queues (s.setPc q (.releasing thaw rest)) :=
      h.setPc (by rw [releasing]; rfl) fun thaw' hthaw' =>
        h.loaded q thaw' (by rw [releasing]; exact hthaw')
    exact hpc.congr rfl rfl rfl
  | @rearm q thaw done =>
    refine h.turn rfl rfl rfl rfl (iff_of_false nofun ?_)
    split
    · nofun
    · nofun

end Fault

end Ublkera
