import Ublkera.Fault.Loss
import Ublkera.Fault.Perform
import Ublkera.Fault.Refinement
import Ublkera.Target.Acking

/-!
# FLUSH through the sandwich

`ublkera` over the fault device: the tags of `Io.Step`, with a buffer for each
of them, over the model.  A backing IO arrives as one request of the same
range, and its result comes back to the tag.  Between any two steps the era
may be closed, and a command may crash the device or set its policy, as long
as no flush lies.

A WRITE passes through four stages on its way to the committed array, and the
invariant of each is kept by every step of every other tag:

* the tag of the WRITE is serving it: if its result is a full success, the
  data is in the view;
* the WRITE is acked, and the data is in the view;
* the tag of a FLUSH is serving it: when its result is there, the data is
  durable;
* the FLUSH is acked, and the data is durable, over crashes too.

`flush_durable` puts the stages together.
-/

namespace Ublkera

namespace Fault

open LittleEndian WriteCache Trace

variable {size lbs cacheCap : Nat}

/-! ## The two devices -/

structure Sandwich (size lbs cacheCap : Nat) where
  io : IoState (Disk size lbs cacheCap)
  bufs : Tag → Bytes
  /-- The result of the request that a tag has at the fault device. -/
  results : Tag → Option Int

/-- The steps of `ublkera` that the backing has no part in. -/
def inTarget : Io.Label → Bool
  | .markLoad _ | .markStamp _ | .markCheck _ | .ack _ => true
  | _ => false

inductive SandwichLabel where
  /-- The driver has filled the buffer. -/
  | fetch (t : Tag) (iod : IoDesc) (buf : Bytes)
  | io (l : Io.Label)
  /-- A checkpoint of any client. -/
  | checkpoint
  /-- A command, or a decision to park, of the fault device. -/
  | call (c : Call)
  deriving DecidableEq

/-- The calls that come between two requests.  No policy lies about a
flush. -/
def Call.Honest : Call → Prop
  | .crash _ | .hang => True
  | .setPolicy policy => policy.flushLiePm = 0
  | _ => False

inductive SandwichStep :
    Sandwich size lbs cacheCap → SandwichLabel → Sandwich size lbs cacheCap → Prop where
  | fetch {s : Sandwich size lbs cacheCap} {t : Tag} {iod : IoDesc} {buf : Bytes}
      {io : IoState (Disk size lbs cacheCap)}
      (step : Io.Step (faultBacking size lbs cacheCap) s.io (.fetch t iod) io) :
      SandwichStep s (.fetch t iod buf)
        { io, bufs := Function.update s.bufs t buf, results := Function.update s.results t none }
  /-- The request is performed, once for each submission. -/
  | land {s : Sandwich size lbs cacheCap} {t : Tag} {iod : IoDesc} {sqe : Sqe} {op : FaultOp}
      {off len : Nat} {res : Int} {buf : Bytes} {disk : Disk size lbs cacheCap}
      (backend : s.io.tags t = .backend iod sqe) (once : s.results t = none)
      (arrives : Arrives sqe op off len)
      (serves : s.io.medium.Serves op off len (s.bufs t) res buf disk) :
      SandwichStep s (.io (.land t))
        { io := { s.io with medium := disk }
          bufs := Function.update s.bufs t buf
          results := Function.update s.results t (some res) }
  /-- A completion has the result of the request, unless it is an EAGAIN. -/
  | cqe {s : Sandwich size lbs cacheCap} {t : Tag} {res : Int}
      {io : IoState (Disk size lbs cacheCap)}
      (step : Io.Step (faultBacking size lbs cacheCap) s.io (.cqe t res) io)
      (returned : res ≠ negEAGAIN → s.results t = some res) :
      SandwichStep s (.io (.cqe t res))
        { s with io, results := Function.update s.results t none }
  | target {s : Sandwich size lbs cacheCap} {l : Io.Label} {io : IoState (Disk size lbs cacheCap)}
      (step : Io.Step (faultBacking size lbs cacheCap) s.io l io) (own : inTarget l = true) :
      SandwichStep s (.io l) { s with io }
  | checkpoint {s : Sandwich size lbs cacheCap} :
      SandwichStep s .checkpoint { s with io := { s.io with map := s.io.map.checkpoint.1 } }
  | call {s : Sandwich size lbs cacheCap} {c : Call} {reply : Reply}
      {disk : Disk size lbs cacheCap} (honest : c.Honest)
      (done : s.io.medium.model.call c = some (reply, disk.model)) :
      SandwichStep s (.call c) { s with io := { s.io with medium := disk } }

/-- The model of the fault device. -/
def Sandwich.model (s : Sandwich size lbs cacheCap) : Model := s.io.medium.model

/-- No tag has a command yet. -/
def Sandwich.start (map : EraState) (disk : Disk size lbs cacheCap) : Sandwich size lbs cacheCap :=
  { io := { map, medium := disk, tags := fun _ => .idle }
    bufs := fun _ => []
    results := fun _ => none }

/-- A request that lands is what `Io.Step` lets a backing IO do. -/
theorem io_step_land {s : Sandwich size lbs cacheCap} {t : Tag} {iod : IoDesc} {sqe : Sqe}
    {op : FaultOp} {off len : Nat} {res : Int} {buf : Bytes} {disk : Disk size lbs cacheCap}
    (backend : s.io.tags t = .backend iod sqe) (arrives : Arrives sqe op off len)
    (serves : s.io.medium.Serves op off len (s.bufs t) res buf disk) :
    Io.Step (faultBacking size lbs cacheCap) s.io (.land t) { s.io with medium := disk } :=
  .land backend ⟨op, off, len, s.bufs t, res, buf, arrives, serves⟩

/-! ## What every step keeps -/

/-- The command of a backing IO is in the device, and is the one that the IO
was made for. -/
def Backed {D : Type} (io : IoState D) : Prop :=
  ∀ t iod sqe, io.tags t = .backend iod sqe →
    iod.InDevice io.map.devSize ∧ makeSqe iod.op iod.off iod.bytes = some sqe

theorem Backed.update {D : Type} {io : IoState D} (h : Backed io) {map : EraState} (medium : D)
    (hsize : map.devSize = io.map.devSize) (t : Tag) {phase : TagPhase}
    (hphase : ∀ iod sqe, phase = .backend iod sqe →
      iod.InDevice map.devSize ∧ makeSqe iod.op iod.off iod.bytes = some sqe) :
    Backed { map, medium, tags := Function.update io.tags t phase } := by
  intro u iod sqe hu
  by_cases hut : u = t
  · subst hut
    exact hphase iod sqe ((Function.update_self ..).symm.trans hu)
  · obtain ⟨hin, hsqe⟩ := h u iod sqe ((Function.update_of_ne hut _ _).symm.trans hu)
    exact ⟨hsize ▸ hin, hsqe⟩

theorem Backed.step {D : Type} {B : Backing D} {io io' : IoState D} {l : Io.Label}
    (h : Backed io) (hs : Io.Step B io l io') : Backed io' := by
  -- only an action of the handler submits a backing IO
  have haction : ∀ {iod : IoDesc} (cqe : Option Int), iod.InDevice io.map.devSize →
      ∀ iod' sqe, (handleIoCmd iod cqe).phase io.map iod = .backend iod' sqe →
        iod'.InDevice io.map.devSize ∧ makeSqe iod'.op iod'.off iod'.bytes = some sqe := by
    intro iod cqe hin iod' sqe hphase
    have hinv := Io.phaseInv_action hin cqe
    rw [hphase] at hinv
    exact hinv
  cases hs with
  | @fetch t iod idle inDevice => exact h.update _ rfl t (haction none inDevice)
  | land backend lands => exact h
  | @cqe t iod sqe res backend =>
    exact h.update _ rfl t (haction (some res) (h t iod sqe backend).1)
  | @markLoad t | @markStamp t | @ack t => exact h.update io.medium rfl t nofun
  | @markCheck t =>
    refine h.update _ rfl t fun iod' sqe hphase => ?_
    split at hphase
    · cases hphase
    · cases hphase

structure Sound (s : Sandwich size lbs cacheCap) : Prop where
  devSize : s.io.map.devSize.toNat = size
  backed : Backed s.io
  /-- The fault device lies about no flush. -/
  honest : s.model.policy.flushLiePm = 0

theorem sound_start {map : EraState} {disk : Disk size lbs cacheCap}
    (hsize : map.devSize.toNat = size) (honest : disk.model.policy.flushLiePm = 0) :
    Sound (.start map disk) :=
  ⟨hsize, nofun, honest⟩

theorem Sound.lies {s : Sandwich size lbs cacheCap} (h : Sound s) : s.model.lies = false := by
  unfold Model.lies Rng.hit
  rw [h.honest]
  rfl

/-- The calls of `Call.Honest`: one that crashes, and the others. -/
theorem honest_call {m m' : Model} {c : Call} {reply : Reply} (h : m.Valid) (honest : c.Honest)
    (hpolicy : m.policy.flushLiePm = 0) (done : m.call c = some (reply, m')) :
    m'.policy.flushLiePm = 0 ∧ ∃ ev, Cache.Step m.lbs m.cache ev m'.cache ∧
      (∀ e, ev ≠ .push e) ∧ (c.isCrash = false → ev.isLoss = false) := by
  have hin : c.InRange m.committed.length := by
    cases c with
    | crash | hang | setPolicy => trivial
    | read | write | discard | flush => exact honest.elim
  obtain ⟨ev, hstepped⟩ := Model.step_spec h (ran c reply hin done)
  refine ⟨?_, ev, hstepped.step, ?_, ?_⟩
  · cases c with
    | setPolicy policy =>
      obtain ⟨-, rfl⟩ := Prod.mk.inj (Option.some.inj done)
      exact honest
    | crash | hang =>
      rw [hstepped.policy nofun]
      exact hpolicy
    | read | write | discard | flush => exact honest.elim
  · intro e he
    have hdoes := hstepped.does
    rw [he] at hdoes
    cases c with
    | crash mode =>
      obtain ⟨parts, hparts, -⟩ := hdoes
      cases hparts
    | hang | setPolicy => cases hdoes
    | read | write | discard | flush => exact honest.elim
  · intro hcrash
    have hdoes := hstepped.does
    cases c with
    | crash => cases hcrash
    | hang | setPolicy =>
      obtain rfl : ev = .keep := hdoes
      rfl
    | read | write | discard | flush => exact honest.elim

def SandwichLabel.isCrash : SandwichLabel → Bool
  | .call c => c.isCrash
  | _ => false

/-- The command has no byte in the range. -/
def Misses (i j : Nat) (iod : IoDesc) : Prop :=
  iod.off.toNat + iod.bytes.toNat ≤ i ∨ j ≤ iod.off.toNat

/-- What an action does to the cache.  It is a loss only in a crash, and a
write only when a data-changing command lands. -/
structure Does (s : Sandwich size lbs cacheCap) (l : SandwichLabel) (ev : Event)
    (s' : Sandwich size lbs cacheCap) : Prop where
  step : Cache.Step s.model.lbs s.model.cache ev s'.model.cache
  loss : l.isCrash = false → ev.isLoss = false
  push : ∀ e, ev = .push e → ∃ t iod sqe, l = .io (.land t) ∧
    s.io.tags t = .backend iod sqe ∧ iod.op.changesData = true ∧
      ∀ i j, Misses i j iod → e.Misses i j

/-- The range of a request is inside the range of its command. -/
theorem arrives_within {iod : IoDesc} {sqe : Sqe} {op : FaultOp} {off len : Nat}
    (hsqe : makeSqe iod.op iod.off iod.bytes = some sqe) (arrives : Arrives sqe op off len)
    (hop : op.changesData = true) :
    iod.op.changesData = true ∧ off = iod.off.toNat ∧ len ≤ iod.bytes.toNat := by
  have hlen : iod.bytes.toUInt32.toNat ≤ iod.bytes.toNat := by
    rw [UInt64.toNat_toUInt32]
    exact Nat.mod_le _ _
  cases hiod : iod.op with
  | unsupported => simp [makeSqe, hiod] at hsqe
  | read =>
    simp only [makeSqe, hiod, Option.some.injEq] at hsqe
    subst hsqe
    cases arrives with
    | read => cases hop
  | flush =>
    simp only [makeSqe, hiod, Option.some.injEq] at hsqe
    subst hsqe
    cases arrives with
    | flush => cases hop
  | write =>
    simp only [makeSqe, hiod, Option.some.injEq] at hsqe
    subst hsqe
    cases arrives with
    | write => exact ⟨rfl, rfl, hlen⟩
  | discard =>
    simp only [makeSqe, hiod, Option.some.injEq] at hsqe
    subst hsqe
    cases arrives with
    | discard | writeZeroes => exact ⟨rfl, rfl, Nat.le_refl _⟩

/-- Every step keeps what is sound, and does one thing to the cache. -/
theorem Sound.step {s s' : Sandwich size lbs cacheCap} {l : SandwichLabel} (h : Sound s)
    (hs : SandwichStep s l s') : Sound s' ∧ ∃ ev, Does s l ev s' := by
  obtain ⟨hsize, hbacked, honest⟩ := h
  cases hs with
  | @fetch t iod buf io step =>
    have hbacked' := hbacked.step step
    cases step with
    | fetch idle inDevice => exact ⟨⟨hsize, hbacked', honest⟩, .keep, .keep, fun _ => rfl, nofun⟩
  | @land t iod sqe op off len res buf disk backend once arrives serves =>
    obtain ⟨ev, hperformed⟩ := serves.spec
    obtain ⟨hin, hsqe⟩ := hbacked t iod sqe backend
    refine ⟨⟨hsize, hbacked.step (io_step_land backend arrives serves), ?_⟩, ev,
      hperformed.step, fun _ => hperformed.noLoss, ?_⟩
    · show disk.model.policy.flushLiePm = 0
      rw [hperformed.policy]
      exact honest
    · intro e he
      obtain ⟨hop, hlo, hhi⟩ := hperformed.within e he
      obtain ⟨hiod, hoff, hlen⟩ := arrives_within hsqe arrives hop
      refine ⟨t, iod, sqe, rfl, backend, hiod, fun i j hmisses => ?_⟩
      unfold Misses at hmisses
      unfold Entry.Misses
      omega
  | @cqe t res io step returned =>
    have hbacked' := hbacked.step step
    cases step with
    | cqe backend => exact ⟨⟨hsize, hbacked', honest⟩, .keep, .keep, fun _ => rfl, nofun⟩
  | @target l io step own =>
    have hbacked' := hbacked.step step
    cases step with
    | fetch | land | cqe => cases own
    | markLoad | markStamp | markCheck | ack =>
      exact ⟨⟨hsize, hbacked', honest⟩, .keep, .keep, fun _ => rfl, nofun⟩
  | checkpoint => exact ⟨⟨hsize, hbacked, honest⟩, .keep, .keep, fun _ => rfl, nofun⟩
  | @call c reply disk command done =>
    obtain ⟨hpolicy, ev, hstep, hpush, hloss⟩ :=
      honest_call s.io.medium.sized.valid command honest done
    exact ⟨⟨hsize, hbacked, hpolicy⟩, ev, hstep, hloss, fun e he => (hpush e he).elim⟩

/-! ## Tags -/

/-- No backing IO that the tag has in flight changes the range. -/
def Apart (i j : Nat) (s : Sandwich size lbs cacheCap) (t : Tag) : Prop :=
  ∀ iod sqe, s.io.tags t = .backend iod sqe → iod.op.changesData = true → Misses i j iod

/-- The label fetches no data-changing command that touches the range. -/
def SandwichLabel.Spares (i j : Nat) : SandwichLabel → Prop
  | .fetch _ iod _ => iod.op.changesData = true → Misses i j iod
  | _ => True

/-- A backing IO is submitted for a command that was fetched, or again. -/
theorem backend_of_step {D : Type} {B : Backing D} {io io' : IoState D} {l : Io.Label}
    (hs : Io.Step B io l io') {t : Tag} {iod : IoDesc} {sqe : Sqe}
    (h : io'.tags t = .backend iod sqe) :
    (∃ sqe, io.tags t = .backend iod sqe) ∨ l = .fetch t iod := by
  by_cases ht : t = l.tag
  · subst ht
    cases hs with
    | @fetch t iod' idle inDevice =>
      have hphase := (Function.update_self ..).symm.trans h
      obtain rfl := Io.eq_of_action_unmarked (congrArg TagPhase.unmarked hphase)
      exact Or.inr rfl
    | land => exact Or.inl ⟨sqe, h⟩
    | @cqe t iod' sqe' res backend =>
      have hphase := (Function.update_self ..).symm.trans h
      obtain rfl := Io.eq_of_action_unmarked (congrArg TagPhase.unmarked hphase)
      exact Or.inl ⟨sqe', backend⟩
    | markLoad | markStamp | ack => cases (Function.update_self ..).symm.trans h
    | markCheck =>
      have hphase := (Function.update_self ..).symm.trans h
      split at hphase
      · cases hphase
      · cases hphase
  · rw [Io.tags_of_ne hs ht] at h
    exact Or.inl ⟨sqe, h⟩

theorem Apart.step {s s' : Sandwich size lbs cacheCap} {l : SandwichLabel} {i j : Nat} {t : Tag}
    (h : Apart i j s t) (hs : SandwichStep s l s') (hspares : l.Spares i j) :
    Apart i j s' t := by
  intro iod sqe hbackend
  cases hs with
  | fetch step =>
    rcases backend_of_step step hbackend with ⟨sqe', hbackend'⟩ | hfetch
    · exact h iod sqe' hbackend'
    · obtain ⟨-, rfl⟩ := Io.Label.fetch.inj hfetch
      exact hspares
  | land | checkpoint | call => exact h iod sqe hbackend
  | cqe step returned =>
    rcases backend_of_step step hbackend with ⟨sqe', hbackend'⟩ | hfetch
    · exact h iod sqe' hbackend'
    · cases hfetch
  | target step own =>
    rcases backend_of_step step hbackend with ⟨sqe', hbackend'⟩ | hfetch
    · exact h iod sqe' hbackend'
    · subst hfetch
      cases own

/-- A tag that serves a command, and `P` of every result that it may complete
it with. -/
inductive Serving (iod : IoDesc) (P : Int → Prop) : TagPhase → Option Int → Prop where
  | backend {sqe : Sqe} {result : Option Int} (returned : ∀ res, result = some res → P res) :
      Serving iod P (.backend iod sqe) result
  | marking {res : Int} {first last : Nat} {pc : MarkPc} {result : Option Int} (final : P res) :
      Serving iod P (.marking iod res first last pc) result
  | acking {res : Int} {result : Option Int} (final : P res) :
      Serving iod P (.acking iod res) result

theorem Serving.mono {iod : IoDesc} {P P' : Int → Prop} {phase : TagPhase} {result : Option Int}
    (h : Serving iod P phase result) (hmono : ∀ res, P res → P' res) :
    Serving iod P' phase result := by
  cases h with
  | backend returned => exact .backend fun res hres => hmono res (returned res hres)
  | marking final => exact .marking (hmono _ final)
  | acking final => exact .acking (hmono _ final)

theorem Serving.congr {iod : IoDesc} {P : Int → Prop} {phase phase' : TagPhase}
    {result result' : Option Int} (h : Serving iod P phase result) (hphase : phase' = phase)
    (hresult : result' = result) : Serving iod P phase' result' := by
  rw [hphase, hresult]
  exact h

/-- What the target makes of a result: it tries again, or it goes on with the
result. -/
theorem serving_returned {iod : IoDesc} {sqe : Sqe} {res : Int} {P : Int → Prop}
    (supported : makeSqe iod.op iod.off iod.bytes = some sqe) (map : EraState)
    (returned : res ≠ negEAGAIN → P res) :
    Serving iod P ((handleIoCmd iod (some res)).phase map iod) none := by
  by_cases hres : res = negEAGAIN
  · rw [hres, handleIoCmd_again supported]
    exact .backend (by intro _ hnone; cases hnone)
  · have hfinal := returned hres
    cases hop : iod.op.changesData with
    | false =>
      rw [handleIoCmd_unchanged hop hres]
      exact .acking hfinal
    | true =>
      rw [handleIoCmd_changed hop hres]
      unfold IoAction.phase
      cases map.markRange iod.off iod.bytes with
      | none => exact .acking hfinal
      | some range => exact .marking hfinal

/-- What a tag serves, and the results it may complete it with, over a step
that is not its own completion. -/
theorem Serving.step {s s' : Sandwich size lbs cacheCap} {l : SandwichLabel} {t : Tag}
    {iod : IoDesc} {P P' : Int → Prop} (hsound : Sound s)
    (h : Serving iod P (s.io.tags t) (s.results t)) (hs : SandwichStep s l s')
    (hack : l ≠ .io (.ack t)) (hmono : l ≠ .io (.land t) → ∀ res, P res → P' res)
    (hland : l = .io (.land t) → ∀ res, s'.results t = some res → P' res) :
    Serving iod P' (s'.io.tags t) (s'.results t) := by
  cases hs with
  | @fetch t' iod' buf io step =>
    have ht : t ≠ t' := by
      intro ht
      subst ht
      cases step with
      | fetch idle =>
        rw [idle] at h
        cases h
    have hP : ∀ res, P res → P' res := hmono (by intro heq; cases heq)
    exact (h.mono hP).congr (Io.tags_of_ne step ht) (Function.update_of_ne ht _ _)
  | @land t' iod' sqe op off len res buf disk backend once arrives serves =>
    by_cases ht : t = t'
    · subst ht
      rw [backend] at h
      show Serving iod P' (s.io.tags t) _
      rw [backend]
      cases h with
      | backend => exact .backend (hland rfl)
    · refine (h.mono (hmono fun heq => ht ?_)).congr rfl (Function.update_of_ne ht _ _)
      exact (Io.Label.land.inj (SandwichLabel.io.inj heq)).symm
  | @cqe t' res io step returned =>
    have hP : ∀ res, P res → P' res := hmono (by intro heq; cases heq)
    by_cases ht : t = t'
    · subst ht
      show Serving iod P' (io.tags t) (Function.update s.results t none t)
      rw [Function.update_self]
      cases step with
      | @cqe _ iod' sqe _ backend =>
        have hsqe := (hsound.backed t iod' sqe backend).2
        rw [backend] at h
        show Serving iod P' (Function.update s.io.tags t _ t) none
        rw [Function.update_self]
        cases h with
        | backend hreturned =>
          exact serving_returned hsqe s.io.map fun hres => hP res (hreturned res (returned hres))
    · exact (h.mono hP).congr (Io.tags_of_ne step ht) (Function.update_of_ne ht _ _)
  | @target l io step own =>
    have hmono' : ∀ res, P res → P' res := hmono fun heq => by
      rw [SandwichLabel.io.inj heq] at own
      cases own
    by_cases ht : t = l.tag
    · subst ht
      cases step with
      | fetch | land | cqe => cases own
      | @markLoad t iod' res first last marking =>
        rw [show s.io.tags (Io.Label.markLoad t).tag = _ from marking] at h
        show Serving iod P' (Function.update s.io.tags t _ t) _
        rw [Function.update_self]
        cases h with
        | marking final => exact .marking (hmono' _ final)
      | @markStamp t iod' res first last era i marking =>
        rw [show s.io.tags (Io.Label.markStamp t).tag = _ from marking] at h
        show Serving iod P' (Function.update s.io.tags t _ t) _
        rw [Function.update_self]
        cases h with
        | marking final => exact .marking (hmono' _ final)
      | @markCheck t iod' res first last era marking =>
        rw [show s.io.tags (Io.Label.markCheck t).tag = _ from marking] at h
        show Serving iod P' (Function.update s.io.tags t _ t) _
        rw [Function.update_self]
        cases h with
        | marking final =>
          split
          · exact .acking (hmono' _ final)
          · exact .marking (hmono' _ final)
      | ack => exact absurd rfl hack
    · exact (h.mono hmono').congr (Io.tags_of_ne step ht) rfl
  | checkpoint | call => exact h.mono (hmono (by intro heq; cases heq))

/-! ## The range -/

/-- Without a crash, what is read from a range stays until a command that
touches it lands. -/
theorem Sound.slice_view {s s' : Sandwich size lbs cacheCap} {l : SandwichLabel} {i j : Nat}
    (h : Sound s) (hj : j ≤ size) (hs : SandwichStep s l s') (hcrash : l.isCrash = false)
    (hapart : ∀ t, l = .io (.land t) → Apart i j s t) :
    slice s'.model.view i j = slice s.model.view i j := by
  obtain ⟨-, ev, hdoes⟩ := h.step hs
  refine Cache.slice_view_step s.io.medium.sized.valid.cache hdoes.step (hdoes.loss hcrash)
    (s.io.medium.sized.size.symm ▸ hj) fun e he => ?_
  obtain ⟨t, iod, sqe, hl, hbackend, hop, hmisses⟩ := hdoes.push e he
  exact hmisses i j (hapart t hl iod sqe hbackend hop)

/-- What is durable stays durable, over crashes too. -/
theorem Sound.durable {s s' : Sandwich size lbs cacheCap} {l : SandwichLabel} {i j : Nat}
    {value : Bytes} (h : Sound s) (hdurable : Durable i j value s.model.cache)
    (hs : SandwichStep s l s') (hapart : ∀ t, Apart i j s t) :
    Durable i j value s'.model.cache := by
  obtain ⟨-, ev, hdoes⟩ := h.step hs
  refine hdurable.step s.io.medium.sized.valid.cache (fun e he => ?_) hdoes.step
  obtain ⟨t, iod, sqe, -, hbackend, hop, hmisses⟩ := hdoes.push e he
  exact hmisses i j (hapart t iod sqe hbackend hop)

/-- A result that is the length of the command means that the length was not
cut to 32 bits. -/
theorem len_of_full {bytes : UInt64} (h : asI32 bytes.toUInt32.toNat = bytes.toNat) :
    bytes.toUInt32.toNat = bytes.toNat := by
  have hlt : asI32 bytes.toUInt32.toNat < (2 ^ 32 + 1) / 2 := Int.bmod_lt (by decide)
  rw [h] at hlt
  rw [UInt64.toNat_toUInt32]
  omega

/-- A WRITE that lands: with a full success, its data is in the view. -/
theorem land_write {s : Sandwich size lbs cacheCap} {t : Tag} {iod : IoDesc} {sqe : Sqe}
    {op : FaultOp} {off len i j : Nat} {res : Int} {buf : Bytes} {disk : Disk size lbs cacheCap}
    (h : Sound s) (hop : iod.op = .write) (backend : s.io.tags t = .backend iod sqe)
    (arrives : Arrives sqe op off len)
    (serves : s.io.medium.Serves op off len (s.bufs t) res buf disk)
    (hi : iod.off.toNat ≤ i) (hj : j ≤ iod.off.toNat + iod.bytes.toNat) :
    buf = s.bufs t ∧ (res = iod.bytes.toNat →
      slice disk.model.view i j
        = slice (s.bufs t) (i - iod.off.toNat) (j - iod.off.toNat)) := by
  have hsqe := (h.backed t iod sqe backend).2
  rw [hop] at hsqe
  obtain rfl := Option.some.inj hsqe
  cases arrives with
  | write =>
    have hin := serves.inRange
    rw [← s.io.medium.sized.size] at hin
    obtain ⟨hperformed, hbuf, hres⟩ :=
      performed_write s.io.medium.sized.valid hin serves.performed
    refine ⟨hbuf, fun hfull => ?_⟩
    rcases hres with ⟨-, hres⟩ | ⟨hres, hentered⟩
    · rw [hres] at hfull
      have hneg : negEio < 0 := by decide
      omega
    · have hlen := len_of_full (hres.symm.trans hfull)
      rw [hentered] at hperformed
      have hview : disk.model.view = overwrite s.model.view ⟨iod.off.toNat, _⟩ :=
        Cache.view_step hperformed.step rfl
      have hsize : s.model.view.length = s.model.committed.length :=
        overwriteAll_length s.io.medium.sized.valid.cache
      have hbufLen : ¬ (s.bufs t).length < iod.bytes.toUInt32.toNat := by
        intro hshort
        have hnone := serves.performed
        rw [perform, if_pos hshort] at hnone
        cases hnone
      have htake : ((s.bufs t).take iod.bytes.toUInt32.toNat).length = iod.bytes.toNat := by
        rw [List.length_take]
        omega
      rw [hview, slice_overwrite_of_covers]
      · show slice (slice (s.bufs t) 0 iod.bytes.toUInt32.toNat) (i - iod.off.toNat)
          (j - iod.off.toNat) = _
        rw [slice_slice _ (by omega), Nat.zero_add, Nat.zero_add]
      · show iod.off.toNat + _ ≤ s.model.view.length
        rw [htake, hsize]
        rw [hlen] at hin
        exact hin
      · refine ⟨hi, ?_⟩
        show j ≤ iod.off.toNat + _
        rw [htake]
        exact hj

/-- A FLUSH that lands: what is in the view is durable. -/
theorem land_flush {s : Sandwich size lbs cacheCap} {t : Tag} {iod : IoDesc} {sqe : Sqe}
    {op : FaultOp} {off len i j : Nat} {res : Int} {buf : Bytes} {disk : Disk size lbs cacheCap}
    (h : Sound s) (hop : iod.op = .flush) (backend : s.io.tags t = .backend iod sqe)
    (arrives : Arrives sqe op off len)
    (serves : s.io.medium.Serves op off len (s.bufs t) res buf disk) (hj : j ≤ size) :
    Durable i j (slice s.model.view i j) disk.model.cache := by
  have hsqe := (h.backed t iod sqe backend).2
  rw [hop] at hsqe
  obtain rfl := Option.some.inj hsqe
  cases arrives with
  | flush =>
    obtain ⟨-, -, -, hflush⟩ := performed_flush s.io.medium.sized.valid serves.performed
    exact durable_flush s.io.medium.sized.valid hflush h.lies (s.io.medium.sized.size.symm ▸ hj)

/-- A READ that lands: with a full success, what is in the view is in the
buffer. -/
theorem land_read {s : Sandwich size lbs cacheCap} {t : Tag} {iod : IoDesc} {sqe : Sqe}
    {op : FaultOp} {off len i j : Nat} {res : Int} {buf : Bytes} {disk : Disk size lbs cacheCap}
    (h : Sound s) (hop : iod.op = .read) (backend : s.io.tags t = .backend iod sqe)
    (arrives : Arrives sqe op off len)
    (serves : s.io.medium.Serves op off len (s.bufs t) res buf disk)
    (hi : iod.off.toNat ≤ i) (hij : i ≤ j) (hj : j ≤ iod.off.toNat + iod.bytes.toNat)
    (hfull : res = iod.bytes.toNat) :
    slice buf (i - iod.off.toNat) (j - iod.off.toNat) = slice s.model.view i j := by
  have hsqe := (h.backed t iod sqe backend).2
  rw [hop] at hsqe
  obtain rfl := Option.some.inj hsqe
  cases arrives with
  | read =>
    have hin := serves.inRange
    rw [← s.io.medium.sized.size] at hin
    obtain ⟨-, hres, out, hread, hbuf⟩ :=
      performed_read s.io.medium.sized.valid hin serves.performed
    have hlen := len_of_full (hres.symm.trans hfull)
    obtain ⟨hout, -⟩ := Model.read_eq s.io.medium.sized.valid hread
    have hsize : s.model.view.length = s.model.committed.length :=
      overwriteAll_length s.io.medium.sized.valid.cache
    have houtLen : out.length = iod.bytes.toNat := by
      rw [hout, slice_length _ (hsize.symm ▸ hin), hlen]
      omega
    rw [hbuf, slice_append_left _ _ (by rw [houtLen]; omega), hout]
    show slice (slice s.model.view _ _) _ _ = _
    rw [slice_slice _ (by rw [hlen]; omega)]
    congr 1 <;> omega

/-! ## The stages -/

/-- What the buffer of a READ or a WRITE has for a range of the device. -/
def contentOf (iod : IoDesc) (data : Bytes) (i j : Nat) : Bytes :=
  slice data (i - iod.off.toNat) (j - iod.off.toNat)

/-- The tag is serving a WRITE, and no other command in flight touches the
range. -/
structure Writing (i j : Nat) (t : Tag) (iod : IoDesc) (data : Bytes)
    (s : Sandwich size lbs cacheCap) : Prop where
  sound : Sound s
  apart : ∀ u, u ≠ t → Apart i j s u
  buf : s.bufs t = data
  serving : Serving iod (fun res => res = iod.bytes.toNat →
    slice s.model.view i j = contentOf iod data i j) (s.io.tags t) (s.results t)

/-- The value is in the view, and no command in flight touches the range. -/
structure Written (i j : Nat) (value : Bytes) (s : Sandwich size lbs cacheCap) : Prop where
  sound : Sound s
  apart : ∀ t, Apart i j s t
  view : slice s.model.view i j = value

/-- The tag is serving a FLUSH of what is in the view. -/
structure Flushing (i j : Nat) (value : Bytes) (t : Tag) (iod : IoDesc)
    (s : Sandwich size lbs cacheCap) : Prop extends Written i j value s where
  serving : Serving iod (fun _ => Durable i j value s.model.cache) (s.io.tags t) (s.results t)

/-- The value is durable, and no command in flight touches the range. -/
structure Flushed (i j : Nat) (value : Bytes) (s : Sandwich size lbs cacheCap) : Prop where
  sound : Sound s
  apart : ∀ t, Apart i j s t
  durable : Durable i j value s.model.cache

/-- The tag is serving a READ of what is durable. -/
structure Reading (i j : Nat) (value : Bytes) (t : Tag) (iod : IoDesc)
    (s : Sandwich size lbs cacheCap) : Prop extends Flushed i j value s where
  serving : Serving iod (fun res => res = iod.bytes.toNat →
    contentOf iod (s.bufs t) i j = value) (s.io.tags t) (s.results t)

/-- A step that fetches the command starts to serve it. -/
theorem serving_fetch {s s' : Sandwich size lbs cacheCap} {t : Tag} {iod : IoDesc} {buf : Bytes}
    {sqe : Sqe} (hs : SandwichStep s (.fetch t iod buf) s')
    (supported : makeSqe iod.op iod.off iod.bytes = some sqe) (P : Int → Prop) :
    Serving iod P (s'.io.tags t) (s'.results t) ∧ s'.bufs t = buf ∧
      s'.io.medium = s.io.medium ∧ ∀ u, u ≠ t → s'.io.tags u = s.io.tags u := by
  cases hs with
  | @fetch _ _ _ io step =>
    cases step with
    | fetch idle inDevice =>
      refine ⟨?_, Function.update_self .., rfl, fun u hu => Function.update_of_ne hu _ _⟩
      show Serving iod P (Function.update s.io.tags t _ t) (Function.update s.results t none t)
      rw [Function.update_self, Function.update_self, handleIoCmd_fetched supported]
      exact .backend (by intro _ hnone; cases hnone)

/-- Only the tag itself has its buffer. -/
theorem buf_step {s s' : Sandwich size lbs cacheCap} {l : SandwichLabel} {t : Tag} {iod : IoDesc}
    {P : Int → Prop} (hserving : Serving iod P (s.io.tags t) (s.results t))
    (hs : SandwichStep s l s') (hl : l ≠ .io (.land t)) : s'.bufs t = s.bufs t := by
  cases hs with
  | @fetch t' iod' buf io step =>
    refine Function.update_of_ne (fun ht => ?_) _ _
    subst ht
    cases step with
    | fetch idle =>
      rw [idle] at hserving
      cases hserving
  | @land t' =>
    refine Function.update_of_ne (fun ht => hl ?_) _ _
    rw [ht]
  | cqe | target | checkpoint | call => rfl

/-- The step in which the command that the tag serves lands. -/
theorem landed_of_serving {s s' : Sandwich size lbs cacheCap} {t : Tag} {iod : IoDesc}
    {P : Int → Prop} (hserving : Serving iod P (s.io.tags t) (s.results t))
    (hs : SandwichStep s (.io (.land t)) s') :
    ∃ sqe op off len res, s.io.tags t = .backend iod sqe ∧ Arrives sqe op off len ∧
      s.io.medium.Serves op off len (s.bufs t) res (s'.bufs t) s'.io.medium ∧
      s'.results t = some res := by
  cases hs with
  | @land _ iod' sqe op off len res buf disk backend once arrives serves =>
    rw [backend] at hserving
    cases hserving with
    | backend =>
      refine ⟨sqe, op, off, len, res, backend, arrives, ?_, Function.update_self ..⟩
      show s.io.medium.Serves op off len (s.bufs t) res (Function.update s.bufs t buf t) disk
      rw [Function.update_self]
      exact serves
  | target step own => cases own

theorem Writing.step {s s' : Sandwich size lbs cacheCap} {l : SandwichLabel} {i j : Nat} {t : Tag}
    {iod : IoDesc} {data : Bytes} (h : Writing i j t iod data s) (hop : iod.op = .write)
    (hi : iod.off.toNat ≤ i) (hj : j ≤ iod.off.toNat + iod.bytes.toNat) (hsize : j ≤ size)
    (hs : SandwichStep s l s') (hack : l ≠ .io (.ack t)) (hspares : l.Spares i j)
    (hcrash : l.isCrash = false) : Writing i j t iod data s' := by
  obtain ⟨hsound, hapart, hbuf, hserving⟩ := h
  refine ⟨(hsound.step hs).1, fun u hu => (hapart u hu).step hs hspares, ?_,
    hserving.step hsound hs hack ?_ ?_⟩
  · by_cases hl : l = .io (.land t)
    · subst hl
      obtain ⟨_, _, _, _, _, backend, arrives, serves, -⟩ := landed_of_serving hserving hs
      exact (land_write hsound hop backend arrives serves hi hj).1.trans hbuf
    · exact (buf_step hserving hs hl).trans hbuf
  · intro hl res hres hfull
    rw [hsound.slice_view hsize hs hcrash, hres hfull]
    intro u hu
    exact hapart u fun ht => hl (ht ▸ hu)
  · intro hl
    subst hl
    obtain ⟨_, _, _, _, _, backend, arrives, serves, hresult⟩ := landed_of_serving hserving hs
    have hland := land_write hsound hop backend arrives serves hi hj
    intro res hres hfull
    obtain rfl := Option.some.inj (hresult.symm.trans hres)
    rw [hbuf] at hland
    exact hland.2 hfull

theorem Written.step {s s' : Sandwich size lbs cacheCap} {l : SandwichLabel} {i j : Nat}
    {value : Bytes} (h : Written i j value s) (hsize : j ≤ size) (hs : SandwichStep s l s')
    (hspares : l.Spares i j) (hcrash : l.isCrash = false) : Written i j value s' :=
  ⟨(h.sound.step hs).1, fun t => (h.apart t).step hs hspares,
    (h.sound.slice_view hsize hs hcrash fun t _ => h.apart t).trans h.view⟩

theorem Flushing.step {s s' : Sandwich size lbs cacheCap} {l : SandwichLabel} {i j : Nat}
    {value : Bytes} {t : Tag} {iod : IoDesc} (h : Flushing i j value t iod s)
    (hop : iod.op = .flush) (hsize : j ≤ size) (hs : SandwichStep s l s')
    (hack : l ≠ .io (.ack t)) (hspares : l.Spares i j) (hcrash : l.isCrash = false) :
    Flushing i j value t iod s' := by
  refine ⟨h.toWritten.step hsize hs hspares hcrash, h.serving.step h.sound hs hack ?_ ?_⟩
  · intro _ _ hdurable
    exact h.sound.durable hdurable hs h.apart
  · intro hl
    subst hl
    obtain ⟨_, _, _, _, _, backend, arrives, serves, -⟩ := landed_of_serving h.serving hs
    intro _ _
    have hdurable := land_flush (i := i) h.sound hop backend arrives serves hsize
    rw [h.view] at hdurable
    exact hdurable

theorem Flushed.step {s s' : Sandwich size lbs cacheCap} {l : SandwichLabel} {i j : Nat}
    {value : Bytes} (h : Flushed i j value s) (hs : SandwichStep s l s')
    (hspares : l.Spares i j) : Flushed i j value s' :=
  ⟨(h.sound.step hs).1, fun t => (h.apart t).step hs hspares,
    h.sound.durable h.durable hs h.apart⟩

theorem Flushed.view {s : Sandwich size lbs cacheCap} {i j : Nat} {value : Bytes}
    (h : Flushed i j value s) : slice s.model.view i j = value :=
  Durable.view h.durable s.io.medium.sized.valid.cache

theorem Reading.step {s s' : Sandwich size lbs cacheCap} {l : SandwichLabel} {i j : Nat}
    {value : Bytes} {t : Tag} {iod : IoDesc} (h : Reading i j value t iod s)
    (hop : iod.op = .read) (hi : iod.off.toNat ≤ i) (hij : i ≤ j)
    (hj : j ≤ iod.off.toNat + iod.bytes.toNat) (hs : SandwichStep s l s')
    (hack : l ≠ .io (.ack t)) (hspares : l.Spares i j) : Reading i j value t iod s' := by
  refine ⟨h.toFlushed.step hs hspares, h.serving.step h.sound hs hack ?_ ?_⟩
  · intro hl res hres hfull
    rw [buf_step h.serving hs hl]
    exact hres hfull
  · intro hl
    subst hl
    obtain ⟨_, _, _, _, _, backend, arrives, serves, hresult⟩ := landed_of_serving h.serving hs
    intro res hres hfull
    obtain rfl := Option.some.inj (hresult.symm.trans hres)
    exact (land_read h.sound hop backend arrives serves hi hij hj hfull).trans h.toFlushed.view

/-! ## FLUSH -/

/-- The steps of a run that meet `Q`. -/
def Guarded (Q : SandwichLabel → Prop) (s : Sandwich size lbs cacheCap) (l : SandwichLabel)
    (s' : Sandwich size lbs cacheCap) : Prop :=
  SandwichStep s l s' ∧ Q l

/-- The tag fetches the command with the buffer, and acks it with `res`.  The
steps of the other tags, and of this one, in between meet `Q`. -/
def Served (Q : SandwichLabel → Prop) (t : Tag) (iod : IoDesc) (buf : Bytes) (res : Int)
    (s s' : Sandwich size lbs cacheCap) : Prop :=
  ∃ s₁ s₂ trace, SandwichStep s (.fetch t iod buf) s₁ ∧
    Run (Guarded fun l => l ≠ .io (.ack t) ∧ Q l) s₁ trace s₂ ∧
    s₂.io.tags t = .acking iod res ∧ SandwichStep s₂ (.io (.ack t)) s'

/-- An invariant of the command at its ack. -/
theorem Served.invariant {Q : SandwichLabel → Prop} {t : Tag} {iod : IoDesc} {buf : Bytes}
    {res : Int} {s s' : Sandwich size lbs cacheCap} (h : Served Q t iod buf res s s')
    (I : Sandwich size lbs cacheCap → Prop)
    (hfetch : ∀ s₁, SandwichStep s (.fetch t iod buf) s₁ → I s₁)
    (hstep : ∀ s l s', I s → SandwichStep s l s' → l ≠ .io (.ack t) → Q l → I s') :
    ∃ s₂, I s₂ ∧ s₂.io.tags t = .acking iod res ∧ SandwichStep s₂ (.io (.ack t)) s' := by
  obtain ⟨s₁, s₂, trace, hs, hrun, hacking, hack⟩ := h
  refine ⟨s₂, ?_, hacking, hack⟩
  exact hrun.state_invariant I (hfetch s₁ hs) fun s l s' hI hs => hstep s l s' hI hs.1 hs.2.1 hs.2.2

/-- No step touches the range, and none is a crash. -/
def Calm (i j : Nat) (l : SandwichLabel) : Prop := l.Spares i j ∧ l.isCrash = false

/-- An ack frees its tag, and changes nothing else. -/
theorem ack_step {s s' : Sandwich size lbs cacheCap} {t : Tag}
    (hs : SandwichStep s (.io (.ack t)) s') :
    s' = { s with io := { s.io with tags := Function.update s.io.tags t .idle } } := by
  cases hs with
  | target step own =>
    cases step with
    | ack => rfl

/-- A WRITE that is acked with full success, and that no other command in
flight has touched. -/
theorem written_of_served {i j : Nat} {t : Tag} {iod : IoDesc} {data : Bytes}
    {s s' : Sandwich size lbs cacheCap} (hsound : Sound s) (hop : iod.op = .write)
    (hi : iod.off.toNat ≤ i) (hj : j ≤ iod.off.toNat + iod.bytes.toNat) (hsize : j ≤ size)
    (alone : ∀ u, Apart i j s u) (h : Served (Calm i j) t iod data iod.bytes.toNat s s') :
    Written i j (contentOf iod data i j) s' := by
  obtain ⟨s₂, hwriting, hacking, hack⟩ := h.invariant (Writing i j t iod data)
    (fun s₁ hs => by
      obtain ⟨hserving, hbuf, -, hother⟩ := serving_fetch hs (by rw [hop]; rfl)
        fun res => res = iod.bytes.toNat →
          slice s₁.model.view i j = contentOf iod data i j
      refine ⟨(hsound.step hs).1, fun u hu iod' sqe hbackend => ?_, hbuf, hserving⟩
      rw [hother u hu] at hbackend
      exact alone u iod' sqe hbackend)
    fun _ _ _ hwriting hs hack hQ => hwriting.step hop hi hj hsize hs hack hQ.1 hQ.2
  have hview : slice s₂.model.view i j = contentOf iod data i j := by
    have hserving := hwriting.serving
    rw [hacking] at hserving
    cases hserving with
    | acking final => exact final rfl
  have hsound' := (hwriting.sound.step hack).1
  obtain rfl := ack_step hack
  refine ⟨hsound', fun u iod' sqe hbackend => ?_, hview⟩
  by_cases hu : u = t
  · subst hu
    cases (Function.update_self ..).symm.trans hbackend
  · exact hwriting.apart u hu iod' sqe ((Function.update_of_ne hu _ _).symm.trans hbackend)

/-- What is in the view when a FLUSH is fetched is durable when it is acked. -/
theorem flushed_of_served {i j : Nat} {value : Bytes} {t : Tag} {iod : IoDesc} {buf : Bytes}
    {res : Int} {s s' : Sandwich size lbs cacheCap} (hwritten : Written i j value s)
    (hop : iod.op = .flush) (hsize : j ≤ size) (h : Served (Calm i j) t iod buf res s s') :
    Flushed i j value s' := by
  obtain ⟨s₂, hflushing, hacking, hack⟩ := h.invariant (Flushing i j value t iod)
    (fun s₁ hs => by
      have hspares : SandwichLabel.Spares i j (.fetch t iod buf) := by
        intro hchanges
        rw [hop] at hchanges
        cases hchanges
      exact ⟨hwritten.step hsize hs hspares rfl, (serving_fetch hs (by rw [hop]; rfl) _).1⟩)
    fun _ _ _ hflushing hs hack hQ => hflushing.step hop hsize hs hack hQ.1 hQ.2
  have hdurable : Durable i j value s₂.model.cache := by
    have hserving := hflushing.serving
    rw [hacking] at hserving
    cases hserving with
    | acking final => exact final
  exact Flushed.step ⟨hflushing.sound, hflushing.apart, hdurable⟩ hack trivial

/-- A READ of what is durable. -/
theorem read_of_served {i j : Nat} {value : Bytes} {t : Tag} {iod : IoDesc} {buf : Bytes}
    {s s' : Sandwich size lbs cacheCap} (hflushed : Flushed i j value s) (hop : iod.op = .read)
    (hi : iod.off.toNat ≤ i) (hij : i ≤ j) (hj : j ≤ iod.off.toNat + iod.bytes.toNat)
    (h : Served (SandwichLabel.Spares i j) t iod buf iod.bytes.toNat s s') :
    contentOf iod (s'.bufs t) i j = value := by
  obtain ⟨s₂, hreading, hacking, hack⟩ := h.invariant (Reading i j value t iod)
    (fun s₁ hs => by
      have hspares : SandwichLabel.Spares i j (.fetch t iod buf) := by
        intro hchanges
        rw [hop] at hchanges
        cases hchanges
      exact ⟨hflushed.step hs hspares, (serving_fetch hs (by rw [hop]; rfl) _).1⟩)
    fun _ _ _ hreading hs hack hspares => hreading.step hop hi hij hj hs hack hspares
  have hserving := hreading.serving
  rw [hacking] at hserving
  obtain rfl := ack_step hack
  cases hserving with
  | acking final => exact final rfl

theorem Served.inDevice {Q : SandwichLabel → Prop} {t : Tag} {iod : IoDesc} {buf : Bytes}
    {res : Int} {s s' : Sandwich size lbs cacheCap} (h : Served Q t iod buf res s s') :
    iod.InDevice s.io.map.devSize := by
  obtain ⟨s₁, s₂, trace, hs, -⟩ := h
  cases hs with
  | fetch step =>
    cases step with
    | fetch idle inDevice => exact inDevice

/-- A range that a WRITE has been acked for before a FLUSH keeps the data of
the WRITE through every later crash, and a READ returns it. -/
theorem flush_durable {map : EraState} {disk : Disk size lbs cacheCap}
    {before between after : List SandwichLabel} {s₀ s₁ s₂ s₃ s₄ : Sandwich size lbs cacheCap}
    {i j : Nat} {tw tf : Tag} {w f : IoDesc} {data buf : Bytes}
    (hsize : map.devSize.toNat = size) (honest : disk.model.policy.flushLiePm = 0)
    (hbefore : Run SandwichStep (.start map disk) before s₀) (alone : ∀ t, Apart i j s₀ t)
    (hw : w.op = .write) (hi : w.off.toNat ≤ i) (hij : i ≤ j)
    (hj : j ≤ w.off.toNat + w.bytes.toNat)
    (writes : Served (Calm i j) tw w data w.bytes.toNat s₀ s₁)
    (hbetween : Run (Guarded (Calm i j)) s₁ between s₂)
    (hf : f.op = .flush) (flushes : Served (Calm i j) tf f buf 0 s₂ s₃)
    (hafter : Run (Guarded (SandwichLabel.Spares i j)) s₃ after s₄) :
    slice s₄.model.view i j = contentOf w data i j ∧
      ∀ tr r rbuf s₅, r.op = .read → r.off.toNat ≤ i → j ≤ r.off.toNat + r.bytes.toNat →
        Served (SandwichLabel.Spares i j) tr r rbuf r.bytes.toNat s₄ s₅ →
          contentOf r (s₅.bufs tr) i j = contentOf w data i j := by
  have hsound : Sound s₀ :=
    hbefore.state_invariant Sound (sound_start hsize honest) fun _ _ _ h hs => (h.step hs).1
  have hend := IoDesc.end_le writes.inDevice
  rw [hsound.devSize] at hend
  have hbound : j ≤ size := hj.trans hend
  have hwritten : Written i j (contentOf w data i j) s₂ :=
    hbetween.state_invariant _ (written_of_served hsound hw hi hj hbound alone writes)
      fun _ _ _ h hs => h.step hbound hs.1 hs.2.1 hs.2.2
  have hflushed : Flushed i j (contentOf w data i j) s₄ :=
    hafter.state_invariant _ (flushed_of_served hwritten hf hbound flushes)
      fun _ _ _ h hs => h.step hs.1 hs.2
  exact ⟨hflushed.view, fun tr r rbuf s₅ hr hi' hj' hread =>
    read_of_served hflushed hr hi' hij hj' hread⟩

/-! ## A tag that runs alone -/

/-- From the result of its backing IO to its ack, a command takes steps of
`mark_write` alone. -/
theorem exists_acking_run {D : Type} (B : Backing D) (io : IoState D) (t : Tag) (map : EraState)
    (iod : IoDesc) (sqe : Sqe) {res : Int} (final : res ≠ negEAGAIN) :
    Io.Step B (Io.turn io t map (.backend iod sqe)) (.cqe t res)
        (Io.turn io t map ((handleIoCmd iod (some res)).phase map iod)) ∧
      ∃ trace map', (∀ l, l ∈ trace → l.Marks t) ∧
        Run (Io.Step B) (Io.turn io t map ((handleIoCmd iod (some res)).phase map iod)) trace
          (Io.turn io t map' (.acking iod res)) := by
  constructor
  · have hstep : Io.Step B (Io.turn io t map (.backend iod sqe)) (.cqe t res) _ :=
      .cqe (Function.update_self _ _ _)
    simpa only [Io.turn, Function.update_idem] using hstep
  · cases hop : iod.op.changesData with
    | false =>
      rw [handleIoCmd_unchanged hop final]
      exact ⟨[], map, List.forall_mem_nil _, .nil⟩
    | true =>
      rw [handleIoCmd_changed hop final]
      cases hrange : map.markRange iod.off iod.bytes with
      | none =>
        simp only [IoAction.phase, hrange]
        exact ⟨[], map, List.forall_mem_nil _, .nil⟩
      | some range =>
        obtain ⟨first, last⟩ := range
        simp only [IoAction.phase, hrange]
        obtain ⟨trace, hmarks, hrun⟩ := Io.markPass_run B io t map iod res first last
        exact ⟨trace, _, hmarks, hrun⟩

/-- The sandwich with this phase, buffer and result on the tag. -/
def Sandwich.turn (s : Sandwich size lbs cacheCap) (t : Tag) (map : EraState)
    (disk : Disk size lbs cacheCap) (phase : TagPhase) (buf : Bytes) (result : Option Int) :
    Sandwich size lbs cacheCap :=
  { io := Io.turn { s.io with medium := disk } t map phase
    bufs := Function.update s.bufs t buf
    results := Function.update s.results t result }

section Turn

variable (s : Sandwich size lbs cacheCap) (t : Tag) (map : EraState)

theorem turn_fetch {iod : IoDesc} {sqe : Sqe} (buf : Bytes) (idle : s.io.tags t = .idle)
    (inDevice : iod.InDevice s.io.map.devSize)
    (supported : makeSqe iod.op iod.off iod.bytes = some sqe) :
    SandwichStep s (.fetch t iod buf)
      (s.turn t s.io.map s.io.medium (.backend iod sqe) buf none) := by
  have hstep : Io.Step (faultBacking size lbs cacheCap) s.io (.fetch t iod) _ :=
    .fetch idle inDevice
  rw [handleIoCmd_fetched supported] at hstep
  exact .fetch hstep

theorem turn_land (iod : IoDesc) {sqe : Sqe} {op : FaultOp} {off len : Nat} {res : Int}
    {buf buf' : Bytes} {disk disk' : Disk size lbs cacheCap} (arrives : Arrives sqe op off len)
    (serves : disk.Serves op off len buf res buf' disk') :
    SandwichStep (s.turn t map disk (.backend iod sqe) buf none) (.io (.land t))
      (s.turn t map disk' (.backend iod sqe) buf' (some res)) := by
  have hserves : disk.Serves op off len (Function.update s.bufs t buf t) res buf' disk' := by
    rw [Function.update_self]
    exact serves
  have hstep := SandwichStep.land (s := s.turn t map disk (.backend iod sqe) buf none)
    (Function.update_self ..) (Function.update_self ..) arrives hserves
  simpa only [Sandwich.turn, Io.turn, Function.update_idem] using hstep

theorem turn_cqe {phase phase' : TagPhase} {res : Int} {buf : Bytes}
    {disk : Disk size lbs cacheCap}
    (step : Io.Step (faultBacking size lbs cacheCap)
      (Io.turn { s.io with medium := disk } t map phase) (.cqe t res)
      (Io.turn { s.io with medium := disk } t map phase')) :
    SandwichStep (s.turn t map disk phase buf (some res)) (.io (.cqe t res))
      (s.turn t map disk phase' buf none) := by
  have hstep := SandwichStep.cqe (s := s.turn t map disk phase buf (some res)) step
    fun _ => Function.update_self ..
  simpa only [Sandwich.turn, Io.turn, Function.update_idem] using hstep

theorem turn_ack {iod : IoDesc} {res : Int} {buf : Bytes} {disk : Disk size lbs cacheCap} :
    SandwichStep (s.turn t map disk (.acking iod res) buf none) (.io (.ack t))
      (s.turn t map disk .idle buf none) := by
  have hstep := SandwichStep.target (s := s.turn t map disk (.acking iod res) buf none)
    (.ack (t := t) (Function.update_self ..)) rfl
  simpa only [Sandwich.turn, Io.turn, Function.update_idem] using hstep

end Turn

/-- A command whose tag runs alone is served with the result of its
request. -/
theorem exists_served {Q : SandwichLabel → Prop} {s : Sandwich size lbs cacheCap} {t : Tag}
    {iod : IoDesc} {sqe : Sqe} {op : FaultOp} {off len : Nat} {res : Int} {buf buf' : Bytes}
    {disk : Disk size lbs cacheCap} (idle : s.io.tags t = .idle)
    (inDevice : iod.InDevice s.io.map.devSize)
    (supported : makeSqe iod.op iod.off iod.bytes = some sqe) (arrives : Arrives sqe op off len)
    (serves : s.io.medium.Serves op off len buf res buf' disk) (final : res ≠ negEAGAIN)
    (hQ : ∀ l, Q (.io l)) :
    ∃ s', Served Q t iod buf res s s' ∧ s'.io.medium = disk ∧ s'.io.tags = s.io.tags := by
  obtain ⟨hcqe, trace, map', hmarks, hrun⟩ := exists_acking_run (faultBacking size lbs cacheCap)
    { s.io with medium := disk } t s.io.map iod sqe final
  have hland : Run (Guarded fun l => l ≠ .io (.ack t) ∧ Q l) _ _ _ :=
    .single ⟨turn_land s t s.io.map iod arrives serves, nofun, hQ _⟩
  have hreturned := hland.snoc ⟨turn_cqe s t s.io.map hcqe, nofun, hQ _⟩
  have hmarked := (hrun.guard hmarks).map (Guarded fun l => l ≠ .io (.ack t) ∧ Q l)
    (fun io => Sandwich.mk io (Function.update s.bufs t buf') (Function.update s.results t none))
    .io fun io l io' hl => by
      obtain ⟨hstep, rfl | rfl | rfl⟩ := hl
      · exact ⟨.target hstep rfl, nofun, hQ _⟩
      · exact ⟨.target hstep rfl, nofun, hQ _⟩
      · exact ⟨.target hstep rfl, nofun, hQ _⟩
  refine ⟨s.turn t map' disk .idle buf' none, ⟨_, _, _, turn_fetch s t buf idle inDevice supported,
    hreturned.append hmarked, Function.update_self .., turn_ack s t map'⟩, rfl, ?_⟩
  show Function.update s.io.tags t .idle = s.io.tags
  rw [← idle]
  exact Function.update_eq_self t s.io.tags

/-! ### One sector -/

def tag0 : Tag := { qid := 0, tag := 0 }

def writeSector : IoDesc := { op := .write, startSector := 0, nrSectors := 1 }

def flushAll : IoDesc := { op := .flush, startSector := 0, nrSectors := 0 }

def sevens : Bytes := List.replicate 512 7

def zeroDisk : Disk 4096 512 4096 := ⟨.new 4096 512 4096 0 {}, Model.sized_new (by decide)⟩

theorem sevens_length : sevens.length = 512 := List.length_replicate

/-- The sector is in the cache. -/
def writtenModel : Model :=
  { zeroDisk.model with
    volatile := zeroDisk.model.volatile ++ [⟨0, sevens⟩]
    volatileBytes := zeroDisk.model.volatileBytes + 512
    stats.writes := zeroDisk.model.stats.writes + 1 }

theorem perform_sevens :
    perform zeroDisk.model .write 0 512 sevens = some (asI32 512, sevens, writtenModel) :=
  perform_fits sevens_length rfl (by decide)

theorem sized_writtenModel : writtenModel.Sized 4096 512 4096 := by
  have hin : 0 + 512 ≤ zeroDisk.model.committed.length := by
    rw [zeroDisk.sized.size]
    decide
  obtain ⟨ev, hperformed⟩ := perform_spec zeroDisk.sized.valid hin perform_sevens
  exact hperformed.sized _ _ _ zeroDisk.sized

def writtenDisk : Disk 4096 512 4096 := ⟨writtenModel, sized_writtenModel⟩

theorem zeroDisk_serves : zeroDisk.Serves .write 0 512 sevens 512 sevens writtenDisk :=
  ⟨by decide, perform_sevens⟩

/-- A sector is written and flushed, and then the device loses its cache. -/
theorem flush_durable_oneSector :
    ∃ s₁ s₂ s₃ : Sandwich 4096 512 4096,
      Served (Calm 0 512) tag0 writeSector sevens 512 (.start EraState.oneChunk zeroDisk) s₁ ∧
      Served (Calm 0 512) tag0 flushAll [] 0 s₁ s₂ ∧
      SandwichStep s₂ (.call (.crash .drop)) s₃ ∧
      slice s₃.model.view 0 512 = contentOf writeSector sevens 0 512 ∧
      ∀ tr r rbuf s₅, r.op = .read → r.off.toNat ≤ 0 → 512 ≤ r.off.toNat + r.bytes.toNat →
        Served (SandwichLabel.Spares 0 512) tr r rbuf r.bytes.toNat s₃ s₅ →
          contentOf r (s₅.bufs tr) 0 512 = contentOf writeSector sevens 0 512 := by
  have hcalm : ∀ l, Calm 0 512 (.io l) := fun _ => ⟨trivial, rfl⟩
  obtain ⟨s₁, writes, hmedium, htags⟩ := exists_served (Q := Calm 0 512)
    (s := .start EraState.oneChunk zeroDisk) (t := tag0) rfl
    (show writeSector.InDevice 4096 by decide) rfl .write zeroDisk_serves (by decide) hcalm
  obtain ⟨res, buf', d₂, hserves⟩ := writtenDisk.exists_serves .flush
    (show 0 + 0 ≤ 4096 by decide) (Nat.le_refl ([] : Bytes).length)
  obtain ⟨-, -, hres, -⟩ := performed_flush writtenDisk.sized.valid hserves.performed
  rw [hres, ← hmedium] at hserves
  have idle : s₁.io.tags tag0 = .idle := by
    rw [htags]
    rfl
  obtain ⟨s₂, flushes, -⟩ := exists_served idle
    (show flushAll.InDevice s₁.io.map.devSize from Nat.zero_le _) rfl .flush hserves (by decide)
    hcalm
  obtain ⟨report, m₃, parts, hcrash, -⟩ := Model.crash_spec s₂.io.medium.sized.valid .drop
  have hcall : s₂.model.call (.crash .drop) = some (.report report, m₃) := by
    rw [Model.call, show s₂.model.crash .drop = _ from hcrash]
    rfl
  have hsized := s₂.io.medium.sized.step (ran (.crash .drop) _ trivial hcall)
  have crashes : SandwichStep s₂ (.call (.crash .drop))
      { s₂ with io := { s₂.io with medium := ⟨m₃, hsized⟩ } } := .call trivial hcall
  exact ⟨s₁, s₂, _, writes, flushes, crashes,
    flush_durable rfl rfl .nil (fun _ _ _ h => by cases h) rfl (Nat.le_refl _) (Nat.zero_le _)
      (by decide) writes .nil rfl flushes (.single ⟨crashes, trivial⟩)⟩

end Fault

end Ublkera
