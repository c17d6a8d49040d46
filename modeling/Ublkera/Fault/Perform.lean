import Ublkera.Fault.Model
import Ublkera.Target.IoCmd

/-!
# One request of the fault device

`perform` of `ublkfault/src/main.rs` serves one request from the model.
`Performed` is what it does to the cache.

`faultBacking` is the fault device as the backing of `ublkera`: a submission
arrives as a request of the same range, and the request is performed at once.
-/

namespace Ublkera

namespace Fault

open LittleEndian WriteCache Trace

/-! ## One request -/

/-- The `UBLK_IO_OP_*` codes that `perform` names. -/
inductive FaultOp where
  | read
  | write
  | flush
  | discard
  | writeZeroes
  | other (code : UInt8)
  deriving DecidableEq, Repr

def negEINVAL : Int := -22

/-- `perform`, with the buffer that it leaves. -/
def perform (m : Model) (op : FaultOp) (off len : Nat) (buf : Bytes) :
    Option (Int × Bytes × Model) :=
  match op with
  | .read =>
    if buf.length < len then none
    else (m.read off len).map fun (out, m) => (asI32 len, out ++ buf.drop len, m)
  | .write =>
    if buf.length < len then none
    else (m.write off (buf.take len)).map fun (res, m) => (res, buf, m)
  | .flush => m.flush.map fun m => (0, buf, m)
  | .discard | .writeZeroes => (m.discard off len).map fun m => (0, buf, m)
  | .other _ => some (negEINVAL, buf, m)

/-- The requests that `perform` zeroes or writes a range for. -/
def FaultOp.changesData : FaultOp → Bool
  | .write | .discard | .writeZeroes => true
  | _ => false

/-- What a request does to the cache: at most one entry, inside its range. -/
structure Performed (m : Model) (op : FaultOp) (off len : Nat) (ev : Event) (m' : Model) :
    Prop where
  sized : ∀ size lbs cacheCap, m.Sized size lbs cacheCap → m'.Sized size lbs cacheCap
  policy : m'.policy = m.policy
  step : Cache.Step m.lbs m.cache ev m'.cache
  noLoss : ev.isLoss = false
  within : ∀ e, ev = .push e → op.changesData = true ∧ off ≤ e.off ∧ e.stop ≤ off + len

theorem performed_of_call {m m' : Model} (op : FaultOp) (off len : Nat) {c : Call} {reply : Reply}
    (h : m.Valid) (hs : Step m (c, reply) m') (hpolicy : ∀ policy, c ≠ .setPolicy policy)
    (hloss : ∀ parts, ¬ m.Does c (.lose parts))
    (hwithin : ∀ e, m.Does c (.push e) →
      op.changesData = true ∧ off ≤ e.off ∧ e.stop ≤ off + len) :
    ∃ ev, m.Does c ev ∧ Performed m op off len ev m' := by
  obtain ⟨ev, hstepped⟩ := Model.step_spec h hs
  have hdoes := hstepped.does
  refine ⟨ev, hdoes, fun _ _ _ hsized => hsized.step hs, hstepped.policy hpolicy, hstepped.step,
    ?_, fun e he => hwithin e (he ▸ hdoes)⟩
  cases ev with
  | keep | push | drain => rfl
  | lose parts => exact (hloss parts hdoes).elim

theorem performed_read {m m' : Model} {off len : Nat} {buf buf' : Bytes} {res : Int}
    (h : m.Valid) (inRange : off + len ≤ m.committed.length)
    (hperform : perform m .read off len buf = some (res, buf', m')) :
    Performed m .read off len .keep m' ∧ res = asI32 len ∧
      ∃ out, m.read off len = some (out, m') ∧ buf' = out ++ buf.drop len := by
  simp only [perform] at hperform
  split at hperform
  · cases hperform
  · obtain ⟨⟨out, m''⟩, hread, heq⟩ := Option.map_eq_some_iff.mp hperform
    obtain ⟨hres, heq⟩ := Prod.mk.inj heq
    obtain ⟨hbuf, rfl⟩ := Prod.mk.inj heq
    have hs : Step m (.read off len, .data out) m'' :=
      ran _ _ inRange (by rw [Model.call, hread]; rfl)
    obtain ⟨ev, hdoes, hperformed⟩ := performed_of_call .read off len h hs
      nofun nofun nofun
    obtain rfl : ev = .keep := hdoes
    exact ⟨hperformed, hres.symm, out, hread, hbuf.symm⟩

theorem performed_write {m m' : Model} {off len : Nat} {buf buf' : Bytes} {res : Int}
    (h : m.Valid) (inRange : off + len ≤ m.committed.length)
    (hperform : perform m .write off len buf = some (res, buf', m')) :
    Performed m .write off len (Model.enters off (m.entered (buf.take len))) m' ∧ buf' = buf ∧
      ((m.rng.hit m.policy.errorPm).1 = true ∧ res = negEio ∨
        res = asI32 len ∧ m.entered (buf.take len) = some (buf.take len)) := by
  simp only [perform] at hperform
  split at hperform
  · cases hperform
  · rename_i hbuf
    have hlen : (buf.take len).length = len := by
      rw [List.length_take]
      omega
    obtain ⟨⟨res', m''⟩, hwrite, heq⟩ := Option.map_eq_some_iff.mp hperform
    obtain ⟨hres, heq⟩ := Prod.mk.inj heq
    obtain ⟨hbuf', rfl⟩ := Prod.mk.inj heq
    have hin : off + (buf.take len).length ≤ m.committed.length := by
      rw [hlen]
      exact inRange
    have hs : Step m (.write off (buf.take len), .result res') m'' :=
      ran _ _ hin (by rw [Model.call, hwrite]; rfl)
    have hloss : ∀ parts, ¬ m.Does (.write off (buf.take len)) (.lose parts) := by
      intro parts hdoes
      change Event.lose parts = Model.enters off _ at hdoes
      unfold Model.enters at hdoes
      split at hdoes
      · cases hdoes
      · cases hdoes
    have hwithin : ∀ e, m.Does (.write off (buf.take len)) (.push e) →
        FaultOp.write.changesData = true ∧ off ≤ e.off ∧ e.stop ≤ off + len := by
      intro e hdoes
      change Event.push e = Model.enters off _ at hdoes
      unfold Model.entered at hdoes
      refine ⟨rfl, ?_⟩
      split at hdoes
      · split at hdoes
        · obtain rfl := Event.push.inj hdoes
          refine ⟨Nat.le_refl _, Nat.add_le_add_left ?_ off⟩
          show ((buf.take len).take _).length ≤ len
          rw [List.length_take, hlen]
          exact Nat.min_le_right _ _
        · cases hdoes
      · obtain rfl := Event.push.inj hdoes
        exact ⟨Nat.le_refl _, Nat.le_of_eq (congrArg (off + ·) hlen)⟩
    obtain ⟨ev, hdoes, hperformed⟩ := performed_of_call .write off len h hs nofun hloss hwithin
    obtain rfl : ev = _ := hdoes
    refine ⟨hperformed, hbuf'.symm, ?_⟩
    cases herror : (m.rng.hit m.policy.errorPm).1 with
    | false =>
      obtain ⟨_, hwrite', -, hentered⟩ := Model.write_ok h hin herror
      rw [hwrite] at hwrite'
      have hok := (Prod.mk.inj (Option.some.inj hwrite')).1
      rw [hlen] at hok
      exact Or.inr ⟨hres.symm.trans hok, hentered⟩
    | true =>
      obtain ⟨_, hwrite', -, -⟩ := Model.write_errored h hin herror
      rw [hwrite] at hwrite'
      exact Or.inl ⟨rfl, hres.symm.trans (Prod.mk.inj (Option.some.inj hwrite')).1⟩

theorem performed_flush {m m' : Model} {off len : Nat} {buf buf' : Bytes} {res : Int}
    (h : m.Valid) (hperform : perform m .flush off len buf = some (res, buf', m')) :
    Performed m .flush off len (if m.lies then .keep else .drain) m' ∧ buf' = buf ∧ res = 0 ∧
      m.flush = some m' := by
  obtain ⟨m'', hflush, heq⟩ := Option.map_eq_some_iff.mp hperform
  obtain ⟨hres, heq⟩ := Prod.mk.inj heq
  obtain ⟨hbuf, rfl⟩ := Prod.mk.inj heq
  have hs : Step m (.flush, .done) m'' := ran _ _ trivial (by rw [Model.call, hflush]; rfl)
  have hcases : ∀ ev, m.Does .flush ev → ev = .keep ∨ ev = .drain := by
    intro ev hdoes
    change ev = if m.lies then .keep else .drain at hdoes
    split at hdoes
    · exact Or.inl hdoes
    · exact Or.inr hdoes
  obtain ⟨ev, hdoes, hperformed⟩ := performed_of_call .flush off len h hs
    nofun (fun parts hdoes => (hcases _ hdoes).elim nofun nofun)
    fun e hdoes => (hcases _ hdoes).elim nofun nofun
  obtain rfl : ev = _ := hdoes
  exact ⟨hperformed, hbuf.symm, hres.symm, hflush⟩

theorem performed_discard {m m' : Model} {op : FaultOp} {off len : Nat} {buf buf' : Bytes}
    {res : Int} (h : m.Valid) (inRange : off + len ≤ m.committed.length)
    (hop : op = .discard ∨ op = .writeZeroes)
    (hperform : perform m op off len buf = some (res, buf', m')) :
    Performed m op off len (.push ⟨off, List.replicate len 0⟩) m' ∧ buf' = buf ∧ res = 0 := by
  have hmap : (m.discard off len).map (fun m => ((0 : Int), buf, m)) = some (res, buf', m') := by
    rcases hop with rfl | rfl
    · exact hperform
    · exact hperform
  obtain ⟨m'', hdiscard, heq⟩ := Option.map_eq_some_iff.mp hmap
  obtain ⟨hres, heq⟩ := Prod.mk.inj heq
  obtain ⟨hbuf, rfl⟩ := Prod.mk.inj heq
  have hs : Step m (.discard off len, .done) m'' :=
    ran _ _ inRange (by rw [Model.call, hdiscard]; rfl)
  have hwithin : ∀ e, m.Does (.discard off len) (.push e) →
      op.changesData = true ∧ off ≤ e.off ∧ e.stop ≤ off + len := by
    intro e hdoes
    obtain rfl := Event.push.inj hdoes
    refine ⟨?_, Nat.le_refl _, Nat.le_of_eq ?_⟩
    · rcases hop with rfl | rfl
      · rfl
      · rfl
    · show off + (List.replicate len (0 : UInt8)).length = off + len
      rw [List.length_replicate]
  obtain ⟨ev, hdoes, hperformed⟩ := performed_of_call op off len h hs
    nofun nofun hwithin
  obtain rfl : ev = _ := hdoes
  exact ⟨hperformed, hbuf.symm, hres.symm⟩

/-- A request in range leaves at most one entry, inside its range. -/
theorem perform_spec {m m' : Model} {op : FaultOp} {off len : Nat} {buf buf' : Bytes} {res : Int}
    (h : m.Valid) (inRange : off + len ≤ m.committed.length)
    (hperform : perform m op off len buf = some (res, buf', m')) :
    ∃ ev, Performed m op off len ev m' := by
  cases op with
  | read => exact ⟨_, (performed_read h inRange hperform).1⟩
  | write => exact ⟨_, (performed_write h inRange hperform).1⟩
  | flush => exact ⟨_, (performed_flush h hperform).1⟩
  | discard => exact ⟨_, (performed_discard h inRange (Or.inl rfl) hperform).1⟩
  | writeZeroes => exact ⟨_, (performed_discard h inRange (Or.inr rfl) hperform).1⟩
  | other code =>
    obtain ⟨-, heq⟩ := Prod.mk.inj (Option.some.inj hperform)
    obtain ⟨-, rfl⟩ := Prod.mk.inj heq
    exact ⟨.keep, fun _ _ _ hsized => hsized, rfl, .keep, rfl, nofun⟩

/-- A WRITE with no error that the cache has room for. -/
theorem perform_fits {m : Model} {off len : Nat} {data : Bytes} (hlen : data.length = len)
    (error : m.policy.errorPm = 0) (room : m.volatileBytes + len ≤ m.cacheCap) :
    perform m .write off len data = some (asI32 len, data,
      { m with
        volatile := m.volatile ++ [⟨off, data⟩]
        volatileBytes := m.volatileBytes + len
        stats.writes := m.stats.writes + 1 }) := by
  have htake : data.take len = data := List.take_of_length_le (Nat.le_of_eq hlen)
  have hhit : m.rng.hit m.policy.errorPm = (false, m.rng) := by
    rw [error]
    rfl
  have hwrite : m.write off data = some (asI32 len,
      { m with
        volatile := m.volatile ++ [⟨off, data⟩]
        volatileBytes := m.volatileBytes + len
        stats.writes := m.stats.writes + 1 }) := by
    simp only [Model.write, hhit, Bool.false_eq_true, if_false, Model.pushVolatile, hlen]
    rw [Model.evict_fits room]
    rfl
  rw [perform, if_neg (by omega), htake, hwrite]
  rfl

/-! ## The backing of `ublkera` -/

/-- A model of a device of `size` bytes. -/
structure Disk (size lbs cacheCap : Nat) where
  model : Model
  sized : model.Sized size lbs cacheCap

/-- The request that a submission arrives as.  Punching a hole in a block
device is a DISCARD or a WRITE_ZEROES. -/
inductive Arrives : Sqe → FaultOp → Nat → Nat → Prop where
  | flush : Arrives .fsync .flush 0 0
  | read {off : UInt64} {len : UInt32} : Arrives (.read off len) .read off.toNat len.toNat
  | write {off : UInt64} {len : UInt32} : Arrives (.write off len) .write off.toNat len.toNat
  | discard {off len : UInt64} : Arrives (.punchHole off len) .discard off.toNat len.toNat
  | writeZeroes {off len : UInt64} :
      Arrives (.punchHole off len) .writeZeroes off.toNat len.toNat

theorem Arrives.changes {sqe : Sqe} {op : FaultOp} {off len : Nat} (h : Arrives sqe op off len)
    (hop : op.changesData = true) {x : Nat} (hlo : off ≤ x) (hhi : x < off + len) :
    sqe.Changes x := by
  cases h with
  | flush | read => cases hop
  | write | discard | writeZeroes => exact ⟨hlo, hhi⟩

variable {size lbs cacheCap : Nat}

/-- One request takes the disk to another. -/
structure Disk.Serves (d : Disk size lbs cacheCap) (op : FaultOp) (off len : Nat) (buf : Bytes)
    (res : Int) (buf' : Bytes) (d' : Disk size lbs cacheCap) : Prop where
  /-- The kernel sends no request past the end of the device. -/
  inRange : off + len ≤ size
  performed : perform d.model op off len buf = some (res, buf', d'.model)

theorem Disk.Serves.spec {d d' : Disk size lbs cacheCap} {op : FaultOp} {off len : Nat}
    {buf buf' : Bytes} {res : Int} (h : d.Serves op off len buf res buf' d') :
    ∃ ev, Performed d.model op off len ev d'.model :=
  perform_spec d.sized.valid (d.sized.size.symm ▸ h.inRange) h.performed

/-- A request in range of a buffer that is long enough is served. -/
theorem Disk.exists_serves (d : Disk size lbs cacheCap) (op : FaultOp) {off len : Nat}
    {buf : Bytes} (inRange : off + len ≤ size) (hbuf : len ≤ buf.length) :
    ∃ res buf' d', d.Serves op off len buf res buf' d' := by
  have hin : off + len ≤ d.model.committed.length := d.sized.size.symm ▸ inRange
  have hlen : (buf.take len).length = len := by
    rw [List.length_take]
    omega
  have hperform : ∃ served, perform d.model op off len buf = some served := by
    cases op with
    | read => exact ⟨_, by rw [perform, if_neg (Nat.not_lt.mpr hbuf), Model.read, if_pos hin]; rfl⟩
    | write =>
      have hin' : off + (buf.take len).length ≤ d.model.committed.length := by
        rw [hlen]
        exact hin
      obtain ⟨reply, m', ev, hcall, -⟩ :=
        Model.call_total (c := .write off (buf.take len)) d.sized.valid hin'
      obtain ⟨⟨res, m''⟩, hwrite, -⟩ := Option.map_eq_some_iff.mp hcall
      exact ⟨_, by rw [perform, if_neg (Nat.not_lt.mpr hbuf), hwrite]; rfl⟩
    | flush =>
      obtain ⟨m', hflush, -⟩ := Model.flush_spec d.sized.valid
      exact ⟨_, by rw [perform, hflush]; rfl⟩
    | discard | writeZeroes =>
      obtain ⟨reply, m', ev, hcall, -⟩ := Model.call_total (c := .discard off len) d.sized.valid hin
      obtain ⟨m'', hdiscard, -⟩ := Option.map_eq_some_iff.mp hcall
      exact ⟨_, by rw [perform, hdiscard]; rfl⟩
    | other code => exact ⟨_, rfl⟩
  obtain ⟨⟨res, buf', m'⟩, hperform⟩ := hperform
  obtain ⟨ev, hspec⟩ := perform_spec d.sized.valid hin hperform
  exact ⟨res, buf', ⟨m', hspec.sized _ _ _ d.sized⟩, inRange, hperform⟩

/-- A byte outside of the range of a request keeps its value. -/
theorem view_serves {d d' : Disk size lbs cacheCap} {op : FaultOp} {off len : Nat}
    {buf buf' : Bytes} {res : Int} (h : d.Serves op off len buf res buf' d') {x : Nat}
    (hx : op.changesData = true → x < off ∨ off + len ≤ x) :
    d'.model.view[x]? = d.model.view[x]? := by
  obtain ⟨ev, hspec⟩ := h.spec
  have hview : d'.model.view = ev.apply d.model.view := Cache.view_step hspec.step hspec.noLoss
  rw [hview]
  cases ev with
  | keep | drain | lose => rfl
  | push e =>
    obtain ⟨hop, hlo, hhi⟩ := hspec.within e rfl
    have hlen : d.model.view.length = size :=
      (overwriteAll_length d.sized.valid.cache).trans d.sized.size
    have hin : e.off + e.data.length ≤ d.model.view.length := by
      rw [hlen]
      exact hhi.trans h.inRange
    change e.off + e.data.length ≤ off + len at hhi
    have hout := hx hop
    rw [Event.apply, overwrite, getElem?_patch hin, if_neg (by omega)]

/-- The fault device behind `ublkera`. -/
def faultBacking (size lbs cacheCap : Nat) : Backing (Disk size lbs cacheCap) where
  view d x := d.model.view.getD x 0
  lands sqe d d' := ∃ op off len buf res buf', Arrives sqe op off len ∧
    d.Serves op off len buf res buf' d'
  lands_frame := by
    intro sqe d d' x hlands hx
    obtain ⟨op, off, len, buf, res, buf', harrives, hserves⟩ := hlands
    have hsame : d'.model.view[x]? = d.model.view[x]? := by
      refine view_serves hserves fun hop => ?_
      rcases Nat.lt_or_ge x off with hlt | hge
      · exact Or.inl hlt
      · rcases Nat.lt_or_ge x (off + len) with hlt | hge'
        · exact absurd (harrives.changes hop hge hlt) hx
        · exact Or.inr hge'
    rw [List.getD_eq_getElem?_getD, List.getD_eq_getElem?_getD, hsame]

end Fault

end Ublkera
