import Ublkera.Fault.Thaw
import Ublkera.Scenario.Direct
import Ublkera.Target.Params

/-!
# The parameters of the fault device

`serveCheck` is what `serve` of `ublkfault/src/main.rs` wants of its options,
and `serveParams` is what it declares to the driver.  Over every run of the
queues the block layer gets an answer to whatever it may send: no handler
panics, no request is refused, and none is cut (`serves_what_is_sent`).
-/

namespace Ublkera

namespace Fault

open LittleEndian WriteCache Trace BlockLayer
open Scenario (ioBufBytes asI32_small)

/-! ## The options -/

/-- `u32::is_power_of_two`. -/
def isPowerOfTwo (n : UInt32) : Bool := n != 0 && n &&& (n - 1) == 0

/-- `u32::trailing_zeros`. -/
def trailingZeros (n : UInt32) : Nat :=
  ((List.range 32).takeWhile fun i => !n.toNat.testBit i).length

/-- The check of `Cmd::Serve`; a remainder by 0 panics. -/
def serveCheck (size : UInt64) (lbs : UInt32) : Option Bool :=
  if size = 0 then some false
  else if lbs = 0 then none
  else some (size % lbs.toUInt64 = 0 ∧ isPowerOfTwo lbs ∧ 512 ≤ lbs)

/-- `init` of `serve`, with `max_io_buf_bytes` of the device. -/
def serveParams (maxIoBufBytes : UInt32) (size : UInt64) (lbs : UInt32) : Params :=
  let lbsShift := UInt8.ofNat (trailingZeros lbs)
  { types := [.basic, .discard]
    basic :=
      { attrs := attrVolatileCache
        logicalBsShift := lbsShift
        physicalBsShift := lbsShift
        ioOptShift := 12
        ioMinShift := lbsShift
        maxSectors := maxIoBufBytes >>> 9
        devSectors := size >>> 9 }
    discard :=
      { discardGranularity := lbs
        maxDiscardSectors := (1 : UInt32) <<< 22
        maxWriteZeroesSectors := (1 : UInt32) <<< 22
        maxDiscardSegments := 1 } }

/-! ## What is sent -/

def FaultOp.kind : FaultOp → Kind
  | .read => .read
  | .write => .write
  | .flush => .flush
  | .discard => .discard
  | .writeZeroes => .writeZeroes
  | .other _ => .other

/-- The block layer sends the request, and the buffer of its tag has
`max_io_buf_bytes`. -/
structure Sent (size : UInt64) (lbs : UInt32) (req : Request) : Prop where
  exists_desc : ∃ (start : UInt64) (len : UInt32),
    Admits (serveParams (UInt32.ofNat ioBufBytes) size lbs).limits
      { kind := req.op.kind, start := start.toNat, len := len.toNat } ∧
    req.off = (start <<< 9).toNat ∧ req.len = (len.toUInt64 <<< 9).toNat
  buf : req.buf.length = ioBufBytes

/-- A request that `perform` takes. -/
structure Fits (size lbs : Nat) (req : Request) : Prop where
  known : ∀ code, req.op ≠ .other code
  inside : req.op ≠ .flush → req.off + req.len ≤ size
  aligned : req.op ≠ .flush → lbs ∣ req.off ∧ lbs ∣ req.len
  buffer : req.op = .read ∨ req.op = .write → req.len ≤ req.buf.length ∧ req.len ≤ ioBufBytes

/-- What the request is answered. -/
def Answers (req : Request) (res : Int) : Prop :=
  match req.op with
  | .read => res = req.len
  | .write => res = req.len ∨ res = negEio
  | .flush | .discard | .writeZeroes => res = 0
  | .other _ => False

theorem fits_empty (size lbs : Nat) : Fits size lbs {} :=
  ⟨nofun, fun _ => Nat.zero_le _, fun _ => ⟨Nat.dvd_zero _, Nat.dvd_zero _⟩,
    fun _ => ⟨Nat.zero_le _, Nat.zero_le _⟩⟩

theorem trailingZeros_two_pow : ∀ k, k < 32 → trailingZeros (UInt32.ofNat (2 ^ k)) = k := by
  decide +kernel

theorem isPowerOfTwo_iff {n : UInt32} : isPowerOfTwo n = true ↔ ∃ k, k < 32 ∧ n.toNat = 2 ^ k := by
  have hlt := n.toNat_lt
  have hone : (1 : UInt32).toNat = 1 := rfl
  simp only [isPowerOfTwo, Bool.and_eq_true, bne_iff_ne, ne_eq, beq_iff_eq]
  constructor
  · rintro ⟨hne, hand⟩
    have hpos : 0 < n.toNat := Nat.pos_of_ne_zero fun hzero => hne (UInt32.toNat.inj hzero)
    have hnat := congrArg UInt32.toNat hand
    rw [UInt32.toNat_and, UInt32.toNat_sub_of_le _ _ (by rw [UInt32.le_iff_toNat_le]; omega)]
      at hnat
    obtain ⟨k, hk⟩ := (Nat.and_sub_one_eq_zero_iff_isPowerOfTwo (by omega)).mp hnat
    refine ⟨k, ?_, hk⟩
    rw [hk] at hlt
    exact (Nat.pow_lt_pow_iff_right (by omega)).mp hlt
  · rintro ⟨k, hk, hn⟩
    have hpos : 0 < n.toNat := by
      rw [hn]
      exact Nat.two_pow_pos k
    refine ⟨?_, ?_⟩
    · rintro rfl
      exact absurd hpos (by decide)
    · apply UInt32.toNat.inj
      rw [UInt32.toNat_and, UInt32.toNat_sub_of_le _ _ (by rw [UInt32.le_iff_toNat_le]; omega)]
      exact (Nat.and_sub_one_eq_zero_iff_isPowerOfTwo (by omega)).mpr ⟨k, hn⟩

/-- The devices that are served. -/
theorem serveCheck_iff {size : UInt64} {lbs : UInt32} : serveCheck size lbs = some true ↔
    0 < size.toNat ∧ lbs.toNat ∣ size.toNat ∧ ∃ k, 9 ≤ k ∧ k < 32 ∧ lbs.toNat = 2 ^ k := by
  have hbound : (512 : UInt32) ≤ lbs ↔ 2 ^ 9 ≤ lbs.toNat := UInt32.le_iff_toNat_le
  have hmod : size % lbs.toUInt64 = 0 ↔ lbs.toNat ∣ size.toNat := by
    rw [Nat.dvd_iff_mod_eq_zero, ← UInt64.toNat_inj, UInt64.toNat_mod, UInt32.toNat_toUInt64]
    exact Iff.rfl
  unfold serveCheck
  by_cases hsize : size = 0
  · rw [if_pos hsize]
    subst hsize
    simp
  rw [if_neg hsize]
  have hpos : 0 < size.toNat := Nat.pos_of_ne_zero fun hzero => hsize (UInt64.toNat.inj hzero)
  by_cases hlbs : lbs = 0
  · rw [if_pos hlbs]
    subst hlbs
    refine ⟨nofun, ?_⟩
    rintro ⟨-, -, k, -, -, hk⟩
    exact absurd hk (Nat.two_pow_pos k).ne
  rw [if_neg hlbs, Option.some.injEq, decide_eq_true_iff, hmod, isPowerOfTwo_iff, hbound]
  constructor
  · rintro ⟨hdvd, ⟨k, hk, hn⟩, hle⟩
    rw [hn] at hle
    exact ⟨hpos, hdvd, k, (Nat.pow_le_pow_iff_right (by omega)).mp hle, hk, hn⟩
  · rintro ⟨-, hdvd, k, hnine, hk, hn⟩
    refine ⟨hdvd, ⟨k, hk, hn⟩, ?_⟩
    rw [hn]
    exact Nat.pow_le_pow_right (by omega) hnine

/-- The logical block that is declared is the one of the option. -/
theorem limits_block {size : UInt64} {lbs : UInt32} {max : UInt32}
    (accepted : serveCheck size lbs = some true) :
    (serveParams max size lbs).limits.block = lbs.toNat := by
  obtain ⟨-, -, k, -, hk, hn⟩ := serveCheck_iff.mp accepted
  have hlbs : lbs = UInt32.ofNat (2 ^ k) := by
    rw [← hn, UInt32.ofNat_toNat]
  have hshift : (UInt8.ofNat (trailingZeros lbs)).toNat = k := by
    rw [hlbs, trailingZeros_two_pow k hk, UInt8.toNat_ofNat']
    omega
  rw [hn]
  simp only [Params.limits, serveParams, hshift]

/-- What is sent can be performed. -/
theorem Sent.fits {size : UInt64} {lbs : UInt32} {req : Request}
    (accepted : serveCheck size lbs = some true) (sent : Sent size lbs req) :
    Fits size.toNat lbs.toNat req := by
  obtain ⟨start, len, admits, hoff, hlen⟩ := sent.exists_desc
  have hbytes : req.len = 512 * len.toNat := by
    rw [hlen, Nat.mul_comm]
    exact IoDesc.bytes_toNat ⟨.read, start, len⟩
  have hrange : req.op ≠ .flush → req.op.kind.hasRange = true := by
    intro hop
    cases hcase : req.op with
    | flush => exact absurd hcase hop
    | read | write | discard | writeZeroes | other => rfl
  have hstart : req.op ≠ .flush → req.off = 512 * start.toNat ∧ req.off + req.len ≤ size.toNat := by
    intro hop
    have hsectors : 512 * (serveParams (UInt32.ofNat ioBufBytes) size lbs).limits.sectors
        ≤ size.toNat := by
      rw [show Limits.sectors _ = size.toNat / 512 from shiftRight_nine size]
      omega
    have hin := admits.inside_bytes (hrange hop) hsectors
    simp only at hin
    have hdevice : IoDesc.InDevice ⟨.read, start, len⟩ size := by
      unfold IoDesc.InDevice
      simp only
      omega
    have hnat := IoDesc.off_toNat hdevice
    have heq : req.off = 512 * start.toNat := by
      rw [hoff, Nat.mul_comm]
      exact hnat
    exact ⟨heq, by omega⟩
  refine ⟨?_, fun hop => (hstart hop).2, fun hop => ?_, fun hop => ?_⟩
  · intro code hop
    exact admits.not_other (by rw [hop]; rfl)
  · have hblocks := admits.blocks (hrange hop)
    rw [limits_block accepted] at hblocks
    rw [(hstart hop).1, hbytes]
    exact hblocks
  · have hcap := admits.cap
    have htransfer : (serveParams (UInt32.ofNat ioBufBytes) size lbs).limits.transfer = 1024 := rfl
    have hkind : (serveParams (UInt32.ofNat ioBufBytes) size lbs).limits.cap req.op.kind
        = 1024 := by
      rcases hop with hop | hop
      · rw [hop]
        exact htransfer
      · rw [hop]
        exact htransfer
    rw [hkind] at hcap
    simp only at hcap
    have hle : req.len ≤ ioBufBytes := by
      unfold ioBufBytes
      omega
    exact ⟨by rw [sent.buf]; exact hle, hle⟩

/-! ## One request -/

variable {size lbs cacheCap : Nat}

/-- `perform` does not panic. -/
theorem Fits.performs {m : Model} {req : Request} (fits : Fits size lbs req)
    (h : m.Sized size lbs cacheCap) :
    ∃ served, perform m req.op req.off req.len req.buf = some served := by
  have hserves : req.op = .read ∨ req.op = .write → ∃ served,
      perform m req.op req.off req.len req.buf = some served := by
    intro hop
    have hin : req.off + req.len ≤ size := fits.inside (by
      rcases hop with hop | hop
      · simp [hop]
      · simp [hop])
    obtain ⟨res, buf, d', hserved⟩ :=
      Disk.exists_serves ⟨m, h⟩ req.op hin (fits.buffer hop).1
    exact ⟨_, hserved.performed⟩
  have hdiscard : req.op ≠ .flush → ∃ m', m.discard req.off req.len = some m' := by
    intro hop
    have hin : (Call.discard req.off req.len).InRange m.committed.length := by
      rw [h.size]
      exact fits.inside hop
    obtain ⟨reply, m', ev, hcall, -⟩ := Model.call_total h.valid hin
    obtain ⟨m'', hdone, -⟩ := Option.map_eq_some_iff.mp hcall
    exact ⟨m'', hdone⟩
  cases hop : req.op with
  | read =>
    have hread := hserves (Or.inl hop)
    rwa [hop] at hread
  | write =>
    have hwrite := hserves (Or.inr hop)
    rwa [hop] at hwrite
  | flush =>
    obtain ⟨m', hflush, -⟩ := Model.flush_spec h.valid
    exact ⟨_, by rw [perform, hflush]; rfl⟩
  | discard | writeZeroes =>
    obtain ⟨m', hdone⟩ := hdiscard (by simp [hop])
    exact ⟨(0, req.buf, m'), by simp [perform, hdone]⟩
  | other code => exact absurd hop (fits.known code)

/-- It answers what it should, and leaves a request that can be performed. -/
theorem Fits.answers {m m' : Model} {req : Request} {res : Int} {buf : Bytes}
    (fits : Fits size lbs req) (h : m.Sized size lbs cacheCap)
    (performed : perform m req.op req.off req.len req.buf = some (res, buf, m')) :
    Answers req res ∧ m'.Sized size lbs cacheCap ∧ Fits size lbs { req with buf } := by
  obtain ⟨op, off, len, old⟩ := req
  simp only at performed
  have hin : op ≠ .flush → off + len ≤ m.committed.length := by
    intro hop
    rw [h.size]
    exact fits.inside hop
  -- the length that is reported is not cut by the cast
  have hcast : len ≤ ioBufBytes → asI32 len = len := by
    intro hle
    have hbuf : ioBufBytes = 524288 := rfl
    unfold asI32
    rw [Int.bmod_def]
    omega
  have hsame : buf = old → Fits size lbs ⟨op, off, len, buf⟩ := by
    rintro rfl
    exact fits
  cases op with
  | read =>
    obtain ⟨hold, hle⟩ := fits.buffer (Or.inl rfl)
    obtain ⟨hperformed, hres, out, hread, hbuf⟩ := performed_read h.valid (hin nofun) performed
    have hout : out.length = len := by
      have hview : m.view.length = m.committed.length := overwriteAll_length h.valid.cache
      rw [(Model.read_eq h.valid hread).1, slice_length _ (hview.symm ▸ hin nofun)]
      omega
    refine ⟨hres.trans (hcast hle), hperformed.sized _ _ _ h, fits.known, fits.inside,
      fits.aligned, fun _ => ⟨?_, hle⟩⟩
    show len ≤ buf.length
    rw [hbuf, List.length_append, hout]
    omega
  | write =>
    obtain ⟨-, hle⟩ := fits.buffer (Or.inr rfl)
    obtain ⟨hperformed, hbuf, hres⟩ := performed_write h.valid (hin nofun) performed
    refine ⟨?_, hperformed.sized _ _ _ h, hsame hbuf⟩
    rcases hres with ⟨-, hres⟩ | ⟨hres, -⟩
    · exact Or.inr hres
    · exact Or.inl (hres.trans (hcast hle))
  | flush =>
    obtain ⟨hperformed, hbuf, hres, -⟩ := performed_flush h.valid performed
    exact ⟨hres, hperformed.sized _ _ _ h, hsame hbuf⟩
  | discard =>
    obtain ⟨hperformed, hbuf, hres⟩ :=
      performed_discard h.valid (hin nofun) (Or.inl rfl) performed
    exact ⟨hres, hperformed.sized _ _ _ h, hsame hbuf⟩
  | writeZeroes =>
    obtain ⟨hperformed, hbuf, hres⟩ :=
      performed_discard h.valid (hin nofun) (Or.inr rfl) performed
    exact ⟨hres, hperformed.sized _ _ _ h, hsame hbuf⟩
  | other code => exact absurd rfl (fits.known code)

/-! ## Every run of the queues -/

/-- Every tag holds a request that can be performed. -/
structure Prepared (size lbs cacheCap : Nat) (s : Server) : Prop where
  model : s.model.Sized size lbs cacheCap
  fits : ∀ q t, Fits size lbs (s.requests q t)

theorem Prepared.setRequest {s s' : Server} (h : Prepared size lbs cacheCap s) {q t : Nat}
    {req : Request} (model : s'.model.Sized size lbs cacheCap) (fits : Fits size lbs req)
    (hrequests : s'.requests = (s.setRequest q t req).requests) :
    Prepared size lbs cacheCap s' := by
  refine ⟨model, fun q' t' => ?_⟩
  rw [hrequests]
  unfold Server.setRequest
  by_cases hq : q' = q
  · subst hq
    by_cases ht : t' = t
    · subst ht
      simpa using fits
    · simpa [ht] using h.fits q' t'
  · simpa [hq] using h.fits q' t'

/-- Fields that no request stands in. -/
theorem Prepared.congr {s s' : Server} (h : Prepared size lbs cacheCap s)
    (model : s'.model.Sized size lbs cacheCap) (hrequests : s'.requests = s.requests) :
    Prepared size lbs cacheCap s' :=
  ⟨model, fun q t => by rw [hrequests]; exact h.fits q t⟩

variable {lib : Libublk} {queues : Nat}

theorem Prepared.step {s s' : Server} {l : QueueLabel}
    (h : Prepared size lbs cacheCap s) (hs : QueueStep lib queues s l s')
    (sent : ∀ q t req, l = .arrive q t req → Fits size lbs req) :
    Prepared size lbs cacheCap s' := by
  cases hs with
  | arrive => exact h.setRequest h.model (sent _ _ _ rfl) rfl
  | serve idle arrived decided performed =>
    obtain ⟨-, hsized, hfits⟩ := (h.fits _ _).answers (Scenario.sized_hang h.model) performed
    exact h.setRequest hsized hfits rfl
  | hang => exact h.congr (Scenario.sized_hang h.model) rfl
  | park | thaw | signal | wake | load | drain | rearm | releaseFailed =>
    exact h.congr h.model rfl
  | releaseOk releasing performed =>
    obtain ⟨-, hsized, hfits⟩ := (h.fits _ _).answers h.model performed
    exact h.setRequest hsized hfits rfl
  | control command done =>
    refine h.congr (h.model.step (ran _ _ ?_ done)) rfl
    rcases command with ⟨mode, rfl⟩ | ⟨policy, rfl⟩
    · trivial
    · trivial

/-- What the server can do for the requests that it has. -/
structure Responsive (lib : Libublk) (queues : Nat) (s : Server) : Prop where
  /-- A queue that is idle serves a request, or parks it. -/
  arrived : ∀ q t, s.pcs q = .idle → s.slots q t = .arrived →
    ∃ l s', QueueStep lib queues s l s' ∧ (l = .hang q t ∨ ∃ res, l = .serve q t res)
  /-- A queue that has drained the list gets to the end of it. -/
  drained : ∀ q p rest thaw, s.pcs q = .releasing thaw (p :: rest) →
    ∃ res s', QueueStep lib queues s (.release q p.tag res) s' ∧ s'.pcs q = .releasing thaw rest
  /-- A crash is taken at any time. -/
  crashes : ∀ mode, ∃ s', QueueStep lib queues s (.control (.crash mode)) s'
  served : ∀ q t res s', QueueStep lib queues s (.serve q t res) s' →
    Answers (s.requests q t) res
  /-- A thaw with `ok` answers as a queue does, and one with `eio` fails. -/
  released : ∀ q t res s', QueueStep lib queues s (.release q t res) s' →
    ∃ thaw, (s.pcs q).loaded = some thaw ∧
      (thaw = 0 ∧ Answers (s.requests q t) res ∨ thaw = negEio ∧ res = negEio)
  /-- A parked request that a thaw is on its way to can be released, but for
  another queue that drains it. -/
  thawed : ∀ q t, Due s q t → ∃ trace s', Run (WorkStep lib queues) s trace s' ∧
    ((∃ res, .release q t res ∈ trace) ∨ ∃ q', q' ≠ q ∧ .drain q' ∈ trace)

/-- No request comes that `perform` does not take. -/
theorem Prepared.performs {s : Server} (h : Prepared size lbs cacheCap s)
    {trace : List QueueLabel} {s' : Server} (run : Run (WorkStep lib queues) s trace s') :
    Performs s' := by
  have hprepared : Prepared size lbs cacheCap s' :=
    run.state_invariant (Prepared size lbs cacheCap) h fun _ _ _ hinv hs =>
      hinv.step hs.1 fun q t req hl => absurd hl (hs.2 q t req)
  intro q t
  exact (hprepared.fits q t).performs hprepared.model

theorem Prepared.responsive (completes : lib.Completes) {s : Server}
    (h : Prepared size lbs cacheCap s) (thawInv : ThawInv queues s) :
    Responsive lib queues s := by
  have hcompletes : ∀ slot, ∃ slot', lib.complete slot = some slot' := fun slot =>
    Option.ne_none_iff_exists'.mp (completes.taken slot)
  refine ⟨?_, ?_, ?_, ?_, ?_, fun q t => thawInv.released completes fun _ _ => h.performs⟩
  · intro q t hidle harrived
    cases hdecided : s.model.hang.1 with
    | true => exact ⟨_, _, .hang hidle harrived hdecided, Or.inl rfl⟩
    | false =>
      obtain ⟨⟨res, buf, m⟩, hperform⟩ := (h.fits q t).performs (Scenario.sized_hang h.model)
      exact ⟨_, _, .serve hidle harrived hdecided hperform completes.handled, Or.inr ⟨res, rfl⟩⟩
  · intro q p rest thaw hreleasing
    obtain ⟨slot, hslot⟩ := hcompletes (s.slots q p.tag)
    by_cases hthaw : thaw = 0
    · subst hthaw
      obtain ⟨⟨res, buf, m⟩, hperform⟩ := (h.fits q p.tag).performs h.model
      exact ⟨_, _, .releaseOk hreleasing hperform hslot, (pcs_setPc _ _ _ _).trans (if_pos rfl)⟩
    · exact ⟨_, _, .releaseFailed hreleasing hthaw hslot,
        (pcs_setPc _ _ _ _).trans (if_pos rfl)⟩
  · intro mode
    obtain ⟨reply, m, ev, hcall, -⟩ := Model.call_total (c := .crash mode) h.model.valid trivial
    exact ⟨_, .control (Or.inl ⟨mode, rfl⟩) hcall⟩
  · intro q t res s' hs
    cases hs with
    | serve idle arrived decided performed =>
      exact ((h.fits q t).answers (Scenario.sized_hang h.model) performed).1
  · intro q t res s' hs
    cases hs with
    | releaseOk releasing performed =>
      exact ⟨0, by rw [releasing]; rfl, Or.inl ⟨rfl, ((h.fits _ _).answers h.model performed).1⟩⟩
    | releaseFailed releasing failed =>
      have hloaded : (s.pcs q).loaded = some res := by
        rw [releasing]
        rfl
      have heio := (thawInv.loaded q res hloaded).resolve_left failed
      exact ⟨res, hloaded, Or.inr ⟨heio, heio⟩⟩

/-- Over every run of the queues of a device whose options were accepted:
whatever the block layer may send is answered as it should be, and no handler
panics. -/
theorem serves_what_is_sent {size : UInt64} {lbs : UInt32} {cacheCap : Nat} {seed : UInt64}
    {policy : Policy} {trace : List QueueLabel} {s : Server} (completes : lib.Completes)
    (accepted : serveCheck size lbs = some true)
    (run : Run (QueueStep lib queues)
      (.init queues (.new size.toNat lbs.toNat cacheCap seed policy)) trace s)
    (sent : ∀ q t req, .arrive q t req ∈ trace → Sent size lbs req) :
    Responsive lib queues s := by
  obtain ⟨-, -, k, -, -, hlbs⟩ := serveCheck_iff.mp accepted
  have hpos : 0 < lbs.toNat := by
    rw [hlbs]
    exact Nat.two_pow_pos k
  have hprepared : Prepared size.toNat lbs.toNat cacheCap s := by
    refine Run.invariant (fun trace => ∀ q t req, .arrive q t req ∈ trace → Sent size lbs req)
      (fun _ s => Prepared size.toNat lbs.toNat cacheCap s) ?_ ?_ ?_ run sent
    · intro trace label hall q t req hmem
      exact hall q t req (List.mem_append_left _ hmem)
    · exact ⟨Model.sized_new hpos, fun _ _ => fits_empty _ _⟩
    · intro trace t label u hall h hs
      refine h.step hs fun q tag req hlabel => ?_
      exact (hall q tag req (List.mem_append_right _ (by rw [hlabel]; simp))).fits accepted
  have hthaw : ThawInv queues s :=
    run.state_invariant (ThawInv queues) (thawInv_init _) fun _ _ _ h hs => h.step hs
  exact hprepared.responsive completes hthaw

/-- A write of the first block of two. -/
def firstBlock : Request :=
  { op := .write, off := 0, len := 4096, buf := List.replicate ioBufBytes 0 }

theorem serves_what_is_sent_twoBlocks :
    ∃ s, s.slots 0 0 = .arrived ∧ Responsive .taking 1 s := by
  have accepted : serveCheck 8192 4096 = some true := by decide
  have sent : Sent 8192 4096 firstBlock := by
    refine ⟨⟨0, 8, ⟨nofun, fun _ => by decide, by decide, fun _ => by decide, fun _ => ?_⟩, rfl, rfl⟩,
      List.length_replicate⟩
    rw [limits_block accepted]
    decide
  have harrive : QueueStep .taking 1 (.init 1 (.new 8192 4096 8192 1 {})) (.arrive 0 0 firstBlock)
      _ := .arrive (by decide) rfl
  refine ⟨_, ?_, serves_what_is_sent Libublk.taking_completes accepted (Run.single harrive) ?_⟩
  · simp [Server.setSlot, Server.setRequest]
  · intro q t req hmem
    obtain ⟨-, -, rfl⟩ := QueueLabel.arrive.inj (List.mem_singleton.mp hmem)
    exact sent

end Fault

end Ublkera
