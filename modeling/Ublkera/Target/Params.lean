import Ublkera.Daemon.Manager
import Ublkera.Era.DirtyMap
import Ublkera.Lib.BlockLayer
import Ublkera.Target.IoCmd

/-!
# The parameters of the device

`initParams` is what `init_tgt` of `src/target.rs` declares to the driver, and
`Params.limits` is what the block layer makes of it.  `sent_exact` is the
reason for the numbers in it: whatever the block layer may send is a request
that `handle_io_cmd` takes, with no length cut by the cast to `u32` and no
offset that wraps, and the chunks that are stamped are those that the backing
IO may change, no more and no fewer.
-/

namespace Ublkera

open BlockLayer

/-! ## `ublk_params` -/

inductive ParamType where
  | basic
  | discard
  deriving DecidableEq, Repr

/-- `ublk_param_basic`. -/
structure BasicParam where
  attrs : UInt32
  logicalBsShift : UInt8
  physicalBsShift : UInt8
  ioOptShift : UInt8
  ioMinShift : UInt8
  maxSectors : UInt32
  devSectors : UInt64

/-- `ublk_param_discard`. -/
structure DiscardParam where
  discardGranularity : UInt32 := 0
  maxDiscardSectors : UInt32 := 0
  maxWriteZeroesSectors : UInt32 := 0
  maxDiscardSegments : UInt16 := 0

structure Params where
  types : List ParamType
  basic : BasicParam
  discard : DiscardParam

/-- `UBLK_ATTR_VOLATILE_CACHE`. -/
def attrVolatileCache : UInt32 := (1 : UInt32) <<< 2

/-- How the driver reads the parameters.  The part about DISCARD counts when
its type is given. -/
def Params.limits (p : Params) : Limits :=
  let discards := p.types.contains .discard
  { block := 2 ^ p.basic.logicalBsShift.toNat
    sectors := p.basic.devSectors.toNat
    transfer := p.basic.maxSectors.toNat
    discard := if discards then p.discard.maxDiscardSectors.toNat else 0
    writeZeroes := if discards then p.discard.maxWriteZeroesSectors.toNat else 0
    volatileCache := p.basic.attrs &&& attrVolatileCache ≠ 0 }

/-- `init_tgt`: the parameters, with `max_io_buf_bytes` of the device. -/
def initParams (discard : Bool) (maxIoBufBytes : UInt32) (devSize : UInt64)
    (bsShifts : UInt8 × UInt8) : Params :=
  { types := if discard then [.basic, .discard] else [.basic]
    basic :=
      { attrs := attrVolatileCache
        logicalBsShift := bsShifts.1
        physicalBsShift := bsShifts.2
        ioOptShift := 12
        ioMinShift := 9
        maxSectors := maxIoBufBytes >>> 9
        devSectors := devSize >>> 9 }
    discard :=
      if discard then
        { discardGranularity := (1 : UInt32) <<< bsShifts.1.toUInt32
          maxDiscardSectors := (1 : UInt32) <<< 22
          maxDiscardSegments := 1 }
      else {} }

/-! ## What is sent -/

/-- `UBLK_IO_OP_WRITE_ZEROES`. -/
def opWriteZeroes : UInt8 := 5

def IoOp.kind : IoOp → Kind
  | .read => .read
  | .write => .write
  | .flush => .flush
  | .discard => .discard
  | .unsupported code => if code = opWriteZeroes then .writeZeroes else .other

def IoDesc.request (iod : IoDesc) : Request :=
  { kind := iod.op.kind, start := iod.startSector.toNat, len := iod.nrSectors.toNat }

/-- The bytes that a backing IO reads or changes. -/
def Sqe.Reaches : Sqe → Nat → Prop
  | .read off len, x => off.toNat ≤ x ∧ x < off.toNat + len.toNat
  | sqe, x => sqe.Changes x

/-- The command is served as it was sent. -/
structure Exact (iod : IoDesc) (block bufBytes : Nat) (map : EraState) (sqe : Sqe) : Prop where
  submitted : handleIoCmd iod none = .submit sqe
  reaches : ∀ x, sqe.Reaches x ↔ iod.op ≠ .flush ∧ 512 * iod.startSector.toNat ≤ x ∧
    x < 512 * (iod.startSector.toNat + iod.nrSectors.toNat)
  inside : ∀ x, sqe.Reaches x → x < map.devSize.toNat
  buffer : iod.op = .read ∨ iod.op = .write → iod.bytes.toNat ≤ bufBytes
  aligned : iod.op ≠ .flush → block ∣ iod.off.toNat ∧ block ∣ iod.bytes.toNat
  stamped : iod.op.changesData = true → ∀ c, map.Stamps iod.off iod.bytes c ↔
    ∃ x, sqe.Changes x ∧ x / map.granularity.toNat = c

theorem shiftRight_nine (n : UInt64) : (n >>> 9).toNat = n.toNat / 512 := by
  have h9 : (9 : UInt64).toNat % 64 = 9 := rfl
  rw [UInt64.toNat_shiftRight, h9, Nat.shiftRight_eq_div_pow]

theorem shiftRight_nine_u32 (n : UInt32) : (n >>> 9).toNat = n.toNat / 512 := by
  have h9 : (9 : UInt32).toNat % 32 = 9 := rfl
  rw [UInt32.toNat_shiftRight, h9, Nat.shiftRight_eq_div_pow]

section

variable {discard : Bool} {bufBytes : UInt32} {devSize : UInt64} {shifts : UInt8 × UInt8}
  {iod : IoDesc} {map : EraState}

theorem limits_sectors : (initParams discard bufBytes devSize shifts).limits.sectors
    = devSize.toNat / 512 :=
  shiftRight_nine devSize

theorem limits_transfer : (initParams discard bufBytes devSize shifts).limits.transfer
    = bufBytes.toNat / 512 :=
  shiftRight_nine_u32 bufBytes

/-- A DISCARD is sent only when it is declared, a WRITE_ZEROES never. -/
theorem limits_discard : (initParams discard bufBytes devSize shifts).limits.discard
    = if discard then 2 ^ 22 else 0 := by
  cases discard with
  | true => rfl
  | false => rfl

theorem limits_writeZeroes : (initParams discard bufBytes devSize shifts).limits.writeZeroes
    = 0 := by
  cases discard with
  | true => rfl
  | false => rfl

theorem kind_unsupported (code : UInt8) : (IoOp.unsupported code).kind = .writeZeroes ∨
    (IoOp.unsupported code).kind = .other := by
  by_cases hcode : code = opWriteZeroes
  · exact Or.inl (if_pos hcode)
  · exact Or.inr (if_neg hcode)

/-- What is sent is passed through. -/
theorem op_of_admits (sent : Admits (initParams discard bufBytes devSize shifts).limits iod.request)
    (code : UInt8) : iod.op ≠ .unsupported code := by
  intro hop
  rcases kind_unsupported code with hkind | hkind
  · have hrequest : iod.request.kind = .writeZeroes := by
      rw [← hkind, ← hop]
      rfl
    have hpos := sent.cap_pos (by rw [hrequest]; rfl)
    rw [hrequest] at hpos
    simp only [Limits.cap, limits_writeZeroes] at hpos
    omega
  · refine sent.not_other ?_
    rw [← hkind, ← hop]
    rfl

theorem hasRange_of_ne_flush (hop : iod.op ≠ .flush) : iod.request.kind.hasRange = true := by
  cases hcase : iod.op with
  | flush => exact absurd hcase hop
  | read | write | discard =>
    simp only [IoDesc.request, hcase]
    rfl
  | unsupported code =>
    simp only [IoDesc.request, hcase]
    rcases kind_unsupported code with hkind | hkind
    · rw [hkind]
      rfl
    · rw [hkind]
      rfl

theorem inDevice_of_admits
    (sent : Admits (initParams discard bufBytes devSize shifts).limits iod.request)
    (hop : iod.op ≠ .flush) : iod.InDevice devSize := by
  have hsectors : 512 * (initParams discard bufBytes devSize shifts).limits.sectors
      ≤ devSize.toNat := by
    rw [limits_sectors]
    omega
  have hin := sent.inside_bytes (hasRange_of_ne_flush hop) hsectors
  unfold IoDesc.InDevice
  simp only [IoDesc.request] at hin
  omega

/-- A READ or a WRITE fits into the buffer of its tag, so its length is an
`u32`. -/
theorem bytes_le_of_admits
    (sent : Admits (initParams discard bufBytes devSize shifts).limits iod.request)
    (hop : iod.op = .read ∨ iod.op = .write) :
    iod.bytes.toNat ≤ bufBytes.toNat ∧ iod.bytes.toUInt32.toNat = iod.bytes.toNat := by
  have hlt := bufBytes.toNat_lt
  have hcap : (initParams discard bufBytes devSize shifts).limits.cap iod.request.kind
      = bufBytes.toNat / 512 := by
    rcases hop with hop | hop
    · simp only [IoDesc.request, hop]
      exact limits_transfer
    · simp only [IoDesc.request, hop]
      exact limits_transfer
  have hroom : 512 * (initParams discard bufBytes devSize shifts).limits.cap iod.request.kind
      ≤ bufBytes.toNat := by
    rw [hcap]
    omega
  have hbytes := sent.bytes_le hroom
  have hle : iod.bytes.toNat ≤ bufBytes.toNat := by
    rw [iod.bytes_toNat]
    simp only [IoDesc.request] at hbytes
    omega
  refine ⟨hle, ?_⟩
  rw [UInt64.toNat_toUInt32]
  exact Nat.mod_eq_of_lt (by omega)

/-- `mark_write` stamps the chunks of the range, and no others. -/
theorem stamps_iff (hin : iod.InDevice map.devSize) (c : Nat) :
    map.Stamps iod.off iod.bytes c ↔
      ∃ x, iod.Spans x ∧ x / map.granularity.toNat = c := by
  have hend := IoDesc.end_le hin
  constructor
  · rintro ⟨first, last, hrange, hlo, hhi⟩
    obtain ⟨x, hx, hx', hchunk⟩ := EraState.exists_mem_of_markRange hend hrange hlo hhi
    exact ⟨x, ⟨hx, hx'⟩, hchunk⟩
  · rintro ⟨x, ⟨hlo, hhi⟩, rfl⟩
    exact EraState.mem_markRange hend hlo hhi

theorem exact_flush {block buf : Nat} (hop : iod.op = .flush) : Exact iod block buf map .fsync := by
  refine ⟨?_, fun x => ?_, nofun, ?_, fun hne => absurd hop hne, ?_⟩
  · exact handleIoCmd_fetched (by rw [hop]; rfl)
  · refine ⟨False.elim, fun h => h.1 hop⟩
  · rintro (h | h)
    · rw [hop] at h
      cases h
    · rw [hop] at h
      cases h
  · intro h
    rw [hop] at h
    cases h

/-- An `Exact` submission of a command with a range. -/
theorem exact_of_range {block buf : Nat} {sqe : Sqe} (hin : iod.InDevice map.devSize)
    (hflush : iod.op ≠ .flush) (supported : makeSqe iod.op iod.off iod.bytes = some sqe)
    (hreaches : ∀ x, sqe.Reaches x ↔ iod.Spans x)
    (hchanges : iod.op.changesData = true → ∀ x, sqe.Changes x ↔ sqe.Reaches x)
    (hbuf : iod.op = .read ∨ iod.op = .write → iod.bytes.toNat ≤ buf)
    (haligned : block ∣ iod.off.toNat ∧ block ∣ iod.bytes.toNat) :
    Exact iod block buf map sqe := by
  have hoff := IoDesc.off_toNat hin
  have hbytes := iod.bytes_toNat
  have hend := IoDesc.end_le hin
  have hspans : ∀ x, iod.Spans x ↔ 512 * iod.startSector.toNat ≤ x ∧
      x < 512 * (iod.startSector.toNat + iod.nrSectors.toNat) := by
    intro x
    unfold IoDesc.Spans
    rw [hoff, hbytes]
    omega
  refine ⟨handleIoCmd_fetched supported, fun x => ?_, fun x hx => ?_, hbuf, fun _ => haligned,
    fun hchange c => ?_⟩
  · rw [hreaches, hspans]
    exact ⟨fun h => ⟨hflush, h⟩, fun h => h.2⟩
  · have hx' := ((hreaches x).mp hx).2
    omega
  · rw [stamps_iff hin]
    constructor
    · rintro ⟨x, hx, hc⟩
      exact ⟨x, (hchanges hchange x).mpr ((hreaches x).mpr hx), hc⟩
    · rintro ⟨x, hx, hc⟩
      exact ⟨x, (hreaches x).mp ((hchanges hchange x).mp hx), hc⟩

theorem checkAdd_whole {devices : List Manager.Managed} {spec : Manager.DeviceSpec}
    {env : Manager.AddEnv} (checked : Manager.checkAdd devices spec env = .ok devSize) :
    devSize.toNat % 512 = 0 := by
  unfold Manager.checkAdd at checked
  split at checked
  · cases checked
  · cases hopened : env.opened with
    | error e => simp [hopened] at checked
    | ok =>
      cases hsize : env.devSize with
      | error e => simp [hopened, hsize] at checked
      | ok size =>
        simp only [hopened, hsize] at checked
        split at checked
        · cases checked
        · rename_i hvalid
          split at checked
          · cases checked
          · obtain rfl := Except.ok.inj checked
            have hmod := not_not.mp (not_or.mp hvalid).2
            have hnat := congrArg UInt64.toNat hmod
            rw [UInt64.toNat_mod] at hnat
            exact hnat

/-- Whatever the block layer sends to a device that `add` has checked is
served as it was sent.  The parameters leave out no byte of the device. -/
theorem sent_exact {devices : List Manager.Managed} {spec : Manager.DeviceSpec}
    {env : Manager.AddEnv} (checked : Manager.checkAdd devices spec env = .ok devSize)
    (hsize : map.devSize = devSize)
    (sent : Admits (initParams discard bufBytes devSize shifts).limits iod.request) :
    512 * (initParams discard bufBytes devSize shifts).limits.sectors = devSize.toNat ∧
      (iod.op = .discard → discard = true) ∧
      ∃ sqe, Exact iod (2 ^ shifts.1.toNat) bufBytes.toNat map sqe := by
  have hwhole : 512 * (devSize.toNat / 512) = devSize.toNat := by
    have hmod := checkAdd_whole checked
    omega
  refine ⟨by rw [limits_sectors]; exact hwhole, ?_, ?_⟩
  · intro hop
    have hpos := sent.cap_pos (hasRange_of_ne_flush (by rw [hop]; nofun))
    simp only [IoDesc.request, hop, IoOp.kind, Limits.cap, limits_discard] at hpos
    by_contra hdiscard
    rw [if_neg hdiscard] at hpos
    omega
  · by_cases hflush : iod.op = .flush
    · exact ⟨.fsync, exact_flush hflush⟩
    · have hin : iod.InDevice map.devSize := hsize ▸ inDevice_of_admits sent hflush
      have hblocks := sent.blocks (hasRange_of_ne_flush hflush)
      have haligned : 2 ^ shifts.1.toNat ∣ iod.off.toNat ∧ 2 ^ shifts.1.toNat ∣ iod.bytes.toNat := by
        rw [IoDesc.off_toNat hin, iod.bytes_toNat, Nat.mul_comm, Nat.mul_comm _ 512]
        exact hblocks
      cases hop : iod.op with
      | flush => exact absurd hop hflush
      | unsupported code => exact absurd hop (op_of_admits sent code)
      | read =>
        obtain ⟨hbuf, hlen⟩ := bytes_le_of_admits sent (Or.inl hop)
        refine ⟨.read iod.off iod.bytes.toUInt32, exact_of_range hin hflush (by rw [hop]; rfl)
          (fun x => ?_) (fun hchange => ?_) (fun _ => hbuf) haligned⟩
        · show _ ∧ x < iod.off.toNat + iod.bytes.toUInt32.toNat ↔ _
          rw [hlen]
          exact Iff.rfl
        · rw [hop] at hchange
          cases hchange
      | write =>
        obtain ⟨hbuf, hlen⟩ := bytes_le_of_admits sent (Or.inr hop)
        refine ⟨.write iod.off iod.bytes.toUInt32, exact_of_range hin hflush (by rw [hop]; rfl)
          (fun x => ?_) (fun _ _ => Iff.rfl) (fun _ => hbuf) haligned⟩
        show _ ∧ x < iod.off.toNat + iod.bytes.toUInt32.toNat ↔ _
        rw [hlen]
        exact Iff.rfl
      | discard =>
        refine ⟨.punchHole iod.off iod.bytes, exact_of_range hin hflush (by rw [hop]; rfl)
          (fun _ => Iff.rfl) (fun _ _ => Iff.rfl) (fun hdata => ?_) haligned⟩
        rcases hdata with hdata | hdata
        · rw [hop] at hdata
          cases hdata
        · rw [hop] at hdata
          cases hdata

end

/-- A write of the whole of a device of one chunk. -/
theorem sent_exact_oneChunk :
    512 * (initParams true 524288 4096 (9, 12)).limits.sectors = 4096 ∧ ∃ sqe,
      Exact { op := .write, startSector := 0, nrSectors := 8 } 512 524288 EraState.oneChunk sqe ∧
      ∃ sqe', Exact { op := .discard, startSector := 0, nrSectors := 8 } 512 524288
        EraState.oneChunk sqe' := by
  have checked : Manager.checkAdd [] { backing := "/dev/a" }
      { idInUse := false, opened := .ok (), devSize := .ok 4096, urandom := .ok 7 } = .ok 4096 :=
    rfl
  have sent : Admits (initParams true 524288 4096 (9, 12)).limits
      ({ op := .write, startSector := 0, nrSectors := 8 } : IoDesc).request :=
    ⟨nofun, fun _ => by decide, by decide, fun _ => by decide, fun _ => by decide⟩
  have discarded : Admits (initParams true 524288 4096 (9, 12)).limits
      ({ op := .discard, startSector := 0, nrSectors := 8 } : IoDesc).request :=
    ⟨nofun, fun _ => by decide, by decide, fun _ => by decide, fun _ => by decide⟩
  have hsize : EraState.oneChunk.devSize = 4096 := rfl
  obtain ⟨hsectors, -, sqe, hwrite⟩ := sent_exact checked hsize sent
  obtain ⟨-, -, sqe', hdiscard⟩ := sent_exact checked hsize discarded
  exact ⟨hsectors, sqe, hwrite, sqe', hdiscard⟩

end Ublkera
