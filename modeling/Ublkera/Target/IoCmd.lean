import Ublkera.Era.Ranges

/-!
# The per-tag IO state machine

`handleIoCmd` is `handle_io_cmd` of `src/target.rs`: it turns a fetched
command, or the completion of a backing IO, into the next action on the tag.
`Io.Step` runs it on every tag of every queue at once, with `mark_write` cut
into its atomic operations: one load of the era counter, one `fetch_max` per
chunk, and the second load that decides on another pass.  Any step of any
other tag may come between two of them.

The medium behind the device is a parameter, `Backing`: a backing IO may
change the medium at any time between its submission and its completion,
and only inside its own byte range.

`Ublkera.Target.Stamping` proves what the steps keep.
-/

namespace Ublkera

/-! ## Commands and backing IOs -/

/-- The `UBLK_IO_OP_*` codes that the source names; the rest are
unsupported. -/
inductive IoOp where
  | read
  | write
  | flush
  | discard
  | unsupported (code : UInt8)
  deriving DecidableEq, Repr

/-- The ops that `handle_io_cmd` stamps the era map for. -/
def IoOp.changesData : IoOp → Bool
  | .write | .discard => true
  | _ => false

/-- A command descriptor of the ublk driver. -/
structure IoDesc where
  op : IoOp
  startSector : UInt64
  nrSectors : UInt32
  deriving DecidableEq, Repr

namespace IoDesc

def off (iod : IoDesc) : UInt64 := iod.startSector <<< 9

def bytes (iod : IoDesc) : UInt64 := iod.nrSectors.toUInt64 <<< 9

/-- The block layer sends no command past the end of the device. -/
def InDevice (iod : IoDesc) (devSize : UInt64) : Prop :=
  (iod.startSector.toNat + iod.nrSectors.toNat) * 512 ≤ devSize.toNat

instance (iod : IoDesc) (devSize : UInt64) : Decidable (iod.InDevice devSize) :=
  inferInstanceAs (Decidable (_ ≤ _))

/-- The byte range of the command. -/
def Spans (iod : IoDesc) (x : Nat) : Prop :=
  iod.off.toNat ≤ x ∧ x < iod.off.toNat + iod.bytes.toNat

instance (iod : IoDesc) (x : Nat) : Decidable (iod.Spans x) :=
  inferInstanceAs (Decidable (_ ∧ _))

theorem bytes_toNat (iod : IoDesc) : iod.bytes.toNat = iod.nrSectors.toNat * 512 := by
  have h := UInt32.toNat_lt iod.nrSectors
  have h9 : (9 : UInt64).toNat % 64 = 9 := rfl
  rw [bytes, UInt64.toNat_shiftLeft, UInt32.toNat_toUInt64, h9, Nat.shiftLeft_eq]
  omega

theorem off_toNat {iod : IoDesc} {devSize : UInt64} (h : iod.InDevice devSize) :
    iod.off.toNat = iod.startSector.toNat * 512 := by
  have hsize := UInt64.toNat_lt devSize
  have h9 : (9 : UInt64).toNat % 64 = 9 := rfl
  unfold InDevice at h
  rw [off, UInt64.toNat_shiftLeft, h9, Nat.shiftLeft_eq]
  omega

theorem end_le {iod : IoDesc} {devSize : UInt64} (h : iod.InDevice devSize) :
    iod.off.toNat + iod.bytes.toNat ≤ devSize.toNat := by
  rw [off_toNat h, bytes_toNat, ← Nat.add_mul]
  exact h

end IoDesc

/-- The submission that `make_sqe` builds. -/
inductive Sqe where
  | fsync
  | read (off : UInt64) (len : UInt32)
  | write (off : UInt64) (len : UInt32)
  | punchHole (off : UInt64) (len : UInt64)
  deriving DecidableEq, Repr

/-- `make_sqe`: the ops that are passed through, `none` for the rest.  The
length of a READ or a WRITE is cast to `u32`. -/
def makeSqe (op : IoOp) (off len : UInt64) : Option Sqe :=
  match op with
  | .flush => some .fsync
  | .read => some (.read off len.toUInt32)
  | .write => some (.write off len.toUInt32)
  | .discard => some (.punchHole off len)
  | .unsupported _ => none

/-- The bytes that a backing IO may change. -/
def Sqe.Changes : Sqe → Nat → Prop
  | .write off len, x => off.toNat ≤ x ∧ x < off.toNat + len.toNat
  | .punchHole off len, x => off.toNat ≤ x ∧ x < off.toNat + len.toNat
  | _, _ => False

instance (sqe : Sqe) (x : Nat) : Decidable (sqe.Changes x) :=
  match sqe with
  | .write _ _ | .punchHole _ _ => inferInstanceAs (Decidable (_ ∧ _))
  | .fsync | .read _ _ => inferInstanceAs (Decidable False)

/-- What a backing IO changes lies in the byte range of its command, and the
command is one that the era map is stamped for. -/
theorem spans_of_changes {iod : IoDesc} {sqe : Sqe} {x : Nat}
    (hsqe : makeSqe iod.op iod.off iod.bytes = some sqe) (h : sqe.Changes x) :
    iod.op.changesData = true ∧ iod.Spans x := by
  have hlen : iod.bytes.toUInt32.toNat ≤ iod.bytes.toNat := by
    rw [UInt64.toNat_toUInt32]
    exact Nat.mod_le _ _
  cases hop : iod.op with
  | unsupported => simp [makeSqe, hop] at hsqe
  | read | flush =>
    simp only [makeSqe, hop, Option.some.injEq] at hsqe
    subst hsqe
    exact h.elim
  | write =>
    simp only [makeSqe, hop, Option.some.injEq] at hsqe
    subst hsqe
    exact ⟨rfl, h.1, Nat.lt_of_lt_of_le h.2 (by omega)⟩
  | discard =>
    simp only [makeSqe, hop, Option.some.injEq] at hsqe
    subst hsqe
    exact ⟨rfl, h⟩

/-- A medium behind the device.  `view` reads a byte, and `lands` says what
the medium may look like after a backing IO has had some effect: all of it,
a part of it, or none. -/
structure Backing (D : Type) where
  view : D → Nat → UInt8
  lands : Sqe → D → D → Prop
  lands_frame : ∀ {sqe : Sqe} {d d' : D} {x : Nat},
    lands sqe d d' → ¬ sqe.Changes x → view d' x = view d x

/-- A medium that promises nothing beyond the byte range of the IO. -/
def plainDisk : Backing (Nat → UInt8) where
  view := id
  lands sqe d d' := ∀ x, ¬ sqe.Changes x → d' x = d x
  lands_frame := fun h hx => h _ hx

/-- Errno values of the source, negated as it returns them. -/
def negEAGAIN : Int := -11
def negEINVAL : Int := -22

/-! ## The handler -/

/-- What one turn of the state machine does on its tag. -/
inductive IoAction where
  /-- Submit the backing IO. -/
  | submit (sqe : Sqe)
  /-- Stamp the era map over the whole request, then complete it. -/
  | markThenComplete (res : Int)
  /-- Complete the command to the driver. -/
  | complete (res : Int)
  deriving DecidableEq, Repr

/-- `handle_io_cmd`.  `cqe` is the result of the backing IO when the
completion belongs to one (`is_tgt_io`), and `none` when the completion is a
freshly fetched command.  An EAGAIN falls through and submits the same
backing IO again. -/
def handleIoCmd (iod : IoDesc) (cqe : Option Int) : IoAction :=
  match cqe with
  | some res =>
    if res ≠ negEAGAIN then
      if iod.op.changesData then .markThenComplete res else .complete res
    else start
  | none => start
where
  start : IoAction :=
    match makeSqe iod.op iod.off iod.bytes with
    | some sqe => .submit sqe
    | none => .complete negEINVAL

theorem handleIoCmd_fetched {iod : IoDesc} {sqe : Sqe}
    (supported : makeSqe iod.op iod.off iod.bytes = some sqe) :
    handleIoCmd iod none = .submit sqe := by
  simp [handleIoCmd, handleIoCmd.start, supported]

theorem handleIoCmd_again {iod : IoDesc} {sqe : Sqe}
    (supported : makeSqe iod.op iod.off iod.bytes = some sqe) :
    handleIoCmd iod (some negEAGAIN) = .submit sqe := by
  simp [handleIoCmd, handleIoCmd.start, supported]

theorem handleIoCmd_unchanged {iod : IoDesc} {res : Int} (hop : iod.op.changesData = false)
    (final : res ≠ negEAGAIN) : handleIoCmd iod (some res) = .complete res := by
  simp [handleIoCmd, final, hop]

theorem handleIoCmd_changed {iod : IoDesc} {res : Int} (hop : iod.op.changesData = true)
    (final : res ≠ negEAGAIN) : handleIoCmd iod (some res) = .markThenComplete res := by
  simp [handleIoCmd, final, hop]

/-! ## All tags at once -/

/-- A tag of a queue. -/
structure Tag where
  qid : Nat
  tag : Nat
  deriving DecidableEq, Repr

/-- The program counter of `mark_write`. -/
inductive MarkPc where
  /-- Before the load of `current_era`. -/
  | load
  /-- Before the `fetch_max` of chunk `i`, with the era that was loaded. -/
  | stamp (era : UInt32) (i : Nat)
  /-- Before the second load of `current_era`. -/
  | check (era : UInt32)
  deriving DecidableEq, Repr

/-- The loop over `eras[first..=last]`, before the iteration of chunk
`i`. -/
def MarkPc.stampFrom (era : UInt32) (i last : Nat) : MarkPc :=
  if i ≤ last then .stamp era i else .check era

inductive TagPhase where
  | idle
  /-- The backing IO is in flight. -/
  | backend (iod : IoDesc) (sqe : Sqe)
  /-- Inside `mark_write`, over the chunks `first..=last`. -/
  | marking (iod : IoDesc) (res : Int) (first last : Nat) (pc : MarkPc)
  /-- Before `complete_io_cmd_unified`. -/
  | acking (iod : IoDesc) (res : Int)
  deriving DecidableEq, Repr

/-- The command on the tag, while `mark_write` has not returned for it. -/
def TagPhase.unmarked : TagPhase → Option IoDesc
  | .backend iod _ => some iod
  | .marking iod _ _ _ _ => some iod
  | _ => none

/-- Where an action leads the tag. -/
def IoAction.phase (map : EraState) (iod : IoDesc) : IoAction → TagPhase
  | .submit sqe => .backend iod sqe
  | .complete res => .acking iod res
  | .markThenComplete res =>
    match map.markRange iod.off iod.bytes with
    | none => .acking iod res
    | some (first, last) => .marking iod res first last .load

/-- The era map, the medium, and the phase of every tag. -/
structure IoState (D : Type) where
  map : EraState
  medium : D
  tags : Tag → TagPhase

namespace Io

variable {D : Type} (B : Backing D)

inductive Label where
  | fetch (t : Tag) (iod : IoDesc)
  | land (t : Tag)
  | cqe (t : Tag) (res : Int)
  | markLoad (t : Tag)
  | markStamp (t : Tag)
  | markCheck (t : Tag)
  | ack (t : Tag)
  deriving DecidableEq, Repr

/-- One atomic step of one tag. -/
inductive Step : IoState D → Label → IoState D → Prop where
  | fetch {s : IoState D} {t : Tag} {iod : IoDesc}
      (idle : s.tags t = .idle) (inDevice : iod.InDevice s.map.devSize) :
      Step s (.fetch t iod)
        { s with tags := Function.update s.tags t ((handleIoCmd iod none).phase s.map iod) }
  | land {s : IoState D} {t : Tag} {iod : IoDesc} {sqe : Sqe} {medium : D}
      (backend : s.tags t = .backend iod sqe) (lands : B.lands sqe s.medium medium) :
      Step s (.land t) { s with medium }
  | cqe {s : IoState D} {t : Tag} {iod : IoDesc} {sqe : Sqe} {res : Int}
      (backend : s.tags t = .backend iod sqe) :
      Step s (.cqe t res)
        { s with
          tags := Function.update s.tags t ((handleIoCmd iod (some res)).phase s.map iod) }
  | markLoad {s : IoState D} {t : Tag} {iod : IoDesc} {res : Int} {first last : Nat}
      (marking : s.tags t = .marking iod res first last .load) :
      Step s (.markLoad t)
        { s with
          tags := Function.update s.tags t
            (.marking iod res first last (.stampFrom s.map.currentEra first last)) }
  | markStamp {s : IoState D} {t : Tag} {iod : IoDesc} {res : Int} {first last : Nat}
      {era : UInt32} {i : Nat}
      (marking : s.tags t = .marking iod res first last (.stamp era i)) :
      Step s (.markStamp t)
        { s with
          map := s.map.fetchMax i era
          tags := Function.update s.tags t
            (.marking iod res first last (.stampFrom era (i + 1) last)) }
  | markCheck {s : IoState D} {t : Tag} {iod : IoDesc} {res : Int} {first last : Nat}
      {era : UInt32}
      (marking : s.tags t = .marking iod res first last (.check era)) :
      Step s (.markCheck t)
        { s with
          tags := Function.update s.tags t
            (if s.map.currentEra = era then .acking iod res
              else .marking iod res first last .load) }
  | ack {s : IoState D} {t : Tag} {iod : IoDesc} {res : Int}
      (acking : s.tags t = .acking iod res) :
      Step s (.ack t) { s with tags := Function.update s.tags t .idle }

end Io

end Ublkera
