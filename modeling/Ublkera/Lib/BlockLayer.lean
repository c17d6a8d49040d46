import Mathlib.Tactic

/-!
# What a block layer sends to a device

A device declares limits, in sectors of 512 bytes.  The block layer cuts what
it is asked for into requests that respect them: `Admits`.

* `Admits.cap_pos`, `Admits.not_other`: a request is of a kind that the limits
  allow.
* `Admits.inside_bytes`: a request with a range is in the device.
* `Admits.bytes_le`: it is not longer than the limit of its kind.

Nothing in this module is about a particular device.
-/

namespace BlockLayer

inductive Kind where
  | read
  | write
  | flush
  | discard
  | writeZeroes
  | other
  deriving DecidableEq, Repr

/-- A request moves, or frees, a range of the device. -/
def Kind.hasRange : Kind → Bool
  | .flush => false
  | _ => true

structure Limits where
  /-- The logical block, in bytes. -/
  block : Nat
  /-- The sectors of the device. -/
  sectors : Nat
  /-- The sectors of a READ or a WRITE. -/
  transfer : Nat
  /-- The sectors of a DISCARD; 0 when there is none. -/
  discard : Nat
  /-- The sectors of a WRITE_ZEROES; 0 when there is none. -/
  writeZeroes : Nat
  /-- The device has a cache, and takes FLUSHes. -/
  volatileCache : Bool

structure Request where
  kind : Kind
  /-- In sectors. -/
  start : Nat
  len : Nat

/-- The sectors that a request may have. -/
def Limits.cap (l : Limits) : Kind → Nat
  | .read | .write => l.transfer
  | .discard => l.discard
  | .writeZeroes => l.writeZeroes
  | .flush | .other => 0

/-- The block layer sends the request to a device with these limits. -/
structure Admits (l : Limits) (r : Request) : Prop where
  flush : r.kind = .flush → l.volatileCache = true ∧ r.len = 0
  some : r.kind.hasRange = true → 0 < r.len
  cap : r.len ≤ l.cap r.kind
  inside : r.kind.hasRange = true → r.start + r.len ≤ l.sectors
  blocks : r.kind.hasRange = true → l.block ∣ 512 * r.start ∧ l.block ∣ 512 * r.len

variable {l : Limits} {r : Request}

/-- What the limits leave out is not sent. -/
theorem Admits.cap_pos (h : Admits l r) (hrange : r.kind.hasRange = true) : 0 < l.cap r.kind :=
  Nat.lt_of_lt_of_le (h.some hrange) h.cap

theorem Admits.not_other (h : Admits l r) : r.kind ≠ .other := by
  intro hother
  have hpos := h.cap_pos (by rw [hother]; rfl)
  rw [hother] at hpos
  exact absurd hpos (by simp [Limits.cap])

/-- The bytes of a request are bytes of the device. -/
theorem Admits.inside_bytes (h : Admits l r) (hrange : r.kind.hasRange = true) {size : Nat}
    (hsize : 512 * l.sectors ≤ size) : 512 * r.start + 512 * r.len ≤ size := by
  have hin := h.inside hrange
  omega

theorem Admits.bytes_le (h : Admits l r) {bytes : Nat} (hbytes : 512 * l.cap r.kind ≤ bytes) :
    512 * r.len ≤ bytes := by
  have hcap := h.cap
  omega

end BlockLayer
