import Ublkera.Lib.PosixFs

/-!
# A file system under power loss

`DurableFs` puts a disk under the file system that the programs see.  For
each name it keeps the entries that a power loss may leave there, and for
each inode whether its bytes are on the disk.

* `change` is any operation.  The new entry of a name joins the entries that
  may be left, since nothing says which of them reached the disk.  Inodes
  that were written to are not on the disk any more, and those that were
  synced are.
* `syncDir` leaves only the current entries.
* `MayLeave` says what a power loss may leave behind.  The bytes of an inode
  that was not synced may be anything.

Nothing in this module is about a particular program.
-/

namespace PosixFs

open LittleEndian

structure DurableFs (Path : Type) where
  fs : Fs Path
  /-- The entries that a power loss may leave under a name. -/
  cand : Path → Option Nat → Prop
  /-- The bytes of the inode are on the disk. -/
  synced : Nat → Prop
  cand_self : ∀ p, cand p (fs.dir p)
  cand_lt : ∀ {p i}, cand p (some i) → i < fs.next

namespace DurableFs

variable {Path : Type}

/-- A disk with the files of `fs` on it and nothing pending. -/
def settled (fs : Fs Path) : DurableFs Path where
  fs := fs
  cand p e := fs.dir p = e
  synced _ := True
  cand_self _ := rfl
  cand_lt h := fs.dir_lt h

/-- An operation that leaves the files of `fs`, writes to the inodes
`touched` and syncs the inodes `flushed`. -/
def change (d : DurableFs Path) (fs : Fs Path) (touched flushed : Nat → Prop)
    (hnext : d.fs.next ≤ fs.next) : DurableFs Path where
  fs := fs
  cand p e := d.cand p e ∨ fs.dir p = e
  synced i := flushed i ∨ (d.synced i ∧ ¬ touched i)
  cand_self _ := Or.inr rfl
  cand_lt := by
    intro p i h
    rcases h with h | h
    · exact Nat.lt_of_lt_of_le (d.cand_lt h) hnext
    · exact fs.dir_lt h

/-- `fsync` of the directory. -/
def syncDir (d : DurableFs Path) : DurableFs Path where
  fs := d.fs
  cand p e := d.fs.dir p = e
  synced := d.synced
  cand_self _ := rfl
  cand_lt h := d.fs.dir_lt h

/-- The files that a power loss may leave. -/
structure MayLeave (d : DurableFs Path) (fs : Fs Path) : Prop where
  entry : ∀ p, d.cand p (fs.dir p)
  data : ∀ i, d.synced i → fs.data i = d.fs.data i

/-- The current files may be left, with other bytes in the inodes that are
not on the disk. -/
theorem mayLeave_of_unsynced (d : DurableFs Path) {ino : Nat} (h : ¬ d.synced ino)
    (bytes : Bytes) :
    d.MayLeave { d.fs with data := Function.update d.fs.data ino bytes } where
  entry := d.cand_self
  data := by
    intro i hi
    have hne : i ≠ ino := by
      intro heq
      exact h (heq ▸ hi)
    exact Function.update_of_ne hne ..

variable [DecidableEq Path]

/-- The files with the entry of `p` put back to an inode that no other name
has. -/
def restore (fs : Fs Path) (p : Path) (ino : Nat) (hlt : ino < fs.next)
    (hfree : ∀ q, q ≠ p → fs.dir q ≠ some ino) : Fs Path :=
  { fs with
    dir := Function.update fs.dir p (some ino)
    dir_lt := by
      intro q i h
      by_cases hq : q = p
      · rw [hq, Function.update_self] at h
        rw [← Option.some.inj h]
        exact hlt
      · rw [Function.update_of_ne hq] at h
        exact fs.dir_lt h
    dir_inj := by
      intro q r i hq hr
      by_cases hqp : q = p
      · by_cases hrp : r = p
        · rw [hqp, hrp]
        · rw [hqp, Function.update_self] at hq
          rw [Function.update_of_ne hrp, ← hq] at hr
          exact absurd hr (hfree r hrp)
      · rw [Function.update_of_ne hqp] at hq
        by_cases hrp : r = p
        · rw [hrp, Function.update_self] at hr
          rw [← hr] at hq
          exact absurd hq (hfree q hqp)
        · rw [Function.update_of_ne hrp] at hr
          exact fs.dir_inj hq hr }

/-- An entry that a power loss may leave comes back, and the other names stay
as they are. -/
theorem mayLeave_restore (d : DurableFs Path) {p : Path} {ino : Nat}
    (hcand : d.cand p (some ino)) (hfree : ∀ q, q ≠ p → d.fs.dir q ≠ some ino) :
    d.MayLeave (restore d.fs p ino (d.cand_lt hcand) hfree) where
  entry := by
    intro q
    show d.cand q (Function.update d.fs.dir p (some ino) q)
    by_cases hq : q = p
    · rw [hq, Function.update_self]
      exact hcand
    · rw [Function.update_of_ne hq]
      exact d.cand_self q
  data _ _ := rfl

/-- An entry that a power loss may leave comes back with any bytes, as long
as its inode is not on the disk. -/
theorem exists_mayLeave (d : DurableFs Path) {p : Path} {ino : Nat}
    (hcand : d.cand p (some ino)) (hfree : ∀ q, q ≠ p → d.fs.dir q ≠ some ino)
    {bytes : Bytes} (hdata : ¬ d.synced ino ∨ d.fs.data ino = bytes) :
    ∃ fs, d.MayLeave fs ∧ fs.read p = some bytes := by
  have hleft := d.mayLeave_restore hcand hfree
  have hentry : (restore d.fs p ino (d.cand_lt hcand) hfree).dir p = some ino :=
    Function.update_self ..
  rcases hdata with hdata | hdata
  · refine ⟨{ restore d.fs p ino (d.cand_lt hcand) hfree with
      data := Function.update d.fs.data ino bytes }, ⟨hleft.entry, ?_⟩, ?_⟩
    · exact (d.mayLeave_of_unsynced hdata bytes).data
    · show Option.map (Function.update d.fs.data ino bytes) _ = some bytes
      rw [hentry, Option.map_some, Function.update_self]
  · refine ⟨_, hleft, ?_⟩
    show Option.map d.fs.data _ = some bytes
    rw [hentry, Option.map_some, hdata]

end DurableFs

end PosixFs
