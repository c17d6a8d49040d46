import Ublkera.Lib.LittleEndian

/-!
# A file system of inodes

A directory names inodes and an inode holds bytes, so a file that is open or
that has just been renamed keeps its inode.  The operations are the ones that
a program needs to replace a file: `create` (`O_CREAT | O_TRUNC`), `writeAt`,
`rename` and `unlink`.

`Fs` carries its own well-formedness.  No two names share an inode
(`dir_inj`), and inodes from `next` on have never been used (`dir_lt`).  The
lemmas say what an operation on one name does to the others: nothing, except
where it writes through the inode or replaces the name.

Nothing in this module is about a particular program.
-/

namespace PosixFs

open LittleEndian

structure Fs (Path : Type) where
  dir : Path → Option Nat
  data : Nat → Bytes
  /-- The first inode that was never used. -/
  next : Nat
  dir_lt : ∀ {p i}, dir p = some i → i < next
  dir_inj : ∀ {p q i}, dir p = some i → dir q = some i → p = q

namespace Fs

variable {Path : Type} [DecidableEq Path]

def empty : Fs Path where
  dir _ := none
  data _ := []
  next := 0
  dir_lt := nofun
  dir_inj := nofun

/-- What a reader of the name finds. -/
def read (fs : Fs Path) (p : Path) : Option Bytes := (fs.dir p).map fs.data

/-- The inode that `create` opens: the one behind the name, or a fresh
one. -/
def openIno (fs : Fs Path) (p : Path) : Nat := (fs.dir p).getD fs.next

/-- `open(O_CREAT | O_TRUNC)`. -/
def create (fs : Fs Path) (p : Path) : Fs Path where
  dir := Function.update fs.dir p (some (fs.openIno p))
  data := Function.update fs.data (fs.openIno p) []
  next := max fs.next (fs.openIno p + 1)
  dir_lt := by
    intro q i h
    by_cases hq : q = p
    · subst hq
      simp only [Function.update_self, Option.some.injEq] at h
      omega
    · rw [Function.update_of_ne hq] at h
      have := fs.dir_lt h
      omega
  dir_inj := by
    have hother : ∀ {q}, q ≠ p → fs.dir q ≠ some (fs.openIno p) := by
      intro q hq h
      unfold openIno at h
      cases hp : fs.dir p with
      | none =>
        have := fs.dir_lt h
        simp [hp] at this
      | some i =>
        rw [hp] at h
        exact hq (fs.dir_inj h hp)
    intro q r i hq hr
    by_cases hqp : q = p
    · subst hqp
      by_cases hrq : r = q
      · exact hrq.symm
      · rw [Function.update_self] at hq
        rw [Function.update_of_ne hrq, ← hq] at hr
        exact absurd hr (hother hrq)
    · rw [Function.update_of_ne hqp] at hq
      by_cases hrp : r = p
      · subst hrp
        rw [Function.update_self] at hr
        rw [← hr] at hq
        exact absurd hq (hother hqp)
      · rw [Function.update_of_ne hrp] at hr
        exact fs.dir_inj hq hr

/-- The content of an inode after a write at a position.  A gap before the
position reads as zeros. -/
def overwrite (old : Bytes) (pos : Nat) (bytes : Bytes) : Bytes :=
  old.take pos ++ List.replicate (pos - old.length) 0 ++ bytes ++ old.drop (pos + bytes.length)

/-- `pwrite` through an open file. -/
def writeAt (fs : Fs Path) (ino pos : Nat) (bytes : Bytes) : Fs Path :=
  { fs with data := Function.update fs.data ino (overwrite (fs.data ino) pos bytes) }

/-- `rename`.  It is `none` where the call fails with ENOENT, and it leaves
the directory alone when both names are the same file. -/
def rename (fs : Fs Path) (p q : Path) : Option (Fs Path) :=
  match hp : fs.dir p with
  | none => none
  | some i =>
    if hpq : p = q then some fs
    else some
      { fs with
        dir := fun r => if r = p then none else if r = q then some i else fs.dir r
        dir_lt := by
          intro r j h
          split_ifs at h
          · rw [← Option.some.inj h]
            exact fs.dir_lt hp
          · exact fs.dir_lt h
        dir_inj := by
          intro r r' j h h'
          split_ifs at h h' with h1 h2 h3 h4 h5 h6
          · rw [h2, h4]
          · rw [← Option.some.inj h] at h'
            exact absurd (fs.dir_inj h' hp) h3
          · rw [← Option.some.inj h'] at h
            exact absurd (fs.dir_inj h hp) h1
          · exact fs.dir_inj h h' }

def unlink (fs : Fs Path) (p : Path) : Fs Path :=
  { fs with
    dir := fun r => if r = p then none else fs.dir r
    dir_lt := by
      intro r j h
      split_ifs at h
      exact fs.dir_lt h
    dir_inj := by
      intro r r' j h h'
      split_ifs at h h'
      exact fs.dir_inj h h' }

/-! ## Create -/

@[simp] theorem dir_create_self (fs : Fs Path) (p : Path) :
    (fs.create p).dir p = some (fs.openIno p) :=
  Function.update_self ..

@[simp] theorem data_create_self (fs : Fs Path) (p : Path) :
    (fs.create p).data (fs.openIno p) = [] :=
  Function.update_self ..

theorem dir_create_of_ne (fs : Fs Path) {p q : Path} (h : q ≠ p) :
    (fs.create p).dir q = fs.dir q :=
  Function.update_of_ne h ..

theorem data_create_of_ne (fs : Fs Path) {p : Path} {i : Nat} (h : i ≠ fs.openIno p) :
    (fs.create p).data i = fs.data i :=
  Function.update_of_ne h ..

/-- No other name has the inode that `create` opens. -/
theorem ne_openIno (fs : Fs Path) {p q : Path} {i : Nat} (hne : q ≠ p)
    (h : fs.dir q = some i) : i ≠ fs.openIno p := by
  intro hi
  have hq : (fs.create p).dir q = some (fs.openIno p) := by
    rw [dir_create_of_ne fs hne, h, hi]
  exact hne ((fs.create p).dir_inj hq (fs.dir_create_self p))

theorem read_create_self (fs : Fs Path) (p : Path) : (fs.create p).read p = some [] := by
  simp [read]

theorem read_create_of_ne (fs : Fs Path) {p q : Path} (h : q ≠ p) :
    (fs.create p).read q = fs.read q := by
  unfold read
  rw [dir_create_of_ne fs h]
  cases hq : fs.dir q with
  | none => rfl
  | some i => simp [data_create_of_ne fs (ne_openIno fs h hq)]

/-! ## Write -/

omit [DecidableEq Path] in
@[simp] theorem dir_writeAt (fs : Fs Path) (ino pos : Nat) (bytes : Bytes) :
    (fs.writeAt ino pos bytes).dir = fs.dir := rfl

omit [DecidableEq Path] in
@[simp] theorem data_writeAt_self (fs : Fs Path) (ino pos : Nat) (bytes : Bytes) :
    (fs.writeAt ino pos bytes).data ino = overwrite (fs.data ino) pos bytes :=
  Function.update_self ..

omit [DecidableEq Path] in
theorem data_writeAt_of_ne (fs : Fs Path) {ino i : Nat} (pos : Nat) (bytes : Bytes)
    (h : i ≠ ino) : (fs.writeAt ino pos bytes).data i = fs.data i :=
  Function.update_of_ne h ..

omit [DecidableEq Path] in
/-- A write shows only under the name of its inode. -/
theorem read_writeAt_of_ne (fs : Fs Path) {q : Path} {ino : Nat} (pos : Nat) (bytes : Bytes)
    (h : fs.dir q ≠ some ino) : (fs.writeAt ino pos bytes).read q = fs.read q := by
  unfold read
  rw [dir_writeAt]
  cases hq : fs.dir q with
  | none => rfl
  | some i =>
    have hi : i ≠ ino := by
      intro hi
      exact h (by rw [hq, hi])
    simp [data_writeAt_of_ne fs pos bytes hi]

/-- A write of the next part of a buffer extends the prefix that the inode
holds. -/
theorem overwrite_take (buf : Bytes) {pos n : Nat} (h : pos + n ≤ buf.length) :
    overwrite (buf.take pos) pos (slice buf pos (pos + n)) = buf.take (pos + n) := by
  have hlen : (buf.take pos).length = pos := by
    rw [List.length_take]
    omega
  have hslice : slice buf pos (pos + n) = (buf.drop pos).take n := by
    rw [slice, Nat.add_sub_cancel_left]
  rw [overwrite, hlen, Nat.sub_self, List.replicate_zero, List.append_nil,
    List.take_of_length_le (Nat.le_of_eq hlen), List.drop_eq_nil_of_le (by omega),
    List.append_nil, hslice, ← List.take_add]

/-! ## Rename and unlink -/

theorem rename_eq_none {fs : Fs Path} {p q : Path} :
    fs.rename p q = none ↔ fs.dir p = none := by
  unfold rename
  split
  · rename_i hp
    simp [hp]
  · rename_i i hp
    split <;> simp [hp]

/-- A rename onto the same name changes nothing. -/
theorem rename_self {fs fs' : Fs Path} {p : Path} (h : fs.rename p p = some fs') :
    fs' = fs := by
  unfold rename at h
  split at h
  · cases h
  · simpa using h.symm

/-- What a rename of one name onto another does. -/
theorem rename_spec {fs fs' : Fs Path} {p q : Path} (hne : p ≠ q)
    (h : fs.rename p q = some fs') :
    fs'.dir q = fs.dir p ∧ fs'.dir p = none ∧
      (∀ r, r ≠ p → r ≠ q → fs'.dir r = fs.dir r) ∧ fs'.data = fs.data ∧
      fs'.next = fs.next := by
  unfold rename at h
  split at h
  · cases h
  · rename_i i hp
    rw [dif_neg hne] at h
    obtain rfl := Option.some.inj h
    refine ⟨?_, if_pos rfl, ?_, rfl, rfl⟩
    · show (if q = p then none else if q = q then some i else fs.dir q) = fs.dir p
      rw [if_neg (Ne.symm hne), if_pos rfl, hp]
    · intro r hrp hrq
      show (if r = p then none else if r = q then some i else fs.dir r) = fs.dir r
      rw [if_neg hrp, if_neg hrq]

/-- A rename touches no inode, and no third name. -/
theorem rename_frame {fs fs' : Fs Path} {p q : Path} (h : fs.rename p q = some fs') :
    fs'.data = fs.data ∧ fs'.next = fs.next ∧
      ∀ r, r ≠ p → r ≠ q → fs'.dir r = fs.dir r := by
  by_cases hself : p = q
  · rw [hself] at h
    rw [rename_self h]
    exact ⟨rfl, rfl, fun _ _ _ => rfl⟩
  · obtain ⟨-, -, hother, hdata, hnext⟩ := rename_spec hself h
    exact ⟨hdata, hnext, hother⟩

/-- The new name reads as the old one did, and every third name as
before. -/
theorem read_rename {fs fs' : Fs Path} {p q : Path} (hne : p ≠ q)
    (h : fs.rename p q = some fs') :
    fs'.read q = fs.read p ∧ fs'.read p = none ∧
      ∀ r, r ≠ p → r ≠ q → fs'.read r = fs.read r := by
  obtain ⟨hq, hp, hother, hdata, -⟩ := rename_spec hne h
  unfold read
  rw [hq, hp, hdata]
  refine ⟨rfl, rfl, fun r hrp hrq => ?_⟩
  rw [hother r hrp hrq]

/-- Also when the two names are one. -/
theorem read_renamed {fs fs' : Fs Path} {p q : Path} (h : fs.rename p q = some fs') :
    fs'.read q = fs.read p := by
  by_cases hself : p = q
  · rw [hself] at h ⊢
    rw [rename_self h]
  · exact (read_rename hself h).1

theorem read_unlink_self (fs : Fs Path) (p : Path) : (fs.unlink p).read p = none := by
  simp [read, unlink]

end Fs

end PosixFs
