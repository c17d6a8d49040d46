import Mathlib.Tactic

/-!
# Metadata paths and their temp names

`EraState::save` writes to `path.with_extension("tmp")` and renames the
result onto `path`.  `withExtension` follows `Path::with_extension`: what
comes after the last dot of the name is replaced, a name without a dot gets
the extension appended, and a leading dot does not count.  A name like `..x`
loses its extension and is the parent directory then, so no save can create
its temp file.

A path is given here as resolved: the directory that its parent leads to, and
the name in it, where no symbolic link stands.  `with_extension` leaves the
parent alone, so the temp file of a path, however it is spelled, is the one
of its entry.

So the map from paths to temp names is not injective, and a path may be its
own temp name.  `tmp_eq_self_iff` says when.
-/

namespace Ublkera

/-- A name that a file can have. -/
def validName (name : List Char) : Bool :=
  name != [] && name != ['.'] && name != ['.', '.'] && !name.contains '/'

structure MetaPath where
  /-- The directory that the parent resolves to, by number. -/
  dir : Nat
  name : List Char
  name_valid : validName name = true
  deriving DecidableEq

/-- The part before the last dot and the part after it, if there is a
dot. -/
def rsplitDot : List Char → Option (List Char × List Char)
  | [] => none
  | c :: rest =>
    match rsplitDot rest with
    | some (before, after) => some (c :: before, after)
    | none => if c = '.' then some ([], rest) else none

/-- `Path::file_stem` of a file name. -/
def fileStem (name : List Char) : List Char :=
  match rsplitDot name with
  | some (c :: before, _) => c :: before
  | _ => name

/-- `Path::extension` of a file name. -/
def extension (name : List Char) : Option (List Char) :=
  match rsplitDot name with
  | some (_ :: _, after) => some after
  | _ => none

def dotTmp : List Char := ['.', 't', 'm', 'p']

/-- `PathBuf::set_extension("tmp")`; `..` is no file name, and stays. -/
def setExtension (name : List Char) : List Char :=
  if name = ['.', '.'] then name else fileStem name ++ dotTmp

/-- `Path::with_extension("tmp")`: the path up to the dot of its extension,
and then `set_extension`. -/
def withExtension (name : List Char) : List Char :=
  match rsplitDot name with
  | some (c :: before, _) => setExtension (c :: before ++ ['.'])
  | _ => setExtension name

/-! ## The last dot -/

theorem rsplitDot_eq_none {name : List Char} (h : '.' ∉ name) : rsplitDot name = none := by
  induction name with
  | nil => rfl
  | cons c rest ih =>
    have hc : c ≠ '.' := by
      intro hc
      exact h (hc ▸ List.mem_cons_self)
    rw [rsplitDot, ih (fun hr => h (List.mem_cons_of_mem c hr))]
    exact if_neg hc

/-- The parts of a name around its last dot. -/
theorem rsplitDot_append (before after : List Char) (h : '.' ∉ after) :
    rsplitDot (before ++ '.' :: after) = some (before, after) := by
  induction before with
  | nil =>
    rw [List.nil_append, rsplitDot, rsplitDot_eq_none h]
    rfl
  | cons c rest ih => rw [List.cons_append, rsplitDot, ih]

/-- Putting the parts together again gives the name. -/
theorem eq_of_rsplitDot {name before after : List Char}
    (h : rsplitDot name = some (before, after)) : name = before ++ '.' :: after := by
  induction name generalizing before with
  | nil => cases h
  | cons c rest ih =>
    rw [rsplitDot] at h
    split at h
    · rename_i b a hrest
      obtain ⟨rfl, rfl⟩ := Prod.mk.inj (Option.some.inj h)
      rw [List.cons_append, ← ih hrest]
    · split at h
      · rename_i hc
        obtain ⟨rfl, rfl⟩ := Prod.mk.inj (Option.some.inj h)
        rw [hc]
        rfl
      · cases h

theorem fileStem_ne_nil {name : List Char} (h : name ≠ []) : fileStem name ≠ [] := by
  unfold fileStem
  split
  · exact List.cons_ne_nil _ _
  · exact h

/-- The stem of a name with an extension. -/
theorem fileStem_append {stem after : List Char} (hstem : stem ≠ []) (h : '.' ∉ after) :
    fileStem (stem ++ '.' :: after) = stem := by
  obtain ⟨c, rest, rfl⟩ := List.exists_cons_of_ne_nil hstem
  rw [fileStem, rsplitDot_append _ _ h]

theorem extension_append {stem after : List Char} (hstem : stem ≠ []) (h : '.' ∉ after) :
    extension (stem ++ '.' :: after) = some after := by
  obtain ⟨c, rest, rfl⟩ := List.exists_cons_of_ne_nil hstem
  rw [extension, rsplitDot_append _ _ h]

/-- A name is its stem and its extension. -/
theorem eq_of_extension {name after : List Char} (h : extension name = some after) :
    name = fileStem name ++ '.' :: after := by
  unfold extension at h
  unfold fileStem
  split at h
  · rename_i c before a hsplit
    obtain rfl := Option.some.inj h
    exact eq_of_rsplitDot hsplit
  · cases h

theorem mem_of_mem_fileStem {name : List Char} {c : Char} (h : c ∈ fileStem name) :
    c ∈ name := by
  unfold fileStem at h
  split at h
  · rename_i d before after hsplit
    rw [eq_of_rsplitDot hsplit]
    exact List.mem_append_left _ h
  · exact h

/-- A name like `..x` is the only one that ends at the parent directory. -/
theorem withExtension_eq {name : List Char} (hdot : name ≠ ['.']) (hdots : name ≠ ['.', '.']) :
    withExtension name
      = if fileStem name = ['.'] then ['.', '.'] else fileStem name ++ dotTmp := by
  unfold withExtension
  split
  · rename_i c before after hsplit
    have hstem : fileStem name = c :: before := by rw [fileStem, hsplit]
    rw [hstem]
    by_cases h : c :: before = ['.']
    · rw [if_pos h, h]
      rfl
    · rw [if_neg h, setExtension, if_neg (fun heq => h ?_), fileStem_append (by simp) (by simp)]
      exact (List.append_left_inj ['.']).mp heq
  · rename_i hsplit
    have hstem : fileStem name = name := by
      unfold fileStem
      split
      · exact absurd ‹_› (hsplit _ _ _)
      · rfl
    rw [setExtension, if_neg hdots, hstem, if_neg hdot]

namespace MetaPath

theorem name_ne_nil (p : MetaPath) : p.name ≠ [] := by
  have h := p.name_valid
  simp [validName] at h
  exact h.1.1.1

theorem slash_notMem_name (p : MetaPath) : '/' ∉ p.name := by
  have h := p.name_valid
  simp [validName] at h
  exact h.2

/-- `path.with_extension("tmp")`, where it is a name that a file can have. -/
def tmp (p : MetaPath) : Option MetaPath :=
  if h : validName (withExtension p.name) = true then
    some { dir := p.dir, name := withExtension p.name, name_valid := h }
  else none

theorem ext {p q : MetaPath} (hdir : p.dir = q.dir) (hname : p.name = q.name) : p = q := by
  cases p
  cases q
  simp_all

theorem withExtension_name (p : MetaPath) :
    withExtension p.name
      = if fileStem p.name = ['.'] then ['.', '.'] else fileStem p.name ++ dotTmp := by
  have h := p.name_valid
  simp [validName] at h
  exact withExtension_eq h.1.1.2 h.1.2

/-- A stem with the extension `tmp` is a name. -/
theorem validName_stem (p : MetaPath) : validName (fileStem p.name ++ dotTmp) = true := by
  have hslash : '/' ∉ fileStem p.name ++ dotTmp := by
    intro h
    rcases List.mem_append.mp h with h | h
    · exact p.slash_notMem_name (mem_of_mem_fileStem h)
    · revert h
      decide
  have hlen : 4 ≤ (fileStem p.name ++ dotTmp).length := by
    rw [List.length_append]
    exact Nat.le_add_left _ _
  have hne : ∀ name : List Char, name.length < 4 → fileStem p.name ++ dotTmp ≠ name := by
    intro name hname h
    rw [h] at hlen
    omega
  simp [validName, hslash, hne [] (by decide), hne ['.'] (by decide),
    hne ['.', '.'] (by decide)]

/-- The temp name has the stem of the path and the extension `tmp`. -/
theorem tmp_eq_some_iff {p t : MetaPath} :
    p.tmp = some t ↔
      fileStem p.name ≠ ['.'] ∧ t.dir = p.dir ∧ t.name = fileStem p.name ++ dotTmp := by
  have hname := p.withExtension_name
  by_cases hstem : fileStem p.name = ['.']
  · rw [if_pos hstem] at hname
    have hnone : p.tmp = none := dif_neg (by rw [hname]; decide)
    simp [hnone, hstem]
  · rw [if_neg hstem] at hname
    have hvalid : validName (withExtension p.name) = true := by
      rw [hname]
      exact p.validName_stem
    rw [tmp, dif_pos hvalid, Option.some.injEq]
    constructor
    · intro h
      subst h
      exact ⟨hstem, rfl, hname⟩
    · intro ⟨_, hdir, ht⟩
      exact ext hdir.symm (hname.trans ht.symm)

theorem fileStem_tmp {p t : MetaPath} (h : p.tmp = some t) : fileStem t.name = fileStem p.name := by
  rw [(tmp_eq_some_iff.mp h).2.2]
  exact fileStem_append (fileStem_ne_nil p.name_ne_nil) (by decide)

theorem extension_tmp {p t : MetaPath} (h : p.tmp = some t) :
    extension t.name = some ['t', 'm', 'p'] := by
  rw [(tmp_eq_some_iff.mp h).2.2]
  exact extension_append (fileStem_ne_nil p.name_ne_nil) (by decide)

/-- A path is its own temp name when its extension is `tmp`. -/
theorem tmp_eq_self_iff (p : MetaPath) :
    p.tmp = some p ↔ extension p.name = some ['t', 'm', 'p'] ∧ fileStem p.name ≠ ['.'] := by
  constructor
  · intro h
    exact ⟨extension_tmp h, (tmp_eq_some_iff.mp h).1⟩
  · intro ⟨hext, hstem⟩
    exact tmp_eq_some_iff.mpr ⟨hstem, rfl, eq_of_extension hext⟩

/-- A temp name is its own temp name. -/
theorem tmp_tmp {p t : MetaPath} (h : p.tmp = some t) : t.tmp = some t := by
  refine (tmp_eq_self_iff t).mpr ⟨extension_tmp h, ?_⟩
  rw [fileStem_tmp h]
  exact (tmp_eq_some_iff.mp h).1

/-- A path that is not its own temp name is no temp name at all. -/
theorem ne_tmp {p : MetaPath} (h : p.tmp ≠ some p) (q : MetaPath) : q.tmp ≠ some p :=
  fun hq => h (tmp_tmp hq)

/-- `/var/lib/ublkera/a.meta`. -/
def aMeta : MetaPath where
  dir := 0
  name := ['a', '.', 'm', 'e', 't', 'a']
  name_valid := by decide

/-- `/var/lib/ublkera/a.db`. -/
def aDb : MetaPath where
  dir := 0
  name := ['a', '.', 'd', 'b']
  name_valid := by decide

/-- `/var/lib/ublkera/a.tmp`. -/
def aTmp : MetaPath where
  dir := 0
  name := ['a', '.', 't', 'm', 'p']
  name_valid := by decide

theorem tmp_aMeta : aMeta.tmp = some aTmp := by decide

/-- Two metadata files that differ in the extension share a temp name. -/
example : aMeta.tmp = aDb.tmp ∧ aTmp.tmp = some aTmp := by decide

/-- The directory above is no temp file. -/
example : withExtension ['.', '.', 'x'] = ['.', '.'] := by decide

end MetaPath

end Ublkera
