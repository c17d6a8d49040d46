import Mathlib.Data.List.DropRight

/-!
# Splitting a text

A text is a list of characters of any type, and `p` says which characters
separate: blanks, or one delimiter.

* `trim` takes the separators off both ends.
* `splitOnce` splits at the first separator.
* `words` is the list of the runs between separators.
* `splitFirst` takes the first word off, and trims the rest.

Each of them is characterised by the texts that it comes from: `trim_eq_iff`,
`splitOnce_eq_some_iff`, `splitFirst_of_parts`, and for `words` the rules for
a gap, a word and a separator between two texts.
-/

namespace Text

variable {α : Type} (p : α → Bool)

def trim (text : List α) : List α := (text.dropWhile p).rdropWhile p

def splitOnce : List α → Option (List α × List α)
  | [] => none
  | c :: rest =>
    if p c then some ([], rest) else (splitOnce rest).map fun s => (c :: s.1, s.2)

def words (text : List α) : List (List α) := (text.splitOnP p).filter fun w => !w.isEmpty

def splitFirst (text : List α) : List α × List α :=
  let first := (splitOnce p (trim p text)).getD (trim p text, [])
  (first.1, trim p first.2)

/-- A text of separators. -/
def Gap (text : List α) : Prop := ∀ c ∈ text, p c = true

/-- A text without separators. -/
def Solid (text : List α) : Prop := ∀ c ∈ text, p c = false

/-- A text with no separator at either end. -/
def Bare (text : List α) : Prop :=
  (∀ c ∈ text.head?, p c = false) ∧ ∀ c ∈ text.getLast?, p c = false

/-- A first word, and a rest that is separated from it. -/
def Parts (text first rest : List α) : Prop :=
  ∃ gap gap' gap'', Gap p gap ∧ Gap p gap' ∧ Gap p gap'' ∧ Solid p first ∧ first ≠ [] ∧
    Bare p rest ∧ (rest ≠ [] → gap' ≠ []) ∧ text = gap ++ first ++ gap' ++ rest ++ gap''

variable {p}

/-! ## Split once -/

theorem splitOnce_eq_none_iff {text : List α} : splitOnce p text = none ↔ Solid p text := by
  induction text with
  | nil => simp [splitOnce, Solid]
  | cons c rest ih =>
    unfold Solid at ih ⊢
    cases hc : p c with
    | true => simp [splitOnce, hc]
    | false => simp [splitOnce, hc, ih]

theorem splitOnce_append {before after : List α} {sep : α} (hbefore : Solid p before)
    (hsep : p sep = true) : splitOnce p (before ++ sep :: after) = some (before, after) := by
  induction before with
  | nil => simp [splitOnce, hsep]
  | cons c before ih =>
    have hc : p c = false := hbefore c List.mem_cons_self
    have hrest := ih fun d hd => hbefore d (List.mem_cons_of_mem c hd)
    simp [splitOnce, hc, hrest]

theorem splitOnce_eq_some_iff {text before after : List α} :
    splitOnce p text = some (before, after) ↔
      Solid p before ∧ ∃ sep, p sep = true ∧ text = before ++ sep :: after := by
  constructor
  · intro h
    induction text generalizing before with
    | nil => cases h
    | cons c rest ih =>
      cases hc : p c with
      | true =>
        simp only [splitOnce, hc, if_true, Option.some.injEq, Prod.mk.injEq] at h
        obtain ⟨rfl, rfl⟩ := h
        exact ⟨List.forall_mem_nil _, c, hc, rfl⟩
      | false =>
        simp only [splitOnce, hc, Bool.false_eq_true, if_false] at h
        obtain ⟨⟨b, a⟩, hrest, heq⟩ := Option.map_eq_some_iff.mp h
        cases heq
        obtain ⟨hsolid, sep, hsep, rfl⟩ := ih hrest
        exact ⟨List.forall_mem_cons.mpr ⟨hc, hsolid⟩, sep, hsep, rfl⟩
  · intro h
    obtain ⟨hsolid, sep, hsep, rfl⟩ := h
    exact splitOnce_append hsolid hsep

/-! ## Words -/

theorem words_append_sep (before after : List α) {sep : α} (h : p sep = true) :
    words p (before ++ sep :: after) = words p before ++ words p after := by
  rw [words, List.splitOnP_append_cons before after h, List.filter_append]
  rfl

theorem words_word {w : List α} (h : Solid p w) (hne : w ≠ []) : words p w = [w] := by
  rw [words, List.splitOnP_eq_singleton h]
  simp [hne]

theorem words_nil : words p [] = [] := rfl

theorem words_gap_append {gap : List α} (h : Gap p gap) (text : List α) :
    words p (gap ++ text) = words p text := by
  induction gap with
  | nil => rfl
  | cons c gap ih =>
    have hc : p c = true := h c List.mem_cons_self
    have hsep := words_append_sep (p := p) [] (gap ++ text) hc
    rw [words_nil, List.nil_append, List.nil_append] at hsep
    rw [List.cons_append, hsep]
    exact ih fun d hd => h d (List.mem_cons_of_mem c hd)

theorem words_gap {gap : List α} (h : Gap p gap) : words p gap = [] := by
  have happend := words_gap_append h []
  rw [List.append_nil] at happend
  exact happend

theorem words_append_gap (text : List α) {gap : List α} (h : Gap p gap) :
    words p (text ++ gap) = words p text := by
  cases gap with
  | nil => rw [List.append_nil]
  | cons c gap =>
    rw [words_append_sep text gap (h c List.mem_cons_self),
      words_gap fun d hd => h d (List.mem_cons_of_mem c hd), List.append_nil]

/-! ## Trim -/

theorem gap_takeWhile (text : List α) : Gap p (text.takeWhile p) :=
  fun _ hc => List.mem_takeWhile_imp hc

theorem gap_rtakeWhile (text : List α) : Gap p (text.rtakeWhile p) :=
  fun _ hc => List.mem_rtakeWhile_imp hc

theorem eq_gaps_trim (text : List α) :
    text = text.takeWhile p ++ trim p text ++ (text.dropWhile p).rtakeWhile p := by
  rw [trim, List.append_assoc, List.rdropWhile_append_rtakeWhile,
    List.takeWhile_append_dropWhile]

theorem dropWhile_gap {gap text : List α} (h : Gap p gap)
    (hhead : ∀ c ∈ text.head?, p c = false) : (gap ++ text).dropWhile p = text := by
  rw [List.dropWhile_append_of_pos h]
  cases text with
  | nil => rfl
  | cons c rest => rw [List.dropWhile_cons_of_neg (by simp [hhead c rfl])]

theorem rdropWhile_gap {gap text : List α} (h : Gap p gap)
    (hlast : ∀ c ∈ text.getLast?, p c = false) : (text ++ gap).rdropWhile p = text := by
  rw [List.rdropWhile, List.reverse_append, dropWhile_gap, List.reverse_reverse]
  · intro c hc
    exact h c (List.mem_reverse.mp hc)
  · rw [List.head?_reverse]
    exact hlast

theorem bare_trim (text : List α) : Bare p (trim p text) := by
  constructor
  · intro c hc
    obtain ⟨rest, hrest⟩ := List.rdropWhile_prefix p (l := text.dropWhile p)
    have hhead : (text.dropWhile p).head? = some c := by
      rw [← hrest, List.head?_append]
      show ((trim p text).head?.or _) = _
      rw [hc]
      rfl
    have hnot := List.head?_dropWhile_not p text
    rw [hhead] at hnot
    exact hnot
  · intro c hc
    have hne : trim p text ≠ [] := by
      intro hnil
      rw [hnil] at hc
      cases hc
    have hlast := List.rdropWhile_last_not p (text.dropWhile p) hne
    rw [List.getLast?_eq_some_getLast hne] at hc
    obtain rfl := Option.some.inj hc
    exact Bool.eq_false_iff.mpr hlast

theorem trim_gaps {gap gap' text : List α} (h : Gap p gap) (h' : Gap p gap')
    (hbare : Bare p text) : trim p (gap ++ text ++ gap') = text := by
  cases text with
  | nil =>
    have hall : Gap p (gap ++ gap') := List.forall_mem_append.mpr ⟨h, h'⟩
    have hnil : (gap ++ gap' ++ []).dropWhile p = [] := dropWhile_gap hall (by simp)
    rw [List.append_nil] at hnil
    rw [List.append_nil, trim, hnil]
    rfl
  | cons c rest =>
    have hhead : ∀ d ∈ (c :: rest ++ gap').head?, p d = false := hbare.1
    rw [trim, List.append_assoc, dropWhile_gap h hhead, rdropWhile_gap h' hbare.2]

theorem trim_eq_iff {text bare : List α} :
    trim p text = bare ↔
      Bare p bare ∧ ∃ gap gap', Gap p gap ∧ Gap p gap' ∧ text = gap ++ bare ++ gap' := by
  constructor
  · intro h
    subst h
    exact ⟨bare_trim text, _, _, gap_takeWhile text, gap_rtakeWhile _, eq_gaps_trim text⟩
  · intro h
    obtain ⟨hbare, gap, gap', hgap, hgap', rfl⟩ := h
    exact trim_gaps hgap hgap' hbare

theorem gap_append {gap gap' : List α} (h : Gap p gap) (h' : Gap p gap') : Gap p (gap ++ gap') :=
  List.forall_mem_append.mpr ⟨h, h'⟩

theorem trim_eq_nil_iff {text : List α} : trim p text = [] ↔ Gap p text := by
  constructor
  · intro h
    obtain ⟨-, gap, gap', hgap, hgap', rfl⟩ := trim_eq_iff.mp h
    rw [List.append_nil]
    exact gap_append hgap hgap'
  · intro h
    have hnil : trim p (text ++ [] ++ []) = [] :=
      trim_gaps h (List.forall_mem_nil _) ⟨by simp, by simp⟩
    simpa using hnil

theorem Solid.bare {text : List α} (h : Solid p text) : Bare p text :=
  ⟨fun c hc => h c (List.mem_of_head? hc), fun c hc => h c (List.mem_of_getLast? hc)⟩

/-! ## The first word -/

theorem splitFirst_of_parts {text first rest : List α} (h : Parts p text first rest) :
    trim p text ≠ [] ∧ splitFirst p text = (first, rest) := by
  obtain ⟨gap, gap', gap'', hgap, hgap', hgap'', hsolid, hne, hbare, hsep, rfl⟩ := h
  cases rest with
  | nil =>
    have htrim : trim p (gap ++ first ++ gap' ++ [] ++ gap'') = first := by
      rw [List.append_nil, List.append_assoc]
      exact trim_gaps hgap (gap_append hgap' hgap'') hsolid.bare
    refine ⟨by rw [htrim]; exact hne, ?_⟩
    rw [splitFirst, htrim, splitOnce_eq_none_iff.mpr hsolid]
    rfl
  | cons d rest =>
    cases gap' with
    | nil => exact absurd rfl (hsep (List.cons_ne_nil d rest))
    | cons c gap' =>
      have hends : Bare p (first ++ c :: (gap' ++ d :: rest)) := by
        constructor
        · intro e he
          rw [List.head?_append_of_ne_nil _ hne] at he
          exact hsolid.bare.1 e he
        · intro e he
          have hlast : (first ++ c :: (gap' ++ d :: rest)).getLast? = (d :: rest).getLast? := by
            rw [← List.cons_append, ← List.append_assoc, List.getLast?_append_of_ne_nil]
            exact List.cons_ne_nil d rest
          rw [hlast] at he
          exact hbare.2 e he
      have htrim : trim p (gap ++ first ++ c :: gap' ++ (d :: rest) ++ gap'')
          = first ++ c :: (gap' ++ d :: rest) := by
        have hassoc : gap ++ first ++ c :: gap' ++ (d :: rest) ++ gap''
            = gap ++ (first ++ c :: (gap' ++ d :: rest)) ++ gap'' := by simp
        rw [hassoc]
        exact trim_gaps hgap hgap'' hends
      have hrest : trim p (gap' ++ d :: rest) = d :: rest := by
        have hgaps : trim p (gap' ++ d :: rest ++ []) = d :: rest :=
          trim_gaps (fun e he => hgap' e (List.mem_cons_of_mem c he)) (List.forall_mem_nil _) hbare
        rw [List.append_nil] at hgaps
        exact hgaps
      refine ⟨by rw [htrim]; simp, ?_⟩
      rw [splitFirst, htrim, splitOnce_append hsolid (hgap' c List.mem_cons_self)]
      exact congrArg (Prod.mk first) hrest

theorem exists_parts {text : List α} (h : ¬ Gap p text) :
    ∃ first rest, Parts p text first rest := by
  obtain ⟨hbare, gap, gap', hgap, hgap', htext⟩ := trim_eq_iff.mp (rfl : trim p text = _)
  have hne : trim p text ≠ [] := fun hnil => h (trim_eq_nil_iff.mp hnil)
  cases hsplit : splitOnce p (trim p text) with
  | none =>
    have hsolid := splitOnce_eq_none_iff.mp hsplit
    refine ⟨trim p text, [], gap, [], gap', hgap, List.forall_mem_nil _, hgap', hsolid, hne,
      ⟨by simp, by simp⟩, fun hfalse => absurd rfl hfalse, ?_⟩
    simpa using htext
  | some parts =>
    obtain ⟨first, behind⟩ := parts
    obtain ⟨hsolid, sep, hsep, heq⟩ := splitOnce_eq_some_iff.mp hsplit
    obtain ⟨hrest, inner, inner', hinner, hinner', hbehind⟩ :=
      trim_eq_iff.mp (rfl : trim p behind = _)
    have hfirst : first ≠ [] := by
      intro hnil
      rw [heq, hnil] at hbare
      have hfalse := hbare.1 sep rfl
      rw [hsep] at hfalse
      cases hfalse
    refine ⟨first, trim p behind, gap, sep :: inner, inner' ++ gap', hgap,
      List.forall_mem_cons.mpr ⟨hsep, hinner⟩, gap_append hinner' hgap', hsolid, hfirst, hrest,
      fun _ => List.cons_ne_nil _ _, ?_⟩
    rw [heq, hbehind] at htext
    simpa using htext

theorem words_of_parts {text first rest : List α} (h : Parts p text first rest) :
    words p text = first :: words p rest := by
  obtain ⟨gap, gap', gap'', hgap, hgap', hgap'', hsolid, hne, -, hsep, rfl⟩ := h
  rw [words_append_gap _ hgap'', List.append_assoc, List.append_assoc, words_gap_append hgap]
  cases gap' with
  | nil =>
    cases rest with
    | nil =>
      rw [List.append_nil, List.append_nil, words_word hsolid hne]
      rfl
    | cons d rest => exact absurd rfl (hsep (List.cons_ne_nil d rest))
  | cons c gap' =>
    rw [List.cons_append, words_append_sep _ _ (hgap' c List.mem_cons_self),
      words_word hsolid hne, words_gap_append fun e he => hgap' e (List.mem_cons_of_mem c he)]
    rfl

end Text
