import Mathlib.Data.List.Forall2
import Mathlib.Tactic

/-!
# Maps as association lists

A map is a list of pairs with distinct keys, in no particular order.
`insert` overwrites the value of a key that is there already.

`Convert read dict dict'` says that `dict'` has the same keys in the same
order, with the values that `read` gives for those of `dict`.  A map that is
sorted by its keys is determined by its members (`eq_of_sorted`).
-/

namespace Dict

variable {α β : Type} [DecidableEq α]

def insert (dict : List (α × β)) (k : α) (v : β) : List (α × β) :=
  (k, v) :: dict.filter fun a => a.1 ≠ k

def Distinct (dict : List (α × β)) : Prop := (dict.map Prod.fst).Nodup

theorem lookup_filter_ne (dict : List (α × β)) (k k' : α) :
    (dict.filter fun a => a.1 ≠ k).lookup k' = if k = k' then none else dict.lookup k' := by
  induction dict with
  | nil => simp
  | cons a rest ih =>
    obtain ⟨l, v⟩ := a
    by_cases hl : l = k
    · subst hl
      rw [List.filter_cons_of_neg (by simp), ih]
      by_cases hk : l = k'
      · rw [if_pos hk, if_pos hk]
      · rw [if_neg hk, if_neg hk, List.lookup_cons, beq_false_of_ne (Ne.symm hk)]
    · rw [List.filter_cons_of_pos (by simpa using hl), List.lookup_cons, List.lookup_cons, ih]
      by_cases hk : k' = l
      · subst hk
        simp [Ne.symm hl]
      · rw [beq_false_of_ne hk]

theorem lookup_insert (dict : List (α × β)) (k k' : α) (v : β) :
    (insert dict k v).lookup k' = if k = k' then some v else dict.lookup k' := by
  rw [insert, List.lookup_cons, lookup_filter_ne]
  by_cases h : k = k'
  · subst h
    simp
  · rw [beq_false_of_ne (Ne.symm h), if_neg h, if_neg h]

theorem nodup_insert {dict : List (α × β)} (h : Distinct dict) (k : α) (v : β) :
    Distinct (insert dict k v) := by
  rw [Distinct, insert, List.map_cons, List.nodup_cons]
  refine ⟨?_, h.sublist (List.filter_sublist.map _)⟩
  intro hmem
  obtain ⟨a, ha, hk⟩ := List.mem_map.mp hmem
  simpa [hk] using (List.mem_filter.mp ha).2

theorem mem_iff_lookup {dict : List (α × β)} (h : Distinct dict) {k : α} {v : β} :
    (k, v) ∈ dict ↔ dict.lookup k = some v := by
  induction dict with
  | nil => simp
  | cons a rest ih =>
    obtain ⟨l, w⟩ := a
    obtain ⟨hl, hrest⟩ := List.nodup_cons.mp h
    rw [List.lookup_cons]
    by_cases hk : k = l
    · subst hk
      have hnot : (k, v) ∉ rest := fun hmem => hl (List.mem_map.mpr ⟨_, hmem, rfl⟩)
      simp [hnot, eq_comm]
    · rw [beq_false_of_ne hk, ← ih hrest]
      simp [hk]

/-! ## Values read in place -/

section Convert

variable {γ : Type} {read : β → γ → Prop}

def Convert (read : β → γ → Prop) : List (α × β) → List (α × γ) → Prop :=
  List.Forall₂ fun a b => a.1 = b.1 ∧ read a.2 b.2

omit [DecidableEq α]

theorem exists_convert {dict : List (α × β)} (h : ∀ a ∈ dict, ∃ c, read a.2 c) :
    ∃ dict', Convert read dict dict' := by
  induction dict with
  | nil => exact ⟨[], .nil⟩
  | cons a rest ih =>
    obtain ⟨c, hc⟩ := h a List.mem_cons_self
    obtain ⟨dict', hrest⟩ := ih fun b hb => h b (List.mem_cons_of_mem a hb)
    exact ⟨(a.1, c) :: dict', .cons ⟨rfl, hc⟩ hrest⟩

theorem Convert.exists_read {dict : List (α × β)} {dict' : List (α × γ)}
    (h : Convert read dict dict') {a : α × β} (ha : a ∈ dict) : ∃ c, read a.2 c := by
  induction h with
  | nil => exact absurd ha List.not_mem_nil
  | @cons b d _ _ hhead _ ih =>
    rcases List.mem_cons.mp ha with heq | hrest
    · subst heq
      exact ⟨d.2, hhead.2⟩
    · exact ih hrest

theorem Convert.keys {dict : List (α × β)} {dict' : List (α × γ)} (h : Convert read dict dict') :
    dict.map Prod.fst = dict'.map Prod.fst := by
  induction h with
  | nil => rfl
  | cons hhead _ ih => rw [List.map_cons, List.map_cons, hhead.1, ih]

theorem Convert.mem_iff {dict : List (α × β)} {dict' : List (α × γ)} (h : Convert read dict dict')
    (unique : ∀ v c c', read v c → read v c' → c = c') {k : α} {c : γ} :
    (k, c) ∈ dict' ↔ ∃ v, (k, v) ∈ dict ∧ read v c := by
  induction h with
  | nil => simp
  | @cons a b rest rest' hhead _ ih =>
    obtain ⟨l, v⟩ := a
    obtain ⟨l', d⟩ := b
    obtain ⟨hl, hv⟩ := hhead
    obtain rfl : l = l' := hl
    constructor
    · intro hmem
      rcases List.mem_cons.mp hmem with heq | hrest
      · cases heq
        exact ⟨v, List.mem_cons_self, hv⟩
      · obtain ⟨w, hw, hread⟩ := ih.mp hrest
        exact ⟨w, List.mem_cons_of_mem _ hw, hread⟩
    · intro hmem
      obtain ⟨w, hw, hread⟩ := hmem
      rcases List.mem_cons.mp hw with heq | hrest
      · cases heq
        rw [unique _ _ _ hread hv]
        exact List.mem_cons_self
      · exact List.mem_cons_of_mem _ (ih.mpr ⟨w, hrest, hread⟩)

end Convert

/-! ## Sorted maps -/

section Sorted

omit [DecidableEq α]

variable [Preorder α]

theorem eq_of_sorted {dict dict' : List (α × β)} (h : dict.Pairwise fun a b => a.1 < b.1)
    (h' : dict'.Pairwise fun a b => a.1 < b.1) (hmem : ∀ a, a ∈ dict ↔ a ∈ dict') :
    dict = dict' := by
  have hne : ∀ {a b : α × β}, a.1 < b.1 → a ≠ b := by
    intro a b hlt heq
    rw [heq] at hlt
    exact lt_irrefl _ hlt
  have hperm : dict.Perm dict' :=
    (List.perm_ext_iff_of_nodup (h.imp hne) (h'.imp hne)).mpr hmem
  exact hperm.eq_of_pairwise (fun a b _ _ hab hba => absurd hab (lt_asymm hba)) h h'

end Sorted

end Dict
