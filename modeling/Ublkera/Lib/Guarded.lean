import Mathlib.Data.List.TakeWhile

/-!
# Loops that check and act in turn

A list of items is worked off on a state.  Each item is first checked, and an
item that is refused ends the work.

* `inTurn` checks an item when it comes to it, after it has acted on the
  items before.
* `checkedFirst` checks all items before it acts on any.

`inTurn_eq` says what the first one does, and `inTurn_eq_checkedFirst_iff`
when the two agree: nothing is refused, or the items in front of the refused
one change nothing.
-/

namespace Guarded

variable {α σ : Type} (ok : α → Bool) (act : α → σ → σ)

/-- The flag says that nothing was refused. -/
def inTurn : List α → σ → Bool × σ
  | [], s => (true, s)
  | a :: rest, s => if ok a then inTurn rest (act a s) else (false, s)

def checkedFirst (items : List α) (s : σ) : Bool × σ :=
  if items.all ok then (true, items.foldl (fun s a => act a s) s) else (false, s)

/-- The items in front of the first refused one. -/
def accepted (items : List α) : List α := items.takeWhile ok

theorem accepted_of_all {items : List α} (h : items.all ok = true) : accepted ok items = items :=
  List.takeWhile_eq_self_iff.mpr (List.all_eq_true.mp h)

theorem inTurn_eq (items : List α) (s : σ) :
    inTurn ok act items s
      = (items.all ok, (accepted ok items).foldl (fun s a => act a s) s) := by
  induction items generalizing s with
  | nil => rfl
  | cons a rest ih =>
    cases ha : ok a with
    | true => simp [inTurn, accepted, ha, ih]
    | false => simp [inTurn, accepted, ha]

theorem inTurn_eq_checkedFirst_iff (items : List α) (s : σ) :
    inTurn ok act items s = checkedFirst ok act items s ↔
      items.all ok = true ∨ (accepted ok items).foldl (fun s a => act a s) s = s := by
  rw [inTurn_eq, checkedFirst]
  cases hall : items.all ok with
  | true => simp [accepted_of_all ok hall]
  | false => simp

end Guarded
