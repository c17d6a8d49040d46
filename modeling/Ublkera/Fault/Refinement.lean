import Ublkera.Fault.Model

/-!
# The fault model as a byte array

Without a crash the cache of the fault model cannot be seen.  `DiskStep` is a
plain byte array with the calls and replies of the model, and
`refines_disk` says that every run of the model is a run of the array, on
what the model reads.

The one thing that the array does not decide is how much of an errored write
arrives.
-/

namespace Ublkera

namespace Fault

open LittleEndian WriteCache Trace

/-! ## The read path -/

theorem overlay_def (out : Bytes) (woff doff : Nat) (data : Bytes) :
    overlay out woff doff data
      = if min (woff + out.length) (doff + data.length) ≤ max woff doff then out
        else patch out (max woff doff - woff)
          (slice data (max woff doff - doff)
            (min (woff + out.length) (doff + data.length) - doff)) := rfl

theorem overlay_length (out : Bytes) (woff doff : Nat) (data : Bytes) :
    (overlay out woff doff data).length = out.length := by
  rw [overlay_def]
  split
  · rfl
  · refine patch_length _ _ _ ?_
    rw [slice_length _ (by omega)]
    omega

/-- The overlay of an entry on a window of the disk is the window of the
disk with the entry. -/
theorem overlay_eq {image : Bytes} {e : Entry} {off len : Nat} (he : e.stop ≤ image.length)
    (h : off + len ≤ image.length) :
    overlay (slice image off (off + len)) off e.off e.data
      = slice (overwrite image e) off (off + len) := by
  have hstop : e.stop = e.off + e.data.length := rfl
  have hout := slice_length image (i := off) h
  have hlen := overwrite_length he
  apply List.ext_getElem?
  intro k
  rcases Nat.lt_or_ge (off + k) (off + len) with hk | hk
  · rw [getElem?_slice _ hk, overwrite, getElem?_patch he, overlay_def, hout]
    split
    · rw [if_neg (by omega), getElem?_slice _ hk]
    · have hdata := slice_length e.data (i := max off e.off - e.off)
        (j := min (off + (off + len - off)) (e.off + e.data.length) - e.off) (by omega)
      rw [getElem?_patch (by rw [hdata, hout]; omega), hdata]
      by_cases hin : e.off ≤ off + k ∧ off + k < e.off + e.data.length
      · rw [if_pos hin, if_pos (by omega), getElem?_slice _ (by omega)]
        congr 1
        omega
      · rw [if_neg hin, if_neg (by omega), getElem?_slice _ hk]
  · rw [List.getElem?_eq_none (by rw [overlay_length]; omega),
      List.getElem?_eq_none (by rw [slice_length _ (by rw [hlen]; exact h)]; omega)]

theorem foldl_overlay {image : Bytes} {entries : List Entry} {off len : Nat}
    (inRange : WriteCache.InRange image.length entries) (h : off + len ≤ image.length) :
    entries.foldl (fun out e => overlay out off e.off e.data) (slice image off (off + len))
      = slice (overwriteAll image entries) off (off + len) := by
  induction entries generalizing image with
  | nil => rfl
  | cons e rest ih =>
    have he := inRange e List.mem_cons_self
    have hlen := overwrite_length he
    rw [List.foldl_cons, overlay_eq he h, overwriteAll_cons]
    refine ih ?_ (by rw [hlen]; exact h)
    rw [hlen]
    exact fun e' he' => inRange e' (List.mem_cons_of_mem _ he')

/-- A read returns the bytes of the view. -/
theorem Model.read_eq {m m' : Model} (h : m.Valid) {off len : Nat} {out : Bytes}
    (hread : m.read off len = some (out, m')) :
    out = slice m.view off (off + len) ∧ m'.cache = m.cache := by
  unfold Model.read at hread
  split at hread
  · rename_i hin
    obtain ⟨rfl, rfl⟩ := Prod.mk.inj (Option.some.inj hread)
    exact ⟨foldl_overlay h.inRange hin, rfl⟩
  · cases hread

/-! ## The byte array -/

/-- A plain disk, with the calls of the model. -/
inductive DiskStep (lbs : Nat) : Bytes → Call × Reply → Bytes → Prop where
  | read {disk : Bytes} {off len : Nat} :
      DiskStep lbs disk (.read off len, .data (slice disk off (off + len))) disk
  | written {disk : Bytes} {off : Nat} {data : Bytes} :
      DiskStep lbs disk (.write off data, .result (asI32 data.length)) (patch disk off data)
  /-- A prefix of whole blocks has arrived. -/
  | errored {disk : Bytes} {off : Nat} {data : Bytes} {k : Nat} (prefixed : k * lbs ≤ data.length) :
      DiskStep lbs disk (.write off data, .result negEio) (patch disk off (data.take (k * lbs)))
  | discarded {disk : Bytes} {off len : Nat} :
      DiskStep lbs disk (.discard off len, .done) (patch disk off (List.replicate len 0))
  | flushed {disk : Bytes} : DiskStep lbs disk (.flush, .done) disk
  | hung {disk : Bytes} {hang : Bool} : DiskStep lbs disk (.hang, .hung hang) disk
  | policySet {disk : Bytes} {policy : Policy} :
      DiskStep lbs disk (.setPolicy policy, .done) disk

def Call.isCrash : Call → Bool
  | .crash _ => true
  | _ => false

theorem view_congr {m m' : Model} (h : m'.cache = m.cache) : m'.view = m.view := by
  rw [Model.view, Model.view, h]

/-- The step of a write. -/
theorem disk_step_write {m m' : Model} {off : Nat} {data : Bytes} {res : Int} (h : m.Valid)
    (inRange : off + data.length ≤ m.committed.length)
    (hwrite : m.write off data = some (res, m')) :
    DiskStep m.lbs m.view (.write off data, .result res) m'.view := by
  cases herror : (m.rng.hit m.policy.errorPm).1 with
  | false =>
    obtain ⟨m'', hok, heffect, hentered⟩ := Model.write_ok h inRange herror
    rw [hwrite] at hok
    obtain ⟨hres, hm⟩ := Prod.mk.inj (Option.some.inj hok)
    rw [hentered] at heffect
    subst hm
    rw [hres]
    have hview : m'.view = patch m.view off data := Cache.view_step heffect.step rfl
    rw [hview]
    exact .written
  | true =>
    obtain ⟨m'', herr, heffect, hentered⟩ := Model.write_errored h inRange herror
    rw [hwrite] at herr
    obtain ⟨rfl, rfl⟩ := Prod.mk.inj (Option.some.inj herr)
    rw [hentered] at heffect
    obtain ⟨k, hk, hle⟩ := Model.keeps_le h.lbs data.length
    have hview : m'.view = patch m.view off (data.take (k * m.lbs)) := by
      by_cases hkeep : 0 < m.keeps data.length
      · rw [if_pos hkeep, hk] at heffect
        exact Cache.view_step heffect.step rfl
      · rw [if_neg hkeep] at heffect
        have hzero : k * m.lbs = 0 := by omega
        refine (Cache.view_step heffect.step rfl).trans ?_
        rw [hzero]
        simp [Event.apply, Model.enters, patch, Model.view]
    rw [hview]
    exact .errored hle

/-- One call that is no crash is a step of the disk. -/
theorem disk_step {m m' : Model} {l : Call × Reply} (h : m.Valid) (hs : Step m l m')
    (hcrash : l.1.isCrash = false) : DiskStep m.lbs m.view l m'.view := by
  obtain ⟨c, reply⟩ := l
  obtain ⟨ev, hstepped⟩ := Model.step_spec h hs
  obtain ⟨inRange, returns⟩ := hs
  have hdoes := hstepped.does
  have hstep := hstepped.step
  cases c with
  | read off len =>
    obtain ⟨⟨out, m''⟩, hread, heq⟩ := Option.map_eq_some_iff.mp returns
    obtain ⟨rfl, rfl⟩ := Prod.mk.inj heq
    obtain ⟨rfl, hcache⟩ := Model.read_eq h hread
    rw [view_congr hcache]
    exact .read
  | write off data =>
    obtain ⟨⟨res, m''⟩, hwrite, heq⟩ := Option.map_eq_some_iff.mp returns
    obtain ⟨rfl, rfl⟩ := Prod.mk.inj heq
    exact disk_step_write h inRange hwrite
  | discard off len =>
    obtain ⟨m'', -, heq⟩ := Option.map_eq_some_iff.mp returns
    obtain ⟨rfl, rfl⟩ := Prod.mk.inj heq
    obtain rfl := hdoes
    have hview : m''.view = patch m.view off (List.replicate len 0) := Cache.view_step hstep rfl
    rw [hview]
    exact .discarded
  | flush =>
    obtain ⟨m'', -, heq⟩ := Option.map_eq_some_iff.mp returns
    obtain ⟨rfl, rfl⟩ := Prod.mk.inj heq
    have hview : m''.view = m.view := by
      obtain rfl := hdoes
      cases hlies : m.lies with
      | true | false =>
        rw [hlies] at hstep
        exact Cache.view_step hstep rfl
    rw [hview]
    exact .flushed
  | crash mode => cases hcrash
  | hang =>
    obtain ⟨rfl, rfl⟩ := Prod.mk.inj (Option.some.inj returns)
    obtain rfl := hdoes
    have hview : m.hang.2.view = m.view := Cache.view_step hstep rfl
    rw [hview]
    exact .hung
  | setPolicy policy =>
    obtain ⟨rfl, rfl⟩ := Prod.mk.inj (Option.some.inj returns)
    exact .policySet

/-- Without a crash the model is a byte array: every call in range returns,
and every run of the model is a run of the array. -/
theorem refines_disk {size lbs cacheCap : Nat} {seed : UInt64} {policy : Policy}
    {trace : List (Call × Reply)} {m : Model} (hlbs : 0 < lbs)
    (h : Run Step (.new size lbs cacheCap seed policy) trace m)
    (hcrash : ∀ l, l ∈ trace → l.1.isCrash = false) :
    Run (DiskStep lbs) (List.replicate size 0) trace m.view ∧
      ∀ c, c.InRange size → ∃ reply m', Step m (c, reply) m' := by
  have hboth : m.Sized size lbs cacheCap ∧
      Run (DiskStep lbs) (List.replicate size 0) trace m.view := by
    induction h with
    | nil => exact ⟨Model.sized_new hlbs, .nil⟩
    | @snoc trace t u l run last ih =>
      obtain ⟨hsized, hrun⟩ := ih fun l' hl' => hcrash l' (List.mem_append_left _ hl')
      have hstep := disk_step hsized.valid last (hcrash l (by simp))
      rw [hsized.lbs] at hstep
      exact ⟨hsized.step last, hrun.snoc hstep⟩
  refine ⟨hboth.2, fun c hc => ?_⟩
  rw [← hboth.1.size] at hc
  obtain ⟨reply, m', ev, hcall, -⟩ := Model.call_total hboth.1.valid hc
  exact ⟨reply, m', hc, hcall⟩

/-- Two overlapping writes on a cache of two bytes, and a read. -/
theorem refines_disk_fourBytes :
    ∃ (trace : List (Call × Reply)) (m : Model), Run Step (.new 4 1 2 0 {}) trace m ∧
      (.read 0 4, .data [1, 7, 8, 0]) ∈ trace ∧
      Run (DiskStep 1) (List.replicate 4 0) trace m.view ∧
      ∀ c, c.InRange 4 → ∃ reply m', Step m (c, reply) m' := by
  have hfirst : Run Step (.new 4 1 2 0 {}) _ _ :=
    .single (ran (.write 0 [1, 2, 3]) (.result 3) (by decide) rfl)
  have hsecond := hfirst.snoc (ran (.write 1 [7, 8]) (.result 2) (by decide) rfl)
  have hread := hsecond.snoc (ran (.read 0 4) (.data [1, 7, 8, 0]) (by decide) rfl)
  exact ⟨_, _, hread, by decide, refines_disk (by decide) hread (by decide)⟩

end Fault

end Ublkera
