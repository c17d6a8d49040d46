import Ublkera.Fault.Queue

/-!
# What a thaw releases

A thaw is there to release every parked request once, on the queue where it
arrived, and to do nothing else.  The list of parked tags is shared, and keeps
the bare tags, so this holds as long as a queue drains tags of its own.

* `Released` is what the steps of a thaw are for: what a release does to its
  request and to the others, and that a thaw is on its way to every parked
  request until it has released it.
* `released_runs_iff`: the runs of such steps are the runs in which a queue
  drains requests of its own only.  With one queue these are all runs
  (`one_queue`).
-/

namespace Ublkera

namespace Fault

open LittleEndian WriteCache Trace

/-! ## What a thaw is for -/

/-- Every parked request is on the list, or its own queue is about to release
it. -/
def Accounted (s : Server) : Prop :=
  ∀ q t, s.slots q t = .parked → Parked.mk q t ∈ s.parked ∨
    ∃ thaw tags, s.pcs q = .releasing thaw tags ∧ Parked.mk q t ∈ tags

/-- The queue is going to drain the list. -/
def Draining (s : Server) (q : Nat) : Prop :=
  s.polls q = .fired ∨ s.pcs q = .woken ∨ (∃ thaw, s.pcs q = .thawing thaw) ∨
    (s.pcs q).thaws = true ∧ 0 < s.efd

/-- A thaw is on its way to the request: the list that it is on is going to be
drained, or its queue has it. -/
def Due (s : Server) (q t : Nat) : Prop :=
  (Parked.mk q t ∈ s.parked ∧ ∃ q', Draining s q') ∨
    ∃ thaw tags, s.pcs q = .releasing thaw tags ∧ Parked.mk q t ∈ tags

/-- What a release does to its request: a thaw with `ok` performs it with its
own op, offset, length and buffer, and one with `eio` fails it. -/
def Outcome (s : Server) (q t : Nat) (thaw res : Int) (s' : Server) : Prop :=
  (thaw = 0 ∧ ∃ buf, perform s.model (s.requests q t).op (s.requests q t).off
      (s.requests q t).len (s.requests q t).buf = some (res, buf, s'.model) ∧
      s'.requests q t = { s.requests q t with buf }) ∨
    (thaw = negEio ∧ res = negEio ∧ s'.model = s.model ∧ s'.requests q t = s.requests q t)

/-- The result of a `thaw` is the one that a queue loads, and it keeps that
for what it drains. -/
structure Told (s : Server) (l : QueueLabel) (s' : Server) : Prop where
  stored : ∀ res, l = .thaw res → s'.thawResult = res
  kept : (∀ res, l ≠ .thaw res) → s'.thawResult = s.thawResult
  loaded : ∀ q, l = .load q → (s'.pcs q).loaded = some s.thawResult
  held : ∀ q thaw, (s.pcs q).loaded = some thaw → l = .rearm q ∨ (s'.pcs q).loaded = some thaw

/-- What the steps of a thaw are for. -/
structure Released (s : Server) (l : QueueLabel) (s' : Server) : Prop where
  /-- A queue releases requests that are parked on it. -/
  parked : ∀ q t res, l = .release q t res → s.slots q t = .parked ∧ s'.slots q t = .free
  outcome : ∀ q t res, l = .release q t res →
    ∃ thaw, (s.pcs q).loaded = some thaw ∧ Outcome s q t thaw res s'
  /-- A request that is not released keeps its place, and so does everything
  in the other steps of a thaw. -/
  others : ∀ q t, s.slots q t = .parked → (∃ res, l = .release q t res) ∨
    s'.slots q t = .parked ∧ s'.requests q t = s.requests q t
  still : (l = .signal ∨ ∃ q, l = .wake q ∨ l = .load q ∨ l = .drain q ∨ l = .rearm q) →
    s'.model = s.model ∧ s'.slots = s.slots ∧ s'.requests = s.requests
  told : Told s l s'
  accounted : Accounted s'
  /-- What is still parked when a queue has finished was parked after it
  drained the list. -/
  finished : ∀ q, l = .rearm q → ∀ t, s.slots q t = .parked → Parked.mk q t ∈ s.parked
  /-- A thaw is on its way to every request that is parked when it writes the
  eventfd, until it has released it. -/
  woken : l = .signal → ∀ q t, s.slots q t = .parked → Due s' q t
  due : ∀ q t, Due s q t → (∃ res, l = .release q t res) ∨ Due s' q t

/-- A queue drains requests of its own only. -/
def DrainsOwn (s : Server) (l : QueueLabel) : Prop :=
  ∀ q, l = .drain q → ∀ p, p ∈ s.parked → p.queue = q

/-! ## The invariant -/

structure QueueInv (s : Server) : Prop where
  listed : ∀ p, p ∈ s.parked → s.slots p.queue p.tag = .parked
  nodup : s.parked.Nodup
  parking : ∀ q t, s.pcs q = .parking t → s.slots q t = .handled
  /-- What a queue has drained is parked on it, and is on no list. -/
  drained : ∀ q thaw tags, s.pcs q = .releasing thaw tags → tags.Nodup ∧
    ∀ p, p ∈ tags → p.queue = q ∧ s.slots q p.tag = .parked ∧ p ∉ s.parked
  accounted : Accounted s

theorem queueInv_init (queues : Nat) (model : Model) : QueueInv (.init queues model) :=
  ⟨nofun, List.nodup_nil, nofun, nofun, nofun⟩

/-- Fields that no list and no thread stands on. -/
theorem QueueInv.congr {s s' : Server} (h : QueueInv s) (hparked : s'.parked = s.parked)
    (hslots : s'.slots = s.slots) (hpcs : s'.pcs = s.pcs) : QueueInv s' := by
  obtain ⟨h1, h2, h3, h4, h5⟩ := h
  unfold Accounted at h5
  rw [← hparked, ← hslots] at h1
  rw [← hparked] at h2
  rw [← hpcs, ← hslots] at h3
  rw [← hparked, ← hslots, ← hpcs] at h4 h5
  exact ⟨h1, h2, h3, h4, h5⟩

/-- A tag that is not parked goes to another hand. -/
theorem QueueInv.setSlot {s : Server} (h : QueueInv s) {q t : Nat} {slot : Slot}
    (hparked : s.slots q t ≠ .parked) (hparking : s.pcs q ≠ .parking t) (hslot : slot ≠ .parked) :
    QueueInv (s.setSlot q t slot) := by
  obtain ⟨h1, h2, h3, h4, h5⟩ := h
  have hkeep : ∀ q' t', s.slots q' t' = .parked → (s.setSlot q t slot).slots q' t' = .parked := by
    intro q' t' hs
    rw [slots_setSlot, if_neg]
    · exact hs
    · intro ⟨hq, ht⟩
      subst hq ht
      exact hparked hs
  refine ⟨fun p hp => hkeep _ _ (h1 p hp), h2, ?_, ?_, ?_⟩
  · intro q' t' hpc
    rw [slots_setSlot, if_neg]
    · exact h3 q' t' hpc
    · intro ⟨hq, ht⟩
      subst hq ht
      exact hparking hpc
  · intro q' thaw tags hpc
    obtain ⟨hnodup, hall⟩ := h4 q' thaw tags hpc
    refine ⟨hnodup, fun p hp => ?_⟩
    obtain ⟨hq, hs, hnot⟩ := hall p hp
    exact ⟨hq, hkeep _ _ hs, hnot⟩
  · intro q' t' hs
    rw [slots_setSlot] at hs
    split at hs
    · exact absurd hs hslot
    · exact h5 q' t' hs

/-- A thread goes on that has drained nothing, and that stands on nothing. -/
theorem QueueInv.setPc {s : Server} (h : QueueInv s) {q : Nat} {pc : Pc}
    (hempty : ∀ thaw tags, s.pcs q = .releasing thaw tags → tags = [])
    (hparking : ∀ t, pc = .parking t → s.slots q t = .handled)
    (hreleasing : ∀ thaw tags, pc ≠ .releasing thaw tags) : QueueInv (s.setPc q pc) := by
  obtain ⟨h1, h2, h3, h4, h5⟩ := h
  refine ⟨h1, h2, ?_, ?_, ?_⟩
  · intro q' t hpc
    rw [pcs_setPc] at hpc
    split at hpc
    · rename_i hq
      subst hq
      exact hparking t hpc
    · exact h3 q' t hpc
  · intro q' thaw tags hpc
    rw [pcs_setPc] at hpc
    split at hpc
    · exact absurd hpc (hreleasing thaw tags)
    · exact h4 q' thaw tags hpc
  · intro q' t hs
    rcases h5 q' t hs with hlist | ⟨thaw, tags, hpc, hmem⟩
    · exact Or.inl hlist
    · right
      refine ⟨thaw, tags, ?_, hmem⟩
      rw [pcs_setPc, if_neg]
      · exact hpc
      · intro hq
        subst hq
        rw [hempty thaw tags hpc] at hmem
        cases hmem

theorem QueueInv.park {s : Server} (h : QueueInv s) {q t : Nat} (parking : s.pcs q = .parking t) :
    QueueInv ({ s with parked := s.parked ++ [Parked.mk q t] }.setSlot q t .parked
      |>.setPc q .idle) := by
  obtain ⟨h1, h2, h3, h4, h5⟩ := h
  have hslot := h3 q t parking
  have hfresh : Parked.mk q t ∉ s.parked := by
    intro hmem
    have hparked := h1 _ hmem
    rw [hslot] at hparked
    cases hparked
  have hslots : ∀ q' t', (({ s with parked := s.parked ++ [Parked.mk q t] }.setSlot q t .parked
      |>.setPc q .idle).slots q' t') = if q' = q ∧ t' = t then .parked else s.slots q' t' :=
    fun q' t' => slots_setSlot _ q t q' t' .parked
  have hpcs : ∀ q', (({ s with parked := s.parked ++ [Parked.mk q t] }.setSlot q t .parked
      |>.setPc q .idle).pcs q') = if q' = q then .idle else s.pcs q' :=
    fun q' => pcs_setPc _ q q' .idle
  have hkeep : ∀ q' t', s.slots q' t' = .parked →
      (if q' = q ∧ t' = t then Slot.parked else s.slots q' t') = .parked := by
    intro q' t' hs
    split
    · rfl
    · exact hs
  refine ⟨?_, ?_, ?_, ?_, ?_⟩
  · intro p hp
    rw [hslots]
    rcases List.mem_append.mp hp with hp | hp
    · exact hkeep _ _ (h1 p hp)
    · rw [List.mem_singleton.mp hp]
      exact if_pos ⟨rfl, rfl⟩
  · exact List.nodup_append.mpr ⟨h2, List.nodup_singleton _, fun a ha b hb hab => by
      rw [List.mem_singleton.mp hb] at hab
      exact hfresh (hab ▸ ha)⟩
  · intro q' t' hpc
    rw [hpcs] at hpc
    split at hpc
    · cases hpc
    · rename_i hq
      rw [hslots, if_neg fun h => hq h.1]
      exact h3 q' t' hpc
  · intro q' thaw tags hpc
    rw [hpcs] at hpc
    split at hpc
    · cases hpc
    · rename_i hq
      obtain ⟨hnodup, hall⟩ := h4 q' thaw tags hpc
      refine ⟨hnodup, fun p hp => ?_⟩
      obtain ⟨hqueue, hs, hnot⟩ := hall p hp
      refine ⟨hqueue, by rw [hslots]; exact hkeep _ _ hs, fun hmem => ?_⟩
      rcases List.mem_append.mp hmem with hmem | hmem
      · exact hnot hmem
      · rw [List.mem_singleton.mp hmem] at hqueue
        exact hq hqueue.symm
  · intro q' t' hs
    rw [hslots] at hs
    split at hs
    · rename_i heq
      obtain ⟨rfl, rfl⟩ := heq
      exact Or.inl (List.mem_append_right _ List.mem_cons_self)
    · rcases h5 q' t' hs with hlist | ⟨thaw, tags, hpc, hmem⟩
      · exact Or.inl (List.mem_append_left _ hlist)
      · right
        refine ⟨thaw, tags, ?_, hmem⟩
        rw [hpcs, if_neg]
        · exact hpc
        · intro hq
          subst hq
          rw [parking] at hpc
          cases hpc

/-- A queue that drains its own requests is going to release them. -/
theorem QueueInv.drain {s : Server} (h : QueueInv s) {q : Nat} {thaw : Int}
    (thawing : s.pcs q = .thawing thaw) (own : ∀ p, p ∈ s.parked → p.queue = q) :
    QueueInv ({ s with parked := [] }.setPc q (.releasing thaw s.parked)) := by
  obtain ⟨h1, h2, h3, h4, h5⟩ := h
  have hpcs : ∀ q', (({ s with parked := [] }.setPc q (.releasing thaw s.parked)).pcs q')
      = if q' = q then .releasing thaw s.parked else s.pcs q' :=
    fun q' => pcs_setPc _ q q' _
  refine ⟨nofun, List.nodup_nil, ?_, ?_, ?_⟩
  · intro q' t hpc
    rw [hpcs] at hpc
    split at hpc
    · cases hpc
    · exact h3 q' t hpc
  · intro q' thaw' tags hpc
    rw [hpcs] at hpc
    split at hpc
    · rename_i hq
      obtain ⟨-, rfl⟩ := Pc.releasing.inj hpc
      subst hq
      refine ⟨h2, fun p hp => ⟨own p hp, ?_, List.not_mem_nil⟩⟩
      rw [← own p hp]
      exact h1 p hp
    · obtain ⟨hnodup, hall⟩ := h4 q' thaw' tags hpc
      exact ⟨hnodup, fun p hp => ⟨(hall p hp).1, (hall p hp).2.1, List.not_mem_nil⟩⟩
  · intro q' t hs
    right
    rcases h5 q' t hs with hlist | ⟨thaw', tags, hpc, hmem⟩
    · have hq := own _ hlist
      exact ⟨thaw, s.parked, by rw [hpcs, if_pos hq], hlist⟩
    · refine ⟨thaw', tags, ?_, hmem⟩
      rw [hpcs, if_neg]
      · exact hpc
      · intro hq
        subst hq
        rw [thawing] at hpc
        cases hpc

/-- A queue releases the next of the requests that it has drained. -/
theorem QueueInv.release {s s' : Server} (h : QueueInv s) {q : Nat} {thaw : Int} {p : Parked}
    {rest : List Parked} (releasing : s.pcs q = .releasing thaw (p :: rest))
    (hparked : s'.parked = s.parked) (hslots : s'.slots = (s.setSlot q p.tag .free).slots)
    (hpcs : s'.pcs = (s.setPc q (.releasing thaw rest)).pcs) : QueueInv s' := by
  obtain ⟨h1, h2, h3, h4, h5⟩ := h
  obtain ⟨hnodup, hall⟩ := h4 q thaw _ releasing
  obtain ⟨hq, hslot, hnot⟩ := hall p List.mem_cons_self
  have hkeep : ∀ q' t', s.slots q' t' = .parked → ¬ (q' = q ∧ t' = p.tag) →
      s'.slots q' t' = .parked := by
    intro q' t' hs hne
    rw [hslots, slots_setSlot, if_neg hne]
    exact hs
  refine ⟨?_, hparked ▸ h2, ?_, ?_, ?_⟩
  · intro p' hp'
    rw [hparked] at hp'
    refine hkeep _ _ (h1 p' hp') fun ⟨hq', ht'⟩ => hnot ?_
    have heq : p' = p := by
      cases p'
      cases p
      simp_all
    exact heq ▸ hp'
  · intro q' t hpc
    rw [hpcs, pcs_setPc] at hpc
    split at hpc
    · cases hpc
    · rename_i hne
      rw [hslots, slots_setSlot, if_neg fun h => hne h.1]
      exact h3 q' t hpc
  · intro q' thaw' tags hpc
    rw [hpcs, pcs_setPc] at hpc
    rw [hparked]
    split at hpc
    · rename_i heq
      obtain ⟨-, rfl⟩ := Pc.releasing.inj hpc
      subst heq
      obtain ⟨hfresh, hrest⟩ := List.nodup_cons.mp hnodup
      refine ⟨hrest, fun p' hp' => ?_⟩
      obtain ⟨hq', hslot', hnot'⟩ := hall p' (List.mem_cons_of_mem _ hp')
      refine ⟨hq', hkeep _ _ hslot' fun ⟨_, ht'⟩ => hfresh ?_, hnot'⟩
      have heq : p' = p := by
        cases p'
        cases p
        simp_all
      exact heq ▸ hp'
    · rename_i hne
      obtain ⟨hnodup', hall'⟩ := h4 q' thaw' tags hpc
      refine ⟨hnodup', fun p' hp' => ?_⟩
      obtain ⟨hq', hslot', hnot'⟩ := hall' p' hp'
      exact ⟨hq', hkeep _ _ hslot' fun h => hne h.1, hnot'⟩
  · intro q' t hs
    rw [hslots, slots_setSlot] at hs
    split at hs
    · cases hs
    · rename_i hne
      rw [hparked]
      rcases h5 q' t hs with hlist | ⟨thaw', tags, hpc, hmem⟩
      · exact Or.inl hlist
      · right
        by_cases heq : q' = q
        · subst heq
          rw [releasing] at hpc
          obtain ⟨rfl, rfl⟩ := Pc.releasing.inj hpc
          refine ⟨thaw, rest, by rw [hpcs, pcs_setPc, if_pos rfl], ?_⟩
          rcases List.mem_cons.mp hmem with heq | hmem
          · exact absurd ⟨rfl, congrArg Parked.tag heq⟩ hne
          · exact hmem
        · exact ⟨thaw', tags, by rw [hpcs, pcs_setPc, if_neg heq]; exact hpc, hmem⟩

variable {lib : Libublk} {queues : Nat}

/-- The next of the drained tags goes back to the driver. -/
theorem QueueInv.slot_of_completed {s : Server} (h : QueueInv s) (completes : lib.Completes)
    {q : Nat} {thaw : Int} {p : Parked} {rest : List Parked} {slot : Slot}
    (releasing : s.pcs q = .releasing thaw (p :: rest))
    (completed : lib.complete (s.slots q p.tag) = some slot) : slot = .free := by
  rw [((h.drained q thaw _ releasing).2 p List.mem_cons_self).2.1, completes.parked] at completed
  exact (Option.some.inj completed).symm

theorem QueueInv.step (completes : lib.Completes) {s s' : Server} {l : QueueLabel}
    (h : QueueInv s) (hown : DrainsOwn s l) (hs : QueueStep lib queues s l s') :
    QueueInv s' := by
  cases hs with
  | @arrive q t req queue free =>
    have hset : QueueInv (s.setSlot q t .arrived) := by
      refine h.setSlot ?_ ?_ nofun
      · rw [free]
        nofun
      · intro hpc
        have hslot := h.parking q t hpc
        rw [free] at hslot
        cases hslot
    exact hset.congr rfl rfl rfl
  | @serve q t res buf m slot idle arrived decided performed completed =>
    obtain rfl : slot = .free := Option.some.inj (completed.symm.trans completes.handled)
    have hset : QueueInv (s.setSlot q t .free) := by
      refine h.setSlot ?_ ?_ nofun
      · rw [arrived]
        nofun
      · rw [idle]
        nofun
    exact hset.congr rfl rfl rfl
  | @hang q t idle arrived decided =>
    have hset : QueueInv (s.setSlot q t .handled) := by
      refine h.setSlot ?_ ?_ nofun
      · rw [arrived]
        nofun
      · rw [idle]
        nofun
    have hpc : QueueInv ((s.setSlot q t .handled).setPc q (.parking t)) := by
      refine hset.setPc ?_ ?_ nofun
      · intro thaw tags hreleasing
        rw [show (s.setSlot q t .handled).pcs q = .idle from idle] at hreleasing
        cases hreleasing
      · intro t' heq
        rw [← Pc.parking.inj heq, slots_setSlot, if_pos ⟨rfl, rfl⟩]
    exact hpc.congr rfl rfl rfl
  | park parking => exact h.park parking
  | thaw | signal | control => exact h.congr rfl rfl rfl
  | @wake q idle fired =>
    have hpc : QueueInv (s.setPc q .woken) := by
      refine h.setPc ?_ nofun nofun
      intro thaw tags hreleasing
      rw [idle] at hreleasing
      cases hreleasing
    exact hpc.congr rfl rfl rfl
  | @load q woken =>
    refine h.setPc ?_ nofun nofun
    intro thaw tags hreleasing
    rw [woken] at hreleasing
    cases hreleasing
  | @drain q thaw thawing => exact h.drain thawing (hown q rfl)
  | @releaseOk q p rest res buf m slot releasing performed completed =>
    obtain rfl := h.slot_of_completed completes releasing completed
    exact h.release releasing rfl rfl rfl
  | @releaseFailed q p rest thaw slot releasing failed completed =>
    obtain rfl := h.slot_of_completed completes releasing completed
    exact h.release releasing rfl rfl rfl
  | @rearm q thaw done =>
    have hpc : QueueInv (s.setPc q .idle) := by
      refine h.setPc ?_ nofun nofun
      intro thaw' tags hreleasing
      rw [done] at hreleasing
      exact (Pc.releasing.inj hreleasing).2.symm
    exact hpc.congr rfl rfl rfl

/-! ## What the steps do -/

theorem told_step {s s' : Server} {l : QueueLabel} (hs : QueueStep lib queues s l s') :
    Told s l s' := by
  -- the thread of one queue goes on
  have hheld : ∀ {q : Nat} {pc : Pc}, (∀ thaw, (s.pcs q).loaded = some thaw →
      pc.loaded = some thaw) → ∀ q' thaw, (s.pcs q').loaded = some thaw →
      ((s.setPc q pc).pcs q').loaded = some thaw := by
    intro q pc hpc q' thaw hq'
    rw [pcs_setPc]
    split
    · rename_i hq
      subst hq
      exact hpc thaw hq'
    · exact hq'
  have hnone : ∀ {q : Nat} {pc : Pc}, (s.pcs q).loaded = none →
      ∀ thaw, (s.pcs q).loaded = some thaw → pc.loaded = some thaw := by
    intro q pc hpc thaw hthaw
    rw [hpc] at hthaw
    cases hthaw
  cases hs with
  | arrive | serve | signal | control =>
    exact ⟨nofun, fun _ => rfl, nofun, fun _ _ h => Or.inr h⟩
  | thaw result =>
    refine ⟨?_, fun h => absurd rfl (h _), nofun, fun _ _ h => Or.inr h⟩
    intro res hl
    exact QueueLabel.thaw.inj hl
  | @hang q t idle arrived decided =>
    exact ⟨nofun, fun _ => rfl, nofun, fun q' thaw h =>
      Or.inr (hheld (hnone (by rw [idle]; rfl)) q' thaw h)⟩
  | @park q t parking =>
    exact ⟨nofun, fun _ => rfl, nofun, fun q' thaw h =>
      Or.inr (hheld (hnone (by rw [parking]; rfl)) q' thaw h)⟩
  | @wake q idle fired =>
    exact ⟨nofun, fun _ => rfl, nofun, fun q' thaw h =>
      Or.inr (hheld (hnone (by rw [idle]; rfl)) q' thaw h)⟩
  | @load q woken =>
    refine ⟨nofun, fun _ => rfl, ?_, fun q' thaw h =>
      Or.inr (hheld (hnone (by rw [woken]; rfl)) q' thaw h)⟩
    intro q' hl
    obtain rfl := QueueLabel.load.inj hl
    rw [pcs_setPc, if_pos rfl]
    rfl
  | @drain q thaw thawing =>
    refine ⟨nofun, fun _ => rfl, nofun, fun q' thaw' h => Or.inr (hheld ?_ q' thaw' h)⟩
    rw [thawing]
    exact fun _ h => h
  | releaseOk releasing =>
    refine ⟨nofun, fun _ => rfl, nofun, fun q' thaw' h => Or.inr (hheld ?_ q' thaw' h)⟩
    rw [releasing]
    exact fun _ h => h
  | releaseFailed releasing =>
    refine ⟨nofun, fun _ => rfl, nofun, fun q' thaw' h => Or.inr (hheld ?_ q' thaw' h)⟩
    rw [releasing]
    exact fun _ h => h
  | @rearm q thaw done =>
    refine ⟨nofun, fun _ => rfl, nofun, fun q' thaw' h => ?_⟩
    by_cases hq : q' = q
    · rw [hq]
      exact Or.inl rfl
    · right
      show ((s.setPc q .idle).pcs q').loaded = _
      rw [pcs_setPc, if_neg hq]
      exact h

theorem others_step {s s' : Server} {l : QueueLabel} (hs : QueueStep lib queues s l s')
    {q t : Nat} (parked : s.slots q t = .parked) :
    (∃ res, l = .release q t res) ∨
      s'.slots q t = .parked ∧ s'.requests q t = s.requests q t := by
  -- another tag changes hands
  have hother : ∀ {q' t' : Nat} {old : Slot}, s.slots q' t' = old → old ≠ .parked →
      ¬ (q = q' ∧ t = t') := by
    rintro q' t' old hold hne ⟨rfl, rfl⟩
    exact hne (hold.symm.trans parked)
  cases hs with
  | @arrive q' t' req queue free =>
    have hne := hother free nofun
    refine Or.inr ⟨?_, ?_⟩
    · exact ((slots_setSlot _ _ _ _ _ _).trans (if_neg hne)).trans parked
    · exact (requests_setRequest _ _ _ _ _ _).trans (if_neg hne)
  | @serve q' t' res buf m slot idle arrived decided performed completed =>
    have hne := hother arrived nofun
    refine Or.inr ⟨?_, ?_⟩
    · exact ((slots_setSlot _ _ _ _ _ _).trans (if_neg hne)).trans parked
    · exact (requests_setRequest _ _ _ _ _ _).trans (if_neg hne)
  | @hang q' t' idle arrived decided =>
    have hne := hother arrived nofun
    exact Or.inr ⟨((slots_setSlot _ _ _ _ _ _).trans (if_neg hne)).trans parked, rfl⟩
  | @park q' t' parking =>
    refine Or.inr ⟨(slots_setSlot _ _ _ _ _ _).trans ?_, rfl⟩
    split
    · rfl
    · exact parked
  | thaw | signal | wake | load | drain | rearm | control => exact Or.inr ⟨parked, rfl⟩
  | @releaseOk q' p rest res buf m slot releasing performed completed =>
    by_cases heq : q = q' ∧ t = p.tag
    · obtain ⟨rfl, rfl⟩ := heq
      exact Or.inl ⟨res, rfl⟩
    · refine Or.inr ⟨?_, ?_⟩
      · exact ((slots_setSlot _ _ _ _ _ _).trans (if_neg heq)).trans parked
      · exact (requests_setRequest _ _ _ _ _ _).trans (if_neg heq)
  | @releaseFailed q' p rest thaw slot releasing failed completed =>
    by_cases heq : q = q' ∧ t = p.tag
    · obtain ⟨rfl, rfl⟩ := heq
      exact Or.inl ⟨thaw, rfl⟩
    · exact Or.inr ⟨((slots_setSlot _ _ _ _ _ _).trans (if_neg heq)).trans parked, rfl⟩

theorem ThawInv.outcome {s s' : Server} (hinv : ThawInv queues s) {q t : Nat} {res : Int}
    (hs : QueueStep lib queues s (.release q t res) s') :
    ∃ thaw, (s.pcs q).loaded = some thaw ∧ Outcome s q t thaw res s' := by
  cases hs with
  | @releaseOk _ p rest _ buf m slot releasing performed completed =>
    refine ⟨0, by rw [releasing]; rfl, Or.inl ⟨rfl, buf, performed, ?_⟩⟩
    exact (requests_setRequest _ _ _ _ _ _).trans (if_pos ⟨rfl, rfl⟩)
  | @releaseFailed _ p rest _ slot releasing failed completed =>
    have hloaded : (s.pcs q).loaded = some res := by
      rw [releasing]
      rfl
    have heio := (hinv.loaded q res hloaded).resolve_left failed
    exact ⟨res, hloaded, Or.inr ⟨heio, heio, rfl, rfl⟩⟩

theorem fired_of_draining {s : Server} {q : Nat} (h : Draining s q)
    (hpc : (s.pcs q).thaws = false) : s.polls q = .fired := by
  rcases h with hfired | hwoken | ⟨thaw, hthawing⟩ | ⟨hthaws, -⟩
  · exact hfired
  · rw [hwoken] at hpc
    cases hpc
  · rw [hthawing] at hpc
    cases hpc
  · rw [hpc] at hthaws
    cases hthaws

/-- A queue that releases what it has drained will find the eventfd
written. -/
theorem ThawInv.efd_of_draining {s : Server} (hinv : ThawInv queues s) {q : Nat} {thaw : Int}
    {tags : List Parked} (h : Draining s q) (hpc : s.pcs q = .releasing thaw tags) :
    0 < s.efd := by
  have hoff := hinv.off q (by rw [hpc]; rfl)
  rcases h with hfired | hwoken | ⟨thaw', hthawing⟩ | ⟨-, hefd⟩
  · rw [hoff] at hfired
    cases hfired
  · rw [hpc] at hwoken
    cases hwoken
  · rw [hpc] at hthawing
    cases hthawing
  · exact hefd

/-- The thread of one queue goes on. -/
theorem draining_turn {s s' : Server} {q q' : Nat} {pc : Pc} (h : Draining s q)
    (hpcs : s'.pcs = (s.setPc q' pc).pcs) (hpolls : q ≠ q' → s'.polls q = s.polls q)
    (hefd : s'.efd = s.efd) (hself : q = q' → Draining s' q) : Draining s' q := by
  by_cases hq : q = q'
  · exact hself hq
  · have hpc : s'.pcs q = s.pcs q := by
      rw [hpcs, pcs_setPc, if_neg hq]
    unfold Draining
    rw [hpc, hpolls hq, hefd]
    exact h

/-- A queue that is going to drain the list does so, or another one has come
before it, or one of them still is. -/
theorem ThawInv.draining {s s' : Server} (hinv : ThawInv queues s) {l : QueueLabel}
    (hs : QueueStep lib queues s l s') {q : Nat} (h : Draining s q) :
    (∃ q', l = .drain q') ∨ ∃ q', Draining s' q' := by
  cases hs with
  | arrive | serve | thaw | control => exact Or.inr ⟨q, h⟩
  | @hang q' t idle arrived decided =>
    refine Or.inr ⟨q, draining_turn h rfl (fun _ => rfl) rfl ?_⟩
    rintro rfl
    have hfired : s.polls q = .fired := fired_of_draining h (by rw [idle]; rfl)
    exact Or.inl hfired
  | @park q' t parking =>
    refine Or.inr ⟨q, draining_turn h rfl (fun _ => rfl) rfl ?_⟩
    rintro rfl
    have hfired : s.polls q = .fired := fired_of_draining h (by rw [parking]; rfl)
    exact Or.inl hfired
  | signal pending =>
    refine Or.inr ⟨q, ?_⟩
    rcases h with hfired | hwoken | hthawing | ⟨hthaws, -⟩
    · refine Or.inl ?_
      show (if s.polls q = .armed then Poll.fired else s.polls q) = .fired
      rw [hfired, if_neg (by nofun)]
    · exact Or.inr (Or.inl hwoken)
    · exact Or.inr (Or.inr (Or.inl hthawing))
    · exact Or.inr (Or.inr (Or.inr ⟨hthaws, Nat.succ_pos _⟩))
  | @wake q' idle fired =>
    exact Or.inr ⟨q', Or.inr (Or.inl ((pcs_setPc _ _ _ _).trans (if_pos rfl)))⟩
  | @load q' woken =>
    exact Or.inr ⟨q', Or.inr (Or.inr (Or.inl ⟨_, (pcs_setPc _ _ _ _).trans (if_pos rfl)⟩))⟩
  | drain => exact Or.inl ⟨_, rfl⟩
  | @releaseOk q' p rest res buf m slot releasing performed completed =>
    refine Or.inr ⟨q, draining_turn h rfl (fun _ => rfl) rfl ?_⟩
    rintro rfl
    refine Or.inr (Or.inr (Or.inr ⟨?_, hinv.efd_of_draining h releasing⟩))
    exact congrArg Pc.thaws ((pcs_setPc _ _ _ _).trans (if_pos rfl))
  | @releaseFailed q' p rest thaw slot releasing failed completed =>
    refine Or.inr ⟨q, draining_turn h rfl (fun _ => rfl) rfl ?_⟩
    rintro rfl
    refine Or.inr (Or.inr (Or.inr ⟨?_, hinv.efd_of_draining h releasing⟩))
    exact congrArg Pc.thaws ((pcs_setPc _ _ _ _).trans (if_pos rfl))
  | @rearm q' thaw done =>
    refine Or.inr ⟨q, draining_turn h rfl (fun hq => Function.update_of_ne hq _ _) rfl ?_⟩
    rintro rfl
    refine Or.inl ?_
    show Function.update s.polls q (if 0 < s.efd then Poll.fired else .armed) q = .fired
    rw [Function.update_self, if_pos (hinv.efd_of_draining h done)]

/-- A queue goes on with what it has drained, but for what it releases. -/
theorem releasing_step {s s' : Server} {l : QueueLabel} (hs : QueueStep lib queues s l s')
    {q t : Nat} {thaw : Int} {tags : List Parked} (releasing : s.pcs q = .releasing thaw tags)
    (hmem : Parked.mk q t ∈ tags) :
    (∃ res, l = .release q t res) ∨
      ∃ rest, s'.pcs q = .releasing thaw rest ∧ Parked.mk q t ∈ rest := by
  -- the thread of another queue goes on
  have hother : ∀ {q' : Nat} {pc : Pc}, s.pcs q' ≠ .releasing thaw tags →
      (s.setPc q' pc).pcs q = .releasing thaw tags := by
    intro q' pc hne
    rw [pcs_setPc, if_neg]
    · exact releasing
    · rintro rfl
      exact hne releasing
  have hrest : ∀ {q' : Nat} {p : Parked} {thaw' : Int} {rest : List Parked} {res : Int},
      s.pcs q' = .releasing thaw' (p :: rest) → l = .release q' p.tag res →
      (∃ res, l = .release q t res) ∨ ∃ rest',
        (s.setPc q' (.releasing thaw' rest)).pcs q = .releasing thaw rest' ∧
          Parked.mk q t ∈ rest' := by
    intro q' p thaw' rest res hpc hl
    by_cases hq : q = q'
    · subst hq
      rw [hpc] at releasing
      obtain ⟨rfl, rfl⟩ := Pc.releasing.inj releasing
      rcases List.mem_cons.mp hmem with rfl | hmem
      · exact Or.inl ⟨res, hl⟩
      · exact Or.inr ⟨rest, (pcs_setPc _ _ _ _).trans (if_pos rfl), hmem⟩
    · exact Or.inr ⟨tags, ((pcs_setPc _ _ _ _).trans (if_neg hq)).trans releasing, hmem⟩
  cases hs with
  | arrive | serve | thaw | signal | control => exact Or.inr ⟨tags, releasing, hmem⟩
  | hang idle => exact Or.inr ⟨tags, hother (by rw [idle]; nofun), hmem⟩
  | park parking => exact Or.inr ⟨tags, hother (by rw [parking]; nofun), hmem⟩
  | wake idle => exact Or.inr ⟨tags, hother (by rw [idle]; nofun), hmem⟩
  | load woken => exact Or.inr ⟨tags, hother (by rw [woken]; nofun), hmem⟩
  | drain thawing => exact Or.inr ⟨tags, hother (by rw [thawing]; nofun), hmem⟩
  | releaseOk hpc => exact hrest hpc rfl
  | releaseFailed hpc => exact hrest hpc rfl
  | @rearm q' thaw' done =>
    refine Or.inr ⟨tags, hother ?_, hmem⟩
    rw [done]
    rintro heq
    obtain ⟨-, rfl⟩ := Pc.releasing.inj heq
    cases hmem

/-- A request that a thaw is on its way to is released, or the thaw still
is. -/
theorem ThawInv.due {s s' : Server} (hinv : ThawInv queues s) {l : QueueLabel}
    (hs : QueueStep lib queues s l s') (hown : DrainsOwn s l) {q t : Nat} (h : Due s q t) :
    (∃ res, l = .release q t res) ∨ Due s' q t := by
  rcases h with ⟨hlist, q', hdraining⟩ | ⟨thaw, tags, hpc, hmem⟩
  · by_cases hdrain : ∃ q'', l = .drain q''
    · -- the queue of the request drains the list
      obtain ⟨q'', rfl⟩ := hdrain
      obtain rfl : q = q'' := hown q'' rfl _ hlist
      cases hs with
      | @drain _ thaw thawing =>
        exact Or.inr (Or.inr ⟨thaw, s.parked, (pcs_setPc _ _ _ _).trans (if_pos rfl), hlist⟩)
    · refine Or.inr (Or.inl ⟨?_, (hinv.draining hs hdraining).resolve_left hdrain⟩)
      cases hs with
      | park => exact List.mem_append_left _ hlist
      | drain => exact absurd ⟨_, rfl⟩ hdrain
      | _ => exact hlist
  · exact (releasing_step hs hpc hmem).imp id fun ⟨rest, hpc', hmem'⟩ =>
      Or.inr ⟨thaw, rest, hpc', hmem'⟩

/-- A thaw comes to every request that is parked. -/
theorem ThawInv.woken {s s' : Server} (hinv : ThawInv queues s) (hqueue : QueueInv s)
    (hnumbered : Numbered queues s) (hs : QueueStep lib queues s .signal s') {q t : Nat}
    (parked : s.slots q t = .parked) : Due s' q t := by
  cases hs with
  | signal pending =>
    rcases hqueue.accounted q t parked with hlist | hreleasing
    · refine Or.inl ⟨hlist, q, ?_⟩
      cases hpoll : s.polls q with
      | armed => exact Or.inl (if_pos hpoll)
      | fired =>
        refine Or.inl ?_
        show (if s.polls q = .armed then Poll.fired else s.polls q) = .fired
        rw [hpoll, if_neg (by nofun)]
      | off =>
        have hthaws := hinv.on q (hnumbered.parked _ hlist) hpoll
        exact Or.inr (Or.inr (Or.inr ⟨hthaws, Nat.succ_pos _⟩))
    · exact Or.inr hreleasing

theorem still_step {s s' : Server} {l : QueueLabel} (hs : QueueStep lib queues s l s')
    (h : l = .signal ∨ ∃ q, l = .wake q ∨ l = .load q ∨ l = .drain q ∨ l = .rearm q) :
    s'.model = s.model ∧ s'.slots = s.slots ∧ s'.requests = s.requests := by
  cases hs with
  | signal | wake | load | drain | rearm => exact ⟨rfl, rfl, rfl⟩
  | arrive | serve | hang | park | thaw | releaseOk | releaseFailed | control =>
    exfalso
    rcases h with h | ⟨q, h | h | h | h⟩ <;> cases h

/-! ## Runs -/

/-- The invariant of the runs in which a queue drains requests of its own
only. -/
structure ServerInv (queues : Nat) (s : Server) : Prop where
  queue : QueueInv s
  numbered : Numbered queues s
  thaw : ThawInv queues s

theorem serverInv_init (queues : Nat) (model : Model) : ServerInv queues (.init queues model) :=
  ⟨queueInv_init queues model, numbered_init model, thawInv_init model⟩

theorem ServerInv.step (completes : lib.Completes) {s s' : Server} {l : QueueLabel}
    (h : ServerInv queues s) (hown : DrainsOwn s l) (hs : QueueStep lib queues s l s') :
    ServerInv queues s' :=
  ⟨h.queue.step completes hown hs, h.numbered.step hs, h.thaw.step hs⟩

/-- A queue releases requests that are parked on it, and they go back to the
driver. -/
theorem QueueInv.parked_of_release (completes : lib.Completes) {s s' : Server} (h : QueueInv s)
    {q t : Nat} {res : Int} (hs : QueueStep lib queues s (.release q t res) s') :
    s.slots q t = .parked ∧ s'.slots q t = .free := by
  cases hs with
  | @releaseOk _ p rest _ buf m slot releasing performed completed =>
    obtain rfl := h.slot_of_completed completes releasing completed
    exact ⟨((h.drained q 0 _ releasing).2 p List.mem_cons_self).2.1,
      (slots_setSlot _ _ _ _ _ _).trans (if_pos ⟨rfl, rfl⟩)⟩
  | @releaseFailed _ p rest _ slot releasing failed completed =>
    obtain rfl := h.slot_of_completed completes releasing completed
    exact ⟨((h.drained q res _ releasing).2 p List.mem_cons_self).2.1,
      (slots_setSlot _ _ _ _ _ _).trans (if_pos ⟨rfl, rfl⟩)⟩

/-- A queue that has finished has left nothing of what it drained. -/
theorem QueueInv.finished {s s' : Server} (h : QueueInv s) {q t : Nat}
    (hs : QueueStep lib queues s (.rearm q) s') (parked : s.slots q t = .parked) :
    Parked.mk q t ∈ s.parked := by
  cases hs with
  | @rearm _ thaw done =>
    rcases h.accounted q t parked with hlist | ⟨thaw', tags, hpc, hmem⟩
    · exact hlist
    · rw [done] at hpc
      rw [← (Pc.releasing.inj hpc).2] at hmem
      cases hmem

/-- A step is what a thaw is for exactly when it drains no request of another
queue. -/
theorem released_iff (completes : lib.Completes) {s s' : Server} {l : QueueLabel}
    (h : ServerInv queues s) (hs : QueueStep lib queues s l s') :
    Released s l s' ↔ DrainsOwn s l := by
  constructor
  · intro hreleased q hl p hp
    have haccounted := hreleased.accounted
    subst hl
    cases hs with
    | @drain _ thaw thawing =>
      by_cases hq : p.queue = q
      · exact hq
      · exfalso
        -- the request of the other queue is on no list after the step
        rcases haccounted p.queue p.tag (h.queue.listed p hp) with hlist | ⟨thaw', tags, hpc, hmem⟩
        · cases hlist
        · have hpc' : s.pcs p.queue = .releasing thaw' tags := by
            rw [← hpc]
            exact ((pcs_setPc _ q p.queue _).trans (if_neg hq)).symm
          exact ((h.queue.drained p.queue thaw' tags hpc').2 _ hmem).2.2 hp
  · intro hown
    exact
      { parked := fun q t res hl => h.queue.parked_of_release completes (hl ▸ hs)
        outcome := fun q t res hl => h.thaw.outcome (hl ▸ hs)
        others := fun q t => others_step hs
        still := still_step hs
        told := told_step hs
        accounted := (h.queue.step completes hown hs).accounted
        finished := fun q hl t => h.queue.finished (hl ▸ hs)
        woken := fun hl q t => h.thaw.woken h.queue h.numbered (hl ▸ hs)
        due := fun q t => h.thaw.due hs hown }

/-- A run in which a queue drains requests of its own only releases what its
thaws are for. -/
theorem released_of_drainsOwn (completes : lib.Completes) {model : Model}
    {trace : List QueueLabel} {s : Server}
    (h : Run (fun s l s' => QueueStep lib queues s l s' ∧ DrainsOwn s l) (.init queues model)
      trace s) :
    Run (fun s l s' => QueueStep lib queues s l s' ∧ Released s l s') (.init queues model) trace
      s ∧ ServerInv queues s := by
  induction h with
  | nil => exact ⟨.nil, serverInv_init queues model⟩
  | snoc run last ih =>
    have hreleased := (released_iff completes ih.2 last.1).mpr last.2
    exact ⟨ih.1.snoc ⟨last.1, hreleased⟩, ih.2.step completes last.2 last.1⟩

/-- The runs in which every thaw performs or fails the parked requests, each
once and on its queue, and does nothing else, are the runs in which a queue
drains no request of another queue. -/
theorem released_runs_iff (completes : lib.Completes) {model : Model} {trace : List QueueLabel}
    {s : Server} :
    Run (fun s l s' => QueueStep lib queues s l s' ∧ Released s l s') (.init queues model)
        trace s ↔
      Run (fun s l s' => QueueStep lib queues s l s' ∧ DrainsOwn s l) (.init queues model)
        trace s := by
  constructor
  · intro h
    have hboth : Run (fun s l s' => QueueStep lib queues s l s' ∧ DrainsOwn s l)
        (.init queues model) trace s ∧ ServerInv queues s := by
      induction h with
      | nil => exact ⟨.nil, serverInv_init queues model⟩
      | snoc run last ih =>
        have hown := (released_iff completes ih.2 last.1).mp last.2
        exact ⟨ih.1.snoc ⟨last.1, hown⟩, ih.2.step completes hown last.1⟩
    exact hboth.1
  · intro h
    exact (released_of_drainsOwn completes h).1

/-! ## One queue -/

/-- With one queue every run releases what a thaw is for. -/
theorem one_queue (completes : lib.Completes) {model : Model} {trace : List QueueLabel}
    {s : Server} (h : Run (QueueStep lib 1) (.init 1 model) trace s) :
    Run (fun s l s' => QueueStep lib 1 s l s' ∧ Released s l s') (.init 1 model) trace s := by
  have hboth : Run (fun s l s' => QueueStep lib 1 s l s' ∧ DrainsOwn s l) (.init 1 model) trace s ∧
      Numbered 1 s := by
    induction h with
    | nil => exact ⟨.nil, numbered_init model⟩
    | snoc run last ih =>
      obtain ⟨hrun, hnumbered⟩ := ih
      refine ⟨hrun.snoc ⟨last, fun q hl p hp => ?_⟩, hnumbered.step last⟩
      subst hl
      cases last with
      | drain thawing =>
        have hq := hnumbered.pcs q (by rw [thawing]; nofun)
        have hp' := hnumbered.parked p hp
        omega
  exact (released_of_drainsOwn completes hboth.1).1

/-! ## The release of what a thaw has woken -/

/-- A step that is no arrival of a request. -/
def WorkStep (lib : Libublk) (queues : Nat) (s : Server) (l : QueueLabel) (s' : Server) : Prop :=
  QueueStep lib queues s l s' ∧ ∀ q t req, l ≠ .arrive q t req

/-- `perform` takes every request that the server has. -/
def Performs (s : Server) : Prop :=
  ∀ q t, ∃ served, perform s.model (s.requests q t).op (s.requests q t).off
    (s.requests q t).len (s.requests q t).buf = some served

/-- The queue releases all that it has drained. -/
theorem release_run (completes : lib.Completes) {q : Nat} {thaw : Int} (tags : List Parked) :
    ∀ {s : Server}, (∀ trace s', Run (WorkStep lib queues) s trace s' → Performs s') →
      s.pcs q = .releasing thaw tags →
      ∃ trace s', Run (WorkStep lib queues) s trace s' ∧ s'.pcs q = .releasing thaw [] ∧
        s'.efd = s.efd ∧ s'.parked = s.parked ∧ ∀ p ∈ tags, ∃ res, .release q p.tag res ∈ trace := by
  induction tags with
  | nil =>
    intro s _ hpc
    exact ⟨[], s, .nil, hpc, rfl, rfl, nofun⟩
  | cons p rest ih =>
    intro s performs hpc
    have hstep : ∃ res s', WorkStep lib queues s (.release q p.tag res) s' ∧
        s'.pcs q = .releasing thaw rest ∧ s'.efd = s.efd ∧ s'.parked = s.parked := by
      obtain ⟨slot, hslot⟩ := Option.ne_none_iff_exists'.mp (completes.taken (s.slots q p.tag))
      by_cases hthaw : thaw = 0
      · subst hthaw
        obtain ⟨⟨res, buf, m⟩, hperform⟩ := performs [] s .nil q p.tag
        exact ⟨res, _, ⟨.releaseOk hpc hperform hslot, nofun⟩,
          (pcs_setPc _ _ _ _).trans (if_pos rfl), rfl, rfl⟩
      · exact ⟨thaw, _, ⟨.releaseFailed hpc hthaw hslot, nofun⟩,
          (pcs_setPc _ _ _ _).trans (if_pos rfl), rfl, rfl⟩
    obtain ⟨res, u, hfirst, hpcs, hefd, hparked⟩ := hstep
    obtain ⟨trace, s', hrun, hdone, hefd', hparked', hall⟩ :=
      ih (fun trace s' hrun => performs _ s' (.cons hfirst hrun)) hpcs
    refine ⟨_, s', .cons hfirst hrun, hdone, hefd'.trans hefd, hparked'.trans hparked, ?_⟩
    intro p' hp'
    rcases List.mem_cons.mp hp' with rfl | hp'
    · exact ⟨res, List.mem_cons_self⟩
    · obtain ⟨res', hres'⟩ := hall p' hp'
      exact ⟨res', List.mem_cons_of_mem _ hres'⟩

/-- A queue that is idle with a fired poll drains the list. -/
theorem drain_run (lib : Libublk) (queues : Nat) {s : Server} {q : Nat} (idle : s.pcs q = .idle)
    (fired : s.polls q = .fired) :
    ∃ s', Run (WorkStep lib queues) s [.wake q, .load q, .drain q] s' ∧
      s'.pcs q = .releasing s.thawResult s.parked := by
  have hwake : WorkStep lib queues s (.wake q) _ := ⟨.wake idle fired, nofun⟩
  have hload := (Run.single hwake).snoc
    (show WorkStep lib queues _ (.load q) _ from
      ⟨.load ((pcs_setPc _ _ _ _).trans (if_pos rfl)), nofun⟩)
  have hdrain := hload.snoc
    (show WorkStep lib queues _ (.drain q) _ from
      ⟨.drain ((pcs_setPc _ _ _ _).trans (if_pos rfl)), nofun⟩)
  exact ⟨_, hdrain, (pcs_setPc _ _ _ _).trans (if_pos rfl)⟩

/-- A queue that is going to drain the list gets to it. -/
theorem ThawInv.drains (completes : lib.Completes) {s : Server} (h : ThawInv queues s)
    (performs : ∀ trace s', Run (WorkStep lib queues) s trace s' → Performs s') {q : Nat}
    (hdraining : Draining s q) {p : Parked} (hp : p ∈ s.parked) :
    ∃ trace s', Run (WorkStep lib queues) s trace s' ∧ .drain q ∈ trace ∧
      ∃ thaw tags, s'.pcs q = .releasing thaw tags ∧ p ∈ tags := by
  cases hpc : s.pcs q with
  | idle =>
    have hfired := fired_of_draining hdraining (by rw [hpc]; rfl)
    obtain ⟨s', hrun, hpcs⟩ := drain_run lib queues hpc hfired
    exact ⟨_, s', hrun, by simp, _, _, hpcs, hp⟩
  | parking t =>
    have hfired := fired_of_draining hdraining (by rw [hpc]; rfl)
    have hpark : WorkStep lib queues s (.park q t) _ := ⟨.park hpc, nofun⟩
    obtain ⟨s', hrun, hpcs⟩ := drain_run lib queues
      (s := ({ s with parked := s.parked ++ [Parked.mk q t] }.setSlot q t .parked |>.setPc q .idle))
      ((pcs_setPc _ _ _ _).trans (if_pos rfl)) hfired
    exact ⟨_, s', .cons hpark hrun, by simp, _, _, hpcs, List.mem_append_left _ hp⟩
  | woken =>
    have hload : WorkStep lib queues s (.load q) _ := ⟨.load hpc, nofun⟩
    have hdrain := (Run.single hload).snoc
      (show WorkStep lib queues _ (.drain q) _ from
        ⟨.drain ((pcs_setPc _ _ _ _).trans (if_pos rfl)), nofun⟩)
    exact ⟨_, _, hdrain, by simp, _, _, (pcs_setPc _ _ _ _).trans (if_pos rfl), hp⟩
  | thawing thaw =>
    have hdrain : WorkStep lib queues s (.drain q) _ := ⟨.drain hpc, nofun⟩
    exact ⟨_, _, .single hdrain, by simp, _, _, (pcs_setPc _ _ _ _).trans (if_pos rfl), hp⟩
  | releasing thaw tags =>
    -- it comes back to the eventfd first
    have hefd := h.efd_of_draining hdraining hpc
    obtain ⟨trace, u, hrun, hdone, hefd', hparked, -⟩ := release_run completes tags performs hpc
    have hrearm : WorkStep lib queues u (.rearm q) _ := ⟨.rearm hdone, nofun⟩
    obtain ⟨s', hdrain, hpcs⟩ := drain_run lib queues
      (s := (u.setPc q .idle |>.setPoll q (if 0 < u.efd then .fired else .armed)))
      ((pcs_setPc _ _ _ _).trans (if_pos rfl))
      ((Function.update_self ..).trans (if_pos (hefd'.symm ▸ hefd)))
    exact ⟨_, s', (hrun.snoc hrearm).append hdrain, by simp, _, _, hpcs, hparked.symm ▸ hp⟩

/-- A request that a thaw is on its way to can be released, but for another
queue that drains it. -/
theorem ThawInv.released (completes : lib.Completes) {s : Server} (h : ThawInv queues s)
    (performs : ∀ trace s', Run (WorkStep lib queues) s trace s' → Performs s') {q t : Nat}
    (hdue : Due s q t) :
    ∃ trace s', Run (WorkStep lib queues) s trace s' ∧
      ((∃ res, .release q t res ∈ trace) ∨ ∃ q', q' ≠ q ∧ .drain q' ∈ trace) := by
  rcases hdue with ⟨hlist, q', hdraining⟩ | ⟨thaw, tags, hpc, hmem⟩
  · obtain ⟨trace, u, hrun, hdrain, thaw, tags, hpc, hmem⟩ :=
      h.drains completes performs hdraining hlist
    by_cases hq : q' = q
    · subst hq
      obtain ⟨trace', s', hrelease, -, -, -, hall⟩ := release_run completes tags
        (fun trace' s' hrun' => performs _ s' (hrun.append hrun')) hpc
      obtain ⟨res, hres⟩ := hall _ hmem
      exact ⟨_, s', hrun.append hrelease, Or.inl ⟨res, List.mem_append_right _ hres⟩⟩
    · exact ⟨trace, u, hrun, Or.inr ⟨q', hq, hdrain⟩⟩
  · obtain ⟨trace, s', hrun, -, -, -, hall⟩ := release_run completes tags performs hpc
    obtain ⟨res, hres⟩ := hall _ hmem
    exact ⟨trace, s', hrun, Or.inl ⟨res, hres⟩⟩

/-! ### A device of four bytes that parks every request -/

def hanging : Model := .new 4 1 4 0 { hangPm := 1000 }

theorem hanging_hangs : hanging.hang.1 = true := by decide

def oneByte : Request := { op := .write, off := 0, len := 1, buf := [7] }

/-- The first queue has parked a request, and a `thaw` has woken all
queues. -/
def thawed (queues : Nat) : Server :=
  let arrived := (Server.init queues hanging).setSlot 0 0 .arrived |>.setRequest 0 0 oneByte
  let hung := { arrived with model := arrived.model.hang.2 }.setSlot 0 0 .handled
    |>.setPc 0 (.parking 0)
  let parked := { hung with parked := hung.parked ++ [Parked.mk 0 0] }.setSlot 0 0 .parked
    |>.setPc 0 .idle
  let told := { parked with thawResult := 0, unsignalled := parked.unsignalled + 1 }
  { told with
    unsignalled := told.unsignalled - 1
    efd := told.efd + 1
    polls := fun q => if told.polls q = Poll.armed then Poll.fired else told.polls q }

theorem thawed_run (queues : Nat) (hqueues : 0 < queues) :
    Run (fun s l s' => QueueStep .taking queues s l s' ∧ DrainsOwn s l) (.init queues hanging)
      [.arrive 0 0 oneByte, .hang 0 0, .park 0 0, .thaw 0, .signal] (thawed queues) := by
  have harrive : Run (fun s l s' => QueueStep .taking queues s l s' ∧ DrainsOwn s l)
      (.init queues hanging) [.arrive 0 0 oneByte] _ := .single ⟨.arrive hqueues rfl, nofun⟩
  have hhang := harrive.snoc ⟨.hang (q := 0) (t := 0) rfl rfl hanging_hangs, nofun⟩
  have hpark := hhang.snoc ⟨.park (q := 0) rfl, nofun⟩
  have hthaw := hpark.snoc ⟨.thaw (Or.inl rfl), nofun⟩
  exact hthaw.snoc ⟨.signal (Nat.succ_pos _), nofun⟩

/-- With one queue the parked WRITE is performed, and its tag is free. -/
theorem released_runs_oneQueue :
    ∃ (trace : List QueueLabel) (s : Server),
      Run (fun s l s' => QueueStep .taking 1 s l s' ∧ Released s l s') (.init 1 hanging) trace s ∧
        .release 0 0 1 ∈ trace ∧ s.slots 0 0 = .free ∧ s.model.view = [7, 0, 0, 0] := by
  obtain ⟨⟨res, buf, m⟩, hperform⟩ := Option.isSome_iff_exists.mp
    (show (perform hanging.hang.2 .write 0 1 [7]).isSome = true by decide)
  have hwake := (thawed_run 1 Nat.one_pos).snoc ⟨.wake (q := 0) rfl rfl, nofun⟩
  have hload := hwake.snoc ⟨.load (q := 0) rfl, nofun⟩
  have hdrain := hload.snoc ⟨.drain (q := 0) rfl, fun q hq p hp => by
    obtain rfl := QueueLabel.drain.inj hq
    rw [List.mem_singleton.mp hp]⟩
  have hrelease := hdrain.snoc ⟨.releaseOk (q := 0) (p := ⟨0, 0⟩) rfl hperform rfl, nofun⟩
  have hrearm := hrelease.snoc ⟨.rearm (q := 0) rfl, nofun⟩
  have hres : some (res, m.view) = some (1, [7, 0, 0, 0]) := by
    rw [show some (res, m.view) = (some (res, buf, m)).map fun r => (r.1, r.2.2.view) from rfl,
      ← hperform]
    decide
  obtain ⟨rfl, hview⟩ := Prod.mk.inj (Option.some.inj hres)
  refine ⟨_, _, (released_runs_iff Libublk.taking_completes).mpr hrearm, ?_, rfl, hview⟩
  simp

/-! ### Two queues -/

theorem hang_volatile (m : Model) : m.hang.2.volatile = m.volatile := by
  cases hhang : (m.rng.hit m.policy.hangPm).1 with
  | true | false => simp [Model.hang, hhang]

/-- The command of a tag that was never used is a READ of nothing. -/
theorem perform_unused {m : Model} (h : m.volatile = []) :
    perform m .read 0 0 [] = some (0, [], { m with stats.reads := m.stats.reads + 1 }) := by
  have hread : m.read 0 0 = some ([], { m with stats.reads := m.stats.reads + 1 }) := by
    rw [Model.read, if_pos (Nat.zero_le _), h]
    rfl
  have hzero : asI32 0 = 0 := by decide
  simp [perform, hread, hzero]

/-- A request is parked on one queue, and the thaw wakes the other one
first.  It serves a command that is not there, completes a tag that the
driver has, and the parked request is on no list any more. -/
theorem not_released_twoQueues :
    ∃ (trace : List QueueLabel) (s t : Server),
      Run (QueueStep .taking 2) (.init 2 hanging) trace s ∧
        QueueStep .taking 2 s (.release 1 0 0) t ∧
        s.slots 1 0 = .free ∧ t.slots 0 0 = .parked ∧ ¬ Accounted t := by
  have hthawed := (thawed_run 2 (by decide)).mono fun _ _ _ h => h.1
  have hwake := hthawed.snoc (.wake (q := 1) rfl rfl)
  have hload := hwake.snoc (.load (q := 1) rfl)
  have hdrain := hload.snoc (.drain (q := 1) rfl)
  refine ⟨_, _, _, hdrain, .releaseOk (q := 1) (p := ⟨0, 0⟩) rfl
    (perform_unused (hang_volatile hanging)) rfl, rfl, rfl, ?_⟩
  intro haccounted
  rcases haccounted 0 0 rfl with hlist | ⟨thaw, tags, hpc, -⟩
  · cases hlist
  · cases hpc

end Fault

end Ublkera
