import Ublkera.Chaos.Steps

/-!
# The writer threads

Four threads write to slices of the device of their own until the daemon is
killed.  `raced_bytes` is what the harness relies on then: outside the writes
that were interrupted, the device holds what the completed writes leave when
they are replayed one thread after the other.
-/

namespace Ublkera

namespace Chaos

open LittleEndian WriteCache

/-! ## The writes of one thread -/

/-- Whole blocks of the slice that starts at `base`. -/
structure InSlice (slice base : Nat) (e : Entry) : Prop where
  off : 4096 ∣ e.off
  len : 4096 ∣ e.data.length
  lo : base ≤ e.off
  hi : e.stop ≤ base + slice

theorem length_fillBlock (rng : Fault.Rng) (len : Nat) :
    (Scenario.fillBlock rng len).length = len :=
  Chunks.length_fill Scenario.generates_chunk (by decide) rng len

/-- The length that the harness rolls fits behind the offset that it
rolls. -/
theorem rolled_fits {room block blocks : Nat}
    (hblocks : blocks < min maxWrite (room - 4096 * block) / 4096) :
    4096 * block + 4096 * (1 + blocks) ≤ room := by
  omega

theorem rolled_pos {room block : Nat} (hblock : block < room / 4096) :
    0 < min maxWrite (room - 4096 * block) / 4096 := by
  have hmax : maxWrite = 64 * 4096 := rfl
  omega

variable {slice : Nat}

theorem length_fillBuf (rng : Fault.Rng) (len : Nat) : (fillBuf rng len).1.length = len :=
  length_fillBlock rng len

/-- The rolls behind a write. -/
theorem next_eq (slice : Nat) (w : Writer) : ∃ block blocks rng rng',
    block = w.rng.below (slice / 4096) ∧
    blocks = block.2.below (min maxWrite (w.base + slice - (w.base + 4096 * block.1)) / 4096) ∧
    w.next slice = ({ off := w.base + 4096 * block.1
                      data := (fillBuf rng (4096 * (1 + blocks.1))).1 },
      { w with rng := rng' }) := by
  unfold Writer.next
  exact ⟨_, _, _, _, rfl, rfl, rfl⟩

theorem next_inSlice (hslice : 4096 ∣ slice) (hpos : 0 < slice) (w : Writer)
    (hbase : 4096 ∣ w.base) :
    InSlice slice w.base (w.next slice).1 ∧ (w.next slice).2.base = w.base := by
  obtain ⟨block, blocks, rng, rng', hblock, hblocks, hnext⟩ := next_eq slice w
  rw [Nat.add_sub_add_left] at hblocks
  have hroom : 0 < slice / 4096 := by omega
  have hlt := w.rng.below_lt hroom
  rw [← hblock] at hlt
  have hlen := block.2.below_lt (rolled_pos hlt)
  rw [← hblocks] at hlen
  have hfits := rolled_fits hlen
  rw [hnext]
  refine ⟨⟨?_, ?_, ?_, ?_⟩, rfl⟩
  · exact Nat.dvd_add hbase (Nat.dvd_mul_right _ _)
  · rw [length_fillBuf]
    exact Nat.dvd_mul_right _ _
  · exact Nat.le_add_right _ _
  · show w.base + 4096 * block.1 + (fillBuf rng _).1.length ≤ _
    rw [length_fillBuf]
    omega

theorem run_succ (n : Nat) (w : Writer) : w.run slice (n + 1)
    = ((w.next slice).1 :: ((w.next slice).2.run slice n).1,
      ((w.next slice).2.run slice n).2) := by
  rw [Writer.run]

theorem run_inSlice (hslice : 4096 ∣ slice) (hpos : 0 < slice) (n : Nat) (w : Writer)
    (hbase : 4096 ∣ w.base) :
    (∀ e, e ∈ (w.run slice n).1 → InSlice slice w.base e) ∧ (w.run slice n).2.base = w.base := by
  induction n generalizing w with
  | zero => exact ⟨nofun, rfl⟩
  | succ n ih =>
    obtain ⟨hfirst, hsame⟩ := next_inSlice hslice hpos w hbase
    rw [run_succ]
    generalize w.next slice = next at hfirst hsame
    obtain ⟨hrest, hlast⟩ := ih next.2 (by rw [hsame]; exact hbase)
    rw [hsame] at hrest hlast
    refine ⟨?_, hlast⟩
    intro e he
    rcases List.mem_cons.mp he with rfl | he
    · exact hfirst
    · exact hrest e he

/-- Completed writes leave their data, however they were cut. -/
theorem overwriteAll_lands {image : Bytes} {entries : List Entry} {pieces : List (List Entry)}
    (hin : InRange image.length entries) (lands : List.Forall₂ Lands entries pieces) :
    overwriteAll image pieces.flatten = overwriteAll image entries := by
  induction lands generalizing image with
  | nil => rfl
  | @cons e ps entries pieces hfirst hrest ih =>
    have he := hin e List.mem_cons_self
    rw [List.flatten_cons, overwriteAll_append, overwriteAll_parts he hfirst.parts hfirst.filled,
      overwriteAll_cons]
    refine ih ?_
    rw [overwrite_length he]
    exact fun q hq => hin q (List.mem_cons_of_mem _ hq)

/-- What landed for a completed write is a part of it. -/
theorem part_of_lands {entries : List Entry} {pieces : List (List Entry)}
    (lands : List.Forall₂ Lands entries pieces) {p : Entry} (hp : p ∈ pieces.flatten) :
    ∃ e ∈ entries, Part 512 e p := by
  induction lands with
  | nil => simp at hp
  | cons hfirst hrest ih =>
    rw [List.flatten_cons, List.mem_append] at hp
    rcases hp with hp | hp
    · exact ⟨_, List.mem_cons_self, hfirst.parts p hp⟩
    · obtain ⟨e, he, hpart⟩ := ih hp
      exact ⟨e, List.mem_cons_of_mem _ he, hpart⟩

/-- The byte is one of an interrupted write. -/
def Undefined (log : WriterLog) (x : Nat) : Prop :=
  ∃ r ∈ log.undefined, r.1 ≤ x ∧ x < r.1 + r.2

/-- What is known about a thread behind the race. -/
structure Replays (slice base : Nat) (log : WriterLog) (entries : List Entry) : Prop where
  ok : ∀ e, e ∈ log.ok → InSlice slice base e
  undefined : ∀ r, r ∈ log.undefined → 4096 ∣ r.1 ∧ 4096 ∣ r.2 ∧ r.1 + r.2 ≤ base + slice
  landed : ∀ p, p ∈ entries → ∃ e, InSlice slice base e ∧ Part 512 e p
  bytes : ∀ (image : Bytes) (x : Nat), base + slice ≤ image.length → ¬ Undefined log x →
    (overwriteAll image entries)[x]? = (overwriteAll image log.ok)[x]?

theorem Wrote.replays (hslice : 4096 ∣ slice) (hpos : 0 < slice) {w : Writer}
    (hbase : 4096 ∣ w.base) {log : WriterLog} {entries : List Entry}
    (h : Wrote slice w log entries) : Replays slice w.base log entries := by
  obtain ⟨n, pieces, torn, hok, lands, rfl, hend⟩ := h
  obtain ⟨hrun, hsame⟩ := run_inSlice hslice hpos n w hbase
  rw [← hok] at hrun
  have hnext := (next_inSlice hslice hpos (w.run slice n).2 (by rw [hsame]; exact hbase)).1
  rw [hsame] at hnext
  generalize ((w.run slice n).2.next slice).1 = next at hend hnext
  refine ⟨hrun, ?_, ?_, ?_⟩
  · intro r hr
    rcases hend with ⟨hnone, -⟩ | ⟨hone, -⟩
    · rw [hnone] at hr
      cases hr
    · rw [hone, List.mem_singleton] at hr
      subst hr
      exact ⟨hnext.off, hnext.len, hnext.hi⟩
  · intro p hp
    rcases List.mem_append.mp hp with hp | hp
    · obtain ⟨e, he, hpart⟩ := part_of_lands lands hp
      exact ⟨e, hrun e he, hpart⟩
    · rcases hend with ⟨-, rfl⟩ | ⟨-, hparts⟩
      · cases hp
      · exact ⟨next, hnext, hparts p hp⟩
  · intro image x hlen hx
    have hin : InRange image.length log.ok := fun e he => (hrun e he).hi.trans hlen
    rw [overwriteAll_append, overwriteAll_lands hin lands]
    have hall := overwriteAll_length hin
    refine getElem?_overwriteAll_of_misses ?_ ?_
    · intro p hp
      rcases hend with ⟨-, rfl⟩ | ⟨-, hparts⟩
      · cases hp
      · rw [hall]
        exact ((part_stop (hparts p hp)).trans hnext.hi).trans hlen
    · intro p hp
      rcases hend with ⟨-, rfl⟩ | ⟨hone, hparts⟩
      · cases hp
      · have hmiss : next.Misses x (x + 1) := by
          have hout : ¬ (next.off ≤ x ∧ x < next.off + next.data.length) := by
            intro hx'
            exact hx ⟨_, by rw [hone]; exact List.mem_singleton_self _, hx'⟩
          unfold Entry.Misses Entry.stop
          omega
        exact part_misses (hparts p hp) hmiss

/-! ## All threads -/

/-- Every thread has a slice of its own. -/
def OwnSlices (slice : Nat) (writers : List Writer) : Prop :=
  ∀ i w, writers[i]? = some w → w.base = i * slice

theorem seedWriters_base (slice : Nat) (ids : List Nat) (rng : Fault.Rng) :
    (seedWriters slice ids rng).1.map (·.base) = ids.map (· * slice) := by
  induction ids generalizing rng with
  | nil => rfl
  | cons i ids ih =>
    rw [seedWriters]
    simp only [List.map_cons, ih]

theorem ownSlices_seedWriters (slice : Nat) (rng : Fault.Rng) :
    (seedWriters slice [0, 1, 2, 3] rng).1.length = 4 ∧
      OwnSlices slice (seedWriters slice [0, 1, 2, 3] rng).1 := by
  have hbase := seedWriters_base slice [0, 1, 2, 3] rng
  have hrange : [0, 1, 2, 3] = List.range 4 := rfl
  rw [hrange] at hbase ⊢
  refine ⟨by simpa using congrArg List.length hbase, ?_⟩
  intro i w hw
  have hi := congrArg (·[i]?) hbase
  simp only [List.getElem?_map, hw, Option.map_some] at hi
  obtain ⟨j, hj, hjw⟩ := Option.map_eq_some_iff.mp hi.symm
  obtain ⟨_, rfl⟩ : ∃ h, (List.range 4)[i] = j := List.getElem?_eq_some_iff.mp hj
  rw [List.getElem_range] at hjw
  exact hjw.symm

theorem InSlice.misses {i x : Nat} {e : Entry} (h : InSlice slice (i * slice) e)
    (hx : x / slice ≠ i) : e.Misses x (x + 1) := by
  have hlo := h.lo
  have hhi := h.hi
  unfold Entry.Misses
  by_contra hin
  apply hx
  rw [not_or] at hin
  exact Nat.div_eq_of_lt_le (by omega) (by rw [Nat.succ_mul]; omega)

theorem raced_replays {writers : List Writer} {logs : List WriterLog}
    {events : List (Nat × Entry)} (hraced : Raced slice writers logs events)
    (hslice : 4096 ∣ slice) (hpos : 0 < slice) (own : OwnSlices slice writers) {i : Nat}
    {log : WriterLog} (hlog : logs[i]? = some log) :
    i < writers.length ∧ Replays slice (i * slice) log (lane i events) := by
  obtain ⟨hlen, hlanes, -⟩ := hraced
  have hi : i < writers.length := by
    rw [← hlen]
    exact (List.getElem?_eq_some_iff.mp hlog).1
  have hwriter := List.getElem?_eq_getElem hi
  have hbase := own i _ hwriter
  have hreplays := (hlanes i _ log hwriter hlog).replays hslice hpos
    (by rw [hbase]; exact Dvd.dvd.mul_left hslice i)
  rw [hbase] at hreplays
  exact ⟨hi, hreplays⟩

/-- A byte that only the writes of one log touch. -/
theorem getElem?_overwriteAll_own {image : Bytes} {logs : List WriterLog} {i x : Nat}
    {log : WriterLog} (hok : InRange image.length (logs.flatMap (·.ok)))
    (hlog : logs[i]? = some log)
    (hother : ∀ j l, logs[j]? = some l → j ≠ i → ∀ e, e ∈ l.ok → e.Misses x (x + 1)) :
    (overwriteAll image (logs.flatMap (·.ok)))[x]? = (overwriteAll image log.ok)[x]? := by
  obtain ⟨hi, rfl⟩ := List.getElem?_eq_some_iff.mp hlog
  have hsplit : logs.flatMap (·.ok) = (logs.take i).flatMap (·.ok)
      ++ (logs[i].ok ++ (logs.drop (i + 1)).flatMap (·.ok)) := by
    rw [← List.flatMap_cons, List.getElem_cons_drop, ← List.flatMap_append,
      List.take_append_drop]
  rw [hsplit] at hok ⊢
  have hbefore : InRange image.length ((logs.take i).flatMap (·.ok)) := fun e he =>
    hok e (List.mem_append_left _ he)
  have hown : InRange image.length logs[i].ok := fun e he =>
    hok e (List.mem_append_right _ (List.mem_append_left _ he))
  have hafter : InRange image.length ((logs.drop (i + 1)).flatMap (·.ok)) := fun e he =>
    hok e (List.mem_append_right _ (List.mem_append_right _ he))
  have hmisses : ∀ {part : List WriterLog} {e : Entry}, (∀ l, l ∈ part → ∃ j, logs[j]? = some l ∧
      j ≠ i) → e ∈ part.flatMap (·.ok) → e.Misses x (x + 1) := by
    intro part e hpart he
    obtain ⟨l, hl, he⟩ := List.mem_flatMap.mp he
    obtain ⟨j, hj, hne⟩ := hpart l hl
    exact hother j l hj hne e he
  have hlen := overwriteAll_length hbefore
  have hlen' : (overwriteAll (overwriteAll image ((logs.take i).flatMap (·.ok))) logs[i].ok).length
      = image.length := by
    rw [overwriteAll_length (hlen.symm ▸ hown), hlen]
  rw [overwriteAll_append, overwriteAll_append,
    getElem?_overwriteAll_of_misses (hlen'.symm ▸ hafter)]
  · refine getElem?_overwriteAll_congr hown hlen ?_
    refine getElem?_overwriteAll_of_misses hbefore fun e he => hmisses ?_ he
    intro l hl
    obtain ⟨j, hj⟩ := List.getElem?_of_mem hl
    have hjlt := (List.getElem?_eq_some_iff.mp hj).1
    rw [List.length_take] at hjlt
    rw [List.getElem?_take_of_lt (by omega)] at hj
    exact ⟨j, hj, by omega⟩
  · intro e he
    refine hmisses ?_ he
    intro l hl
    obtain ⟨j, hj⟩ := List.getElem?_of_mem hl
    rw [List.getElem?_drop] at hj
    exact ⟨_, hj, by omega⟩

/-- Outside the interrupted writes the device holds what the completed writes
leave, replayed one thread after the other. -/
theorem raced_bytes {writers : List Writer} {logs : List WriterLog}
    {events : List (Nat × Entry)} {image : Bytes} (hraced : Raced slice writers logs events)
    (hslice : 4096 ∣ slice) (hpos : 0 < slice) (own : OwnSlices slice writers)
    (hin : writers.length * slice ≤ image.length) :
    InRange image.length (events.map (·.2)) ∧ InRange image.length (logs.flatMap (·.ok)) ∧
      (∀ r, r ∈ logs.flatMap (·.undefined) → 4096 ∣ r.1 ∧ 4096 ∣ r.2 ∧ r.1 + r.2 ≤ image.length) ∧
      ∀ x : Nat, (∀ r, r ∈ logs.flatMap (·.undefined) → ¬ (r.1 ≤ x ∧ x < r.1 + r.2)) →
        (overwriteAll image (events.map (·.2)))[x]?
          = (overwriteAll image (logs.flatMap (·.ok)))[x]? := by
  have hend : ∀ i, i < writers.length → i * slice + slice ≤ image.length := by
    intro i hi
    rw [← Nat.succ_mul]
    exact (Nat.mul_le_mul_right slice hi).trans hin
  -- an event belongs to a thread that has a log
  have hevent : ∀ e, e ∈ events → ∃ w, InSlice slice (e.1 * slice) w ∧ Part 512 w e.2 ∧
      w.stop ≤ image.length := by
    intro e he
    have hmem : e.2 ∈ lane e.1 events :=
      List.mem_map.mpr ⟨e, List.mem_filter.mpr ⟨he, by simp⟩, rfl⟩
    rcases Nat.lt_or_ge e.1 writers.length with hi | hi
    · have hlog := List.getElem?_eq_getElem (l := logs) (i := e.1) (by rw [hraced.1]; exact hi)
      obtain ⟨-, hreplays⟩ := raced_replays hraced hslice hpos own hlog
      obtain ⟨w, hw, hpart⟩ := hreplays.landed e.2 hmem
      exact ⟨w, hw, hpart, hw.hi.trans (hend e.1 hi)⟩
    · rw [hraced.2.2 e.1 hi] at hmem
      cases hmem
  have hevents : InRange image.length (events.map (·.2)) := by
    intro p hp
    obtain ⟨e, he, rfl⟩ := List.mem_map.mp hp
    obtain ⟨w, -, hpart, hstop⟩ := hevent e he
    exact (part_stop hpart).trans hstop
  have hlogs : ∀ log, log ∈ logs → ∃ i : Nat, logs[i]? = some log := by
    intro log hlog
    exact List.getElem?_of_mem hlog
  have hok : InRange image.length (logs.flatMap (·.ok)) := by
    intro e he
    obtain ⟨log, hlog, he⟩ := List.mem_flatMap.mp he
    obtain ⟨i, hi⟩ := hlogs log hlog
    obtain ⟨hlt, hreplays⟩ := raced_replays hraced hslice hpos own hi
    exact (hreplays.ok e he).hi.trans (hend i hlt)
  refine ⟨hevents, hok, ?_, ?_⟩
  · intro r hr
    obtain ⟨log, hlog, hr⟩ := List.mem_flatMap.mp hr
    obtain ⟨i, hi⟩ := hlogs log hlog
    obtain ⟨hlt, hreplays⟩ := raced_replays hraced hslice hpos own hi
    obtain ⟨hoff, hlen, hstop⟩ := hreplays.undefined r hr
    exact ⟨hoff, hlen, hstop.trans (hend i hlt)⟩
  · intro x hx
    rw [getElem?_overwriteAll_lane (i := x / slice) hevents fun e he hne => ?_]
    swap
    · obtain ⟨w, hw, hpart, -⟩ := hevent e he
      exact part_misses hpart (hw.misses (Ne.symm hne))
    show (overwriteAll image (lane (x / slice) events))[x]? = _
    -- the logs of the other threads do not touch the byte
    have hother : ∀ i log, logs[i]? = some log → i ≠ x / slice →
        ∀ e, e ∈ log.ok → e.Misses x (x + 1) := by
      intro i log hlog hne e he
      obtain ⟨-, hreplays⟩ := raced_replays hraced hslice hpos own hlog
      exact (hreplays.ok e he).misses (Ne.symm hne)
    rcases Nat.lt_or_ge (x / slice) logs.length with hi | hi
    · have hlog := List.getElem?_eq_getElem hi
      obtain ⟨hlt, hreplays⟩ := raced_replays hraced hslice hpos own hlog
      have hdefined : ¬ Undefined logs[x / slice] x := by
        intro ⟨r, hr, hin⟩
        exact hx r (List.mem_flatMap.mpr ⟨_, List.getElem_mem hi, hr⟩) hin
      rw [hreplays.bytes image x (hend _ hlt) hdefined]
      exact (getElem?_overwriteAll_own hok hlog hother).symm
    · have hnone : lane (x / slice) events = [] := hraced.2.2 _ (by rw [← hraced.1]; exact hi)
      rw [hnone]
      refine (getElem?_overwriteAll_of_misses hok ?_).symm
      intro e he
      obtain ⟨log, hlog, he⟩ := List.mem_flatMap.mp he
      obtain ⟨i, hilog⟩ := hlogs log hlog
      have hlt := (List.getElem?_eq_some_iff.mp hilog).1
      exact hother i log hilog (by omega) e he

end Chaos

end Ublkera
