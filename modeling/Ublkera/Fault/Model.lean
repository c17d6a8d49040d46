import Ublkera.Lib.Run
import Ublkera.Lib.WriteCache

/-!
# The fault model

`Model` of `ublkfault/src/model.rs`: a committed byte array with a volatile
write cache over it.  All fault decisions come from one generator.  An
operation is `none` where the source panics: a slice out of range, a
`remove(0)` of an empty list, a counter below zero.

`Model.step_spec` is what an operation does to the cache, and
`Model.call_total` says that it returns.  Both need what `serve` checks of
`lbs`: it is not zero.

* `Ublkera.Fault.Refinement`: without a crash the model is a byte array.
* `Ublkera.Fault.Loss`: what a crash can lose.
-/

namespace Ublkera

namespace Fault

open LittleEndian WriteCache Trace

/-! ## Fault decisions -/

structure Rng where
  state : UInt64
  deriving DecidableEq, Repr

namespace Rng

def next (r : Rng) : UInt64 × Rng :=
  let state := r.state + 0x9E3779B97F4A7C15
  let z := (state ^^^ (state >>> 30)) * 0xBF58476D1CE4E5B9
  let z := (z ^^^ (z >>> 27)) * 0x94D049BB133111EB
  (z ^^^ (z >>> 31), { state })

def below (r : Rng) (n : Nat) : Nat × Rng := (r.next.1.toNat % n, r.next.2)

def hit (r : Rng) (pm : UInt32) : Bool × Rng :=
  if 0 < pm then ((r.below 1000).1 < pm.toNat, (r.below 1000).2) else (false, r)

theorem below_lt (r : Rng) {n : Nat} (h : 0 < n) : (r.below n).1 < n := Nat.mod_lt _ h

end Rng

structure Policy where
  errorPm : UInt32 := 0
  flushLiePm : UInt32 := 0
  hangPm : UInt32 := 0
  deriving DecidableEq, Repr

structure Stats where
  reads : Nat := 0
  writes : Nat := 0
  flushes : Nat := 0
  discards : Nat := 0
  errorsInjected : Nat := 0
  flushLies : Nat := 0
  hangs : Nat := 0
  crashes : Nat := 0
  autonomousWritebacks : Nat := 0
  deriving DecidableEq, Repr

structure CrashReport where
  committed : Nat := 0
  dropped : Nat := 0
  torn : Nat := 0
  deriving DecidableEq, Repr

inductive CrashMode where
  | drop
  | seeded
  deriving DecidableEq, Repr

structure Model where
  lbs : Nat
  cacheCap : Nat
  committed : Bytes
  volatile : List Entry
  volatileBytes : Nat
  rng : Rng
  policy : Policy
  stats : Stats
  deriving DecidableEq, Repr

def negEio : Int := -5

/-- `as i32`. -/
def asI32 (n : Nat) : Int := (n : Int).bmod (2 ^ 32)

/-! ## Byte ranges -/

def apply (committed : Bytes) (off : Nat) (data : Bytes) : Option Bytes :=
  if off + data.length ≤ committed.length then some (patch committed off data) else none

/-- `overlay`: the part of `data`, which is at `doff`, that overlaps the
window `out`, which is at `woff`. -/
def overlay (out : Bytes) (woff doff : Nat) (data : Bytes) : Bytes :=
  let wend := woff + out.length
  let dend := doff + data.length
  let start := max woff doff
  let stop := min wend dend
  if stop ≤ start then out
  else patch out (start - woff) (slice data (start - doff) (stop - doff))

/-- `data.chunks(lbs).enumerate()`. -/
def chunks (lbs : Nat) (data : Bytes) : List (Nat × Bytes) :=
  (List.range ((data.length + lbs - 1) / lbs)).map fun i =>
    (i, slice data (i * lbs) (min (i * lbs + lbs) data.length))

namespace Model

def new (size lbs cacheCap : Nat) (seed : UInt64) (policy : Policy) : Model :=
  { lbs, cacheCap, committed := List.replicate size 0, volatile := [], volatileBytes := 0
    rng := { state := seed }, policy, stats := {} }

/-! ## The operations -/

/-- The loop of `push_volatile`, over the entries of `m`. -/
def evict : List Entry → Model → Option Model
  | [], m => if m.cacheCap < m.volatileBytes then none else some m
  | e :: rest, m =>
    if m.cacheCap < m.volatileBytes then
      if m.volatileBytes < e.data.length then none
      else
        match apply m.committed e.off e.data with
        | none => none
        | some committed =>
          evict rest
            { m with
              volatile := rest
              volatileBytes := m.volatileBytes - e.data.length
              committed
              stats.autonomousWritebacks := m.stats.autonomousWritebacks + 1 }
    else some m

def pushVolatile (m : Model) (off : Nat) (data : Bytes) : Option Model :=
  let volatile := m.volatile ++ [⟨off, data⟩]
  evict volatile { m with volatile, volatileBytes := m.volatileBytes + data.length }

def read (m : Model) (off len : Nat) : Option (Bytes × Model) :=
  if off + len ≤ m.committed.length then
    let out := slice m.committed off (off + len)
    some (m.volatile.foldl (fun out e => overlay out off e.off e.data) out,
      { m with stats.reads := m.stats.reads + 1 })
  else none

/-- The count of the written bytes, or a negative errno. -/
def write (m : Model) (off : Nat) (data : Bytes) : Option (Int × Model) :=
  let (error, rng) := m.rng.hit m.policy.errorPm
  let m := { m with rng, stats.writes := m.stats.writes + 1 }
  if error then
    if m.lbs = 0 then none
    else
      let blocks := data.length / m.lbs
      let (n, rng) := m.rng.below (blocks + 1)
      let keep := n * m.lbs
      let m := { m with rng, stats.errorsInjected := m.stats.errorsInjected + 1 }
      if 0 < keep then (m.pushVolatile off (data.take keep)).map (negEio, ·)
      else some (negEio, m)
  else (m.pushVolatile off data).map (asI32 data.length, ·)

def discard (m : Model) (off len : Nat) : Option Model :=
  { m with stats.discards := m.stats.discards + 1 }.pushVolatile off (List.replicate len 0)

/-- The loop of an honest flush. -/
def applyAll : List Entry → Bytes → Option Bytes
  | [], committed => some committed
  | e :: rest, committed =>
    match apply committed e.off e.data with
    | none => none
    | some committed => applyAll rest committed

def flush (m : Model) : Option Model :=
  let (lie, rng) := m.rng.hit m.policy.flushLiePm
  let m := { m with rng, stats.flushes := m.stats.flushes + 1 }
  if lie then some { m with stats.flushLies := m.stats.flushLies + 1 }
  else
    (applyAll m.volatile m.committed).map fun committed =>
      { m with volatile := [], volatileBytes := 0, committed }

/-- The loop over the blocks of a torn entry. -/
def tear (lbs off : Nat) : List (Nat × Bytes) → Bytes → Rng → Option (Bytes × Rng)
  | [], committed, rng => some (committed, rng)
  | (i, block) :: rest, committed, rng =>
    if (rng.below 2).1 = 0 then
      match apply committed (off + i * lbs) block with
      | none => none
      | some committed => tear lbs off rest committed (rng.below 2).2
    else tear lbs off rest committed (rng.below 2).2

/-- What the loop of `crash` changes. -/
structure Crashing where
  committed : Bytes
  rng : Rng
  report : CrashReport

/-- One entry in the loop of `crash`. -/
def crashEntry (lbs : Nat) (mode : CrashMode) (e : Entry) (s : Crashing) : Option Crashing :=
  match mode with
  | .drop => some { s with report.dropped := s.report.dropped + 1 }
  | .seeded =>
    let (roll, rng) := s.rng.below 100
    if roll < 40 then
      (apply s.committed e.off e.data).map fun committed =>
        { committed, rng, report := { s.report with committed := s.report.committed + 1 } }
    else if roll < 70 then some { s with rng, report.dropped := s.report.dropped + 1 }
    else if lbs = 0 then none
    else
      (tear lbs e.off (chunks lbs e.data) s.committed rng).map fun (committed, rng) =>
        { committed, rng, report := { s.report with torn := s.report.torn + 1 } }

def crashLoop (lbs : Nat) (mode : CrashMode) : List Entry → Crashing → Option Crashing
  | [], s => some s
  | e :: rest, s =>
    match crashEntry lbs mode e s with
    | none => none
    | some s => crashLoop lbs mode rest s

def crash (m : Model) (mode : CrashMode) : Option (CrashReport × Model) :=
  (crashLoop m.lbs mode m.volatile { committed := m.committed, rng := m.rng, report := {} }).map
    fun s =>
      (s.report,
        { m with
          volatile := []
          volatileBytes := 0
          committed := s.committed
          rng := s.rng
          stats.crashes := m.stats.crashes + 1 })

/-- The decision of the queue handler to park a request. -/
def hang (m : Model) : Bool × Model :=
  let (hang, rng) := m.rng.hit m.policy.hangPm
  if hang then (true, { m with rng, stats.hangs := m.stats.hangs + 1 }) else (false, { m with rng })

end Model

/-! ## Calls -/

inductive Call where
  | read (off len : Nat)
  | write (off : Nat) (data : Bytes)
  | discard (off len : Nat)
  | flush
  | crash (mode : CrashMode)
  | hang
  /-- The `set` command. -/
  | setPolicy (policy : Policy)
  deriving DecidableEq, Repr

inductive Reply where
  | data (out : Bytes)
  | result (res : Int)
  | report (report : CrashReport)
  | hung (hang : Bool)
  | done
  deriving DecidableEq, Repr

/-- The kernel sends no request past the end of the device. -/
def Call.InRange (size : Nat) : Call → Prop
  | .read off len | .discard off len => off + len ≤ size
  | .write off data => off + data.length ≤ size
  | _ => True

instance (size : Nat) (c : Call) : Decidable (c.InRange size) := by
  cases c <;> unfold Call.InRange <;> infer_instance

def Model.call (m : Model) : Call → Option (Reply × Model)
  | .read off len => (m.read off len).map fun (out, m) => (.data out, m)
  | .write off data => (m.write off data).map fun (res, m) => (.result res, m)
  | .discard off len => (m.discard off len).map (.done, ·)
  | .flush => m.flush.map (.done, ·)
  | .crash mode => (m.crash mode).map fun (report, m) => (.report report, m)
  | .hang => some (.hung m.hang.1, m.hang.2)
  | .setPolicy policy => some (.done, { m with policy })

/-- A call that is in range and returns. -/
structure Step (m : Model) (l : Call × Reply) (m' : Model) : Prop where
  inRange : l.1.InRange m.committed.length
  returns : m.call l.1 = some (l.2, m')

/-! ## What the operations do -/

theorem ran {m m' : Model} (c : Call) (reply : Reply) (inRange : c.InRange m.committed.length)
    (returns : m.call c = some (reply, m')) : Step m (c, reply) m' :=
  ⟨inRange, returns⟩

namespace Model

def cache (m : Model) : Cache := { stable := m.committed, pending := m.volatile }

/-- What a read of the whole device gives. -/
def view (m : Model) : Bytes := m.cache.view

structure Valid (m : Model) : Prop where
  lbs : 0 < m.lbs
  inRange : WriteCache.InRange m.committed.length m.volatile
  counted : m.volatileBytes = bytes m.volatile
  bounded : m.volatileBytes ≤ m.cacheCap

theorem Valid.cache {m : Model} (h : m.Valid) : m.cache.Valid := h.inRange

theorem valid_new {size lbs cacheCap : Nat} {seed : UInt64} {policy : Policy} (h : 0 < lbs) :
    (new size lbs cacheCap seed policy).Valid :=
  ⟨h, nofun, rfl, Nat.zero_le _⟩

theorem apply_eq {committed : Bytes} {e : Entry} (h : e.stop ≤ committed.length) :
    apply committed e.off e.data = some (overwrite committed e) :=
  if_pos h

/-- The eviction loop writes back a prefix of the entries, and stops below
the capacity.  It takes nothing from an empty list, and the counter stays
the sum of the lengths. -/
theorem evict_spec {entries : List Entry} {m : Model}
    (inRange : WriteCache.InRange m.committed.length entries) (volatile : m.volatile = entries)
    (counted : m.volatileBytes = bytes entries) :
    ∃ k, k ≤ entries.length ∧ bytes (entries.drop k) ≤ m.cacheCap ∧
      evict entries m = some
        { m with
          volatile := entries.drop k
          volatileBytes := bytes (entries.drop k)
          committed := overwriteAll m.committed (entries.take k)
          stats.autonomousWritebacks := m.stats.autonomousWritebacks + k } := by
  induction entries generalizing m with
  | nil =>
    refine ⟨0, Nat.le_refl _, Nat.zero_le _, ?_⟩
    have hcap : ¬ m.cacheCap < m.volatileBytes := by
      rw [counted]
      exact Nat.not_lt_zero _
    rw [evict, if_neg hcap]
    cases m
    simp_all
  | cons e rest ih =>
    by_cases hcap : m.cacheCap < m.volatileBytes
    · have he := inRange e List.mem_cons_self
      have hlen := overwrite_length he
      rw [bytes_cons] at counted
      obtain ⟨k, hk, hbytes, hevict⟩ := ih
        (m := { m with
          volatile := rest
          volatileBytes := m.volatileBytes - e.data.length
          committed := overwrite m.committed e
          stats.autonomousWritebacks := m.stats.autonomousWritebacks + 1 })
        (by
          show WriteCache.InRange (overwrite m.committed e).length rest
          rw [hlen]
          exact fun e' he' => inRange e' (List.mem_cons_of_mem _ he'))
        rfl
        (by
          show m.volatileBytes - e.data.length = _
          omega)
      refine ⟨k + 1, Nat.succ_le_succ hk, hbytes, ?_⟩
      rw [evict, if_pos hcap, if_neg (by omega), apply_eq he]
      simp only [hevict, List.take_succ_cons, List.drop_succ_cons, overwriteAll_cons,
        Nat.add_assoc, Nat.add_comm 1 k]
    · refine ⟨0, Nat.zero_le _, ?_, ?_⟩
      · rw [List.drop_zero, ← counted]
        exact Nat.le_of_not_lt hcap
      · rw [evict, if_neg hcap]
        cases m
        simp_all

/-- Nothing is written back while the cache has room. -/
theorem evict_fits {entries : List Entry} {m : Model} (h : m.volatileBytes ≤ m.cacheCap) :
    evict entries m = some m := by
  cases entries with
  | nil => exact if_neg (Nat.not_lt.mpr h)
  | cons e rest => exact if_neg (Nat.not_lt.mpr h)

/-- The fields that the cache does not use may change. -/
theorem Valid.congr {m m' : Model} (h : m.Valid) (hlbs : m'.lbs = m.lbs)
    (hcap : m'.cacheCap = m.cacheCap) (hcommitted : m'.committed = m.committed)
    (hvolatile : m'.volatile = m.volatile) (hbytes : m'.volatileBytes = m.volatileBytes) :
    m'.Valid := by
  obtain ⟨h1, h2, h3, h4⟩ := h
  exact ⟨hlbs ▸ h1, by rw [hcommitted, hvolatile]; exact h2, by rw [hbytes, hvolatile]; exact h3,
    by rw [hbytes, hcap]; exact h4⟩

/-- The step of the cache that takes `m` to `m'`. -/
structure Effect (m : Model) (ev : Event) (m' : Model) : Prop where
  lbs : m'.lbs = m.lbs
  cacheCap : m'.cacheCap = m.cacheCap
  policy : m'.policy = m.policy
  valid : m'.Valid
  step : Cache.Step m.lbs m.cache ev m'.cache

/-- The fields that the cache does not use do not matter. -/
theorem Effect.congr {m m₀ m' : Model} {ev : Event} (h : Effect m ev m') (hlbs : m.lbs = m₀.lbs)
    (hcap : m.cacheCap = m₀.cacheCap) (hpolicy : m.policy = m₀.policy)
    (hcommitted : m.committed = m₀.committed) (hvolatile : m.volatile = m₀.volatile) :
    Effect m₀ ev m' := by
  have hcache : m.cache = m₀.cache := by
    rw [cache, cache, hcommitted, hvolatile]
  refine ⟨h.lbs.trans hlbs, h.cacheCap.trans hcap, h.policy.trans hpolicy, h.valid, ?_⟩
  rw [← hlbs, ← hcache]
  exact h.step

/-- Nothing happens to the cache. -/
theorem effect_keep {m m' : Model} (h : m.Valid) (hlbs : m'.lbs = m.lbs)
    (hcap : m'.cacheCap = m.cacheCap) (hpolicy : m'.policy = m.policy)
    (hcommitted : m'.committed = m.committed) (hvolatile : m'.volatile = m.volatile)
    (hbytes : m'.volatileBytes = m.volatileBytes) : Effect m .keep m' := by
  have hcache : m'.cache = m.cache := by
    rw [cache, cache, hcommitted, hvolatile]
  refine ⟨hlbs, hcap, hpolicy, h.congr hlbs hcap hcommitted hvolatile hbytes, ?_⟩
  rw [hcache]
  exact .keep

theorem pushVolatile_spec {m : Model} (h : m.Valid) (off : Nat) (data : Bytes)
    (inRange : off + data.length ≤ m.committed.length) :
    ∃ m', m.pushVolatile off data = some m' ∧ Effect m (.push ⟨off, data⟩) m' := by
  have hin : WriteCache.InRange m.committed.length (m.volatile ++ [⟨off, data⟩]) :=
    h.inRange.append (inRange_singleton inRange)
  obtain ⟨k, -, hbytes, hevict⟩ := evict_spec
    (m := { m with
      volatile := m.volatile ++ [⟨off, data⟩]
      volatileBytes := m.volatileBytes + data.length }) hin rfl
    (by
      show m.volatileBytes + data.length = _
      rw [h.counted, bytes_append]
      rfl)
  refine ⟨_, hevict, rfl, rfl, rfl, ⟨h.lbs, ?_, rfl, hbytes⟩, .push inRange⟩
  show WriteCache.InRange (overwriteAll m.committed _).length _
  rw [overwriteAll_length (hin.subset fun e he => List.mem_of_mem_take he)]
  exact hin.subset fun e he => List.mem_of_mem_drop he

theorem applyAll_eq {entries : List Entry} {committed : Bytes}
    (inRange : WriteCache.InRange committed.length entries) :
    applyAll entries committed = some (overwriteAll committed entries) := by
  induction entries generalizing committed with
  | nil => rfl
  | cons e rest ih =>
    have he := inRange e List.mem_cons_self
    rw [applyAll, apply_eq he]
    refine ih ?_
    rw [overwrite_length he]
    exact fun e' he' => inRange e' (List.mem_cons_of_mem _ he')

/-! ### Crashes -/

/-- The blocks of an entry are parts of it. -/
theorem part_of_mem_chunks {lbs : Nat} (hlbs : 0 < lbs) {e : Entry} {c : Nat × Bytes}
    (h : c ∈ chunks lbs e.data) : Part lbs e { off := e.off + c.1 * lbs, data := c.2 } := by
  obtain ⟨i, hi, rfl⟩ := List.mem_map.mp h
  rw [List.mem_range, Nat.lt_div_iff_mul_lt hlbs] at hi
  have hcomm := Nat.mul_comm i lbs
  have hlt : i * lbs < e.data.length := by omega
  refine ⟨i * lbs, min (i * lbs + lbs) e.data.length, by omega, Nat.min_le_right _ _,
    Nat.dvd_mul_left lbs i, ?_, rfl⟩
  rcases Nat.le_total (i * lbs + lbs) e.data.length with hle | hle
  · rw [Nat.min_eq_left hle]
    exact Or.inl (Nat.dvd_add (Nat.dvd_mul_left lbs i) (Nat.dvd_refl lbs))
  · exact Or.inr (Nat.min_eq_right hle)

/-- A torn entry persists as some of its blocks. -/
theorem tear_spec {lbs : Nat} {e : Entry} {blocks : List (Nat × Bytes)} {committed : Bytes}
    (rng : Rng) (he : e.stop ≤ committed.length)
    (hparts : ∀ c, c ∈ blocks → Part lbs e { off := e.off + c.1 * lbs, data := c.2 }) :
    ∃ parts rng', tear lbs e.off blocks committed rng = some (overwriteAll committed parts, rng') ∧
      ∀ p, p ∈ parts → Part lbs e p := by
  induction blocks generalizing committed rng with
  | nil => exact ⟨[], rng, rfl, nofun⟩
  | cons c rest ih =>
    obtain ⟨i, block⟩ := c
    have hrest : ∀ c, c ∈ rest → Part lbs e { off := e.off + c.1 * lbs, data := c.2 } :=
      fun c hc => hparts c (List.mem_cons_of_mem _ hc)
    have hpart := hparts _ List.mem_cons_self
    have hin := (part_stop hpart).trans he
    by_cases hcoin : (rng.below 2).1 = 0
    · have hlen := overwrite_length hin
      obtain ⟨parts, rng', htear, hall⟩ :=
        ih (rng.below 2).2 (by rw [hlen]; exact he) hrest
      refine ⟨⟨e.off + i * lbs, block⟩ :: parts, rng', ?_, ?_⟩
      · rw [tear, if_pos hcoin, apply_eq (e := ⟨e.off + i * lbs, block⟩) hin]
        exact htear
      · intro p hp
        rcases List.mem_cons.mp hp with rfl | hp
        · exact hpart
        · exact hall p hp
    · obtain ⟨parts, rng', htear, hall⟩ := ih (rng.below 2).2 he hrest
      exact ⟨parts, rng', by rw [tear, if_neg hcoin]; exact htear, hall⟩

/-- An entry is a part of itself. -/
theorem part_self (lbs : Nat) (e : Entry) : Part lbs e e :=
  ⟨0, e.data.length, Nat.zero_le _, Nat.le_refl _, Nat.dvd_zero lbs, Or.inr rfl, by
    rw [slice_self e.data rfl]
    rfl⟩

theorem crashEntry_spec {lbs : Nat} (hlbs : 0 < lbs) (mode : CrashMode) {e : Entry}
    {s : Crashing} (he : e.stop ≤ s.committed.length) :
    ∃ parts s', crashEntry lbs mode e s = some s' ∧
      s'.committed = overwriteAll s.committed parts ∧ (∀ p, p ∈ parts → Part lbs e p) ∧
      (mode = .drop → parts = []) := by
  cases mode with
  | drop => exact ⟨[], _, rfl, rfl, nofun, fun _ => rfl⟩
  | seeded =>
    simp only [crashEntry]
    by_cases hcommit : (s.rng.below 100).1 < 40
    · rw [if_pos hcommit, apply_eq he]
      refine ⟨[e], _, rfl, rfl, ?_, nofun⟩
      intro p hp
      rw [List.mem_singleton.mp hp]
      exact part_self lbs e
    · rw [if_neg hcommit]
      by_cases hdrop : (s.rng.below 100).1 < 70
      · rw [if_pos hdrop]
        exact ⟨[], _, rfl, rfl, nofun, nofun⟩
      · obtain ⟨parts, rng', htear, hall⟩ := tear_spec (s.rng.below 100).2 he
          fun c hc => part_of_mem_chunks hlbs hc
        rw [if_neg hdrop, if_neg (Nat.ne_of_gt hlbs), htear]
        exact ⟨parts, _, rfl, rfl, hall, nofun⟩

theorem crashLoop_spec {lbs : Nat} (hlbs : 0 < lbs) (mode : CrashMode) {entries : List Entry}
    {s : Crashing} (inRange : WriteCache.InRange s.committed.length entries) :
    ∃ parts s', crashLoop lbs mode entries s = some s' ∧
      s'.committed = overwriteAll s.committed parts ∧
      (∀ p, p ∈ parts → ∃ e, e ∈ entries ∧ Part lbs e p) ∧ (mode = .drop → parts = []) := by
  induction entries generalizing s with
  | nil => exact ⟨[], s, rfl, rfl, nofun, fun _ => rfl⟩
  | cons e rest ih =>
    have he := inRange e List.mem_cons_self
    obtain ⟨parts, s', hentry, hcommitted, hparts, hdrop⟩ := crashEntry_spec hlbs mode he
    have hlen : s'.committed.length = s.committed.length := by
      rw [hcommitted]
      exact overwriteAll_length fun p hp => (part_stop (hparts p hp)).trans he
    obtain ⟨parts', s'', hloop, hcommitted', hparts', hdrop'⟩ := ih (s := s')
      (by
        rw [hlen]
        exact fun e' he' => inRange e' (List.mem_cons_of_mem _ he'))
    refine ⟨parts ++ parts', s'', ?_, ?_, ?_, ?_⟩
    · rw [crashLoop, hentry]
      exact hloop
    · rw [hcommitted', hcommitted, overwriteAll_append]
    · intro p hp
      rcases List.mem_append.mp hp with hp | hp
      · exact ⟨e, List.mem_cons_self, hparts p hp⟩
      · obtain ⟨e', he', hpart⟩ := hparts' p hp
        exact ⟨e', List.mem_cons_of_mem _ he', hpart⟩
    · intro hmode
      rw [hdrop hmode, hdrop' hmode]
      rfl

/-! ### The event of a call -/

/-- How many bytes of an errored write of `len` bytes enter the cache. -/
def keeps (m : Model) (len : Nat) : Nat :=
  ((m.rng.hit m.policy.errorPm).2.below (len / m.lbs + 1)).1 * m.lbs

/-- What enters the cache of the data of a write. -/
def entered (m : Model) (data : Bytes) : Option Bytes :=
  if (m.rng.hit m.policy.errorPm).1 then
    if 0 < m.keeps data.length then some (data.take (m.keeps data.length)) else none
  else some data

/-- A flush does nothing. -/
def lies (m : Model) : Bool := (m.rng.hit m.policy.flushLiePm).1

def enters (off : Nat) : Option Bytes → Event
  | some data => .push ⟨off, data⟩
  | none => .keep

/-- What a call does to the cache. -/
def Does (m : Model) : Call → Event → Prop
  | .write off data, ev => ev = enters off (m.entered data)
  | .discard off len, ev => ev = .push ⟨off, List.replicate len 0⟩
  | .flush, ev => ev = if m.lies then .keep else .drain
  | .crash mode, ev => ∃ parts, ev = .lose parts ∧ (mode = .drop → parts = [])
  | .read _ _, ev | .hang, ev | .setPolicy _, ev => ev = .keep

theorem keeps_le {m : Model} (h : 0 < m.lbs) (len : Nat) :
    ∃ n, m.keeps len = n * m.lbs ∧ n * m.lbs ≤ len := by
  have hlt := (m.rng.hit m.policy.errorPm).2.below_lt (Nat.succ_pos (len / m.lbs))
  refine ⟨_, rfl, ?_⟩
  rw [← Nat.le_div_iff_mul_le h]
  exact Nat.le_of_lt_succ hlt

/-- A write that is not errored. -/
theorem write_ok {m : Model} (h : m.Valid) {off : Nat} {data : Bytes}
    (inRange : off + data.length ≤ m.committed.length)
    (ok : (m.rng.hit m.policy.errorPm).1 = false) :
    ∃ m', m.write off data = some (asI32 data.length, m') ∧
      Effect m (enters off (m.entered data)) m' ∧ m.entered data = some data := by
  have hentered : m.entered data = some data := by simp [entered, ok]
  obtain ⟨m', hpush, heffect⟩ := pushVolatile_spec
    (m := { m with
      rng := (m.rng.hit m.policy.errorPm).2, stats.writes := m.stats.writes + 1 })
    (h.congr rfl rfl rfl rfl rfl) off data inRange
  refine ⟨m', ?_, ?_, hentered⟩
  · simp only [write, ok, Bool.false_eq_true, if_false, hpush, Option.map_some]
  · rw [hentered]
    exact heffect.congr rfl rfl rfl rfl rfl

/-- An errored write: a prefix of whole blocks enters the cache. -/
theorem write_errored {m : Model} (h : m.Valid) {off : Nat} {data : Bytes}
    (inRange : off + data.length ≤ m.committed.length)
    (errored : (m.rng.hit m.policy.errorPm).1 = true) :
    ∃ m', m.write off data = some (negEio, m') ∧ Effect m (enters off (m.entered data)) m' ∧
      m.entered data
        = if 0 < m.keeps data.length then some (data.take (m.keeps data.length)) else none := by
  have hentered : m.entered data
      = if 0 < m.keeps data.length then some (data.take (m.keeps data.length)) else none := by
    simp [entered, errored]
  have hlbs : m.lbs ≠ 0 := Nat.ne_of_gt h.lbs
  have hkeeps : ((m.rng.hit m.policy.errorPm).2.below (data.length / m.lbs + 1)).1 * m.lbs
      = m.keeps data.length := rfl
  obtain ⟨n, hn, hle⟩ := keeps_le h.lbs data.length
  by_cases hkeep : 0 < m.keeps data.length
  · have hlen : (data.take (m.keeps data.length)).length = n * m.lbs := by
      rw [List.length_take, hn, Nat.min_eq_left hle]
    obtain ⟨m', hpush, heffect⟩ := pushVolatile_spec
      (m := { m with
        rng := ((m.rng.hit m.policy.errorPm).2.below (data.length / m.lbs + 1)).2
        stats.writes := m.stats.writes + 1
        stats.errorsInjected := m.stats.errorsInjected + 1 })
      (h.congr rfl rfl rfl rfl rfl) off (data.take (m.keeps data.length)) (by
        rw [hlen]
        show off + n * m.lbs ≤ m.committed.length
        omega)
    refine ⟨m', ?_, ?_, hentered⟩
    · simp only [write, errored, if_true, if_neg hlbs, hkeeps, if_pos hkeep, hpush,
        Option.map_some]
    · rw [hentered, if_pos hkeep]
      exact heffect.congr rfl rfl rfl rfl rfl
  · refine ⟨{ m with
      rng := ((m.rng.hit m.policy.errorPm).2.below (data.length / m.lbs + 1)).2
      stats.writes := m.stats.writes + 1
      stats.errorsInjected := m.stats.errorsInjected + 1 }, ?_, ?_, hentered⟩
    · simp only [write, errored, if_true, if_neg hlbs, hkeeps, if_neg hkeep]
    · rw [hentered, if_neg hkeep]
      exact effect_keep h rfl rfl rfl rfl rfl rfl

theorem flush_spec {m : Model} (h : m.Valid) :
    ∃ m', m.flush = some m' ∧ Effect m (if m.lies then .keep else .drain) m' := by
  cases hlie : m.lies with
  | true =>
    refine ⟨{ m with
      rng := (m.rng.hit m.policy.flushLiePm).2
      stats.flushes := m.stats.flushes + 1
      stats.flushLies := m.stats.flushLies + 1 }, if_pos hlie, ?_⟩
    exact effect_keep h rfl rfl rfl rfl rfl rfl
  | false =>
    refine ⟨{ m with
      rng := (m.rng.hit m.policy.flushLiePm).2
      stats.flushes := m.stats.flushes + 1
      volatile := []
      volatileBytes := 0
      committed := m.view }, ?_, ?_⟩
    · have hlie' : (m.rng.hit m.policy.flushLiePm).1 = false := hlie
      simp only [flush, hlie', Bool.false_eq_true, if_false, applyAll_eq h.inRange,
        Option.map_some]
      rfl
    · have hvalid : Valid { m with
          rng := (m.rng.hit m.policy.flushLiePm).2
          stats.flushes := m.stats.flushes + 1
          volatile := []
          volatileBytes := 0
          committed := m.view } :=
        ⟨h.lbs, fun e he => (List.not_mem_nil he).elim, rfl, Nat.zero_le _⟩
      exact ⟨rfl, rfl, rfl, hvalid, .drain⟩

theorem crash_spec {m : Model} (h : m.Valid) (mode : CrashMode) :
    ∃ report m' parts, m.crash mode = some (report, m') ∧ Effect m (.lose parts) m' ∧
      (mode = .drop → parts = []) := by
  obtain ⟨parts, s, hloop, hcommitted, hparts, hdrop⟩ := crashLoop_spec h.lbs mode
    (s := { committed := m.committed, rng := m.rng, report := {} }) h.inRange
  have hvalid : Valid { m with
      volatile := []
      volatileBytes := 0
      committed := s.committed
      rng := s.rng
      stats.crashes := m.stats.crashes + 1 } :=
    ⟨h.lbs, fun e he => (List.not_mem_nil he).elim, rfl, Nat.zero_le _⟩
  have hstep : Cache.Step m.lbs m.cache (.lose parts)
      { stable := s.committed, pending := [] } := by
    rw [hcommitted]
    exact .lose hparts
  refine ⟨s.report, _, parts, ?_, ⟨?_, ?_, ?_, hvalid, hstep⟩, hdrop⟩
  · rw [crash, hloop]
    rfl
  · rfl
  · rfl
  · rfl

/-- What a call does to the cache. -/
structure Stepped (m : Model) (c : Call) (ev : Event) (m' : Model) : Prop where
  does : m.Does c ev
  valid : m'.Valid
  lbs : m'.lbs = m.lbs
  cacheCap : m'.cacheCap = m.cacheCap
  policy : (∀ policy, c ≠ .setPolicy policy) → m'.policy = m.policy
  step : Cache.Step m.lbs m.cache ev m'.cache

theorem Effect.stepped {m m' : Model} {c : Call} {ev : Event} (h : Effect m ev m')
    (hdoes : m.Does c ev) : Stepped m c ev m' :=
  ⟨hdoes, h.valid, h.lbs, h.cacheCap, fun _ => h.policy, h.step⟩

/-- Every call in range returns, and does to the cache what `Does` says. -/
theorem call_total {m : Model} (h : m.Valid) {c : Call} (inRange : c.InRange m.committed.length) :
    ∃ reply m' ev, m.call c = some (reply, m') ∧ Stepped m c ev m' := by
  cases c with
  | read off len =>
    have heffect : Effect m .keep { m with stats.reads := m.stats.reads + 1 } :=
      effect_keep h rfl rfl rfl rfl rfl rfl
    have hread : m.read off len = some
        (m.volatile.foldl (fun out e => overlay out off e.off e.data)
          (slice m.committed off (off + len)), { m with stats.reads := m.stats.reads + 1 }) :=
      if_pos inRange
    exact ⟨.data _, _, .keep, congrArg (Option.map _) hread, heffect.stepped rfl⟩
  | write off data =>
    cases herror : (m.rng.hit m.policy.errorPm).1 with
    | false =>
      obtain ⟨m', hwrite, heffect, -⟩ := write_ok h inRange herror
      refine ⟨.result (asI32 data.length), m', _, ?_, heffect.stepped rfl⟩
      show (m.write off data).map _ = _
      rw [hwrite]
      rfl
    | true =>
      obtain ⟨m', hwrite, heffect, -⟩ := write_errored h inRange herror
      refine ⟨.result negEio, m', _, ?_, heffect.stepped rfl⟩
      show (m.write off data).map _ = _
      rw [hwrite]
      rfl
  | discard off len =>
    have hlen : off + (List.replicate len (0 : UInt8)).length ≤ m.committed.length := by
      rw [List.length_replicate]
      exact inRange
    obtain ⟨m', hpush, heffect⟩ := pushVolatile_spec
      (m := { m with stats.discards := m.stats.discards + 1 })
      (h.congr rfl rfl rfl rfl rfl) off _ hlen
    have heffect' : Effect m (.push ⟨off, List.replicate len 0⟩) m' :=
      heffect.congr rfl rfl rfl rfl rfl
    refine ⟨.done, m', _, ?_, heffect'.stepped rfl⟩
    show (m.discard off len).map _ = _
    rw [discard, hpush]
    rfl
  | flush =>
    obtain ⟨m', hflush, heffect⟩ := flush_spec h
    refine ⟨.done, m', _, ?_, heffect.stepped rfl⟩
    show m.flush.map _ = _
    rw [hflush]
    rfl
  | crash mode =>
    obtain ⟨report, m', parts, hcrash, heffect, hdrop⟩ := crash_spec h mode
    refine ⟨.report report, m', .lose parts, ?_, heffect.stepped ⟨parts, rfl, hdrop⟩⟩
    show (m.crash mode).map _ = _
    rw [hcrash]
    rfl
  | hang =>
    refine ⟨.hung m.hang.1, m.hang.2, .keep, rfl, Effect.stepped ?_ rfl⟩
    cases hhang : (m.rng.hit m.policy.hangPm).1 with
    | true | false =>
      simp only [hang, hhang, Bool.false_eq_true, if_true, if_false]
      exact effect_keep h rfl rfl rfl rfl rfl rfl
  | setPolicy policy =>
    exact ⟨.done, { m with policy }, .keep, rfl, rfl, h.congr rfl rfl rfl rfl rfl, rfl, rfl,
      fun hne => (hne policy rfl).elim, .keep⟩

theorem step_spec {m m' : Model} {l : Call × Reply} (h : m.Valid) (hs : Step m l m') :
    ∃ ev, Stepped m l.1 ev m' := by
  obtain ⟨reply, m'', ev, hcall, hstepped⟩ := call_total h hs.inRange
  rw [hs.returns] at hcall
  obtain ⟨-, rfl⟩ := Prod.mk.inj (Option.some.inj hcall)
  exact ⟨ev, hstepped⟩

/-- A valid model of a device of `size` bytes. -/
structure Sized (size lbs cacheCap : Nat) (m : Model) : Prop where
  valid : m.Valid
  size : m.committed.length = size
  lbs : m.lbs = lbs
  cacheCap : m.cacheCap = cacheCap

theorem sized_new {size lbs cacheCap : Nat} {seed : UInt64} {policy : Policy} (h : 0 < lbs) :
    (new size lbs cacheCap seed policy).Sized size lbs cacheCap :=
  ⟨valid_new h, List.length_replicate, rfl, rfl⟩

theorem Sized.step {size lbs cacheCap : Nat} {m m' : Model} {l : Call × Reply}
    (h : m.Sized size lbs cacheCap) (hs : Step m l m') : m'.Sized size lbs cacheCap := by
  obtain ⟨ev, hstepped⟩ := step_spec h.valid hs
  exact ⟨hstepped.valid, (hstepped.step.length h.valid.cache).trans h.size,
    hstepped.lbs.trans h.lbs, hstepped.cacheCap.trans h.cacheCap⟩

end Model

end Fault

end Ublkera
