import Ublkera.Fault.Control
import Ublkera.Fault.Perform
import Ublkera.Fault.Refinement
import Ublkera.Scenario.Exec

/-!
# A scenario on the fault device

The runner of `Ublkera.Scenario.Exec` against a fault device: the device file
is the device itself, and the control socket is the one of its `serve`.

The kernel cuts a system call into requests of whole blocks, in any way and in
any order, and sends no byte twice.  A write succeeds when all its requests
do, and a failed one may have sent any of them.  The request of a control
command is handled by `handle_ctl` at once.  What a shell command does is a
parameter.

The lemmas say what one system call does to the cache of the model:
`Written.view`, `Sent.blocks`, `Sent.durable` and `Sent.room` for a write,
`ReadDone.data` for a read, and `serve_flush` for a FLUSH.
-/

namespace Ublkera

namespace Scenario

open LittleEndian WriteCache Fault Effect

/-! ## Requests -/

/-- A request that the queue thread does not park. -/
def serve (m : Model) (op : FaultOp) (off len : Nat) (buf : Bytes) : Option (Int × Bytes × Model) :=
  if m.hang.1 then none else perform m.hang.2 op off len buf

/-- The requests of a write, with their results. -/
inductive WriteRequests : Model → List Entry → List Int → Model → Prop where
  | nil {m : Model} : WriteRequests m [] [] m
  | cons {m m' m'' : Model} {e : Entry} {pieces : List Entry} {res : Int} {results : List Int}
      {buf : Bytes}
      (first : serve m .write e.off e.data.length e.data = some (res, buf, m'))
      (rest : WriteRequests m' pieces results m'') : WriteRequests m (e :: pieces) (res :: results) m''

/-- The requests of a read; the data of a piece is what came back for it. -/
inductive ReadRequests : Model → List Entry → Model → Prop where
  | nil {m : Model} : ReadRequests m [] m
  | cons {m m' m'' : Model} {e : Entry} {pieces : List Entry} {buf : Bytes}
      (first : serve m .read e.off e.data.length buf = some (asI32 e.data.length, e.data, m'))
      (rest : ReadRequests m' pieces m'') : ReadRequests m (e :: pieces) m''

/-- What the kernel takes for a device opened with `O_DIRECT`. -/
structure Taken (m : Model) (e : Entry) : Prop where
  aligned : WriteCache.Aligned m.lbs e
  inRange : e.stop ≤ m.committed.length

/-- `io_buf_bytes`, and `max_sectors` with it. -/
def ioBufBytes : Nat := 512 * 1024

/-- Pieces of whole blocks, with no byte twice. -/
structure Cut (block : Nat) (e : Entry) (pieces : List Entry) : Prop where
  parts : ∀ p, p ∈ pieces → Part block e p
  once : bytes pieces ≤ e.data.length
  small : ∀ p, p ∈ pieces → p.data.length ≤ ioBufBytes

/-- Every byte is in a piece. -/
def Filled (e : Entry) (pieces : List Entry) : Prop :=
  ∀ x, e.off ≤ x → x < e.stop → ∃ p, p ∈ pieces ∧ p.off ≤ x ∧ x < p.stop

/-! ## The world -/

/-- `write_all_at` has returned `Ok`. -/
def Written (s : Shared) (e : Entry) (t : Shared) : Prop :=
  ∃ pieces results, Taken s.model e ∧ Cut s.model.lbs e pieces ∧ Filled e pieces ∧
    WriteRequests s.model pieces results t.model ∧ (∀ res, res ∈ results → 0 ≤ res) ∧
    t = { s with model := t.model }

/-- `write_all_at` has returned an error. -/
def WriteFailed (s : Shared) (e : Entry) (t : Shared) : Prop :=
  ∃ pieces results, Cut s.model.lbs e pieces ∧
    (∀ p, p ∈ pieces → p.stop ≤ s.model.committed.length) ∧
    WriteRequests s.model pieces results t.model ∧
    (¬ Taken s.model e ∨ ∃ res, res ∈ results ∧ res < 0) ∧ t = { s with model := t.model }

/-- `read_exact_at` has filled the buffer. -/
def ReadDone (s : Shared) (e : Entry) (t : Shared) : Prop :=
  ∃ pieces, Taken s.model e ∧ Cut s.model.lbs e pieces ∧ Filled e pieces ∧
    ReadRequests s.model pieces t.model ∧ t = { s with model := t.model }

/-- `read_exact_at` has returned an error: no read is errored, so the request
is not one for the device. -/
def ReadFailed (s : Shared) (e : Entry) (t : Shared) : Prop :=
  ∃ pieces, ¬ Taken s.model e ∧ (∀ p, p ∈ pieces → p.stop ≤ s.model.committed.length) ∧
    ReadRequests s.model pieces t.model ∧ t = { s with model := t.model }

/-- The world of the runner.  A system call that the device never answers has
no answer here either. -/
def direct (shellRun : Shared → String → Option Int → Shared → Prop) :
    Handler Shared Syscall Syscall.Answer
  | s, .writeAllAt off data, .ok (), t => Written s ⟨off.toNat, data⟩ t
  | s, .writeAllAt off data, .error _, t => WriteFailed s ⟨off.toNat, data⟩ t
  | s, .readExactAt off len, .ok out, t => out.length = len ∧ ReadDone s ⟨off.toNat, out⟩ t
  | s, .readExactAt off len, .error _, t => ReadFailed s ⟨off.toNat, List.replicate len 0⟩ t
  | s, .syncAll, .ok (), t =>
    ∃ buf, serve s.model .flush 0 0 buf = some (0, buf, t.model) ∧ t = { s with model := t.model }
  | _, .syncAll, .error _, _ => False
  | s, .request req, .ok resp, t => handleCtl (fun _ => .ok req) s "" = some (resp, t)
  | _, .request _, .error _, _ => False
  | s, .sleep _, (), t => t = s
  | s, .shell cmd, .ok code, t => shellRun s cmd code t
  | _, .shell _, .error _, _ => False

/-! ## One request -/

/-- A roll for a park touches the generator and a counter. -/
theorem hang_eq (m : Model) : ∃ rng stats, m.hang.2 = { m with rng, stats } := by
  refine ⟨m.hang.2.rng, m.hang.2.stats, ?_⟩
  unfold Model.hang
  simp only
  split <;> rfl

theorem hang_cache (m : Model) : m.hang.2.cache = m.cache := by
  rcases hang_eq m with ⟨rng, stats, h⟩
  rw [h]
  rfl

theorem hang_policy (m : Model) : m.hang.2.policy = m.policy := by
  rcases hang_eq m with ⟨rng, stats, h⟩
  rw [h]

variable {size lbs cacheCap : Nat}

theorem sized_hang {m : Model} (h : m.Sized size lbs cacheCap) :
    m.hang.2.Sized size lbs cacheCap := by
  have hstep : Fault.Step m (.hang, .hung m.hang.1) m.hang.2 := ran _ _ trivial rfl
  exact h.step hstep

theorem serve_eq {m : Model} {op : FaultOp} {off len : Nat} {buf : Bytes}
    {served : Int × Bytes × Model} (h : serve m op off len buf = some served) :
    perform m.hang.2 op off len buf = some served := by
  unfold serve at h
  split at h
  · cases h
  · exact h

/-- 1000 per mill is always. -/
theorem hit_always (r : Rng) : (r.hit 1000).1 = true := by
  have hlt := r.below_lt (n := 1000) (by decide)
  have hthousand : (1000 : UInt32).toNat = 1000 := rfl
  simp [Rng.hit, hthousand, hlt]

theorem hit_never (r : Rng) : (r.hit 0).1 = false := rfl

/-- What an errored write leaves in the cache is a part of it. -/
theorem entered_part {m : Model} (h : m.Valid) (off : Nat) (data : Bytes) {kept : Bytes}
    (hkept : m.entered data = some kept) : Part m.lbs ⟨off, data⟩ ⟨off, kept⟩ := by
  unfold Model.entered at hkept
  split at hkept
  · split at hkept
    · rcases Model.keeps_le h.lbs data.length with ⟨n, hn, hle⟩
      rw [hn, Option.some.injEq] at hkept
      subst hkept
      refine ⟨0, n * m.lbs, Nat.zero_le _, hle, Nat.dvd_zero _, Or.inl (Nat.dvd_mul_left _ _), ?_⟩
      simp [slice]
    · cases hkept
  · rw [Option.some.injEq] at hkept
    subst hkept
    exact Model.part_self m.lbs ⟨off, data⟩

/-- Nothing is written back while there is room for the new entry. -/
theorem pushVolatile_room {m m' : Model} {off : Nat} {data : Bytes}
    (h : m.pushVolatile off data = some m') (room : m.volatileBytes + data.length ≤ m.cacheCap) :
    m'.committed = m.committed ∧ m'.volatileBytes = m.volatileBytes + data.length := by
  unfold Model.pushVolatile at h
  rw [Model.evict_fits room, Option.some.injEq] at h
  subst h
  exact ⟨rfl, rfl⟩

theorem write_room {m m' : Model} {off : Nat} {data : Bytes} {res : Int}
    (h : m.write off data = some (res, m')) (room : m.volatileBytes + data.length ≤ m.cacheCap) :
    m'.committed = m.committed ∧ m'.volatileBytes ≤ m.volatileBytes + data.length := by
  unfold Model.write at h
  simp only at h
  split at h
  · split at h
    · cases h
    · split at h
      · rw [Option.map_eq_some_iff] at h
        rcases h with ⟨m₁, hpush, heq⟩
        obtain rfl : m₁ = m' := (Prod.mk.inj heq).2
        have hle : (data.take (((m.rng.hit m.policy.errorPm).2.below
            (data.length / m.lbs + 1)).1 * m.lbs)).length ≤ data.length := List.length_take_le' ..
        have hpushed := pushVolatile_room hpush (by
          show m.volatileBytes + _ ≤ m.cacheCap
          omega)
        refine ⟨hpushed.1, ?_⟩
        rw [hpushed.2]
        show m.volatileBytes + _ ≤ _
        omega
      · rw [Option.some.injEq, Prod.mk.injEq] at h
        rcases h with ⟨-, rfl⟩
        exact ⟨rfl, Nat.le_add_right _ _⟩
  · rw [Option.map_eq_some_iff] at h
    rcases h with ⟨m₁, hpush, heq⟩
    obtain rfl : m₁ = m' := (Prod.mk.inj heq).2
    have hpushed := pushVolatile_room hpush room
    exact ⟨hpushed.1, Nat.le_of_eq hpushed.2⟩

/-- A WRITE that was answered. -/
structure WriteServed (size lbs cacheCap : Nat) (m : Model) (e : Entry) (res : Int)
    (m' : Model) : Prop where
  sized : m'.Sized size lbs cacheCap
  policy : m'.policy = m.policy
  step : ∃ ev, Cache.Step lbs m.cache ev m'.cache ∧ (ev = .keep ∨ ∃ p, Part lbs e p ∧ ev = .push p)
  ok : 0 ≤ res → Cache.Step lbs m.cache (.push e) m'.cache
  honest : m.policy.errorPm = 0 → res = asI32 e.data.length
  errored : m.policy.errorPm = 1000 → res < 0
  room : m.volatileBytes + e.data.length ≤ cacheCap →
    m'.committed = m.committed ∧ m'.volatileBytes ≤ m.volatileBytes + e.data.length

theorem serve_write {m m' : Model} {e : Entry} {res : Int} {buf : Bytes}
    (h : m.Sized size lbs cacheCap) (inRange : e.stop ≤ size)
    (hs : serve m .write e.off e.data.length e.data = some (res, buf, m')) :
    WriteServed size lbs cacheCap m e res m' := by
  have hsized := sized_hang h
  have hpolicy := hang_policy m
  have hcache := hang_cache m
  have hbytes : m.hang.2.volatileBytes = m.volatileBytes ∧ m.hang.2.committed = m.committed := by
    rcases hang_eq m with ⟨rng, stats, heq⟩
    simp [heq]
  have hin : e.off + e.data.length ≤ m.hang.2.committed.length := by
    rw [hsized.size]
    exact inRange
  -- the request is one `write` of the model
  have hperform := serve_eq hs
  rw [perform, if_neg (Nat.lt_irrefl _), List.take_length, Option.map_eq_some_iff] at hperform
  rcases hperform with ⟨⟨res', m''⟩, hwrite, heq⟩
  simp only [Prod.mk.injEq] at heq
  rcases heq with ⟨rfl, -, rfl⟩
  have hroom := fun (room : m.hang.2.volatileBytes + e.data.length ≤ cacheCap) =>
    write_room hwrite (room.trans (Nat.le_of_eq hsized.cacheCap.symm))
  rw [hbytes.1, hbytes.2] at hroom
  have hsized' : m''.Sized size lbs cacheCap := hsized.step
    (ran (.write e.off e.data) (.result res') hin (by rw [Model.call, hwrite]; rfl))
  cases herror : (m.hang.2.rng.hit m.hang.2.policy.errorPm).1 with
  | false =>
    rcases Model.write_ok hsized.valid hin herror with ⟨m₁, hwrite₁, heffect, hentered⟩
    rw [hwrite₁, Option.some.injEq, Prod.mk.injEq] at hwrite
    rcases hwrite with ⟨rfl, rfl⟩
    have hstep := heffect.step
    rw [hentered, hsized.lbs, hcache] at hstep
    refine ⟨hsized', heffect.policy.trans hpolicy, ⟨_, hstep, Or.inr ⟨e, ?_, rfl⟩⟩, fun _ => hstep,
      fun _ => rfl, ?_, hroom⟩
    · exact Model.part_self lbs e
    · intro halways
      rw [hpolicy, halways, hit_always] at herror
      cases herror
  | true =>
    rcases Model.write_errored hsized.valid hin herror with ⟨m₁, hwrite₁, heffect, -⟩
    rw [hwrite₁, Option.some.injEq, Prod.mk.injEq] at hwrite
    rcases hwrite with ⟨rfl, rfl⟩
    have hstep := heffect.step
    rw [hsized.lbs, hcache] at hstep
    refine ⟨hsized', heffect.policy.trans hpolicy, ⟨_, hstep, ?_⟩, ?_, ?_, fun _ => by decide, hroom⟩
    · cases hentered : m.hang.2.entered e.data with
      | none => exact Or.inl rfl
      | some kept =>
        refine Or.inr ⟨⟨e.off, kept⟩, ?_, rfl⟩
        rw [← hsized.lbs]
        exact entered_part hsized.valid e.off e.data hentered
    · intro hfalse
      exact absurd hfalse (by decide)
    · intro hnever
      rw [hpolicy, hnever, hit_never] at herror
      cases herror

/-- A READ returns the bytes of the view, and leaves the cache alone. -/
structure ReadServed (size lbs cacheCap : Nat) (m : Model) (e : Entry) (m' : Model) : Prop where
  sized : m'.Sized size lbs cacheCap
  policy : m'.policy = m.policy
  cache : m'.cache = m.cache
  room : m'.volatileBytes = m.volatileBytes
  data : e.data = slice m.view e.off e.stop

theorem serve_read {m m' : Model} {e : Entry} {buf : Bytes} (h : m.Sized size lbs cacheCap)
    (inRange : e.stop ≤ size)
    (hs : serve m .read e.off e.data.length buf = some (asI32 e.data.length, e.data, m')) :
    ReadServed size lbs cacheCap m e m' := by
  have hsized := sized_hang h
  have hcache := hang_cache m
  have hin : e.off + e.data.length ≤ m.hang.2.committed.length := by
    rw [hsized.size]
    exact inRange
  have hview : m.hang.2.view = m.view := view_congr hcache
  rcases performed_read hsized.valid hin (serve_eq hs) with ⟨hperformed, -, out, hread, hout⟩
  rcases Model.read_eq hsized.valid hread with ⟨heq, hsame⟩
  have hlen : (slice m.view e.off e.stop).length = e.data.length := by
    have hviewed : m.view.length = size := (overwriteAll_length h.valid.cache).trans h.size
    rw [slice_length _ (by omega)]
    simp [Entry.stop]
  have hbytes : m'.volatileBytes = m.volatileBytes := by
    rw [Model.read, if_pos hin, Option.some.injEq, Prod.mk.injEq] at hread
    rcases hread with ⟨-, rfl⟩
    rcases hang_eq m with ⟨rng, stats, hm⟩
    simp [hm]
  refine ⟨hperformed.sized _ _ _ hsized, hperformed.policy.trans (hang_policy m),
    hsame.trans hcache, hbytes, ?_⟩
  rw [hview] at heq
  change out = slice m.view e.off e.stop at heq
  have hdrop : buf.drop e.data.length = [] := by
    apply List.eq_nil_of_length_eq_zero
    have hsum := congrArg List.length hout
    rw [List.length_append, heq] at hsum
    omega
  rw [hout, heq, hdrop, List.append_nil]

/-- A FLUSH that was answered. -/
structure FlushServed (size lbs cacheCap : Nat) (m m' : Model) : Prop where
  sized : m'.Sized size lbs cacheCap
  policy : m'.policy = m.policy
  step : ∃ ev, Cache.Step lbs m.cache ev m'.cache ∧ (ev = .keep ∨ ev = .drain)
  honest : m.policy.flushLiePm = 0 → m'.volatile = [] ∧ m'.committed = m.view
  lie : m.policy.flushLiePm = 1000 →
    m'.committed = m.committed ∧ m'.volatile = m.volatile ∧ m'.volatileBytes = m.volatileBytes

theorem serve_flush {m m' : Model} {res : Int} {buf buf' : Bytes} (h : m.Sized size lbs cacheCap)
    (hs : serve m .flush 0 0 buf = some (res, buf', m')) :
    FlushServed size lbs cacheCap m m' := by
  have hsized := sized_hang h
  have hpolicy := hang_policy m
  have hcache := hang_cache m
  rcases performed_flush hsized.valid (serve_eq hs) with ⟨hperformed, -, -, hflush⟩
  have hstep := hperformed.step
  rw [hsized.lbs, hcache] at hstep
  refine ⟨hperformed.sized _ _ _ hsized, hperformed.policy.trans hpolicy, ⟨_, hstep, ?_⟩, ?_, ?_⟩
  · split
    · exact Or.inl rfl
    · exact Or.inr rfl
  · intro hnever
    have hlies : m.hang.2.lies = false := by
      rw [Model.lies, hpolicy, hnever, hit_never]
    rw [hlies] at hstep
    generalize hcache' : m'.cache = c at hstep
    cases hstep with
    | drain =>
      unfold Model.cache at hcache'
      rw [Cache.mk.injEq] at hcache'
      exact ⟨hcache'.2, hcache'.1⟩
  · intro halways
    have hlies : (m.hang.2.rng.hit m.hang.2.policy.flushLiePm).1 = true := by
      rw [hpolicy, halways, hit_always]
    rcases hang_eq m with ⟨rng, stats, hm⟩
    simp only [Model.flush, hlies, if_true, Option.some.injEq] at hflush
    subst hflush
    simp [hm]

/-! ## The requests of one call -/

section Requests

variable {m m' : Model} {pieces : List Entry} {results : List Int}

/-- What every request of a write keeps, the write keeps. -/
theorem WriteRequests.keep (I : Model → Prop) (hw : WriteRequests m pieces results m')
    (h : m.Sized size lbs cacheCap) (inRange : InRange size pieces) (hI : I m)
    (step : ∀ m e res m', e ∈ pieces → WriteServed size lbs cacheCap m e res m' → I m → I m') :
    m'.Sized size lbs cacheCap ∧ m'.policy = m.policy ∧ I m' := by
  induction hw with
  | nil => exact ⟨h, rfl, hI⟩
  | cons first rest ih =>
    have hserved := serve_write h (inRange _ List.mem_cons_self) first
    have hrest := ih hserved.sized (fun e he => inRange e (List.mem_cons_of_mem _ he))
      (step _ _ _ _ List.mem_cons_self hserved hI)
      fun m e res m' he => step m e res m' (List.mem_cons_of_mem _ he)
    exact ⟨hrest.1, hrest.2.1.trans hserved.policy, hrest.2.2⟩

theorem WriteRequests.sized (hw : WriteRequests m pieces results m') (h : m.Sized size lbs cacheCap)
    (inRange : InRange size pieces) : m'.Sized size lbs cacheCap ∧ m'.policy = m.policy := by
  have hkeep := hw.keep (fun _ => True) h inRange trivial fun _ _ _ _ _ _ _ => trivial
  exact ⟨hkeep.1, hkeep.2.1⟩

/-- A range that the write misses stays durable. -/
theorem WriteRequests.durable {i j : Nat} {value : Bytes} (hw : WriteRequests m pieces results m')
    (h : m.Sized size lbs cacheCap) (inRange : InRange size pieces)
    (hmisses : ∀ e, e ∈ pieces → e.Misses i j) (hdurable : Durable i j value m.cache) :
    Durable i j value m'.cache := by
  refine (hw.keep (fun m => m.Valid ∧ Durable i j value m.cache) h inRange ⟨h.valid, hdurable⟩
    ?_).2.2.2
  intro m e res m' he hserved hI
  rcases hserved.step with ⟨ev, hstep, hev⟩
  refine ⟨hserved.sized.valid, hI.2.step hI.1.cache ?_ hstep⟩
  intro p hp
  rcases hev with hkeep | ⟨q, hq, hpush⟩
  · rw [hkeep] at hp
    cases hp
  · rw [hpush, Event.push.injEq] at hp
    subst hp
    exact part_misses hq (hmisses e he)

/-- A write that succeeds is in what is read. -/
theorem WriteRequests.view (hw : WriteRequests m pieces results m') (h : m.Sized size lbs cacheCap)
    (inRange : InRange size pieces) (hok : ∀ res, res ∈ results → 0 ≤ res) :
    m'.view = overwriteAll m.view pieces := by
  induction hw with
  | nil => rfl
  | @cons m m₁ m₂ e pieces res results buf first rest ih =>
    have hserved := serve_write h (inRange _ List.mem_cons_self) first
    have hrest := ih hserved.sized (fun e he => inRange e (List.mem_cons_of_mem _ he))
      fun res hres => hok res (List.mem_cons_of_mem _ hres)
    have hview := Cache.view_step (hserved.ok (hok _ List.mem_cons_self)) rfl
    change m₁.view = overwrite m.view e at hview
    rw [hrest, hview, overwriteAll_cons]

/-- A write changes what is read by some of its blocks, whether it succeeds or
not. -/
theorem WriteRequests.blocks (hw : WriteRequests m pieces results m') (h : m.Sized size lbs cacheCap)
    (inRange : InRange size pieces) : ∃ parts, InRange size parts ∧
      (∀ p, p ∈ parts → ∃ e, e ∈ pieces ∧ Part lbs e p) ∧ m'.view = overwriteAll m.view parts := by
  induction hw with
  | nil => exact ⟨[], nofun, nofun, rfl⟩
  | @cons m m₁ m₂ e pieces res results buf first rest ih =>
    have hserved := serve_write h (inRange _ List.mem_cons_self) first
    rcases ih hserved.sized fun e he => inRange e (List.mem_cons_of_mem _ he) with
      ⟨parts, hin, hparts, hview⟩
    have hmore : ∀ p, p ∈ parts → ∃ e', e' ∈ e :: pieces ∧ Part lbs e' p := by
      intro p hp
      rcases hparts p hp with ⟨e', he', hpart⟩
      exact ⟨e', List.mem_cons_of_mem _ he', hpart⟩
    rcases hserved.step with ⟨ev, hstep, hev⟩
    rcases hev with rfl | ⟨p, hpart, rfl⟩
    · have hsame : m₁.view = m.view := Cache.view_step hstep rfl
      exact ⟨parts, hin, hmore, by rw [hview, hsame]⟩
    · have hpushed : m₁.view = overwrite m.view p := Cache.view_step hstep rfl
      refine ⟨p :: parts, ?_, ?_, by rw [hview, hpushed, overwriteAll_cons]⟩
      · intro q hq
        rcases List.mem_cons.mp hq with rfl | hq
        · exact (part_stop hpart).trans (inRange e List.mem_cons_self)
        · exact hin q hq
      · intro q hq
        rcases List.mem_cons.mp hq with rfl | hq
        · exact ⟨e, List.mem_cons_self, hpart⟩
        · exact hmore q hq

/-- While the cache has room, a write changes the cache alone. -/
theorem WriteRequests.room (hw : WriteRequests m pieces results m') (h : m.Sized size lbs cacheCap)
    (inRange : InRange size pieces) (room : m.volatileBytes + bytes pieces ≤ cacheCap) :
    m'.committed = m.committed ∧ m'.volatileBytes ≤ m.volatileBytes + bytes pieces := by
  induction hw with
  | nil => exact ⟨rfl, Nat.le_add_right _ _⟩
  | cons first rest ih =>
    have hserved := serve_write h (inRange _ List.mem_cons_self) first
    rw [bytes_cons] at room ⊢
    have hroom := hserved.room (by omega)
    have hrest := ih hserved.sized (fun e he => inRange e (List.mem_cons_of_mem _ he)) (by omega)
    exact ⟨hrest.1.trans hroom.1, by omega⟩

theorem asI32_small {n : Nat} (h : n ≤ ioBufBytes) : 0 ≤ asI32 n := by
  unfold ioBufBytes at h
  unfold asI32
  rw [Int.bmod_def]
  omega

/-- Without injected errors every request of a write succeeds. -/
theorem WriteRequests.honest (hw : WriteRequests m pieces results m') (h : m.Sized size lbs cacheCap)
    (inRange : InRange size pieces) (small : ∀ p, p ∈ pieces → p.data.length ≤ ioBufBytes)
    (hnever : m.policy.errorPm = 0) : ∀ res, res ∈ results → 0 ≤ res := by
  induction hw with
  | nil => simp
  | cons first rest ih =>
    have hserved := serve_write h (inRange _ List.mem_cons_self) first
    have hrest := ih hserved.sized (fun e he => inRange e (List.mem_cons_of_mem _ he))
      (fun p hp => small p (List.mem_cons_of_mem _ hp)) (by rw [hserved.policy, hnever])
    intro res hres
    rcases List.mem_cons.mp hres with rfl | hres
    · rw [hserved.honest hnever]
      exact asI32_small (small _ List.mem_cons_self)
    · exact hrest res hres

/-- Where every request is errored, no write gets through. -/
theorem WriteRequests.errored (hw : WriteRequests m pieces results m') (h : m.Sized size lbs cacheCap)
    (inRange : InRange size pieces) (halways : m.policy.errorPm = 1000)
    (hok : ∀ res, res ∈ results → 0 ≤ res) : pieces = [] := by
  cases hw with
  | nil => rfl
  | cons first rest =>
    have hserved := serve_write h (inRange _ List.mem_cons_self) first
    have hneg := hserved.errored halways
    have hpos := hok _ List.mem_cons_self
    omega

/-- A read leaves the cache alone, and the data of its pieces is what is read
there. -/
theorem ReadRequests.view (hr : ReadRequests m pieces m') (h : m.Sized size lbs cacheCap)
    (inRange : InRange size pieces) :
    m'.Sized size lbs cacheCap ∧ m'.policy = m.policy ∧ m'.cache = m.cache ∧
      m'.volatileBytes = m.volatileBytes ∧
      ∀ e, e ∈ pieces → e.data = slice m.view e.off e.stop := by
  induction hr with
  | nil => exact ⟨h, rfl, rfl, rfl, nofun⟩
  | cons first rest ih =>
    have hserved := serve_read h (inRange _ List.mem_cons_self) first
    rcases ih hserved.sized fun e he => inRange e (List.mem_cons_of_mem _ he) with
      ⟨hsized, hpolicy, hcache, hbytes, hdata⟩
    refine ⟨hsized, hpolicy.trans hserved.policy, hcache.trans hserved.cache,
      hbytes.trans hserved.room, ?_⟩
    intro e he
    rcases List.mem_cons.mp he with rfl | he
    · exact hserved.data
    · rw [← view_congr hserved.cache]
      exact hdata e he

end Requests

/-! ## One call -/

section Calls

variable {s t : Shared} {e : Entry}

theorem Cut.inRange {block : Nat} {pieces : List Entry} (h : Cut block e pieces)
    (hstop : e.stop ≤ size) : InRange size pieces :=
  fun p hp => (part_stop (h.parts p hp)).trans hstop

/-- The requests of a write, whether it succeeds or not. -/
def Sent (s : Shared) (e : Entry) (t : Shared) : Prop :=
  ∃ pieces results, Cut s.model.lbs e pieces ∧ InRange s.model.committed.length pieces ∧
    WriteRequests s.model pieces results t.model

theorem Written.sent (h : Written s e t) : Sent s e t := by
  rcases h with ⟨pieces, results, hfits, hcut, -, hwrites, -, -⟩
  exact ⟨pieces, results, hcut, hcut.inRange hfits.inRange, hwrites⟩

theorem WriteFailed.sent (h : WriteFailed s e t) : Sent s e t := by
  rcases h with ⟨pieces, results, hcut, hin, hwrites, -, -⟩
  exact ⟨pieces, results, hcut, hin, hwrites⟩

theorem Sent.sized (hs : Sent s e t) (h : s.model.Sized size lbs cacheCap) :
    t.model.Sized size lbs cacheCap ∧ t.model.policy = s.model.policy := by
  rcases hs with ⟨pieces, results, -, hin, hwrites⟩
  exact hwrites.sized h (h.size ▸ hin)

theorem Sent.durable {i j : Nat} {value : Bytes} (hs : Sent s e t)
    (h : s.model.Sized size lbs cacheCap) (hmisses : e.Misses i j)
    (hdurable : Durable i j value s.model.cache) : Durable i j value t.model.cache := by
  rcases hs with ⟨pieces, results, hcut, hin, hwrites⟩
  exact hwrites.durable h (h.size ▸ hin) (fun p hp => part_misses (hcut.parts p hp) hmisses) hdurable

theorem Sent.room (hs : Sent s e t) (h : s.model.Sized size lbs cacheCap)
    (room : s.model.volatileBytes + e.data.length ≤ cacheCap) :
    t.model.committed = s.model.committed ∧
      t.model.volatileBytes ≤ s.model.volatileBytes + e.data.length := by
  rcases hs with ⟨pieces, results, hcut, hin, hwrites⟩
  have honce := hcut.once
  have hroom := hwrites.room h (h.size ▸ hin) (by omega)
  exact ⟨hroom.1, by omega⟩

theorem Sent.blocks (hs : Sent s e t) (h : s.model.Sized size lbs cacheCap) :
    ∃ parts, InRange size parts ∧ (∀ p, p ∈ parts → Part lbs e p) ∧
      t.model.view = overwriteAll s.model.view parts := by
  rcases hs with ⟨pieces, results, hcut, hin, hwrites⟩
  rcases hwrites.blocks h (h.size ▸ hin) with ⟨parts, hrange, hparts, hview⟩
  refine ⟨parts, hrange, ?_, hview⟩
  intro p hp
  rcases hparts p hp with ⟨q, hq, hpart⟩
  have hcutq := hcut.parts q hq
  rw [h.lbs] at hcutq
  exact part_trans hcutq hpart

theorem Written.view (hw : Written s e t) (h : s.model.Sized size lbs cacheCap) :
    t.model.view = overwrite s.model.view e := by
  rcases hw with ⟨pieces, results, hfits, hcut, hcomplete, hwrites, hok, -⟩
  have hviewed : s.model.view.length = s.model.committed.length :=
    overwriteAll_length h.valid.cache
  rw [hwrites.view h (hcut.inRange (h.size ▸ hfits.inRange)) hok]
  exact overwriteAll_parts (hviewed ▸ hfits.inRange) hcut.parts hcomplete

/-- Where every request is errored, only an empty write succeeds. -/
theorem Written.errored (hw : Written s e t) (h : s.model.Sized size lbs cacheCap)
    (halways : s.model.policy.errorPm = 1000) : e.data = [] := by
  rcases hw with ⟨pieces, results, hfits, hcut, hcomplete, hwrites, hok, -⟩
  have hnone := hwrites.errored h (hcut.inRange (h.size ▸ hfits.inRange)) halways hok
  subst hnone
  by_contra hne
  have hpos := List.length_pos_iff.mpr hne
  rcases hcomplete e.off (Nat.le_refl _) (by unfold Entry.stop; omega) with ⟨p, hp, -⟩
  cases hp

/-- Without injected errors a write that the kernel takes succeeds. -/
theorem WriteFailed.honest (hw : WriteFailed s e t) (h : s.model.Sized size lbs cacheCap)
    (hnever : s.model.policy.errorPm = 0) : ¬ Taken s.model e := by
  rcases hw with ⟨pieces, results, hcut, hin, hwrites, hfailed, -⟩
  rcases hfailed with hfits | ⟨res, hres, hneg⟩
  · exact hfits
  · have hok := hwrites.honest h (h.size ▸ hin) hcut.small hnever res hres
    omega

/-- A byte that a piece has for the device. -/
theorem getElem?_of_piece {image : Bytes} {block : Nat} {p : Entry} {x : Nat}
    (hpart : Part block e p) (hin : e.stop ≤ image.length)
    (hdata : p.data = slice image p.off p.stop) (hlo : p.off ≤ x) (hhi : x < p.stop) :
    e.data[x - e.off]? = image[x]? := by
  rw [← getElem?_overwrite_part hin hpart hlo hhi, overwrite,
    getElem?_patch ((part_stop hpart).trans hin), if_pos ⟨hlo, hhi⟩, hdata,
    getElem?_slice _ (by omega)]
  congr 1
  omega

/-- A read fills its buffer with what is there. -/
theorem ReadDone.data (hr : ReadDone s e t) (h : s.model.Sized size lbs cacheCap) :
    e.stop ≤ size ∧ e.data = slice s.model.view e.off e.stop := by
  rcases hr with ⟨pieces, hfits, hcut, hcomplete, hreads, -⟩
  have hstop : e.stop ≤ size := h.size ▸ hfits.inRange
  have hviewed : s.model.view.length = size := (overwriteAll_length h.valid.cache).trans h.size
  have hin : e.stop ≤ s.model.view.length := by omega
  have hdata := (hreads.view h (hcut.inRange hstop)).2.2.2.2
  refine ⟨hstop, ?_⟩
  have hlen : (slice s.model.view e.off e.stop).length = e.data.length := by
    rw [slice_length _ hin]
    simp [Entry.stop]
  apply List.ext_getElem?
  intro k
  rcases Nat.lt_or_ge k e.data.length with hk | hk
  · rcases hcomplete (e.off + k) (by omega) (by unfold Entry.stop; omega) with ⟨p, hp, hlo, hhi⟩
    have hbyte := getElem?_of_piece (hcut.parts p hp) hin (hdata p hp) hlo hhi
    rw [Nat.add_sub_cancel_left] at hbyte
    rw [hbyte, getElem?_slice _ (by unfold Entry.stop; omega)]
  · rw [List.getElem?_eq_none hk, List.getElem?_eq_none (by omega)]

/-- A read leaves what the device holds alone. -/
structure Untouched (size lbs cacheCap : Nat) (m m' : Model) : Prop where
  sized : m'.Sized size lbs cacheCap
  policy : m'.policy = m.policy
  cache : m'.cache = m.cache
  room : m'.volatileBytes = m.volatileBytes

theorem ReadDone.untouched (hr : ReadDone s e t) (h : s.model.Sized size lbs cacheCap) :
    Untouched size lbs cacheCap s.model t.model := by
  rcases hr with ⟨pieces, hfits, hcut, -, hreads, -⟩
  rcases hreads.view h (hcut.inRange (h.size ▸ hfits.inRange)) with ⟨h1, h2, h3, h4, -⟩
  exact ⟨h1, h2, h3, h4⟩

theorem ReadFailed.untouched (hr : ReadFailed s e t) (h : s.model.Sized size lbs cacheCap) :
    Untouched size lbs cacheCap s.model t.model := by
  rcases hr with ⟨pieces, -, hin, hreads, -⟩
  rcases hreads.view h (h.size ▸ hin) with ⟨h1, h2, h3, h4, -⟩
  exact ⟨h1, h2, h3, h4⟩

end Calls

end Scenario

end Ublkera
