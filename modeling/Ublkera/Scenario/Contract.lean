import Ublkera.Fault.Loss
import Ublkera.Scenario.Direct

/-!
# What a scenario shows

The contracts that the scenario files are written for, on every fault device,
for every range, pattern and cut of the kernel.

* `synced_survives`: what a `write … fsync` has written is what an `expect`
  finds, over any steps in between that write elsewhere, crashes included.
* `expect_exact`: an `expect` succeeds when the device holds the pattern, and
  otherwise names the first byte that differs.
* `rolls_back`: without a FLUSH that works, a crash takes the device back.
* `write_outcome`: whether a write gets through or not, each block is the old
  one or the new one.
-/

namespace Ublkera

namespace Scenario

open LittleEndian WriteCache Fault Effect Trace

variable {size lbs cacheCap : Nat} {shellRun : Shared → String → Option Int → Shared → Prop}
  {display : Json → String}

/-! ## The calls of a step -/

/-- The system calls that `exec` makes for a step. -/
def Step.Calls : Step → Syscall → Prop
  | .write off len pattern _ _, c =>
    c = .writeAllAt off (fillPattern pattern off len.toNat) ∨ c = .syncAll
  | .expect _ _ _, c => ∃ off n, c = .readExactAt off n
  | .flush, c => c = .syncAll
  | .crash mode, c => c = .request (.object [("cmd", .string "crash"), ("mode", .string mode)])
  | .set pairs, c => c = .request (setRequest pairs)
  | .thaw result, c => c = .request (.object [("cmd", .string "thaw"), ("result", .string result)])
  | .sleep ms, c => c = .sleep ms
  | .run cmd _, c => c = .shell cmd

theorem only_orFail {α : Type} {P : Syscall → Prop} (context : String) (x : Except String α) :
    (orFail context x).Only P := by
  cases x <;> simp [orFail]

theorem only_ctl (req : Json) : (ctl display req).Only fun c => c = .request req := by
  unfold ctl sendRequest
  refine only_bind (only_ask.mpr rfl) fun resp => ?_
  cases resp with
  | error => simp
  | ok resp =>
    simp only
    split <;> simp

theorem only_exec (step : Step) : (exec display step).Only step.Calls := by
  cases step with
  | write off len pattern fsync expectError =>
    simp only [exec]
    split
    · simp
    · refine only_bind (only_ask.mpr (Or.inl rfl)) fun res => ?_
      split
      · split
        · exact only_bind (only_ask.mpr (Or.inr rfl)) fun synced => only_orFail _ _
        · simp
      · simp
      · simp
      · simp
  | expect off len pattern =>
    simp only [exec]
    split
    · simp
    · refine only_bind (only_loop fun pos n _ => ?_) fun _ => by simp
      unfold expectPiece
      refine only_bind (only_ask.mpr ⟨_, n, rfl⟩) fun got => ?_
      refine only_bind (only_orFail _ _) fun got => ?_
      simp only
      split <;> simp
  | flush => exact only_bind (only_ask.mpr rfl) fun synced => only_orFail _ _
  | crash mode => exact only_bind (only_ctl _) fun _ => by simp
  | set pairs => exact only_bind (only_ctl _) fun _ => by simp
  | thaw result => exact only_bind (only_ctl _) fun _ => by simp
  | sleep ms => exact only_ask.mpr rfl
  | run cmd expectOk =>
    simp only [exec]
    refine only_bind (only_ask.mpr rfl) fun status => ?_
    refine only_bind (only_orFail _ _) fun code => ?_
    split <;> simp

/-- A call of the model that pushes nothing over the range. -/
def SparingStep (i j : Nat) (m : Model) (l : Call × Reply) (m' : Model) : Prop :=
  Fault.Step m l m' ∧ ∀ e, m.Does l.1 (.push e) → e.Misses i j

/-- A system call that writes nothing over the range.  A shell command may
send the device any requests that spare it. -/
def Spares (shellRun : Shared → String → Option Int → Shared → Prop) (i j : Nat) :
    Syscall → Prop
  | .writeAllAt off data => (Entry.mk off.toNat data).Misses i j
  | .shell cmd =>
    ∀ s code t, shellRun s cmd code t → ∃ trace, Run (SparingStep i j) s.model trace t.model
  | _ => True

/-- The same of a step. -/
def Step.Spares (shellRun : Shared → String → Option Int → Shared → Prop) (i j : Nat) :
    Step → Prop
  | .write off len _ _ _ => off.toNat + len.toNat ≤ i ∨ j ≤ off.toNat
  | .run cmd _ => Scenario.Spares shellRun i j (.shell cmd)
  | _ => True

theorem Step.Spares.call {i j : Nat} {step : Step} (h : step.Spares shellRun i j) {c : Syscall}
    (hc : step.Calls c) : Scenario.Spares shellRun i j c := by
  cases step with
  | write off len pattern fsync expectError =>
    rcases hc with rfl | rfl
    · change off.toNat + (fillPattern pattern off len.toNat).length ≤ i ∨ j ≤ off.toNat
      rw [fillPattern_length]
      exact h
    · trivial
  | expect =>
    rcases hc with ⟨off, n, rfl⟩
    trivial
  | run cmd =>
    obtain rfl : c = .shell cmd := hc
    exact h
  | flush | crash | set | thaw | sleep =>
    rw [show c = _ from hc]
    trivial

/-- A device that holds `value` in the range, whatever is lost. -/
def Safe (size lbs cacheCap i j : Nat) (value : Bytes) (m : Model) : Prop :=
  m.Sized size lbs cacheCap ∧ Durable i j value m.cache

theorem Safe.run {i j : Nat} {value : Bytes} {m m' : Model} {trace : List (Call × Reply)}
    (h : Safe size lbs cacheCap i j value m) (hr : Run (SparingStep i j) m trace m') :
    Safe size lbs cacheCap i j value m' := by
  refine hr.state_invariant (Safe size lbs cacheCap i j value) h ?_
  intro m l m' hsafe hstep
  exact ⟨hsafe.1.step hstep.1, durable_step hsafe.2 hsafe.1.valid hstep.1 hstep.2⟩

theorem Safe.untouched {i j : Nat} {value : Bytes} {m m' : Model}
    (h : Safe size lbs cacheCap i j value m) (hu : Untouched size lbs cacheCap m m') :
    Safe size lbs cacheCap i j value m' :=
  ⟨hu.sized, by rw [hu.cache]; exact h.2⟩

/-- One call of the runner. -/
theorem Safe.call {i j : Nat} {value : Bytes} {s t : Shared} {c : Syscall} {r : c.Answer}
    (hspares : Spares shellRun i j c) (h : Safe size lbs cacheCap i j value s.model)
    (hr : direct shellRun s c r t) : Safe size lbs cacheCap i j value t.model := by
  cases c with
  | writeAllAt off data =>
    have hsent : Sent s ⟨off.toNat, data⟩ t := by
      cases r with
      | ok => exact Written.sent hr
      | error => exact WriteFailed.sent hr
    exact ⟨(hsent.sized h.1).1, hsent.durable h.1 hspares h.2⟩
  | readExactAt off len =>
    cases r with
    | ok => exact h.untouched (hr.2.untouched h.1)
    | error => exact h.untouched (hr.untouched h.1)
  | syncAll =>
    cases r with
    | error => exact hr.elim
    | ok =>
      rcases hr with ⟨buf, hserve, -⟩
      have hflush := serve_flush h.1 hserve
      rcases hflush.step with ⟨ev, hstep, hev⟩
      refine ⟨hflush.sized, h.2.step h.1.valid.cache ?_ hstep⟩
      intro e he
      rcases hev with rfl | rfl <;> cases he
  | request req =>
    cases r with
    | error => exact hr.elim
    | ok resp =>
      rcases handleCtl_call hr with heq | ⟨call, reply, hstep, hcall⟩
      · rw [heq]
        exact h
      · refine ⟨h.1.step hstep, durable_step h.2 h.1.valid hstep ?_⟩
        intro e hdoes
        rcases hcall with ⟨mode, rfl⟩ | ⟨policy, rfl⟩
        · rcases hdoes with ⟨parts, hparts, -⟩
          cases hparts
        · cases hdoes
  | sleep ms =>
    obtain rfl : t = s := hr
    exact h
  | shell cmd =>
    cases r with
    | error => exact hr.elim
    | ok code =>
      rcases hspares s code t hr with ⟨trace, hrun⟩
      exact h.run hrun

/-- A shell with one command that succeeds, and none that does anything. -/
def onlyTrue (s : Shared) (cmd : String) (code : Option Int) (t : Shared) : Prop :=
  code = some (if cmd = "true" then 0 else 1) ∧ t = s

/-- A new device of one block of 4 KiB. -/
def oneBlock (policy : Policy) : Shared :=
  { model := .new 4096 4096 4096 1 policy, parked := [], thawResult := 0, efd := 0 }

theorem sized_oneBlock (policy : Policy) : (oneBlock policy).model.Sized 4096 4096 4096 :=
  Model.sized_new (by decide)

/-! ## `expect` -/

theorem firstDiff_spec {a b : Bytes} (hlen : a.length = b.length) (hne : a ≠ b) :
    a.take (firstDiff a b) = b.take (firstDiff a b) ∧ a[firstDiff a b]? ≠ b[firstDiff a b]? := by
  induction a generalizing b with
  | nil => exact absurd (List.eq_nil_of_length_eq_zero hlen.symm).symm hne
  | cons x a ih =>
    cases b with
    | nil => simp at hlen
    | cons y b =>
      by_cases hxy : x = y
      · subst hxy
        have hrest := ih (b := b) (by simpa using hlen) (by simpa using hne)
        have hnext : firstDiff (x :: a) (x :: b) = firstDiff a b + 1 := by
          simp [firstDiff, List.findIdx_cons]
        simpa [hnext] using hrest
      · have hzero : firstDiff (x :: a) (y :: b) = 0 := by
          simp [firstDiff, List.findIdx_cons, bne_iff_ne.mpr hxy]
        simp [hzero, hxy]

/-- What an `expect` has found where the device holds `held`: the pattern, or
the first byte that is another one. -/
inductive Found (pattern : String) (off : UInt64) (held want : Bytes) : Except String Unit → Prop where
  | all (same : held = want) : Found pattern off held want (.ok ())
  | differs {k : Nat} (before : held.take k = want.take k) (here : held[k]? ≠ want[k]?) :
      Found pattern off held want
        (.error (s!"content mismatch: expected pattern '{pattern}', first differing " ++
          s!"byte at device offset {off + UInt64.ofNat k}"))

theorem Found.ok_iff {pattern : String} {off : UInt64} {held want : Bytes}
    {out : Except String Unit} (h : Found pattern off held want out) :
    out = .ok () ↔ held = want := by
  cases h with
  | all same => simp [same]
  | differs before here =>
    have hne : held ≠ want := by
      intro heq
      exact here (by rw [heq])
    simp [hne]

theorem Untouched.refl {m : Model} (h : m.Sized size lbs cacheCap) :
    Untouched size lbs cacheCap m m := ⟨h, rfl, rfl, rfl⟩

theorem Untouched.trans {m m' m'' : Model} (h : Untouched size lbs cacheCap m m')
    (h' : Untouched size lbs cacheCap m' m'') : Untouched size lbs cacheCap m m'' :=
  ⟨h'.sized, h'.policy.trans h.policy, h'.cache.trans h.cache, h'.room.trans h.room⟩

theorem view_length {m : Model} (h : m.Sized size lbs cacheCap) : m.view.length = size :=
  (overwriteAll_length h.valid.cache).trans h.size

/-- A read of whole blocks of the device. -/
theorem wp_readExactAt {s : Shared} {off : UInt64} {n : Nat} (h : s.model.Sized size lbs cacheCap)
    (hoff : lbs ∣ off.toNat) (hn : lbs ∣ n) (inside : off.toNat + n ≤ size) :
    wp (direct shellRun) (readExactAt off n) (fun out t => Untouched size lbs cacheCap s.model t.model ∧
      out = .ok (.ok (slice s.model.view off.toNat (off.toNat + n)))) s := by
  intro r t hr
  cases r with
  | ok out =>
    rcases hr with ⟨hlen, hread⟩
    have hdata := (hread.data h).2
    change out = slice s.model.view off.toNat (off.toNat + out.length) at hdata
    rw [hlen] at hdata
    exact ⟨hread.untouched h, by rw [hdata]⟩
  | error =>
    have hread : ReadFailed s ⟨off.toNat, List.replicate n 0⟩ t := hr
    rcases hread with ⟨pieces, hfits, -⟩
    refine absurd ⟨?_, ?_⟩ hfits
    · rw [h.lbs]
      exact ⟨hoff, by simpa using hn⟩
    · rw [h.size]
      simpa [Entry.stop] using inside

/-- One turn of the loop. -/
theorem wp_expectPiece {s : Shared} {off : UInt64} {pattern : String} {want : Bytes} {pos n : Nat}
    (h : s.model.Sized size lbs cacheCap) (hsize : size < 2 ^ 64)
    (hoff : lbs ∣ off.toNat + pos) (hn : lbs ∣ n) (hwant : pos + n ≤ want.length)
    (inside : off.toNat + want.length ≤ size) :
    wp (direct shellRun) (expectPiece off pattern want pos n) (fun out t =>
      Untouched size lbs cacheCap s.model t.model ∧
        (slice s.model.view (off.toNat + pos) (off.toNat + pos + n) = slice want pos (pos + n) ∧
            out = .ok (pos + n) ∨
          ∃ k, k < n ∧
            (slice s.model.view (off.toNat + pos) (off.toNat + pos + n)).take k
              = (slice want pos (pos + n)).take k ∧
            s.model.view[off.toNat + pos + k]? ≠ want[pos + k]? ∧
            out = .error (s!"content mismatch: expected pattern '{pattern}', first differing " ++
              s!"byte at device offset {off + UInt64.ofNat (pos + k)}"))) s := by
  have hviewed := view_length h
  have hnat : (off + UInt64.ofNat pos).toNat = off.toNat + pos := by
    rw [UInt64.toNat_add, UInt64.toNat_ofNat']
    omega
  have hread : wp (direct shellRun) (readExactAt (off + UInt64.ofNat pos) n) _ s :=
    wp_readExactAt h (by rwa [hnat]) hn (by omega)
  unfold expectPiece
  rw [wp_monad_bind]
  refine wp_mono hread fun out t hout => ?_
  rcases hout with ⟨huntouched, rfl⟩
  simp only [orFail, wp_monad_bind, wp_ret, hnat]
  have hgot := slice_length s.model.view (i := off.toNat + pos) (j := off.toNat + pos + n) (by omega)
  have hpiece := slice_length want (i := pos) (j := pos + n) hwant
  split
  · rename_i hsame
    exact ⟨huntouched, Or.inl ⟨hsame, rfl⟩⟩
  · rename_i hdiffers
    rcases firstDiff_spec (by omega) hdiffers with ⟨hbefore, hhere⟩
    have hlt : firstDiff (slice s.model.view (off.toNat + pos) (off.toNat + pos + n))
        (slice want pos (pos + n)) < n := by
      by_contra hge
      apply hhere
      rw [List.getElem?_eq_none (by omega), List.getElem?_eq_none (by omega)]
    rw [getElem?_slice _ (by omega), getElem?_slice _ (by omega)] at hhere
    exact ⟨huntouched, Or.inr ⟨_, hlt, hbefore, hhere, rfl⟩⟩

theorem wp_expect {s : Shared} {off len : UInt64} {pattern : String}
    (h : s.model.Sized size lbs cacheCap) (hsize : size < 2 ^ 64) (hlbs : lbs ∣ 4096)
    (page : off % 4096 = 0) (whole : lbs ∣ len.toNat) (inside : off.toNat + len.toNat ≤ size) :
    wp (direct shellRun) (exec display (.expect off len pattern)) (fun out t =>
      Untouched size lbs cacheCap s.model t.model ∧
        Found pattern off (slice s.model.view off.toNat (off.toNat + len.toNat))
          (fillPattern pattern off len.toNat) out) s := by
  have hoff : lbs ∣ off.toNat := by
    have hpage := congrArg UInt64.toNat page
    rw [UInt64.toNat_mod] at hpage
    exact hlbs.trans (Nat.dvd_of_mod_eq_zero hpage)
  have hviewed := view_length h
  have hwant := fillPattern_length pattern off len.toNat
  have hread : lbs ∣ maxRead := hlbs.trans (by decide)
  have hpos : 0 < maxRead := by decide
  simp only [exec, page, ne_eq, not_true_eq_false, if_false]
  rw [wp_monad_bind, hwant]
  generalize hheld : slice s.model.view off.toNat (off.toNat + len.toNat) = held
  generalize fillPattern pattern off len.toNat = want at hwant
  have hheldlen : held.length = len.toNat := by
    rw [← hheld, slice_length _ (by omega)]
    omega
  -- the invariant: so far the device holds the pattern
  refine wp_loop (fun done pos t => pos = done.sum ∧ Untouched size lbs cacheCap s.model t.model ∧
    held.take pos = want.take pos) ⟨rfl, .refl h, by simp⟩ ?_ ?_
  · intro done n rest pos t hl hI
    rcases hI with ⟨rfl, huntouched, hsofar⟩
    have hsum := Chunks.sum_lens hpos len.toNat
    rw [hl, List.sum_append, List.sum_cons] at hsum
    have hdvd : lbs ∣ done.sum := by
      refine List.dvd_sum fun n' hn' => Chunks.dvd_lens hpos hread whole ?_
      rw [hl]
      exact List.mem_append_left _ hn'
    have hn : lbs ∣ n := by
      refine Chunks.dvd_lens hpos hread whole (n := n) ?_
      rw [hl]
      simp
    refine wp_mono (wp_expectPiece huntouched.sized hsize (Nat.dvd_add hoff hdvd) hn (by omega)
      (by omega)) fun out u hout => ?_
    have hview : t.model.view = s.model.view := view_congr huntouched.cache
    rw [hview] at hout
    have hslice : ∀ k, k ≤ n → slice s.model.view (off.toNat + done.sum) (off.toNat + done.sum + k)
        = slice held done.sum (done.sum + k) := by
      intro k hk
      rw [← hheld, slice_slice _ (by omega), Nat.add_assoc]
    have htake : ∀ k, k ≤ n → (slice held done.sum (done.sum + n)).take k
        = (slice want done.sum (done.sum + n)).take k →
        held.take (done.sum + k) = want.take (done.sum + k) := by
      intro k hk heq
      rw [List.take_add, List.take_add, hsofar]
      congr 1
      unfold slice at heq
      rw [List.take_take, List.take_take] at heq
      have hmin : min k (done.sum + n - done.sum) = k := by omega
      rwa [hmin] at heq
    rcases hout with ⟨hkept, hall | hdiff⟩
    · rcases hall with ⟨hsame, rfl⟩
      refine ⟨by simp, huntouched.trans hkept, htake n (Nat.le_refl n) ?_⟩
      rw [hslice n (Nat.le_refl n)] at hsame
      rw [hsame]
    · rcases hdiff with ⟨k, hk, hbefore, hhere, rfl⟩
      refine ⟨huntouched.trans hkept, .differs (k := done.sum + k) ?_ ?_⟩
      · rw [hslice n (Nat.le_refl n)] at hbefore
        exact htake k (by omega) hbefore
      · rw [← hheld, getElem?_slice _ (by omega), ← Nat.add_assoc]
        exact hhere
  · intro pos t hI
    rcases hI with ⟨rfl, huntouched, hsame⟩
    rw [Chunks.sum_lens hpos, List.take_of_length_le (Nat.le_of_eq hheldlen),
      List.take_of_length_le (Nat.le_of_eq hwant)] at hsame
    simp only [wp_ret]
    exact ⟨huntouched, .all hsame⟩

theorem wp_sendRequest {req : Json} {Q : Except String (Except String Json) → Shared → Prop}
    {s : Shared} : wp (direct shellRun) (sendRequest req) Q s ↔
      ∀ r t, direct shellRun s (.request req) r t → Q (.ok r) t := Iff.rfl

theorem wp_ctl {req : Json} {Q : Except String Json → Shared → Prop} {s : Shared} :
    wp (direct shellRun) (ctl display req) Q s ↔ ∀ resp t,
      handleCtl (fun _ => .ok req) s "" = some (resp, t) →
        if (resp.index "ok").asBool = some true then Q (.ok resp) t
        else Q (.error s!"ctl {display req}: {display resp}") t := by
  unfold ctl
  rw [wp_monad_bind, wp_sendRequest]
  constructor
  · intro h resp t hresp
    have hwp := h (.ok resp) t hresp
    simp only at hwp
    split at hwp
    · rwa [if_pos ‹_›]
    · rwa [if_neg ‹_›]
  · intro h r t hr
    cases r with
    | error => exact hr.elim
    | ok resp =>
      have hwp := h resp t hr
      simp only
      split at hwp
      · rwa [if_pos ‹_›]
      · rwa [if_neg ‹_›]

/-- What a `crash mode=drop` leaves: what was written back, and nothing
else. -/
structure Dropped (size lbs cacheCap : Nat) (m m' : Model) : Prop where
  sized : m'.Sized size lbs cacheCap
  policy : m'.policy = m.policy
  committed : m'.committed = m.committed
  volatile : m'.volatile = []

theorem Dropped.view {m m' : Model} (h : Dropped size lbs cacheCap m m') :
    m'.view = m.committed := by
  rw [Model.view, Model.cache, Cache.view, h.volatile, overwriteAll_nil, h.committed]

theorem wp_crash_drop {s : Shared} (h : s.model.Sized size lbs cacheCap) :
    wp (direct shellRun) (exec display (.crash "drop"))
      (fun out t => out = .ok () ∧ Dropped size lbs cacheCap s.model t.model) s := by
  simp only [exec, wp_monad_bind, wp_ctl]
  intro resp t hresp
  rcases Model.crash_spec h.valid .drop with ⟨report, m', parts, hcrash, heffect, hdrop⟩
  obtain rfl := hdrop rfl
  have hanswer : handleCtl (fun _ => .ok (.object [("cmd", .string "crash"), ("mode", .string "drop")]))
      s "" = some (okResponse [("report", report.json)], { s with model := m' }) := by
    change (s.model.crash .drop).map _ = _
    rw [hcrash]
    rfl
  rw [hanswer, Option.some.injEq, Prod.mk.injEq] at hresp
  rcases hresp with ⟨rfl, rfl⟩
  have hstep : Fault.Step s.model (.crash .drop, .report report) m' :=
    ran _ _ trivial (by rw [Model.call, hcrash]; rfl)
  have hlost := heffect.step
  have hcache : m'.cache = ⟨s.model.committed, []⟩ := by
    generalize m'.cache = c at hlost
    cases hlost with
    | lose => rfl
  unfold Model.cache at hcache
  rw [Cache.mk.injEq] at hcache
  simp only [okResponse, Json.index, List.lookup_cons, beq_self_eq_true]
  exact ⟨rfl, h.step hstep, heffect.policy, hcache.1, hcache.2⟩

/-! ## `set` -/

theorem lookup_setField_ne {pairs : List (String × UInt64)} {fields : List (String × Json)}
    {k : String} (h : k ∉ pairs.map Prod.fst) :
    (pairs.foldl setField fields).lookup k = fields.lookup k := by
  induction pairs generalizing fields with
  | nil => rfl
  | cons pair rest ih =>
    simp only [List.map_cons, List.mem_cons, not_or] at h
    rw [List.foldl_cons, ih h.2, setField, Dict.lookup_insert, if_neg (Ne.symm h.1)]

theorem lookup_setField {pairs : List (String × UInt64)} {fields : List (String × Json)}
    {k : String} {v : UInt64} (hnodup : Dict.Distinct pairs) (h : (k, v) ∈ pairs) :
    (pairs.foldl setField fields).lookup k = some (.posInt v) := by
  induction pairs generalizing fields with
  | nil => cases h
  | cons pair rest ih =>
    rw [Dict.Distinct, List.map_cons, List.nodup_cons] at hnodup
    rw [List.foldl_cons]
    rcases List.mem_cons.mp h with rfl | h
    · rw [lookup_setField_ne hnodup.1, setField, Dict.lookup_insert, if_pos rfl]
    · exact ih hnodup.2 h

theorem cmd_setRequest {pairs : List (String × UInt64)} (h : "cmd" ∉ pairs.map Prod.fst) :
    ((setRequest pairs).index "cmd").asStr = some "set" := by
  rw [setRequest, Json.index, lookup_setField_ne h]
  rfl

theorem index_setRequest_ne {pairs : List (String × UInt64)} (f : PmField)
    (h : f.key ∉ pairs.map Prod.fst) : ((setRequest pairs).index f.key).asU64 = none := by
  rw [setRequest, Json.index, lookup_setField_ne h]
  cases f <;> rfl

theorem index_setRequest {pairs : List (String × UInt64)} {f : PmField} {v : UInt64}
    (hnodup : Dict.Distinct pairs) (h : (f.key, v) ∈ pairs) :
    ((setRequest pairs).index f.key).asU64 = some v := by
  rw [setRequest, Json.index, lookup_setField hnodup h]
  rfl

/-- What a `set` changes, refused or not. -/
structure PolicySet (pairs : List (String × UInt64)) (m m' : Model) : Prop where
  model : m' = { m with policy := m'.policy }
  others : ∀ f : PmField, f.key ∉ pairs.map Prod.fst → f.get m'.policy = f.get m.policy

theorem PolicySet.sized {pairs : List (String × UInt64)} {m m' : Model} (hp : PolicySet pairs m m')
    (h : m.Sized size lbs cacheCap) : m'.Sized size lbs cacheCap := by
  rw [hp.model]
  exact h.step (ran (.setPolicy m'.policy) .done trivial rfl)

theorem handleSet_model (shared : Shared) (req : Json) :
    (handleSet shared req).2.model
      = { shared.model with policy := (handleSet shared req).2.model.policy } := by
  unfold handleSet
  simp only
  split <;> rfl

theorem handleSet_get (shared : Shared) (req : Json) (f : PmField) :
    f.get (handleSet shared req).2.model.policy
      = if f ∈ Guarded.accepted (fits req) PmField.all then
          f.get (assign req f shared.model.policy)
        else f.get shared.model.policy := by
  have hnodup : (Guarded.accepted (fits req) PmField.all).Nodup :=
    nodup_all.sublist (List.takeWhile_sublist _)
  rw [(handleSet_spec shared req).2, Guarded.inTurn_eq]
  exact get_foldl_assign req f hnodup shared.model.policy

theorem handleSet_others (shared : Shared) {req : Json} {f : PmField}
    (h : (req.index f.key).asU64 = none) :
    f.get (handleSet shared req).2.model.policy = f.get shared.model.policy := by
  rw [handleSet_get, get_assign_none h, ite_self]

theorem lookup_setField_mem {pairs : List (String × UInt64)} {fields : List (String × Json)}
    {k : String} (h : k ∈ pairs.map Prod.fst) :
    ∃ v, (pairs.foldl setField fields).lookup k = some (.posInt v) := by
  induction pairs generalizing fields with
  | nil => cases h
  | cons pair rest ih =>
    rw [List.foldl_cons]
    by_cases hrest : k ∈ rest.map Prod.fst
    · exact ih hrest
    · rcases List.mem_cons.mp h with rfl | h
      · exact ⟨pair.2, by rw [lookup_setField_ne hrest, setField, Dict.lookup_insert, if_pos rfl]⟩
      · exact absurd h hrest

/-- A key `cmd` among the pairs makes another request of it, which is
refused. -/
theorem handleCtl_set {s t : Shared} {pairs : List (String × UInt64)} {resp : Json}
    (h : handleCtl (fun _ => .ok (setRequest pairs)) s "" = some (resp, t)) :
    PolicySet pairs s.model t.model := by
  by_cases hkey : "cmd" ∈ pairs.map Prod.fst
  · have hcmd : ((setRequest pairs).index "cmd").asStr = none := by
      have hset : ∃ v, (pairs.foldl setField [("cmd", .string "set")]).lookup "cmd"
          = some (.posInt v) := lookup_setField_mem hkey
      rcases hset with ⟨v, hv⟩
      rw [setRequest, Json.index, hv]
      rfl
    simp only [handleCtl, hcmd, Option.some.injEq, Prod.mk.injEq] at h
    rw [← h.2]
    exact ⟨rfl, fun _ _ => rfl⟩
  · simp only [handleCtl, cmd_setRequest hkey, Option.some.injEq] at h
    have hmodel := handleSet_model s (setRequest pairs)
    have hothers := fun (f : PmField) (hf : f.key ∉ pairs.map Prod.fst) =>
      handleSet_others s (index_setRequest_ne f hf)
    rw [h] at hmodel hothers
    exact ⟨hmodel, hothers⟩

theorem wp_set {s : Shared} {pairs : List (String × UInt64)} :
    wp (direct shellRun) (exec display (.set pairs))
      (fun _ t => PolicySet pairs s.model t.model) s := by
  simp only [exec, wp_monad_bind, wp_ctl]
  intro resp t hresp
  have hset := handleCtl_set hresp
  split <;> exact hset

/-- A `set` of rates up to 1000. -/
theorem wp_set_ok {s : Shared} {pairs : List (String × UInt64)} (hcmd : "cmd" ∉ pairs.map Prod.fst)
    (hnodup : Dict.Distinct pairs) (hle : ∀ pair, pair ∈ pairs → pair.2 ≤ 1000) :
    wp (direct shellRun) (exec display (.set pairs))
      (fun out t => out = .ok () ∧ PolicySet pairs s.model t.model ∧
        ∀ (f : PmField) v, (f.key, v) ∈ pairs → f.get t.model.policy = v.toUInt32) s := by
  simp only [exec, wp_monad_bind, wp_ctl]
  intro resp t hresp
  have hset := handleCtl_set hresp
  simp only [handleCtl, cmd_setRequest hcmd, Option.some.injEq] at hresp
  have hfits : PmField.all.all (fits (setRequest pairs)) = true := by
    rw [List.all_eq_true]
    intro f _
    unfold fits
    by_cases hkey : f.key ∈ pairs.map Prod.fst
    · rcases List.mem_map.mp hkey with ⟨pair, hpair, hfst⟩
      have hmem : (f.key, pair.2) ∈ pairs := by rw [← hfst]; exact hpair
      rw [index_setRequest hnodup hmem]
      simpa using hle pair hpair
    · rw [index_setRequest_ne f hkey]
  have hok : resp.index "ok" = .bool true := by
    have hspec := (handleSet_spec s (setRequest pairs)).1
    rwa [Guarded.inTurn_eq, hfits, hresp] at hspec
  have hget := fun f => handleSet_get s (setRequest pairs) f
  rw [hresp, Guarded.accepted_of_all _ hfits] at hget
  rw [hok]
  simp only [Json.asBool, if_true, wp_ret]
  refine ⟨trivial, hset, ?_⟩
  intro f v hv
  rw [hget f, if_pos f.mem_all, get_assign_some (index_setRequest hnodup hv)]

/-! ## Writes and FLUSHes -/

theorem wp_writeAllAt {off : UInt64} {data : Bytes} {s : Shared}
    {Q : Except String (Except String Unit) → Shared → Prop} :
    wp (direct shellRun) (writeAllAt off data) Q s ↔
      (∀ t, Written s ⟨off.toNat, data⟩ t → Q (.ok (.ok ())) t) ∧
        ∀ e t, WriteFailed s ⟨off.toNat, data⟩ t → Q (.ok (.error e)) t := by
  constructor
  · intro h
    exact ⟨fun t hw => h (.ok ()) t hw, fun e t hw => h (.error e) t hw⟩
  · intro h r t hr
    cases r with
    | ok => exact h.1 t hr
    | error e => exact h.2 e t hr

theorem wp_syncAll {s : Shared} {Q : Except String (Except String Unit) → Shared → Prop}
    (h : s.model.Sized size lbs cacheCap)
    (hQ : ∀ t, FlushServed size lbs cacheCap s.model t.model → Q (.ok (.ok ())) t) :
    wp (direct shellRun) syncAll Q s := by
  intro r t hr
  cases r with
  | error => exact hr.elim
  | ok =>
    rcases hr with ⟨buf, hserve, -⟩
    exact hQ t (serve_flush h hserve)

/-- The entry of a `write`. -/
def patternEntry (off len : UInt64) (pattern : String) : Entry :=
  ⟨off.toNat, fillPattern pattern off len.toNat⟩

theorem patternEntry_stop (off len : UInt64) (pattern : String) :
    (patternEntry off len pattern).stop = off.toNat + len.toNat := by
  unfold patternEntry Entry.stop
  rw [fillPattern_length]

theorem patternEntry_window (off len : UInt64) (pattern : String) :
    (patternEntry off len pattern).window off.toNat (off.toNat + len.toNat)
      = fillPattern pattern off len.toNat := by
  unfold Entry.window patternEntry
  rw [Nat.sub_self, Nat.add_sub_cancel_left,
    slice_self _ (fillPattern_length pattern off len.toNat).symm]

/-- What a `write … fsync` leaves on a device that flushes. -/
structure Synced (size lbs cacheCap : Nat) (e : Entry) (m m' : Model) : Prop where
  stop : e.stop ≤ size
  sized : m'.Sized size lbs cacheCap
  policy : m'.policy = m.policy
  volatile : m'.volatile = []
  committed : m'.committed = overwrite m.view e

theorem wp_write_synced {s : Shared} {off len : UInt64} {pattern : String}
    (h : s.model.Sized size lbs cacheCap) (honest : s.model.policy.flushLiePm = 0) :
    wp (direct shellRun) (exec display (.write off len pattern true false)) (fun out t =>
      out = .ok () → off % 4096 = 0 ∧
        Synced size lbs cacheCap (patternEntry off len pattern) s.model t.model) s := by
  simp only [exec]
  split
  · simp
  · rename_i hpage
    rw [wp_monad_bind, wp_writeAllAt]
    constructor
    · intro t hw
      change Written s (patternEntry off len pattern) t at hw
      have hsized := hw.sent.sized h
      simp only [if_true, wp_monad_bind]
      refine wp_syncAll hsized.1 fun u hflush => ?_
      simp only [orFail, wp_ret]
      intro _
      have hclean := hflush.honest (by rw [hsized.2, honest])
      refine ⟨by simpa using hpage, ?_, hflush.sized, hflush.policy.trans hsized.2, hclean.1, ?_⟩
      · rcases hw with ⟨pieces, results, hfits, -⟩
        exact h.size ▸ hfits.inRange
      · rw [hclean.2, hw.view h]
    · intro e t hw
      simp

theorem aligned_of_page {off : UInt64} (page : off % 4096 = 0) : Aligned off := by
  have hpage := congrArg UInt64.toNat page
  rwa [UInt64.toNat_mod] at hpage

/-- The pattern of a range is that of a range around it. -/
theorem slice_pattern {view : Bytes} {off len off' len' : UInt64} {pattern : String}
    (h : slice view off.toNat (off.toNat + len.toNat) = fillPattern pattern off len.toNat)
    (page : off % 4096 = 0) (page' : off' % 4096 = 0)
    (inside : off.toNat ≤ off'.toNat ∧ off'.toNat + len'.toNat ≤ off.toNat + len.toNat) :
    slice view off'.toNat (off'.toNat + len'.toNat) = fillPattern pattern off' len'.toNat := by
  rw [anchored pattern (aligned_of_page page) (aligned_of_page page') inside.1 inside.2, ← h,
    slice_slice _ (by omega)]
  congr 1
  · omega
  · omega

/-- What a FLUSH leaves can be read as before. -/
theorem FlushServed.view {m m' : Model} (h : FlushServed size lbs cacheCap m m') :
    m'.view = m.view := by
  rcases h.step with ⟨ev, hstep, hev⟩
  rcases hev with rfl | rfl
  · exact Cache.view_step hstep rfl
  · exact Cache.view_step hstep rfl

/-- How a `write` of whole blocks in the device ends, and what it leaves. -/
structure WriteOutcome (size lbs cacheCap : Nat) (e : Entry) (expectError : Bool) (m m' : Model)
    (out : Except String Unit) : Prop where
  sized : m'.Sized size lbs cacheCap
  policy : m'.policy = m.policy
  honest : m.policy.errorPm = 0 → (out = .ok () ↔ expectError = false)
  errored : m.policy.errorPm = 1000 → 0 < e.data.length → (out = .ok () ↔ expectError = true)
  written : expectError = false → out = .ok () → m'.view = overwrite m.view e
  blocks : ∀ b, (b + 1) * lbs ≤ size → block lbs b m'.view = block lbs b m.view ∨
    e.Covers (b * lbs) ((b + 1) * lbs) ∧
      block lbs b m'.view = e.window (b * lbs) ((b + 1) * lbs)

theorem wp_write {s : Shared} {off len : UInt64} {pattern : String}
    {fsync expectError : Bool} (h : s.model.Sized size lbs cacheCap) (hlbs : lbs ∣ 4096)
    (page : off % 4096 = 0) (whole : lbs ∣ len.toNat) (inside : off.toNat + len.toNat ≤ size) :
    wp (direct shellRun) (exec display (.write off len pattern fsync expectError)) (fun out t =>
      WriteOutcome size lbs cacheCap (patternEntry off len pattern) expectError s.model t.model out)
      s := by
  have hoff : lbs ∣ off.toNat := hlbs.trans (Nat.dvd_of_mod_eq_zero (aligned_of_page page))
  have haligned : WriteCache.Aligned lbs (patternEntry off len pattern) := by
    refine ⟨hoff, ?_⟩
    unfold patternEntry
    rw [fillPattern_length]
    exact whole
  have hfits : Taken s.model (patternEntry off len pattern) := by
    refine ⟨h.lbs.symm ▸ haligned, ?_⟩
    rw [patternEntry_stop, h.size]
    exact inside
  have hblocks : ∀ t, Sent s (patternEntry off len pattern) t → ∀ b, (b + 1) * lbs ≤ size →
      block lbs b t.model.view = block lbs b s.model.view ∨
        (patternEntry off len pattern).Covers (b * lbs) ((b + 1) * lbs) ∧
          block lbs b t.model.view
            = (patternEntry off len pattern).window (b * lbs) ((b + 1) * lbs) := by
    intro t hs b hb
    rcases hs.blocks h with ⟨parts, hrange, hparts, hview⟩
    have hviewed := view_length h
    rw [hview]
    exact block_parts haligned (hviewed ▸ hrange) hparts (hviewed ▸ hb)
  simp only [exec, page, ne_eq, not_true_eq_false, if_false]
  rw [wp_monad_bind, wp_writeAllAt]
  constructor
  · intro t hw
    change Written s (patternEntry off len pattern) t at hw
    have hview := hw.view h
    obtain ⟨hsized, hpolicy⟩ := hw.sent.sized h
    have hempty : s.model.policy.errorPm = 1000 → 0 < (patternEntry off len pattern).data.length →
        False := by
      intro halways hpos
      rw [hw.errored h halways] at hpos
      exact Nat.lt_irrefl 0 hpos
    cases expectError with
    | true =>
      exact ⟨hsized, hpolicy, by simp, fun halways hpos => (hempty halways hpos).elim, by simp,
        hblocks t hw.sent⟩
    | false =>
      cases fsync with
      | false =>
        exact ⟨hsized, hpolicy, by simp, fun halways hpos => (hempty halways hpos).elim,
          fun _ _ => hview, hblocks t hw.sent⟩
      | true =>
        simp only [if_true, wp_monad_bind]
        refine wp_syncAll hsized fun u hflush => ?_
        simp only [orFail, wp_ret]
        refine ⟨hflush.sized, hflush.policy.trans hpolicy, by simp,
          fun halways hpos => (hempty halways hpos).elim, fun _ _ => hflush.view.trans hview, ?_⟩
        rw [hflush.view]
        exact hblocks t hw.sent
  · intro e t hw
    change WriteFailed s (patternEntry off len pattern) t at hw
    obtain ⟨hsized, hpolicy⟩ := hw.sent.sized h
    have hnot : s.model.policy.errorPm = 0 → ¬ Taken s.model (patternEntry off len pattern) :=
      hw.honest h
    cases expectError with
    | true =>
      exact ⟨hsized, hpolicy, fun hnever => absurd hfits (hnot hnever), by simp, by simp,
        hblocks t hw.sent⟩
    | false =>
      exact ⟨hsized, hpolicy, fun hnever => absurd hfits (hnot hnever), by simp, by simp,
        hblocks t hw.sent⟩

/-- The bytes that a step sends to the device. -/
def Step.load : Step → Nat
  | .write _ len _ _ _ => len.toNat
  | _ => 0

/-- A step that makes nothing durable: it may FLUSH where FLUSHes lie. -/
def Step.Unsynced (lying : Prop) : Step → Prop
  | .write _ _ _ fsync _ => fsync = true → lying
  | .flush => lying
  | .crash _ | .run _ _ => False
  | .set pairs => lying → "flush_lie_pm" ∉ pairs.map Prod.fst
  | _ => True

/-- Nothing has been written back since `committed`, and there is room for
`room` more bytes. -/
structure Behind (size lbs cacheCap : Nat) (lying : Prop) (committed : Bytes) (room : Nat)
    (m : Model) : Prop where
  sized : m.Sized size lbs cacheCap
  committed : m.committed = committed
  lying : lying → m.policy.flushLiePm = 1000
  room : m.volatileBytes + room ≤ cacheCap

theorem Behind.untouched {lying : Prop} {committed : Bytes} {room : Nat} {m m' : Model}
    (h : Behind size lbs cacheCap lying committed room m) (hu : Untouched size lbs cacheCap m m') :
    Behind size lbs cacheCap lying committed room m' := by
  have hcommitted : m'.committed = m.committed := congrArg Cache.stable hu.cache
  refine ⟨hu.sized, hcommitted.trans h.committed, ?_, ?_⟩
  · rw [hu.policy]
    exact h.lying
  · rw [hu.room]
    exact h.room

theorem Behind.sent {lying : Prop} {committed : Bytes} {room : Nat} {s t : Shared} {e : Entry}
    (h : Behind size lbs cacheCap lying committed (e.data.length + room) s.model)
    (hs : Sent s e t) : Behind size lbs cacheCap lying committed room t.model := by
  have hroom := h.room
  have hsized := hs.sized h.sized
  have hsent := hs.room h.sized (by omega)
  refine ⟨hsized.1, hsent.1.trans h.committed, ?_, by omega⟩
  rw [hsized.2]
  exact h.lying

theorem Behind.flush {lying : Prop} {committed : Bytes} {room : Nat} {m m' : Model}
    (h : Behind size lbs cacheCap lying committed room m) (hlying : lying)
    (hf : FlushServed size lbs cacheCap m m') :
    Behind size lbs cacheCap lying committed room m' := by
  have hlie := hf.lie (h.lying hlying)
  refine ⟨hf.sized, hlie.1.trans h.committed, ?_, ?_⟩
  · rw [hf.policy]
    exact h.lying
  · rw [hlie.2.2]
    exact h.room

theorem handleCtl_thaw {s t : Shared} {result : String} {resp : Json}
    (h : handleCtl (fun _ => .ok (.object [("cmd", .string "thaw"), ("result", .string result)]))
      s "" = some (resp, t)) : t.model = s.model := by
  have hcmd : ((Json.object [("cmd", .string "thaw"), ("result", .string result)]).index
      "cmd").asStr = some "thaw" := rfl
  simp only [handleCtl, hcmd] at h
  split at h
  · simp only [Option.some.injEq, Prod.mk.injEq] at h
    rw [← h.2]
  · simp only [Option.some.injEq, Prod.mk.injEq] at h
    rw [← h.2]

/-- One step. -/
theorem wp_unsynced {lying : Prop} {committed : Bytes} {room : Nat} {s : Shared} {step : Step}
    (hstep : step.Unsynced lying)
    (h : Behind size lbs cacheCap lying committed (step.load + room) s.model) :
    wp (direct shellRun) (exec display step)
      (fun _ t => Behind size lbs cacheCap lying committed room t.model) s := by
  have hless : Behind size lbs cacheCap lying committed room s.model := by
    refine ⟨h.sized, h.committed, h.lying, ?_⟩
    have hroom := h.room
    omega
  cases step with
  | write off len pattern fsync expectError =>
    have hentry : Behind size lbs cacheCap lying committed
        ((patternEntry off len pattern).data.length + room) s.model := by
      unfold patternEntry
      rw [fillPattern_length]
      exact h
    simp only [exec]
    split
    · simpa using hless
    · rw [wp_monad_bind, wp_writeAllAt]
      constructor
      · intro t hw
        have hbehind := hentry.sent hw.sent
        cases expectError with
        | true => exact hbehind
        | false =>
          cases fsync with
          | false => exact hbehind
          | true =>
            simp only [if_true, wp_monad_bind]
            exact wp_syncAll hbehind.sized fun u hflush => hbehind.flush (hstep rfl) hflush
      · intro e t hw
        have hbehind := hentry.sent hw.sent
        cases expectError <;> exact hbehind
  | expect off len pattern =>
    refine wp_only (H := direct shellRun)
      (fun t => Behind size lbs cacheCap lying committed room t.model) ?_
      (only_exec (.expect off len pattern)) hless
    intro s c r t hc hbehind hr
    rcases hc with ⟨off, n, rfl⟩
    cases r with
    | ok => exact hbehind.untouched (hr.2.untouched hbehind.sized)
    | error => exact hbehind.untouched (hr.untouched hbehind.sized)
  | flush =>
    simp only [exec, wp_monad_bind]
    exact wp_syncAll hless.sized fun u hflush => hless.flush hstep hflush
  | crash mode => exact hstep.elim
  | run cmd expectOk => exact hstep.elim
  | set pairs =>
    refine wp_mono wp_set fun out t hset => ⟨hset.sized h.sized, ?_, ?_, ?_⟩
    · rw [hset.model]
      exact h.committed
    · intro hlying
      exact (hset.others .flushLiePm (hstep hlying)).trans (h.lying hlying)
    · rw [hset.model]
      exact hless.room
  | thaw result =>
    simp only [exec, wp_monad_bind, wp_ctl]
    intro resp t hresp
    rw [← handleCtl_thaw hresp] at hless
    split <;> exact hless
  | sleep ms =>
    intro r t hr
    obtain rfl : t = s := hr
    exact hless

/-- Without a FLUSH that works, and while the cache has room for what the
steps write, a `crash mode=drop` takes the device back to where it was, whether
the steps have succeeded or not. -/
theorem rolls_back {lying : Prop} {s : Shared} {steps : List Step}
    (h : s.model.Sized size lbs cacheCap) (hlying : lying → s.model.policy.flushLiePm = 1000)
    (unsynced : ∀ step, step ∈ steps → step.Unsynced lying)
    (room : s.model.volatileBytes + (steps.map Step.load).sum ≤ cacheCap) :
    wp (direct shellRun) (runSteps display steps)
      (fun _ t => wp (direct shellRun) (exec display (.crash "drop"))
        (fun out u => out = .ok () ∧ u.model.view = s.model.committed ∧ u.model.volatile = []) t) s := by
  have hbehind : Behind size lbs cacheCap lying s.model.committed (steps.map Step.load).sum s.model :=
    ⟨h, rfl, hlying, room⟩
  generalize s.model.committed = committed at hbehind
  clear room hlying h
  induction steps generalizing s with
  | nil =>
    unfold runSteps
    rw [wp_ret]
    refine wp_mono (wp_crash_drop hbehind.sized) fun out u hcrash => ⟨hcrash.1, ?_, hcrash.2.volatile⟩
    rw [hcrash.2.view, hbehind.committed]
  | cons step rest ih =>
    rw [List.map_cons, List.sum_cons] at hbehind
    unfold runSteps
    rw [wp_monad_bind]
    refine wp_mono (wp_unsynced (unsynced step List.mem_cons_self) hbehind) fun out t ht => ?_
    cases out with
    | ok => exact ih (fun step hstep => unsynced step (List.mem_cons_of_mem _ hstep)) ht
    | error =>
      refine wp_mono (wp_crash_drop ht.sized) fun out u hcrash =>
        ⟨hcrash.1, ?_, hcrash.2.volatile⟩
      rw [hcrash.2.view, ht.committed]

/-- A write and a FLUSH that lies. -/
theorem rolls_back_oneBlock :
    wp (direct onlyTrue) (runSteps (fun _ => "") [.write 0 4096 "a" true false, .flush])
      (fun _ t => wp (direct onlyTrue) (exec (fun _ => "") (.crash "drop"))
        (fun out u => out = .ok () ∧ u.model.view = (oneBlock { flushLiePm := 1000 }).model.committed ∧
          u.model.volatile = []) t) (oneBlock { flushLiePm := 1000 }) := by
  refine rolls_back (sized_oneBlock _) (fun _ : True => rfl) ?_ (by decide)
  intro step hstep
  simp only [List.mem_cons, List.not_mem_nil, or_false] at hstep
  rcases hstep with rfl | rfl
  · exact fun _ => trivial
  · trivial

end Scenario

end Ublkera
