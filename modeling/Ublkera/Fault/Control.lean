import Ublkera.Fault.Model
import Ublkera.Lib.Guarded
import Ublkera.Lib.Json

/-!
# The control socket of the fault device

`handleCtl` is `handle_ctl` of `ublkfault/src/main.rs`: one line is one
request, and its answer is one JSON value.

* `handleCtl_call`: a request is one call of the model, or none.
* `all_or_nothing_iff`: `set` checks a field and assigns it before it checks
  the next one, so a refused `set` keeps the fields in front of the bad one.
-/

namespace Ublkera

namespace Fault

/-! ## The policy -/

/-- The fields that `set` loops over. -/
inductive PmField where
  | errorPm
  | flushLiePm
  | hangPm
  deriving DecidableEq, Repr

namespace PmField

def key : PmField → String
  | .errorPm => "error_pm"
  | .flushLiePm => "flush_lie_pm"
  | .hangPm => "hang_pm"

def get (policy : Policy) : PmField → UInt32
  | .errorPm => policy.errorPm
  | .flushLiePm => policy.flushLiePm
  | .hangPm => policy.hangPm

def set (policy : Policy) (v : UInt32) : PmField → Policy
  | .errorPm => { policy with errorPm := v }
  | .flushLiePm => { policy with flushLiePm := v }
  | .hangPm => { policy with hangPm := v }

/-- In the order of the source. -/
def all : List PmField := [.errorPm, .flushLiePm, .hangPm]

theorem mem_all (f : PmField) : f ∈ all := by
  cases f with
  | errorPm | flushLiePm | hangPm => simp [all]

theorem get_set (policy : Policy) (v : UInt32) (f g : PmField) :
    g.get (f.set policy v) = if g = f then v else g.get policy := by
  cases f <;> cases g <;> rfl

end PmField

theorem Policy.ext_get {p q : Policy} (h : ∀ f : PmField, f.get p = f.get q) : p = q := by
  cases p
  cases q
  exact (Policy.mk.injEq ..).mpr ⟨h .errorPm, h .flushLiePm, h .hangPm⟩

def Policy.json (p : Policy) : Json :=
  .object [("error_pm", .nat p.errorPm.toNat), ("flush_lie_pm", .nat p.flushLiePm.toNat),
    ("hang_pm", .nat p.hangPm.toNat)]

def Stats.json (s : Stats) : Json :=
  .object [("reads", .nat s.reads), ("writes", .nat s.writes), ("flushes", .nat s.flushes),
    ("discards", .nat s.discards), ("errors_injected", .nat s.errorsInjected),
    ("flush_lies", .nat s.flushLies), ("hangs", .nat s.hangs), ("crashes", .nat s.crashes),
    ("autonomous_writebacks", .nat s.autonomousWritebacks)]

def CrashReport.json (r : CrashReport) : Json :=
  .object [("committed", .nat r.committed), ("dropped", .nat r.dropped), ("torn", .nat r.torn)]

/-! ## The handler -/

structure Shared where
  model : Model
  parked : List UInt16
  /-- 0, or the negative errno that a thaw fails the parked requests with. -/
  thawResult : Int
  /-- The counter of the eventfd. -/
  efd : Nat

def okResponse (fields : List (String × Json)) : Json := .object (("ok", .bool true) :: fields)

def errorResponse (message : String) : Json :=
  .object [("ok", .bool false), ("error", .string message)]

/-- The loop of `set`.  The source writes the fields in place, so the policy
of an early return is the one that the loop has come to. -/
def setLoop (req : Json) : List PmField → Policy → Option String × Policy
  | [], policy => (none, policy)
  | f :: rest, policy =>
    match (req.index f.key).asU64 with
    | some v =>
      if 1000 < v then (some (f.key ++ " > 1000"), policy)
      else setLoop req rest (f.set policy v.toUInt32)
    | none => setLoop req rest policy

def handleSet (shared : Shared) (req : Json) : Json × Shared :=
  let (refused, policy) := setLoop req PmField.all shared.model.policy
  let shared := { shared with model.policy := policy }
  match refused with
  | some message => (errorResponse message, shared)
  | none => (okResponse [("policy", policy.json)], shared)

def crashMode (req : Json) : Except String CrashMode :=
  match (req.index "mode").asStr with
  | some "drop" => .ok .drop
  | some "seeded" | none => .ok .seeded
  | some other => .error ("unknown mode '" ++ other ++ "'")

def thawRes (req : Json) : Except String Int :=
  match (req.index "result").asStr with
  | some "ok" | none => .ok 0
  | some "eio" => .ok negEio
  | some other => .error ("unknown result '" ++ other ++ "'")

/-- `handle_ctl`, with the JSON parser as a parameter.  It is `none` where
the model panics. -/
def handleCtl (fromStr : String → Except String Json) (shared : Shared) (line : String) :
    Option (Json × Shared) :=
  match fromStr line with
  | .error e => some (errorResponse ("bad request: " ++ e), shared)
  | .ok req =>
    match (req.index "cmd").asStr with
    | some "status" =>
      some (okResponse [("policy", shared.model.policy.json), ("stats", shared.model.stats.json),
        ("volatile_bytes", .nat shared.model.volatileBytes),
        ("parked", .nat shared.parked.length)], shared)
    | some "set" => some (handleSet shared req)
    | some "crash" =>
      match crashMode req with
      | .error e => some (errorResponse e, shared)
      | .ok mode =>
        (shared.model.crash mode).map fun (report, model) =>
          (okResponse [("report", report.json)], { shared with model })
    | some "thaw" =>
      match thawRes req with
      | .error e => some (errorResponse e, shared)
      | .ok res =>
        some (okResponse [("parked", .nat shared.parked.length)],
          { shared with thawResult := res, efd := shared.efd + 1 })
    | _ => some (errorResponse "unknown cmd (status/set/crash/thaw)", shared)

/-! ## A request is one call of the model -/

theorem handleSet_call (shared : Shared) (req : Json) :
    shared.model.call (.setPolicy (handleSet shared req).2.model.policy)
      = some (.done, (handleSet shared req).2.model) := by
  unfold handleSet
  simp only
  split
  · rfl
  · rfl

theorem handleCtl_call {fromStr : String → Except String Json} {shared after : Shared}
    {line : String} {response : Json}
    (h : handleCtl fromStr shared line = some (response, after)) :
    after.model = shared.model ∨ ∃ c reply, Step shared.model (c, reply) after.model ∧
      ((∃ mode, c = .crash mode) ∨ ∃ policy, c = .setPolicy policy) := by
  unfold handleCtl at h
  split at h
  · cases h
    exact .inl rfl
  · rename_i req _
    split at h
    · cases h
      exact .inl rfl
    · have hset := handleSet_call shared req
      rw [Option.some.inj h] at hset
      exact .inr ⟨_, _, ran (.setPolicy _) .done trivial hset, .inr ⟨_, rfl⟩⟩
    · split at h
      · cases h
        exact .inl rfl
      · rename_i mode _
        obtain ⟨⟨report, model⟩, hcrash, heq⟩ := Option.map_eq_some_iff.mp h
        cases heq
        have hcall : shared.model.call (.crash mode) = some (.report report, model) := by
          show (shared.model.crash mode).map _ = _
          rw [hcrash]
          rfl
        exact .inr ⟨_, _, ran (.crash mode) _ trivial hcall, .inl ⟨mode, rfl⟩⟩
    · split at h
      · cases h
        exact .inl rfl
      · cases h
        exact .inl rfl
    · cases h
      exact .inl rfl

/-! ## `set` as a loop that checks and acts in turn -/

def fits (req : Json) (f : PmField) : Bool :=
  match (req.index f.key).asU64 with
  | some v => v ≤ 1000
  | none => true

def assign (req : Json) (f : PmField) (policy : Policy) : Policy :=
  match (req.index f.key).asU64 with
  | some v => f.set policy v.toUInt32
  | none => policy

theorem setLoop_inTurn (req : Json) (fields : List PmField) (policy : Policy) :
    ((setLoop req fields policy).1.isNone, (setLoop req fields policy).2)
      = Guarded.inTurn (fits req) (assign req) fields policy := by
  induction fields generalizing policy with
  | nil => rfl
  | cons f rest ih =>
    cases hv : (req.index f.key).asU64 with
    | none => simpa [setLoop, Guarded.inTurn, fits, assign, hv] using ih policy
    | some v =>
      by_cases hfits : v ≤ 1000
      · have hle : ¬ 1000 < v := UInt64.not_lt.mpr hfits
        simpa [setLoop, Guarded.inTurn, fits, assign, hv, hfits, hle] using ih _
      · have hlt : 1000 < v := UInt64.not_le.mp hfits
        simp [setLoop, Guarded.inTurn, fits, hv, hfits, hlt]

/-- Each field is assigned once, so the order does not matter. -/
theorem get_foldl_assign (req : Json) (f : PmField) {fields : List PmField} (h : fields.Nodup)
    (policy : Policy) :
    f.get (fields.foldl (fun p g => assign req g p) policy)
      = if f ∈ fields then f.get (assign req f policy) else f.get policy := by
  induction fields generalizing policy with
  | nil => rfl
  | cons g rest ih =>
    obtain ⟨hg, hrest⟩ := List.nodup_cons.mp h
    rw [List.foldl_cons, ih hrest]
    by_cases hf : f = g
    · subst hf
      rw [if_neg hg, if_pos List.mem_cons_self]
    · have hother : ∀ p, f.get (assign req g p) = f.get p := by
        intro p
        unfold assign
        split
        · rw [PmField.get_set, if_neg hf]
        · rfl
      have hown : f.get (assign req f (assign req g policy)) = f.get (assign req f policy) := by
        unfold assign
        cases (req.index f.key).asU64 with
        | none => exact hother policy
        | some v => simp only [PmField.get_set, if_true]
      simp only [List.mem_cons, hf, false_or, hother, hown]

/-! ## All or nothing -/

/-- What a `set` with this answer is to have done to the policy. -/
structure AllOrNothing (req : Json) (before : Policy) (response : Json) (after : Policy) :
    Prop where
  given : response.index "ok" = .bool true → ∀ (f : PmField) (v : UInt64),
    (req.index f.key).asU64 = some v → (f.get after).toNat = v.toNat ∧ v ≤ 1000
  others : response.index "ok" = .bool true → ∀ f : PmField,
    (req.index f.key).asU64 = none → f.get after = f.get before
  refused : response.index "ok" = .bool false → after = before

/-- No field is above 1000, or the fields in front of the first such field
have the requested values already. -/
def NothingToUndo (req : Json) (policy : Policy) : Prop :=
  PmField.all.all (fits req) = true ∨
    ∀ f ∈ Guarded.accepted (fits req) PmField.all, ∀ v, (req.index f.key).asU64 = some v →
      (f.get policy).toNat = v.toNat

theorem nodup_all : PmField.all.Nodup := by decide

theorem fits_of_all {req : Json} (h : PmField.all.all (fits req) = true) {f : PmField}
    {v : UInt64} (hv : (req.index f.key).asU64 = some v) : v ≤ 1000 := by
  have hf := List.all_eq_true.mp h f f.mem_all
  simpa [fits, hv] using hf

theorem toNat_toUInt32_of_fits {v : UInt64} (h : v ≤ 1000) : v.toUInt32.toNat = v.toNat := by
  have hle := UInt64.le_iff_toNat_le.mp h
  have hthousand : (1000 : UInt64).toNat = 1000 := rfl
  rw [UInt64.toNat_toUInt32]
  omega

theorem get_assign_some {req : Json} {f : PmField} {v : UInt64}
    (hv : (req.index f.key).asU64 = some v) (policy : Policy) :
    f.get (assign req f policy) = v.toUInt32 := by
  simp only [assign, hv, PmField.get_set, if_true]

theorem get_assign_none {req : Json} {f : PmField} (hv : (req.index f.key).asU64 = none)
    (policy : Policy) : f.get (assign req f policy) = f.get policy := by
  simp only [assign, hv]

/-- What the loop of a `set` answers, and the policy that it leaves. -/
theorem handleSet_spec (shared : Shared) (req : Json) :
    (handleSet shared req).1.index "ok" = .bool
        (Guarded.inTurn (fits req) (assign req) PmField.all shared.model.policy).1 ∧
      (handleSet shared req).2.model.policy =
        (Guarded.inTurn (fits req) (assign req) PmField.all shared.model.policy).2 := by
  rw [← setLoop_inTurn]
  unfold handleSet
  simp only
  cases hrefused : (setLoop req PmField.all shared.model.policy).1 with
  | none | some message => exact ⟨rfl, rfl⟩

/-- The fields in front of the bad one stay assigned. -/
theorem foldl_accepted_eq_iff (req : Json) (policy : Policy) :
    (Guarded.accepted (fits req) PmField.all).foldl (fun p f => assign req f p) policy = policy ↔
      ∀ f ∈ Guarded.accepted (fits req) PmField.all, ∀ v, (req.index f.key).asU64 = some v →
        (f.get policy).toNat = v.toNat := by
  have hnodup : (Guarded.accepted (fits req) PmField.all).Nodup :=
    nodup_all.sublist (List.takeWhile_sublist _)
  constructor
  · intro heq f hf v hv
    have hget := get_foldl_assign req f hnodup policy
    rw [heq, if_pos hf, get_assign_some hv] at hget
    have hfits : v ≤ 1000 := by simpa [fits, hv] using List.mem_takeWhile_imp hf
    rw [hget, toNat_toUInt32_of_fits hfits]
  · intro h
    refine Policy.ext_get fun f => ?_
    rw [get_foldl_assign req f hnodup policy]
    split
    · rename_i hf
      cases hv : (req.index f.key).asU64 with
      | none => rw [get_assign_none hv]
      | some v =>
        have hfits : v ≤ 1000 := by simpa [fits, hv] using List.mem_takeWhile_imp hf
        rw [get_assign_some hv]
        apply UInt32.toNat.inj
        rw [toNat_toUInt32_of_fits hfits, h f hf v hv]
    · rfl

/-- Checking first and assigning in turn come to the same. -/
theorem nothingToUndo_iff (req : Json) (policy : Policy) :
    NothingToUndo req policy ↔
      Guarded.inTurn (fits req) (assign req) PmField.all policy
        = Guarded.checkedFirst (fits req) (assign req) PmField.all policy := by
  rw [Guarded.inTurn_eq_checkedFirst_iff, foldl_accepted_eq_iff]
  rfl

/-- A `set` that checked all fields first would be all or nothing. -/
theorem allOrNothing_of_checkedFirst {req : Json} {before after : Policy} {response : Json}
    (hok : response.index "ok"
      = .bool (Guarded.checkedFirst (fits req) (assign req) PmField.all before).1)
    (hafter : after = (Guarded.checkedFirst (fits req) (assign req) PmField.all before).2) :
    AllOrNothing req before response after := by
  unfold Guarded.checkedFirst at hok hafter
  cases hall : PmField.all.all (fits req) with
  | true =>
    rw [if_pos hall] at hok hafter
    refine ⟨fun _ f v hv => ?_, fun _ f hv => ?_, fun hfalse => ?_⟩
    · have hfits := fits_of_all hall hv
      rw [hafter, get_foldl_assign req f nodup_all, if_pos f.mem_all, get_assign_some hv]
      exact ⟨toNat_toUInt32_of_fits hfits, hfits⟩
    · rw [hafter, get_foldl_assign req f nodup_all, if_pos f.mem_all, get_assign_none hv]
    · rw [hok] at hfalse
      cases hfalse
  | false =>
    rw [if_neg (by simp [hall])] at hok hafter
    refine ⟨fun htrue => ?_, fun htrue => ?_, fun _ => hafter⟩
    · rw [hok] at htrue
      cases htrue
    · rw [hok] at htrue
      cases htrue

theorem all_or_nothing_iff (fromStr : String → Except String Json) (shared : Shared)
    (line : String) (req : Json) (parsed : fromStr line = .ok req)
    (cmd : (req.index "cmd").asStr = some "set") :
    ∃ response after, handleCtl fromStr shared line = some (response, after) ∧
      (AllOrNothing req shared.model.policy response after.model.policy ↔
        NothingToUndo req shared.model.policy) := by
  refine ⟨(handleSet shared req).1, (handleSet shared req).2, ?_, ?_⟩
  · simp only [handleCtl, parsed, cmd]
  · obtain ⟨hok, hpolicy⟩ := handleSet_spec shared req
    rw [nothingToUndo_iff]
    constructor
    · intro h
      rw [Guarded.inTurn_eq_checkedFirst_iff]
      rw [Guarded.inTurn_eq] at hok hpolicy
      cases hall : PmField.all.all (fits req) with
      | true => exact .inl rfl
      | false =>
        rw [hall] at hok
        have hsame := h.refused hok
        rw [hpolicy] at hsame
        exact .inr hsame
    · intro heq
      rw [heq] at hok hpolicy
      exact allOrNothing_of_checkedFirst hok hpolicy

/-! ## A half-applied `set` -/

/-- A parser that knows one line. -/
def knows (text : String) (req : Json) (line : String) : Except String Json :=
  if line = text then .ok req else .error "expected value at line 1 column 1"

theorem knows_self (text : String) (req : Json) : knows text req text = .ok req := if_pos rfl

def idle : Shared :=
  { model := .new 4096 4096 4096 1 {}, parked := [], thawResult := 0, efd := 0 }

def halfLine : String :=
  "\x7b\"cmd\":\"set\",\"error_pm\":5,\"flush_lie_pm\":2000\x7d"

def halfSet : Json :=
  .object [("cmd", .string "set"), ("error_pm", .posInt 5), ("flush_lie_pm", .posInt 2000)]

theorem all_or_nothing_halfSet :
    ∃ response after,
      handleCtl (knows halfLine halfSet) idle halfLine = some (response, after) ∧
      (AllOrNothing halfSet idle.model.policy response after.model.policy ↔
        NothingToUndo halfSet idle.model.policy) :=
  all_or_nothing_iff (knows halfLine halfSet) idle halfLine halfSet (knows_self _ _) rfl

/-- `error_pm` is 5 afterwards, and the request was refused. -/
theorem set_half_applied :
    ∃ response after,
      handleCtl (knows halfLine halfSet) idle halfLine = some (response, after) ∧
      response.index "ok" = .bool false ∧ after.model.policy = { errorPm := 5 } ∧
      ¬ AllOrNothing halfSet idle.model.policy response after.model.policy := by
  refine ⟨(handleSet idle halfSet).1, (handleSet idle halfSet).2, ?_, rfl, rfl, fun h => ?_⟩
  · simp only [handleCtl, knows_self]
    rfl
  · have hsame : (handleSet idle halfSet).2.model.policy = {} := h.refused rfl
    have hfive : (handleSet idle halfSet).2.model.policy = { errorPm := 5 } := rfl
    rw [hfive] at hsame
    exact absurd hsame (by decide)

end Fault

end Ublkera
