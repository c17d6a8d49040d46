import Ublkera.Scenario.Progress

/-!
# The scenario files

`scenarios/` and `ublkfault/scenarios/` hold scenario files.  Those that need
nothing but a fault device end ok on every one: `shipped_pass`.

`Holds` is what is known of the device between two steps, with one rule for
each kind of step.  The steps of a file are known before it runs
(`wp_runFile`), and its lines mean the same in every order of the maps
(`parseLine_order`).
-/

namespace Ublkera

namespace Scenario

open LittleEndian WriteCache Fault Effect

/-! ## The steps of a file -/

theorem parseVerb_order (order order' : HashOrder) (verb : String) (rest : List Char) (step : Step) :
    parseVerb order verb rest = .ok step ↔ parseVerb order' verb rest = .ok step := by
  unfold parseVerb
  split
  · rfl
  · simp only
    rw [parseStep_eq_ok_iff, parseStep_eq_ok_iff]

/-- The order of a map does not show. -/
theorem parseLine_order (order order' : HashOrder) {line : String} {step : Option Step}
    (h : parseLine order line = .ok step) : parseLine order' line = .ok step := by
  unfold parseLine at h ⊢
  simp only at h ⊢
  split
  · rename_i hempty
    rwa [if_pos hempty] at h
  · rename_i hsome
    rw [if_neg hsome] at h
    cases hverb : parseVerb order (String.ofList (splitVerb
        (Text.trim isWhitespace (uncomment line.toList))).1) (Text.trim isWhitespace
        (splitVerb (Text.trim isWhitespace (uncomment line.toList))).2) with
    | error e =>
      rw [hverb] at h
      cases h
    | ok step' =>
      rw [hverb] at h
      rw [(parseVerb_order order order' _ _ step').mp hverb]
      exact h

/-- The steps of the lines, where none is bad. -/
def stepsOf (order : HashOrder) : List String → Option (List Step)
  | [] => some []
  | line :: rest =>
    match parseLine order line with
    | .ok (some step) => (stepsOf order rest).map (step :: ·)
    | .ok none => stepsOf order rest
    | .error _ => none

theorem stepsOf_order (order order' : HashOrder) {text : List String} {steps : List Step}
    (h : stepsOf order text = some steps) : stepsOf order' text = some steps := by
  induction text generalizing steps with
  | nil => exact h
  | cons line rest ih =>
    unfold stepsOf at h ⊢
    cases hline : parseLine order line with
    | error e =>
      rw [hline] at h
      cases h
    | ok parsed =>
      rw [hline] at h
      rw [parseLine_order order order' hline]
      cases parsed with
      | none => exact ih h
      | some step =>
        simp only [Option.map_eq_some_iff] at h ⊢
        rcases h with ⟨steps', hrest, rfl⟩
        exact ⟨steps', ih hrest, rfl⟩

theorem mem_stepsOf {order : HashOrder} {text : List String} {steps : List Step}
    (h : stepsOf order text = some steps) {line : String} (hline : line ∈ text) {step : Step}
    (hparse : parseLine order line = .ok (some step)) : step ∈ steps := by
  induction text generalizing steps with
  | nil => cases hline
  | cons first rest ih =>
    unfold stepsOf at h
    rcases List.mem_cons.mp hline with rfl | hline
    · rw [hparse] at h
      rcases Option.map_eq_some_iff.mp h with ⟨steps', -, rfl⟩
      exact List.mem_cons_self
    · cases hfirst : parseLine order first with
      | error e =>
        rw [hfirst] at h
        cases h
      | ok parsed =>
        rw [hfirst] at h
        cases parsed with
        | none => exact ih h hline
        | some step' =>
          rcases Option.map_eq_some_iff.mp h with ⟨steps', hrest, rfl⟩
          exact List.mem_cons_of_mem _ (ih hrest hline)

variable {size lbs cacheCap : Nat} {shellRun : Shared → String → Option Int → Shared → Prop}
  {display : Json → String} {H : Handler Shared Syscall Syscall.Answer}

/-- The text of a file with these lines. -/
def fileOf : List String → String
  | [] => ""
  | line :: rest => line ++ "\n" ++ fileOf rest

def IsLine (line : String) : Prop :=
  (∀ c, c ∈ line.toList → c ≠ '\n') ∧ line.toList.getLast? ≠ some '\r'

instance (line : String) : Decidable (IsLine line) :=
  decidable_of_iff ((line.toList.all (· ≠ '\n')) = true ∧ line.toList.getLast? ≠ some '\r')
    (by simp [IsLine])

theorem splitOn_fileOf {file : List String} (h : ∀ line, line ∈ file → IsLine line) :
    (fileOf file).toList.splitOn '\n' = file.map String.toList ++ [[]] := by
  induction file with
  | nil => rfl
  | cons line rest ih =>
    have hrest := ih fun line hline => h line (List.mem_cons_of_mem _ hline)
    have hsolid : ∀ c, c ∈ line.toList → (c == '\n') = false := by
      intro c hc
      simpa using (h line List.mem_cons_self).1 c hc
    have htext : (fileOf (line :: rest)).toList = line.toList ++ '\n' :: (fileOf rest).toList := by
      simp [fileOf]
    unfold List.splitOn at hrest ⊢
    rw [htext, List.splitOnP_append_cons_of_forall_mem hsolid '\n' (by simp), hrest]
    rfl

/-- `str::lines` takes the text apart again. -/
theorem lines_fileOf {file : List String} (h : ∀ line, line ∈ file → IsLine line) :
    lines (fileOf file).toList = file.map String.toList := by
  unfold lines
  simp only [splitOn_fileOf h, List.dropLast_concat, List.getLast?_concat, Option.toList_some]
  have hsame : (file.map String.toList).map stripCr = file.map String.toList := by
    rw [List.map_map]
    refine List.map_congr_left fun line hline => ?_
    exact if_neg (h line hline).2
  simp [hsame]

/-- A file without a bad line runs its steps. -/
theorem wp_runFile {order : HashOrder} {name : String} {file : List String} {steps : List Step}
    {Q : Shared → Prop} {s : Shared} (hlines : ∀ line, line ∈ file → IsLine line)
    (parsed : stepsOf order file = some steps)
    (h : wp H (runSteps display steps) (fun out t => out = .ok () ∧ Q t) s) :
    wp H (runFile order display name (fileOf file))
      (fun out t => out = .ok steps.length ∧ Q t) s := by
  have key : ∀ (file : List String) (start count : Nat) (steps : List Step) (s : Shared),
      stepsOf order file = some steps →
      wp H (runSteps display steps) (fun out t => out = .ok () ∧ Q t) s →
      wp H (Prog.loop (runLine order display name) ((file.map String.toList).zipIdx start) count)
        (fun out t => out = .ok (count + steps.length) ∧ Q t) s := by
    intro file
    induction file with
    | nil =>
      intro start count steps s hsteps hwp
      obtain rfl : [] = steps := Option.some.inj hsteps
      exact ⟨rfl, hwp.2⟩
    | cons line rest ih =>
      intro start count steps s hsteps hwp
      rw [List.map_cons, List.zipIdx_cons, Prog.loop, wp_bind]
      unfold stepsOf at hsteps
      unfold runLine
      simp only [String.ofList_toList]
      cases hline : parseLine order line with
      | error e =>
        rw [hline] at hsteps
        cases hsteps
      | ok parsed =>
        rw [hline] at hsteps
        cases parsed with
        | none =>
          simp only [wp_ret]
          exact ih (start + 1) count steps s hsteps hwp
        | some step =>
          simp only [Option.map_eq_some_iff] at hsteps
          rcases hsteps with ⟨steps', hrest, rfl⟩
          simp only [wp_monad_bind, wp_mapError]
          unfold runSteps at hwp
          rw [wp_monad_bind] at hwp
          refine wp_mono hwp fun out t hout => ?_
          cases out with
          | error e =>
            rcases hout with ⟨herror, -⟩
            cases herror
          | ok =>
            simp only [Except.mapError, wp_ret]
            have hlater := ih (start + 1) (count + 1) steps' t hrest hout
            rw [List.length_cons]
            rwa [Nat.add_assoc, Nat.add_comm 1] at hlater
  have hfile := key file 0 0 steps s parsed h
  unfold runFile
  rw [lines_fileOf hlines]
  rwa [Nat.zero_add] at hfile

/-! ## What is known of the device -/

/-- The policy, the bytes on the disk, the bytes that are read, and the room
that there is in the cache. -/
structure Holds (size lbs cacheCap : Nat) (policy : Policy) (committed view : Bytes) (room : Nat)
    (m : Model) : Prop where
  sized : m.Sized size lbs cacheCap
  policy : m.policy = policy
  committed : m.committed = committed
  view : m.view = view
  room : m.volatileBytes + room ≤ cacheCap

/-- A range of whole blocks of the device. -/
structure InDevice (size lbs : Nat) (off len : UInt64) : Prop where
  page : off % 4096 = 0
  whole : lbs ∣ len.toNat
  inside : off.toNat + len.toNat ≤ size

section Rules

variable {policy : Policy} {committed view : Bytes} {room : Nat} {s : Shared}
  {off len : UInt64} {pattern : String} {fsync : Bool}

theorem Holds.behind (h : Holds size lbs cacheCap policy committed view room s.model) :
    Behind size lbs cacheCap (policy.flushLiePm = 1000) committed room s.model := by
  refine ⟨h.sized, h.committed, ?_, h.room⟩
  rw [h.policy]
  exact id

/-- A write that stays in the cache: it is no `fsync`, or FLUSHes lie. -/
theorem holds_write (room : Nat)
    (h : Holds size lbs cacheCap policy committed view (len.toNat + room) s.model)
    (hlbs : lbs ∣ 4096) (hin : InDevice size lbs off len) (honest : policy.errorPm = 0)
    (unsynced : fsync = true → policy.flushLiePm = 1000) :
    wp (direct shellRun) (exec display (.write off len pattern fsync false)) (fun out t =>
      out = .ok () ∧ Holds size lbs cacheCap policy committed
        (overwrite view (patternEntry off len pattern)) room t.model) s := by
  have hstep : (Step.write off len pattern fsync false).Unsynced (policy.flushLiePm = 1000) :=
    unsynced
  refine wp_mono (wp_and (wp_write h.sized hlbs hin.page hin.whole hin.inside)
    (wp_unsynced hstep h.behind)) fun out t hout => ?_
  rcases hout with ⟨hwrite, hbehind⟩
  have hok := (hwrite.honest (by rw [h.policy, honest])).mpr rfl
  have hview := hwrite.written rfl hok
  rw [h.view] at hview
  exact ⟨hok, hbehind.sized, hwrite.policy.trans h.policy, hbehind.committed, hview, hbehind.room⟩

/-- A write that has to fail; some blocks of it may be there. -/
theorem holds_write_fails (h : Holds size lbs cacheCap policy committed view room s.model)
    (hlbs : lbs ∣ 4096) (hin : InDevice size lbs off len) (errored : policy.errorPm = 1000)
    (some : 0 < len.toNat) :
    wp (direct shellRun) (exec display (.write off len pattern fsync true)) (fun out t =>
      out = .ok () ∧ ∃ committed' view', view'.length = size ∧
        Holds size lbs cacheCap policy committed' view' 0 t.model) s := by
  refine wp_mono (wp_write h.sized hlbs hin.page hin.whole hin.inside) fun out t hwrite => ?_
  have hlen : 0 < (patternEntry off len pattern).data.length := by
    unfold patternEntry
    rwa [fillPattern_length]
  have hok := (hwrite.errored (by rw [h.policy, errored]) hlen).mpr rfl
  have hbounded := hwrite.sized.valid.bounded
  rw [hwrite.sized.cacheCap] at hbounded
  exact ⟨hok, _, _, view_length hwrite.sized, hwrite.sized, hwrite.policy.trans h.policy, rfl, rfl,
    hbounded⟩

theorem view_of_drained {m : Model} (h : m.Sized size lbs cacheCap) (hvolatile : m.volatile = []) :
    m.volatileBytes = 0 ∧ m.view = m.committed := by
  refine ⟨?_, ?_⟩
  · rw [h.valid.counted, hvolatile, bytes_nil]
  · rw [Model.view, Model.cache, Cache.view, hvolatile, overwriteAll_nil]

/-- A write that goes to the disk. -/
theorem holds_write_synced (h : Holds size lbs cacheCap policy committed view room s.model)
    (hlbs : lbs ∣ 4096) (hin : InDevice size lbs off len) (honest : policy.errorPm = 0)
    (flushes : policy.flushLiePm = 0) :
    wp (direct shellRun) (exec display (.write off len pattern true false)) (fun out t =>
      out = .ok () ∧ Holds size lbs cacheCap policy (overwrite view (patternEntry off len pattern))
        (overwrite view (patternEntry off len pattern)) cacheCap t.model) s := by
  refine wp_mono (wp_and (wp_write h.sized hlbs hin.page hin.whole hin.inside)
    (wp_write_synced h.sized (by rw [h.policy, flushes]))) fun out t hout => ?_
  rcases hout with ⟨hwrite, hsynced⟩
  have hok := (hwrite.honest (by rw [h.policy, honest])).mpr rfl
  have hsync := (hsynced hok).2
  have hdrained := view_of_drained hsync.sized hsync.volatile
  have hcommitted := hsync.committed
  rw [h.view] at hcommitted
  exact ⟨hok, hsync.sized, hsync.policy.trans h.policy, hcommitted,
    hdrained.2.trans hcommitted, by omega⟩

theorem holds_expect (h : Holds size lbs cacheCap policy committed view room s.model)
    (hsize : size < 2 ^ 64) (hlbs : lbs ∣ 4096) (hin : InDevice size lbs off len)
    (same : slice view off.toNat (off.toNat + len.toNat) = fillPattern pattern off len.toNat) :
    wp (direct shellRun) (exec display (.expect off len pattern)) (fun out t =>
      out = .ok () ∧ Holds size lbs cacheCap policy committed view room t.model) s := by
  refine wp_mono (wp_expect h.sized hsize hlbs hin.page hin.whole hin.inside)
    fun out t hout => ?_
  rcases hout with ⟨hu, hfound⟩
  rw [h.view, same] at hfound
  refine ⟨hfound.ok_iff.mpr rfl, hu.sized, hu.policy.trans h.policy, ?_,
    (view_congr hu.cache).trans h.view, ?_⟩
  · exact (congrArg Cache.stable hu.cache).trans h.committed
  · rw [hu.room]
    exact h.room

theorem holds_crash (h : Holds size lbs cacheCap policy committed view room s.model) :
    wp (direct shellRun) (exec display (.crash "drop")) (fun out t =>
      out = .ok () ∧ Holds size lbs cacheCap policy committed committed cacheCap t.model) s := by
  refine wp_mono (wp_crash_drop h.sized) fun out t hout => ?_
  rcases hout with ⟨hok, hcrash⟩
  have hdrained := view_of_drained hcrash.sized hcrash.volatile
  exact ⟨hok, hcrash.sized, hcrash.policy.trans h.policy, hcrash.committed.trans h.committed,
    hcrash.view.trans h.committed, by omega⟩

/-- A `set` of one rate. -/
theorem holds_set {f : PmField} {v : UInt64}
    (h : Holds size lbs cacheCap policy committed view room s.model) (hv : v ≤ 1000) :
    wp (direct shellRun) (exec display (.set [(f.key, v)])) (fun out t =>
      out = .ok () ∧
        Holds size lbs cacheCap (f.set policy v.toUInt32) committed view room t.model) s := by
  have hcmd : "cmd" ∉ [(f.key, v)].map Prod.fst := by
    cases f <;> simp [PmField.key]
  refine wp_mono (wp_set_ok hcmd (by simp [Dict.Distinct]) (by simpa using hv)) fun out t hout => ?_
  rcases hout with ⟨hok, hset, hgiven⟩
  refine ⟨hok, hset.sized h.sized, ?_, ?_, ?_, ?_⟩
  · refine Policy.ext_get fun g => ?_
    rw [PmField.get_set]
    split
    · rename_i heq
      rw [heq]
      exact hgiven f v List.mem_cons_self
    · rename_i hne
      rw [← h.policy]
      refine hset.others g ?_
      cases f <;> cases g <;> simp_all [PmField.key]
  · rw [hset.model]
    exact h.committed
  · rw [hset.model]
    exact h.view
  · rw [hset.model]
    exact h.room

/-- What a `write` leaves in its own range. -/
theorem slice_written (pattern : String) (hview : view.length = size) (hin : InDevice size lbs off len) :
    slice (overwrite view (patternEntry off len pattern)) off.toNat (off.toNat + len.toNat)
      = fillPattern pattern off len.toNat := by
  have hcovers : (patternEntry off len pattern).Covers off.toNat (off.toNat + len.toNat) :=
    ⟨Nat.le_refl _, Nat.le_of_eq (patternEntry_stop off len pattern).symm⟩
  rw [slice_overwrite_of_covers _ hcovers, patternEntry_window]
  rw [patternEntry_stop, hview]
  exact hin.inside

theorem holds_flush (h : Holds size lbs cacheCap policy committed view room s.model)
    (flushes : policy.flushLiePm = 0) :
    wp (direct shellRun) (exec display .flush) (fun out t =>
      out = .ok () ∧ Holds size lbs cacheCap policy view view cacheCap t.model) s := by
  simp only [exec, wp_monad_bind]
  refine wp_syncAll h.sized fun t hflush => ?_
  have hclean := hflush.honest (by rw [h.policy, flushes])
  have hdrained := view_of_drained hflush.sized hclean.1
  have hcommitted := hclean.2.trans h.view
  exact ⟨rfl, hflush.sized, hflush.policy.trans h.policy, hcommitted, hdrained.2.trans hcommitted,
    by omega⟩

theorem holds_sleep (h : Holds size lbs cacheCap policy committed view room s.model) (ms : UInt64) :
    wp (direct shellRun) (exec display (.sleep ms)) (fun out t =>
      out = .ok () ∧ Holds size lbs cacheCap policy committed view room t.model) s := by
  intro r t hr
  obtain rfl : t = s := hr
  exact ⟨rfl, h⟩

theorem wp_shell {cmd : String} {Q : Except String (Except String (Option Int)) → Shared → Prop} :
    wp (direct shellRun) (shell cmd) Q s ↔
      ∀ code t, shellRun s cmd code t → Q (.ok (.ok code)) t := by
  constructor
  · intro h code t hrun
    exact h (.ok code) t hrun
  · intro h r t hr
    cases r with
    | error => exact hr.elim
    | ok code => exact h code t hr

/-- A shell command that leaves the device alone. -/
theorem holds_run {cmd : String} {expectOk : Bool}
    (h : Holds size lbs cacheCap policy committed view room s.model)
    (quiet : ∀ s code t, shellRun s cmd code t → decide (code = some 0) = expectOk ∧ t = s) :
    wp (direct shellRun) (exec display (.run cmd expectOk)) (fun out t =>
      out = .ok () ∧ Holds size lbs cacheCap policy committed view room t.model) s := by
  simp only [exec]
  rw [wp_monad_bind, wp_shell]
  intro code t hrun
  rcases quiet s code t hrun with ⟨hcode, rfl⟩
  simp only [orFail, wp_monad_bind, wp_ret, if_pos hcode]
  exact ⟨trivial, h⟩

end Rules

/-! ## The files -/

/-- `scenarios/flush-durability.scen`. -/
def flushDurability : List String :=
  ["# fsync が ack した書き込みは電源断後も必ず残る(FLUSH の基本契約)",
    "write  off=0 len=1M pattern=durable fsync",
    "crash  mode=drop",
    "expect off=0 len=1M pattern=durable"]

/-- `scenarios/power-loss.scen`. -/
def powerLoss : List String :=
  ["# 未 fsync の完了済み書き込みは電源断で消えてよい(直前の確定内容に戻る)",
    "write  off=0 len=1M pattern=base fsync",
    "write  off=0 len=1M pattern=doomed",
    "expect off=0 len=1M pattern=doomed    # クラッシュ前は read-your-writes",
    "crash  mode=drop",
    "expect off=0 len=1M pattern=base"]

/-- `scenarios/flush-lies.scen`. -/
def flushLies : List String :=
  ["# flush-lie 注入: fsync が ack を返しても実際には何も確定されない",
    "write  off=0 len=1M pattern=base fsync",
    "set    flush_lie_pm=1000",
    "write  off=0 len=1M pattern=lied fsync",
    "crash  mode=drop",
    "expect off=0 len=1M pattern=base",
    "set    flush_lie_pm=0"]

/-- `scenarios/eio.scen`. -/
def eio : List String :=
  ["# EIO 注入は上に伝播し、解除すればデバイスは健全に戻る",
    "set    error_pm=1000",
    "write-fails off=0 len=4K pattern=x",
    "set    error_pm=0",
    "write  off=0 len=4K pattern=recovered fsync",
    "expect off=0 len=4K pattern=recovered"]

/-- `ublkfault/scenarios/selftest.scen`. -/
def selftest : List String :=
  ["# ランナー自体の自己テスト: 全 verb を一巡する。デバイスの事前内容に",
    "# 依存しないよう、まず自分の base を fsync 付きで確定させる。",
    "# SUT の契約テストは各 SUT のリポジトリが所有する(例: ublkera/scenarios/)。",
    "write  off=0 len=128K pattern=sbase fsync",
    "write  off=64K len=64K pattern=tail",
    "expect off=0 len=64K pattern=sbase",
    "expect off=64K len=64K pattern=tail",
    "crash  mode=drop",
    "expect off=0 len=128K pattern=sbase  # 未 fsync の tail は消えて sbase に戻る",
    "set    error_pm=1000",
    "write-fails off=0 len=4K pattern=x",
    "set    error_pm=0",
    "flush",
    "sleep  ms=10",
    "run    true",
    "fail   false"]

def flushDurabilitySteps (len : UInt64) : List Step :=
  [.write 0 len "durable" true false, .crash "drop", .expect 0 len "durable"]

def powerLossSteps (len : UInt64) : List Step :=
  [.write 0 len "base" true false, .write 0 len "doomed" false false, .expect 0 len "doomed",
    .crash "drop", .expect 0 len "base"]

def flushLiesSteps (len : UInt64) : List Step :=
  [.write 0 len "base" true false, .set [("flush_lie_pm", 1000)], .write 0 len "lied" true false,
    .crash "drop", .expect 0 len "base", .set [("flush_lie_pm", 0)]]

def eioSteps (len : UInt64) : List Step :=
  [.set [("error_pm", 1000)], .write 0 len "x" false true, .set [("error_pm", 0)],
    .write 0 len "recovered" true false, .expect 0 len "recovered"]

/-- The `tail` is at `half`, and `len` is the length of the failing write. -/
def selftestSteps (whole half len : UInt64) : List Step :=
  [.write 0 whole "sbase" true false, .write half half "tail" false false,
    .expect 0 half "sbase", .expect half half "tail", .crash "drop", .expect 0 whole "sbase",
    .set [("error_pm", 1000)], .write 0 len "x" false true, .set [("error_pm", 0)], .flush,
    .sleep 10, .run "true" true, .run "false" false]

/-- The files that need nothing but a fault device, with their steps. -/
def shipped : List (String × List String × List Step) :=
  [("flush-durability", flushDurability, flushDurabilitySteps 1048576),
    ("power-loss", powerLoss, powerLossSteps 1048576),
    ("flush-lies", flushLies, flushLiesSteps 1048576), ("eio", eio, eioSteps 4096),
    ("selftest", selftest, selftestSteps 131072 65536 4096)]

theorem stepsOf_step {line : String} {rest : List String} {step : Step} {steps : List Step}
    (hline : (parseLine builtOrder line).toOption = some (some step))
    (hrest : stepsOf builtOrder rest = some steps) :
    stepsOf builtOrder (line :: rest) = some (step :: steps) := by
  unfold stepsOf
  cases hparse : parseLine builtOrder line with
  | error e =>
    rw [hparse] at hline
    cases hline
  | ok parsed =>
    rw [hparse] at hline
    obtain rfl := Option.some.inj hline
    simp [hrest]

theorem stepsOf_gap {line : String} {rest : List String} {steps : List Step}
    (hline : (parseLine builtOrder line).toOption = some none)
    (hrest : stepsOf builtOrder rest = some steps) :
    stepsOf builtOrder (line :: rest) = some steps := by
  unfold stepsOf
  cases hparse : parseLine builtOrder line with
  | error e =>
    rw [hparse] at hline
    cases hline
  | ok parsed =>
    rw [hparse] at hline
    obtain rfl := Option.some.inj hline
    exact hrest

theorem parsed_flushDurability :
    stepsOf builtOrder flushDurability = some (flushDurabilitySteps 1048576) := by
  refine stepsOf_gap ?_ (stepsOf_step ?_ (stepsOf_step ?_ (stepsOf_step ?_ rfl)))
  all_goals decide +kernel

theorem parsed_powerLoss : stepsOf builtOrder powerLoss = some (powerLossSteps 1048576) := by
  refine stepsOf_gap ?_ (stepsOf_step ?_ (stepsOf_step ?_ (stepsOf_step ?_ (stepsOf_step ?_
    (stepsOf_step ?_ rfl)))))
  all_goals decide +kernel

theorem parsed_flushLies : stepsOf builtOrder flushLies = some (flushLiesSteps 1048576) := by
  refine stepsOf_gap ?_ (stepsOf_step ?_ (stepsOf_step ?_ (stepsOf_step ?_ (stepsOf_step ?_
    (stepsOf_step ?_ (stepsOf_step ?_ rfl))))))
  all_goals decide +kernel

theorem parsed_eio : stepsOf builtOrder eio = some (eioSteps 4096) := by
  refine stepsOf_gap ?_ (stepsOf_step ?_ (stepsOf_step ?_ (stepsOf_step ?_ (stepsOf_step ?_
    (stepsOf_step ?_ rfl)))))
  all_goals decide +kernel

theorem parsed_selftest :
    stepsOf builtOrder selftest = some (selftestSteps 131072 65536 4096) := by
  refine stepsOf_gap ?_ (stepsOf_gap ?_ (stepsOf_gap ?_ (stepsOf_step ?_ (stepsOf_step ?_
    (stepsOf_step ?_ (stepsOf_step ?_ (stepsOf_step ?_ (stepsOf_step ?_ (stepsOf_step ?_
    (stepsOf_step ?_ (stepsOf_step ?_ (stepsOf_step ?_ (stepsOf_step ?_ (stepsOf_step ?_
    (stepsOf_step ?_ rfl)))))))))))))))
  all_goals decide +kernel

theorem isLine_of_all {file : List String} (h : (file.all fun line => decide (IsLine line)) = true) :
    ∀ line, line ∈ file → IsLine line := by
  intro line hline
  exact of_decide_eq_true (List.all_eq_true.mp h line hline)

theorem shipped_lines (file : String × List String × List Step) (hfile : file ∈ shipped) :
    ∀ line, line ∈ file.2.1 → IsLine line := by
  refine isLine_of_all ?_
  simp only [shipped, List.mem_cons, List.not_mem_nil, or_false] at hfile
  rcases hfile with rfl | rfl | rfl | rfl | rfl
  all_goals decide +kernel

theorem shipped_parsed (file : String × List String × List Step) (hfile : file ∈ shipped) :
    stepsOf builtOrder file.2.1 = some file.2.2 := by
  simp only [shipped, List.mem_cons, List.not_mem_nil, or_false] at hfile
  rcases hfile with rfl | rfl | rfl | rfl | rfl
  · exact parsed_flushDurability
  · exact parsed_powerLoss
  · exact parsed_flushLies
  · exact parsed_eio
  · exact parsed_selftest

/-! ## They end ok -/

/-- A step that ends ok, and the steps behind it. -/
theorem wp_step {P : Shared → Prop} {Q : Except String Unit → Shared → Prop} {s : Shared}
    {step : Step} {rest : List Step}
    (h : wp H (exec display step) (fun out t => out = .ok () ∧ P t) s)
    (hrest : ∀ t, P t → wp H (runSteps display rest) Q t) :
    wp H (runSteps display (step :: rest)) Q s := by
  unfold runSteps
  rw [wp_monad_bind]
  refine wp_mono h fun out t hout => ?_
  rcases hout with ⟨rfl, ht⟩
  exact hrest t ht

theorem wp_done {Q : Except String Unit → Shared → Prop} {s : Shared} :
    wp H (runSteps display []) Q s ↔ Q (.ok ()) s := Iff.rfl

/-- A device without faults, and the two commands of the self test. -/
structure Ready (size lbs cacheCap : Nat) (shellRun : Shared → String → Option Int → Shared → Prop)
    (s : Shared) : Prop where
  sized : s.model.Sized size lbs cacheCap
  policy : s.model.policy = {}
  small : size < 2 ^ 64
  lbs : lbs ∣ 4096
  ends : ∀ s cmd, cmd = "true" ∨ cmd = "false" → ∃ code t, shellRun s cmd code t
  succeeds : ∀ s code t, shellRun s "true" code t → decide (code = some 0) = true ∧ t = s
  fails : ∀ s code t, shellRun s "false" code t → decide (code = some 0) = false ∧ t = s

theorem Ready.holds {s : Shared} (h : Ready size lbs cacheCap shellRun s) :
    Holds size lbs cacheCap {} s.model.committed s.model.view 0 s.model := by
  refine ⟨h.sized, h.policy, rfl, rfl, ?_⟩
  rw [Nat.add_zero, ← h.sized.cacheCap]
  exact h.sized.valid.bounded

theorem Holds.less {policy : Policy} {committed view : Bytes} {room room' : Nat} {m : Model}
    (h : Holds size lbs cacheCap policy committed view room m) (hle : room' ≤ room) :
    Holds size lbs cacheCap policy committed view room' m := by
  refine ⟨h.sized, h.policy, h.committed, h.view, ?_⟩
  have hroom := h.room
  omega

theorem Ready.flushDurability {s : Shared} {len : UInt64}
    (h : Ready size lbs cacheCap shellRun s) (hin : InDevice size lbs 0 len) :
    wp (direct shellRun) (runSteps display (flushDurabilitySteps len))
      (fun out _ => out = .ok ()) s := by
  have hviewed := view_length h.sized
  refine wp_step (holds_write_synced h.holds h.lbs hin rfl rfl) fun t ht => ?_
  refine wp_step (holds_crash ht) fun t ht => ?_
  exact wp_step (holds_expect ht h.small h.lbs hin (slice_written _ hviewed hin))
    fun _ _ => wp_done.mpr rfl

theorem written_length {view : Bytes} {off len : UInt64} (pattern : String)
    (hview : view.length = size) (hin : InDevice size lbs off len) :
    (overwrite view (patternEntry off len pattern)).length = size := by
  refine (overwrite_length ?_).trans hview
  rw [patternEntry_stop, hview]
  exact hin.inside

theorem Ready.powerLoss {s : Shared} {len : UInt64} (h : Ready size lbs cacheCap shellRun s)
    (hin : InDevice size lbs 0 len) (hroom : len.toNat ≤ cacheCap) :
    wp (direct shellRun) (runSteps display (powerLossSteps len)) (fun out _ => out = .ok ()) s := by
  have hviewed := view_length h.sized
  have hbase := slice_written "base" hviewed hin
  have hlen := written_length "base" hviewed hin
  refine wp_step (holds_write_synced h.holds h.lbs hin rfl rfl) fun t ht => ?_
  refine wp_step (holds_write 0 (ht.less hroom) h.lbs hin rfl nofun) fun t ht => ?_
  refine wp_step (holds_expect ht h.small h.lbs hin (slice_written _ hlen hin)) fun t ht => ?_
  refine wp_step (holds_crash ht) fun t ht => ?_
  exact wp_step (holds_expect ht h.small h.lbs hin hbase) fun _ _ => wp_done.mpr rfl

theorem Ready.flushLies {s : Shared} {len : UInt64} (h : Ready size lbs cacheCap shellRun s)
    (hin : InDevice size lbs 0 len) (hroom : len.toNat ≤ cacheCap) :
    wp (direct shellRun) (runSteps display (flushLiesSteps len)) (fun out _ => out = .ok ()) s := by
  have hviewed := view_length h.sized
  have hbase := slice_written "base" hviewed hin
  refine wp_step (holds_write_synced h.holds h.lbs hin rfl rfl) fun t ht => ?_
  refine wp_step (holds_set (f := .flushLiePm) (v := 1000) ht (by decide)) fun t ht => ?_
  refine wp_step (holds_write 0 (ht.less hroom) h.lbs hin rfl fun _ => rfl) fun t ht => ?_
  refine wp_step (holds_crash ht) fun t ht => ?_
  refine wp_step (holds_expect ht h.small h.lbs hin hbase) fun t ht => ?_
  exact wp_step (holds_set (f := .flushLiePm) (v := 0) ht (by decide)) fun _ _ => wp_done.mpr rfl

theorem Ready.eio {s : Shared} {len : UInt64} (h : Ready size lbs cacheCap shellRun s)
    (hin : InDevice size lbs 0 len) (hlen : 0 < len.toNat) :
    wp (direct shellRun) (runSteps display (eioSteps len)) (fun out _ => out = .ok ()) s := by
  refine wp_step (holds_set (f := .errorPm) (v := 1000) h.holds (by decide)) fun t ht => ?_
  refine wp_step (holds_write_fails ht h.lbs hin rfl hlen) fun t ht => ?_
  rcases ht with ⟨committed, view, hview, ht⟩
  refine wp_step (holds_set (f := .errorPm) (v := 0) ht (by decide)) fun t ht => ?_
  refine wp_step (holds_write_synced ht h.lbs hin rfl rfl) fun t ht => ?_
  exact wp_step (holds_expect ht h.small h.lbs hin (slice_written _ hview hin))
    fun _ _ => wp_done.mpr rfl

theorem Ready.selftest {s : Shared} {whole half len : UInt64}
    (h : Ready size lbs cacheCap shellRun s) (hwhole : InDevice size lbs 0 whole)
    (hhalf : InDevice size lbs 0 half) (htail : InDevice size lbs half half)
    (hin : InDevice size lbs 0 len) (hlen : 0 < len.toNat) (hle : half.toNat ≤ whole.toNat)
    (hroom : half.toNat ≤ cacheCap) :
    wp (direct shellRun) (runSteps display (selftestSteps whole half len))
      (fun out _ => out = .ok ()) s := by
  have hviewed := view_length h.sized
  have hbase := slice_written "sbase" hviewed hwhole
  have hfirst := written_length "sbase" hviewed hwhole
  have hzero : (0 : UInt64).toNat = 0 := rfl
  have hmisses : (patternEntry half half "tail").Misses (0 : UInt64).toNat
      ((0 : UInt64).toNat + half.toNat) := by
    refine Or.inr ?_
    change _ ≤ half.toNat
    omega
  have hstop : (patternEntry half half "tail").stop
      ≤ (overwrite s.model.view (patternEntry 0 whole "sbase")).length := by
    rw [patternEntry_stop, hfirst]
    exact htail.inside
  have hfront := slice_overwrite_of_misses hstop (by
    rw [hfirst]
    exact hhalf.inside) hmisses
  rw [slice_pattern hbase hwhole.page hhalf.page (by omega)] at hfront
  refine wp_step (holds_write_synced h.holds h.lbs hwhole rfl rfl) fun t ht => ?_
  refine wp_step (holds_write 0 (ht.less hroom) h.lbs htail rfl nofun) fun t ht => ?_
  refine wp_step (holds_expect ht h.small h.lbs hhalf hfront) fun t ht => ?_
  refine wp_step (holds_expect ht h.small h.lbs htail (slice_written _ hfirst htail)) fun t ht => ?_
  refine wp_step (holds_crash ht) fun t ht => ?_
  refine wp_step (holds_expect ht h.small h.lbs hwhole hbase) fun t ht => ?_
  refine wp_step (holds_set (f := .errorPm) (v := 1000) ht (by decide)) fun t ht => ?_
  refine wp_step (holds_write_fails ht h.lbs hin rfl hlen) fun t ht => ?_
  rcases ht with ⟨committed, view, -, ht⟩
  refine wp_step (holds_set (f := .errorPm) (v := 0) ht (by decide)) fun t ht => ?_
  refine wp_step (holds_flush ht rfl) fun t ht => ?_
  refine wp_step (holds_sleep ht 10) fun t ht => ?_
  refine wp_step (holds_run ht h.succeeds) fun t ht => ?_
  exact wp_step (holds_run ht h.fails) fun _ _ => wp_done.mpr rfl

/-- A step that keeps `hang_pm`, or one of the two commands. -/
def Step.tame : Step → Bool
  | .set pairs => "hang_pm" ∉ pairs.map Prod.fst
  | .run cmd _ => cmd = "true" ∨ cmd = "false"
  | _ => true

theorem shipped_tame : (shipped.all fun file => file.2.2.all Step.tame) = true := by decide

/-- A device without faults parks nothing, and neither do the files. -/
theorem Ready.leaves {s : Shared} (h : Ready size lbs cacheCap shellRun s) {step : Step}
    (htame : step.tame = true) : step.Leaves size lbs cacheCap shellRun := by
  cases step with
  | set pairs =>
    have hkeys : "hang_pm" ∉ pairs.map Prod.fst := of_decide_eq_true htame
    exact hkeys
  | run cmd expectOk =>
    have hcmd : cmd = "true" ∨ cmd = "false" := of_decide_eq_true htame
    intro s hs
    refine ⟨h.ends s cmd hcmd, fun code t hrun => ?_⟩
    rcases hcmd with rfl | rfl
    · rw [(h.succeeds s code t hrun).2]
      exact hs
    · rw [(h.fails s code t hrun).2]
      exact hs
  | write | expect | flush | crash | thaw | sleep => trivial

/-- Every one of these files comes to its end on every fault device of 1 MiB
or more that has room for 1 MiB in its cache, and ends ok, whatever the seed,
the block size and what the device holds. -/
theorem shipped_pass {s : Shared} {order : HashOrder}
    (h : Ready size lbs cacheCap shellRun s) (hsize : 2 ^ 20 ≤ size) (hroom : 2 ^ 20 ≤ cacheCap)
    {file : String × List String × List Step} (hfile : file ∈ shipped) :
    Ends (direct shellRun) (runFile order display file.1 (fileOf file.2.1)) s ∧
      wp (direct shellRun) (runFile order display file.1 (fileOf file.2.1))
        (fun out _ => out = .ok file.2.2.length) s := by
  have hlbs := h.lbs
  have hin : ∀ off len : UInt64, off % 4096 = 0 → len % 4096 = 0 →
      off.toNat + len.toNat ≤ 2 ^ 20 → InDevice size lbs off len := by
    intro off len hoff hlen hle
    exact ⟨hoff, hlbs.trans (Nat.dvd_of_mod_eq_zero (aligned_of_page hlen)), hle.trans hsize⟩
  have hmega : InDevice size lbs 0 1048576 := hin _ _ (by decide) (by decide) (by decide)
  have hpage : InDevice size lbs 0 4096 := hin _ _ (by decide) (by decide) (by decide)
  have hlines := shipped_lines file hfile
  have hparsed := stepsOf_order builtOrder order (shipped_parsed file hfile)
  have hends : Ends (direct shellRun) (runFile order display file.1 (fileOf file.2.1)) s := by
    refine ends_prompt hlbs ⟨h.sized, by rw [h.policy]⟩
      (only_runFile fun line step hline hparse => ?_)
    rw [lines_fileOf hlines] at hline
    rcases List.mem_map.mp hline with ⟨text, htext, rfl⟩
    rw [String.ofList_toList] at hparse
    have htame := List.all_eq_true.mp shipped_tame file hfile
    exact h.leaves (List.all_eq_true.mp htame step (mem_stepsOf hparsed htext hparse))
  have hsteps : wp (direct shellRun) (runSteps display file.2.2) (fun out _ => out = .ok ()) s := by
    simp only [shipped, List.mem_cons, List.not_mem_nil, or_false] at hfile
    rcases hfile with rfl | rfl | rfl | rfl | rfl
    · exact h.flushDurability hmega
    · exact h.powerLoss hmega hroom
    · exact h.flushLies hmega hroom
    · exact h.eio hpage (by decide)
    · exact h.selftest (hin _ _ (by decide) (by decide) (by decide))
        (hin _ _ (by decide) (by decide) (by decide)) (hin _ _ (by decide) (by decide) (by decide))
        hpage (by decide) (by decide) (le_trans (by decide) hroom)
  have hrun : wp (direct shellRun) (runFile order display file.1 (fileOf file.2.1))
      (fun out t => out = .ok file.2.2.length ∧ True) s :=
    wp_runFile hlines hparsed (wp_mono hsteps fun out t hout => ⟨hout, trivial⟩)
  exact ⟨hends, wp_mono hrun fun out t hout => hout.1⟩

/-- A new device of 1 MiB. -/
def oneMebibyte : Shared :=
  { model := .new (2 ^ 20) 4096 (2 ^ 20) 1 {}, parked := [], thawResult := 0, efd := 0 }

theorem ready_oneMebibyte : Ready (2 ^ 20) 4096 (2 ^ 20) onlyTrue oneMebibyte where
  sized := Model.sized_new (by decide)
  policy := rfl
  small := by decide
  lbs := by decide
  ends s cmd _ := ⟨_, s, rfl, rfl⟩
  succeeds s code t h := ⟨by rw [h.1]; rfl, h.2⟩
  fails s code t h := ⟨by rw [h.1]; rfl, h.2⟩

def selftestFile : String × List String × List Step :=
  ("selftest", selftest, selftestSteps 131072 65536 4096)

theorem shipped_pass_selftest :
    Ends (direct onlyTrue)
        (runFile builtOrder (fun _ => "") selftestFile.1 (fileOf selftestFile.2.1))
        oneMebibyte ∧
      wp (direct onlyTrue)
        (runFile builtOrder (fun _ => "") selftestFile.1 (fileOf selftestFile.2.1))
        (fun out _ => out = .ok selftestFile.2.2.length) oneMebibyte := by
  have hfile : selftestFile ∈ shipped := by simp [shipped, selftestFile]
  -- the file is not to be run
  generalize selftestFile = file at hfile ⊢
  exact shipped_pass ready_oneMebibyte (Nat.le_refl _) (Nat.le_refl _) hfile

end Scenario

end Ublkera
