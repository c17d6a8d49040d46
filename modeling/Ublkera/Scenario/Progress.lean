import Ublkera.Lib.Chunks
import Ublkera.Scenario.Contract
import Ublkera.Scenario.Grammar

/-!
# A scenario comes to an end

A device that parks no request answers every call of the runner.  So no run of
a scenario file gets stuck on it, as long as no step sets `hang_pm` and the
commands of its `run` lines end: `runFile_ends`.
-/

namespace Ublkera

namespace Scenario

open LittleEndian WriteCache Fault Effect

/-! ## The requests of a call -/

variable {size lbs cacheCap : Nat} {s : Shared} {m : Model} {e : Entry}

/-- Pieces of `n` bytes. -/
def cutInto (n : Nat) (e : Entry) : List Entry :=
  (chunks n e.data).map fun c => ⟨e.off + c.1 * n, c.2⟩

theorem bytes_cutInto {n : Nat} (hn : 0 < n) (e : Entry) : bytes (cutInto n e) = e.data.length := by
  have hlens : (cutInto n e).map (·.data.length) = Chunks.lens n e.data.length := by
    unfold cutInto chunks Chunks.lens
    rw [List.map_map, List.map_map]
    refine List.map_congr_left fun i _ => ?_
    change (slice e.data _ _).length = _
    rw [slice_length _ (Nat.min_le_right _ _)]
    omega
  rw [bytes, hlens, Chunks.sum_lens hn]

theorem part_of_dvd {block block' : Nat} {e p : Entry} (hdvd : block ∣ block')
    (h : Part block' e p) : Part block e p := by
  rcases h with ⟨i, j, hij, hj, hi, hend, hp⟩
  exact ⟨i, j, hij, hj, hdvd.trans hi, hend.imp hdvd.trans id, hp⟩

theorem cut_cutInto {n : Nat} (hn : 0 < n) (hlbs : lbs ∣ n) (hsmall : n ≤ ioBufBytes) (e : Entry) :
    Cut lbs e (cutInto n e) := by
  refine ⟨?_, Nat.le_of_eq (bytes_cutInto hn e), ?_⟩
  · intro p hp
    rcases List.mem_map.mp hp with ⟨c, hc, rfl⟩
    exact part_of_dvd hlbs (Model.part_of_mem_chunks hn hc)
  · intro p hp
    rcases List.mem_map.mp hp with ⟨c, hc, rfl⟩
    rcases List.mem_map.mp hc with ⟨i, -, rfl⟩
    change (slice e.data _ _).length ≤ _
    rw [slice_length _ (Nat.min_le_right _ _)]
    omega

theorem filled_cutInto {n : Nat} (hn : 0 < n) (e : Entry) : Filled e (cutInto n e) := by
  intro x hlo hhi
  unfold Entry.stop at hhi
  have hdiv := Nat.div_add_mod (x - e.off) n
  have hmod := Nat.mod_lt (x - e.off) hn
  have hcomm := Nat.mul_comm n ((x - e.off) / n)
  generalize (x - e.off) / n = i at hdiv hcomm
  refine ⟨⟨e.off + i * n, slice e.data (i * n) (min (i * n + n) e.data.length)⟩, ?_, ?_, ?_⟩
  · refine List.mem_map.mpr ⟨(i, _), List.mem_map.mpr ⟨i, ?_, rfl⟩, rfl⟩
    rw [List.mem_range, Nat.lt_div_iff_mul_lt hn]
    omega
  · change e.off + i * n ≤ x
    omega
  · change x < e.off + i * n + (slice e.data _ _).length
    rw [slice_length _ (Nat.min_le_right _ _)]
    omega

/-- Pieces of a page. -/
theorem exists_cut (hlbs : lbs ∣ 4096) (e : Entry) :
    ∃ pieces, Cut lbs e pieces ∧ Filled e pieces :=
  ⟨cutInto 4096 e, cut_cutInto (by decide) hlbs (by decide) e, filled_cutInto (by decide) e⟩

theorem not_parked (h : m.policy.hangPm = 0) : m.hang.1 = false := by
  simp [Model.hang, h, hit_never]

theorem exists_serve_write (h : m.Sized size lbs cacheCap) (hnever : m.policy.hangPm = 0)
    (inRange : e.stop ≤ size) :
    ∃ res m', serve m .write e.off e.data.length e.data = some (res, e.data, m') := by
  have hsized := sized_hang h
  have hin : e.off + e.data.length ≤ m.hang.2.committed.length := by
    rw [hsized.size]
    exact inRange
  have hwrite : ∃ res m', m.hang.2.write e.off e.data = some (res, m') := by
    cases herror : (m.hang.2.rng.hit m.hang.2.policy.errorPm).1 with
    | false =>
      rcases Model.write_ok hsized.valid hin herror with ⟨m', hwrite, -⟩
      exact ⟨_, m', hwrite⟩
    | true =>
      rcases Model.write_errored hsized.valid hin herror with ⟨m', hwrite, -⟩
      exact ⟨_, m', hwrite⟩
  rcases hwrite with ⟨res, m', hwrite⟩
  refine ⟨res, m', ?_⟩
  simp [serve, not_parked hnever, perform, List.take_length, hwrite]

theorem exists_writeRequests {pieces : List Entry} (h : m.Sized size lbs cacheCap)
    (hnever : m.policy.hangPm = 0) (inRange : InRange size pieces) :
    ∃ results m', WriteRequests m pieces results m' := by
  induction pieces generalizing m with
  | nil => exact ⟨[], m, .nil⟩
  | cons e rest ih =>
    have he := inRange e List.mem_cons_self
    rcases exists_serve_write h hnever he with ⟨res, m', hserve⟩
    have hserved := serve_write h he hserve
    rcases ih hserved.sized (by rw [hserved.policy, hnever])
      fun p hp => inRange p (List.mem_cons_of_mem _ hp) with ⟨results, m'', hrest⟩
    exact ⟨res :: results, m'', .cons hserve hrest⟩

/-- A piece of a read, with what is there. -/
theorem exists_serve_read (h : m.Sized size lbs cacheCap) (hnever : m.policy.hangPm = 0)
    (inRange : e.stop ≤ size) (hdata : e.data = slice m.view e.off e.stop) :
    ∃ m', serve m .read e.off e.data.length e.data
      = some (asI32 e.data.length, e.data, m') := by
  have hsized := sized_hang h
  have hin : e.off + e.data.length ≤ m.hang.2.committed.length := by
    rw [hsized.size]
    exact inRange
  have hview : m.hang.2.view = m.view := view_congr (hang_cache m)
  have hread : ∃ out m', m.hang.2.read e.off e.data.length = some (out, m') := by
    unfold Model.read
    rw [if_pos hin]
    exact ⟨_, _, rfl⟩
  rcases hread with ⟨out, m', hread⟩
  have hout := (Model.read_eq hsized.valid hread).1
  rw [hview] at hout
  change out = slice m.view e.off e.stop at hout
  refine ⟨m', ?_⟩
  simp [serve, not_parked hnever, perform, hread, hout, ← hdata]

theorem exists_readRequests {pieces : List Entry} (h : m.Sized size lbs cacheCap)
    (hnever : m.policy.hangPm = 0) (inRange : InRange size pieces)
    (hdata : ∀ p, p ∈ pieces → p.data = slice m.view p.off p.stop) :
    ∃ m', ReadRequests m pieces m' := by
  induction pieces generalizing m with
  | nil => exact ⟨m, .nil⟩
  | cons e rest ih =>
    have he := inRange e List.mem_cons_self
    rcases exists_serve_read h hnever he (hdata e List.mem_cons_self) with ⟨m', hserve⟩
    have hserved := serve_read h he hserve
    rcases ih hserved.sized (by rw [hserved.policy, hnever])
      (fun p hp => inRange p (List.mem_cons_of_mem _ hp)) (fun p hp => by
        rw [view_congr hserved.cache]
        exact hdata p (List.mem_cons_of_mem _ hp)) with ⟨m'', hrest⟩
    exact ⟨m'', .cons hserve hrest⟩

/-- A part of what is read is what is read there. -/
theorem part_of_view {block : Nat} {image : Bytes} {p : Entry}
    (hdata : e.data = slice image e.off e.stop) (hpart : Part block e p) :
    p.data = slice image p.off p.stop := by
  have hstop : e.stop = e.off + e.data.length := rfl
  rcases hpart with ⟨i, j, hij, hj, -, -, rfl⟩
  have hlen := slice_length e.data (i := i) hj
  change slice e.data i j = slice image (e.off + i) (e.off + i + (slice e.data i j).length)
  rw [hlen]
  nth_rewrite 1 [hdata]
  rw [slice_slice _ (by omega)]
  congr 1
  omega

theorem exists_flush (h : m.Sized size lbs cacheCap) (hnever : m.policy.hangPm = 0) :
    ∃ m', serve m .flush 0 0 [] = some (0, [], m') := by
  rcases Model.flush_spec (sized_hang h).valid with ⟨m', hflush, -⟩
  exact ⟨m', by simp [serve, not_parked hnever, perform, hflush]⟩

theorem exists_handleCtl (h : s.model.Sized size lbs cacheCap)
    (fromStr : String → Except String Json) (line : String) :
    ∃ resp t, handleCtl fromStr s line = some (resp, t) := by
  unfold handleCtl
  split
  · exact ⟨_, _, rfl⟩
  · split
    · exact ⟨_, _, rfl⟩
    · exact ⟨_, _, rfl⟩
    · split
      · exact ⟨_, _, rfl⟩
      · rename_i mode _
        rcases Model.crash_spec h.valid mode with ⟨report, m', parts, hcrash, -⟩
        rw [hcrash]
        exact ⟨_, _, rfl⟩
    · split <;> exact ⟨_, _, rfl⟩
    · exact ⟨_, _, rfl⟩

/-- A device that parks nothing answers every call of the runner. -/
theorem direct_answers {shellRun : Shared → String → Option Int → Shared → Prop} {s : Shared}
    (h : s.model.Sized size lbs cacheCap) (hlbs : lbs ∣ 4096) (hnever : s.model.policy.hangPm = 0)
    (c : Syscall) (shells : ∀ cmd, c = .shell cmd → ∃ code t, shellRun s cmd code t) :
    ∃ r t, direct shellRun s c r t := by
  cases c with
  | writeAllAt off data =>
    by_cases htaken : Taken s.model ⟨off.toNat, data⟩
    · rcases exists_cut (h.lbs.symm ▸ hlbs) ⟨off.toNat, data⟩ with ⟨pieces, hcut, hfilled⟩
      have hin := hcut.inRange htaken.inRange
      rcases exists_writeRequests h hnever (h.size ▸ hin) with ⟨results, m', hwrites⟩
      by_cases hok : ∀ res, res ∈ results → 0 ≤ res
      · exact ⟨.ok (), { s with model := m' }, _, results, htaken, hcut, hfilled, hwrites, hok,
          rfl⟩
      · push Not at hok
        exact ⟨.error "", { s with model := m' }, _, results, hcut, hin, hwrites, Or.inr hok, rfl⟩
    · exact ⟨.error "", s, [], [], ⟨nofun, Nat.zero_le _, nofun⟩, nofun, .nil, Or.inl htaken, rfl⟩
  | readExactAt off len =>
    by_cases htaken : Taken s.model ⟨off.toNat, List.replicate len 0⟩
    · have hviewed : s.model.view.length = size :=
        (overwriteAll_length h.valid.cache).trans h.size
      have hinside : off.toNat + len ≤ size := by
        have hin := htaken.inRange
        rwa [h.size, Entry.stop, List.length_replicate] at hin
      have hlen : (slice s.model.view off.toNat (off.toNat + len)).length = len := by
        rw [slice_length _ (by omega)]
        omega
      generalize hout : slice s.model.view off.toNat (off.toNat + len) = out at hlen
      have hstop : (Entry.mk off.toNat out).stop = off.toNat + len := by rw [Entry.stop, hlen]
      have htaken' : Taken s.model ⟨off.toNat, out⟩ := by
        refine ⟨⟨htaken.aligned.1, ?_⟩, ?_⟩
        · have hdvd := htaken.aligned.2
          rwa [List.length_replicate, ← hlen] at hdvd
        · rw [hstop, h.size]
          exact hinside
      rcases exists_cut (h.lbs.symm ▸ hlbs) ⟨off.toNat, out⟩ with ⟨pieces, hcut, hfilled⟩
      have hdata : out = slice s.model.view off.toNat (Entry.mk off.toNat out).stop := by
        rw [hstop, hout]
      rcases exists_readRequests h hnever (h.size ▸ hcut.inRange htaken'.inRange)
        (fun p hp => part_of_view hdata (hcut.parts p hp)) with ⟨m', hreads⟩
      exact ⟨.ok out, { s with model := m' }, hlen, _, htaken', hcut, hfilled, hreads, rfl⟩
    · exact ⟨.error "", s, [], htaken, nofun, .nil, rfl⟩
  | syncAll =>
    rcases exists_flush h hnever with ⟨m', hflush⟩
    exact ⟨.ok (), { s with model := m' }, [], hflush, rfl⟩
  | request req =>
    rcases exists_handleCtl h (fun _ => .ok req) "" with ⟨resp, t, hanswer⟩
    exact ⟨.ok resp, t, hanswer⟩
  | sleep ms => exact ⟨(), s, rfl⟩
  | shell cmd =>
    rcases shells cmd rfl with ⟨code, t, hrun⟩
    exact ⟨.ok code, t, hrun⟩

/-! ## A whole file -/

/-- A device that parks nothing. -/
def Prompt (size lbs cacheCap : Nat) (s : Shared) : Prop :=
  s.model.Sized size lbs cacheCap ∧ s.model.policy.hangPm = 0

/-- The command ends, and leaves a device that parks nothing. -/
def ShellLeaves (size lbs cacheCap : Nat)
    (shellRun : Shared → String → Option Int → Shared → Prop) (cmd : String) : Prop :=
  ∀ s, Prompt size lbs cacheCap s → (∃ code t, shellRun s cmd code t) ∧
    ∀ code t, shellRun s cmd code t → Prompt size lbs cacheCap t

/-- A call that does not ask for requests to be parked. -/
def Leaves (size lbs cacheCap : Nat)
    (shellRun : Shared → String → Option Int → Shared → Prop) : Syscall → Prop
  | .request req => (req.index "hang_pm").asU64 = none
  | .shell cmd => ShellLeaves size lbs cacheCap shellRun cmd
  | _ => True

theorem handleCtl_hangPm {fromStr : String → Except String Json} {t : Shared} {line : String}
    {resp : Json} (h : handleCtl fromStr s line = some (resp, t))
    (hsized : s.model.Sized size lbs cacheCap)
    (hreq : ∀ req, fromStr line = .ok req → (req.index "hang_pm").asU64 = none) :
    t.model.policy.hangPm = s.model.policy.hangPm := by
  unfold handleCtl at h
  split at h
  · cases h
    rfl
  · rename_i req heq
    split at h
    · cases h
      rfl
    · have hset := handleSet_others s (f := .hangPm) (hreq req heq)
      rw [Option.some.inj h] at hset
      exact hset
    · split at h
      · cases h
        rfl
      · rename_i mode _
        rcases Model.crash_spec hsized.valid mode with ⟨report, m', parts, hcrash, heffect, -⟩
        rw [hcrash] at h
        cases h
        rw [heffect.policy]
    · split at h
      · cases h
        rfl
      · cases h
        rfl
    · cases h
      rfl

theorem Prompt.call {shellRun : Shared → String → Option Int → Shared → Prop} {t : Shared}
    {c : Syscall} {r : c.Answer} (h : Prompt size lbs cacheCap s)
    (hc : Leaves size lbs cacheCap shellRun c)
    (hr : direct shellRun s c r t) : Prompt size lbs cacheCap t := by
  cases c with
  | writeAllAt off data =>
    have hsent : Sent s ⟨off.toNat, data⟩ t := by
      cases r with
      | ok => exact Written.sent hr
      | error => exact WriteFailed.sent hr
    have hsized := hsent.sized h.1
    exact ⟨hsized.1, hsized.2 ▸ h.2⟩
  | readExactAt off len =>
    have hu : Untouched size lbs cacheCap s.model t.model := by
      cases r with
      | ok => exact hr.2.untouched h.1
      | error => exact hr.untouched h.1
    exact ⟨hu.sized, hu.policy ▸ h.2⟩
  | syncAll =>
    cases r with
    | error => exact hr.elim
    | ok =>
      rcases hr with ⟨buf, hserve, -⟩
      have hflush := serve_flush h.1 hserve
      exact ⟨hflush.sized, hflush.policy ▸ h.2⟩
  | request req =>
    cases r with
    | error => exact hr.elim
    | ok resp =>
      have hpolicy := handleCtl_hangPm hr h.1 fun req' heq => by
        obtain rfl : req = req' := Except.ok.inj heq
        exact hc
      rw [h.2] at hpolicy
      rcases handleCtl_call hr with heq | ⟨call, reply, hstep, -⟩
      · exact ⟨heq ▸ h.1, hpolicy⟩
      · exact ⟨h.1.step hstep, hpolicy⟩
  | sleep ms =>
    obtain rfl : t = s := hr
    exact h
  | shell cmd =>
    cases r with
    | error => exact hr.elim
    | ok code => exact (hc s h).2 code t hr

/-- A step that does not set `hang_pm`, and whose command ends. -/
def Step.Leaves (size lbs cacheCap : Nat)
    (shellRun : Shared → String → Option Int → Shared → Prop) : Step → Prop
  | .set pairs => "hang_pm" ∉ pairs.map Prod.fst
  | .run cmd _ => ShellLeaves size lbs cacheCap shellRun cmd
  | _ => True

variable {shellRun : Shared → String → Option Int → Shared → Prop}

theorem Step.Leaves.call {step : Step} (h : step.Leaves size lbs cacheCap shellRun) {c : Syscall}
    (hc : step.Calls c) : Scenario.Leaves size lbs cacheCap shellRun c := by
  cases step with
  | write off len pattern fsync expectError => rcases hc with rfl | rfl <;> trivial
  | expect =>
    rcases hc with ⟨off, n, rfl⟩
    trivial
  | set pairs =>
    rw [show c = _ from hc]
    exact index_setRequest_ne .hangPm h
  | crash | thaw =>
    rw [show c = _ from hc]
    rfl
  | run cmd expectOk =>
    rw [show c = _ from hc]
    exact h
  | flush | sleep =>
    rw [show c = _ from hc]
    trivial

/-- Between such calls the device answers all of them. -/
theorem ends_prompt {ε α : Type} {p : Prog Syscall Syscall.Answer ε α} (hlbs : lbs ∣ 4096)
    (h : Prompt size lbs cacheCap s) (honly : p.Only (Scenario.Leaves size lbs cacheCap shellRun)) :
    Ends (direct shellRun) p s := by
  refine ends_only (Prompt size lbs cacheCap) ?_ (fun s c r t hc hs hr => hs.call hc hr) honly h
  intro s c hc hs
  refine direct_answers hs.1 hlbs hs.2 c ?_
  rintro cmd rfl
  exact (hc s hs).1

theorem only_runFile {order : HashOrder} {display : Json → String} {name text : String}
    (leaves : ∀ line step, line ∈ lines text.toList →
      parseLine order (String.ofList line) = .ok (some step) →
      step.Leaves size lbs cacheCap shellRun) :
    (runFile order display name text).Only (Scenario.Leaves size lbs cacheCap shellRun) := by
  refine only_loop fun steps line hline => ?_
  have hmem : line.1 ∈ lines text.toList := List.fst_mem_of_mem_zipIdx hline
  unfold runLine
  cases hparse : parseLine order (String.ofList line.1) with
  | error e => simp
  | ok parsed =>
    cases parsed with
    | none => simp
    | some step =>
      refine only_bind (only_mapError ?_) fun _ => by simp
      exact only_mono (only_exec step) fun c hc => (leaves line.1 step hmem hparse).call hc

/-- Whatever the file says, no run of it gets stuck, unless a line of it sets
`hang_pm` or runs a command that does not end. -/
theorem runFile_ends {order : HashOrder} {display : Json → String} {name text : String}
    (hlbs : lbs ∣ 4096) (h : Prompt size lbs cacheCap s)
    (leaves : ∀ line step, line ∈ lines text.toList →
      parseLine order (String.ofList line) = .ok (some step) →
      step.Leaves size lbs cacheCap shellRun) :
    Ends (direct shellRun) (runFile order display name text) s :=
  ends_prompt hlbs h (only_runFile leaves)

theorem prompt_oneBlock : Prompt 4096 4096 4096 (oneBlock {}) := ⟨sized_oneBlock {}, rfl⟩

theorem shellLeaves_onlyTrue (cmd : String) : ShellLeaves size lbs cacheCap onlyTrue cmd := by
  intro s hs
  refine ⟨⟨_, s, rfl, rfl⟩, ?_⟩
  rintro code t ⟨-, rfl⟩
  exact hs

/-- A FLUSH, a command that fails, and a line that is no step. -/
theorem runFile_ends_oneBlock : Ends (direct onlyTrue)
    (runFile builtOrder (fun _ => "") "t" "flush\nrun false\nboom\n") (oneBlock {}) := by
  refine runFile_ends (by decide) prompt_oneBlock ?_
  intro line step hline hparse
  have hlines : lines "flush\nrun false\nboom\n".toList
      = ["flush".toList, "run false".toList, "boom".toList] := by decide +kernel
  rw [hlines] at hline
  simp only [List.mem_cons, List.not_mem_nil, or_false] at hline
  rcases hline with rfl | rfl | rfl
  · have hflush : (parseLine builtOrder (String.ofList "flush".toList)).toOption
        = some (some .flush) := by
      decide +kernel
    rw [hparse] at hflush
    cases hflush
    trivial
  · have hrun : (parseLine builtOrder (String.ofList "run false".toList)).toOption
        = some (some (.run "false" true)) := by
      decide +kernel
    rw [hparse] at hrun
    cases hrun
    exact shellLeaves_onlyTrue "false"
  · have hboom : (parseLine builtOrder (String.ofList "boom".toList)).toOption = none := by
      decide +kernel
    rw [hparse] at hboom
    cases hboom

end Scenario

end Ublkera
