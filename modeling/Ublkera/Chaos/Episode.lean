import Ublkera.Chaos.Operations

/-!
# An episode finds nothing

On a daemon that works the harness of `src/bin/chaos.rs` reports no finding,
whatever its seed is, whatever the writer threads get to do, and whichever
calls fail: `episode_passes`.
-/

namespace Ublkera

namespace Chaos

open LittleEndian Effect WriteCache Chunks Manager

variable {canonical : String → Option String} {h : Harness} {w : World} {t : Tracked} {n : Nat}

/-! ## A kill while the threads write -/

/-- The ranges that hold a byte that is not as it should be are adopted. -/
theorem adopt_ok {ranges : List (Nat × Nat)} {expected : Bytes} {Q : Bytes → World → Prop}
    (blocks : ∀ r, r ∈ ranges → Taken w r.1 r.2) (hlen : expected.length = w.backing.length)
    (hdefined : ∀ x : Nat, (∀ r, r ∈ ranges → ¬ (r.1 ≤ x ∧ x < r.1 + r.2)) →
      w.backing[x]? = expected[x]?) (hQ : Q w.backing w) :
    Ok canonical (Prog.loop adopt ranges expected) Q w := by
  refine ok_loop (fun done expected' w' => w' = w ∧ expected'.length = w.backing.length ∧
    ∀ x : Nat, ((∀ r, r ∈ ranges → ¬ (r.1 ≤ x ∧ x < r.1 + r.2)) ∨
      ∃ r, r ∈ done ∧ r.1 ≤ x ∧ x < r.1 + r.2) → w.backing[x]? = expected'[x]?) ?_ ?_ ?_
  · refine ⟨rfl, hlen, ?_⟩
    rintro x (hx | ⟨r, hr, -⟩)
    · exact hdefined x hx
    · cases hr
  · rintro done r rest expected' w' hl ⟨rfl, hlen', hsame⟩
    have htaken := blocks r (by rw [hl]; simp)
    have hin := htaken.inRange
    have hgot : (slice w'.backing r.1 (r.1 + r.2)).length = r.2 := by
      rw [slice_length _ hin]
      omega
    have hfits : r.1 + (slice w'.backing r.1 (r.1 + r.2)).length ≤ expected'.length := by
      rw [hgot, hlen']
      exact hin
    unfold adopt
    refine ok_bind (readExactAt_ok htaken ⟨rfl, ?_, ?_⟩)
    · rw [patch_length _ _ _ hfits, hlen']
    · intro x hx
      rw [getElem?_patch hfits, hgot]
      by_cases hnew : r.1 ≤ x ∧ x < r.1 + r.2
      · rw [if_pos hnew, getElem?_slice _ (by omega)]
        congr 1
        omega
      · rw [if_neg hnew]
        refine hsame x ?_
        rcases hx with hx | ⟨q, hq, hqx⟩
        · exact Or.inl hx
        · rcases List.mem_append.mp hq with hq | hq
          · exact Or.inr ⟨q, hq, hqx⟩
          · rw [List.mem_singleton.mp hq] at hqx
            exact absurd hqx hnew
  · rintro expected' w' ⟨rfl, -, hsame⟩
    have heq : expected' = w'.backing := by
      apply List.ext_getElem?
      intro x
      refine (hsame x ?_).symm
      by_cases hx : ∃ r, r ∈ ranges ∧ r.1 ≤ x ∧ x < r.1 + r.2
      · exact Or.inr hx
      · exact Or.inl fun r hr hin => hx ⟨r, hr, hin⟩
    rw [heq]
    exact hQ

/-- Behind the race the harness knows the device up to the interrupted
writes. -/
theorem recoverInflight_ok {undefined : List (Nat × Nat)} {map : EraState}
    (down : Down h w map n)
    (blocks : ∀ r, r ∈ undefined → 4096 ∣ r.1 ∧ 4096 ∣ r.2 ∧ r.1 + r.2 ≤ w.backing.length)
    (hdefined : ∀ x : Nat, (∀ r, r ∈ undefined → ¬ (r.1 ≤ x ∧ x < r.1 + r.2)) →
      w.backing[x]? = h.expected[x]?) :
    Ok canonical (recoverInflight h h.generation undefined)
      (fun h' w' => ∃ t', Ready h' w' t' n) w := by
  unfold recoverInflight
  refine ok_bind (ok_mono (down.attach_ok ?_) fun _ _ hattach => ok_bind hattach)
  intro h' v w' t' hv hgen hexpected hbacking ready
  refine ok_bind (ok_ensure (by simp [hv]) (ok_bind (ok_ensure (by simp [hgen]) ?_)))
  refine ok_bind (ok_ensure ready.up.dev (ok_bind (adopt_ok ?_ ?_ ?_ ?_)))
  · intro r hr
    obtain ⟨hoff, hlen, hstop⟩ := blocks r hr
    rw [← hbacking, ready.sized.backing] at hstop
    exact ready.up.taken ready.sized hoff hlen hstop
  · rw [hexpected, hbacking, down.sized.expected, down.sized.backing]
  · rw [hexpected, hbacking]
    exact hdefined
  · rw [hbacking]
    exact ok_bind (readDevice_ok ready.up ready.sized (ok_bind (diff_ok hbacking ⟨t', ready⟩)))

theorem opCrashInflight_ok (ready : Ready h w t n) (rng : Fault.Rng) :
    Ok canonical (opCrashInflight h rng) (fun s w' => ∃ t', Ready s.1 w' t' n) w := by
  have up := ready.up
  have sized := ready.sized
  have hslice : 4096 ∣ h.size.toNat / 4 / 4096 * 4096 := Nat.dvd_mul_left _ _
  have hfour : 4 * (h.size.toNat / 4 / 4096 * 4096) ≤ h.size.toNat := by omega
  unfold opCrashInflight
  simp only
  generalize h.size.toNat / 4 / 4096 * 4096 = size at hslice hfour
  by_cases hzero : size = 0
  · rw [if_pos hzero]
    exact ok_bind (ok_mono (opCrash_ok ready) fun h' w' hready => hready)
  rw [if_neg hzero]
  obtain ⟨hcount, own⟩ := ownSlices_seedWriters size rng
  generalize seedWriters size [0, 1, 2, 3] rng = seeded at hcount own
  obtain ⟨writers, rng'⟩ := seeded
  change writers.length = 4 at hcount
  change OwnSlices size writers at own
  simp only
  generalize rng'.below 250 = rolled
  refine ok_bind (ok_require up.devId (ok_bind (ok_perform ?_ fun _ _ => id)))
  rintro _ w₁ rfl
  refine ok_bind (ok_perform ?_ fun _ _ => id)
  rintro _ w₂ rfl
  have up₂ : Up h { w with slice := size, writers } t :=
    ⟨up.daemon, up.attached, up.devId, up.dev, up.metaPath, up.granularity, up.devSize,
      up.generation, up.used⟩
  refine ok_bind (killDaemon_ok up₂ ?_)
  intro logs events hraced
  refine ok_bind (ok_perform ?_ fun _ _ => id)
  rintro joined w₃ ⟨hjoined, rfl⟩
  obtain rfl : logs = joined := hjoined.symm
  have hin : writers.length * size ≤ w.backing.length := by
    rw [hcount, sized.backing]
    exact hfour
  obtain ⟨hevents, hok, hundefined, hbytes⟩ :=
    raced_bytes hraced hslice (Nat.pos_of_ne_zero hzero) own hin
  have hlen := overwriteAll_length hevents
  have hlen' := overwriteAll_length hok
  rw [ready.image, sized.expected] at hlen'
  have down : Down
      { h with
        dev := false, daemon := false, devId := none
        expected := overwriteAll h.expected (logs.flatMap (·.ok)) }
      { killed { w with slice := size, writers } logs events with logs := [] } t.map n :=
    ⟨⟨sized.pos, sized.aligned, sized.gran, hlen.trans sized.backing, hlen', sized.shadow⟩, rfl,
      rfl, rfl, ready.file, up.granularity, up.devSize, up.generation, up.used,
      ready.covered.behind, ready.era⟩
  refine ok_bind (ok_mono (recoverInflight_ok down ?_ ?_) fun _ _ hready => hready)
  · intro r hr
    obtain ⟨hoff, hsize, hstop⟩ := hundefined r hr
    exact ⟨hoff, hsize, hstop.trans hlen.ge⟩
  · intro x hx
    show (overwriteAll w.backing _)[x]? = (overwriteAll h.expected _)[x]?
    rw [← ready.image]
    exact hbytes x hx

/-! ## The loop -/

theorem operation_ok (ready : Ready h w t n) (hn : n + 2 < 2 ^ 32) (roll : Nat)
    (rng : Fault.Rng) :
    Ok canonical (operation h roll rng) (fun s w' => ∃ t', Ready s.1 w' t' (n + 1)) w := by
  have weaken : ∀ {h' w' t'}, Ready h' w' t' n → Ready h' w' t' (n + 1) := by
    intro h' w' t' ready'
    exact ⟨ready'.up, ready'.sized, ready'.image, ready'.writers, ready'.file, ready'.covered,
      Nat.le_succ_of_le ready'.era⟩
  have kept : ∀ {p : Action (Harness × Fault.Rng)},
      Ok canonical p (fun s w' => ∃ t', Ready s.1 w' t' n) w →
      Ok canonical p (fun s w' => ∃ t', Ready s.1 w' t' (n + 1)) w := by
    intro p hp
    refine ok_mono hp ?_
    rintro s w' ⟨t', ready'⟩
    exact ⟨t', weaken ready'⟩
  have alone : ∀ {p : Action Harness},
      Ok canonical p (fun h' w' => ∃ t', Ready h' w' t' (n + 1)) w →
      Ok canonical (do let h ← p; .ret (h, rng)) (fun s w' => ∃ t', Ready s.1 w' t' (n + 1)) w :=
    fun hp => ok_bind (ok_mono hp fun _ _ hready => hready)
  have alone' : ∀ {p : Action Harness},
      Ok canonical p (fun h' w' => ∃ t', Ready h' w' t' n) w →
      Ok canonical (do let h ← p; .ret (h, rng)) (fun s w' => ∃ t', Ready s.1 w' t' n) w :=
    fun hp => ok_bind (ok_mono hp fun _ _ hready => hready)
  unfold operation
  simp only
  split
  · exact kept (opWriteBurst_ok ready rng)
  split
  · refine alone (ok_mono (opBackupVerify_ok ready hn) ?_)
    rintro h' w' ⟨t', ready', -⟩
    exact ⟨t', ready'⟩
  split
  · exact alone (opCheckpoint_ok ready hn)
  split
  · exact kept (alone' (opReattach_ok ready))
  split
  · exact kept (alone' (opCrash_ok ready))
  split
  · exact kept (opCrashInflight_ok ready rng)
  · exact kept (alone' (opLoseMeta_ok ready))

/-- The operations of an episode. -/
theorem runOps_ok {ops : UInt32} (ready : Ready h w t 0) (hops : ops.toNat + 2 < 2 ^ 32)
    (rng : Fault.Rng) :
    Ok canonical (Prog.loop (runOp ops) (List.range ops.toNat) (h, rng))
      (fun s w' => ∃ t', Ready s.1 w' t' ops.toNat) w := by
  refine ok_loop (fun done s w' => ∃ t', Ready s.1 w' t' done.length) ⟨t, ready⟩ ?_ ?_
  · rintro done i rest ⟨h', rng'⟩ w' hl ⟨t', ready'⟩
    have hlen := congrArg List.length hl
    rw [List.length_range, List.length_append, List.length_cons] at hlen
    rw [List.length_append, List.length_singleton]
    unfold runOp
    exact ok_context (operation_ok ready' (by omega) _ _)
  · rintro s w' ⟨t', ready'⟩
    rw [List.length_range] at ready'
    exact ⟨t', ready'⟩

/-! ## An episode -/

/-- The first attach of a device. -/
theorem ready_fresh {map : EraState} {devId : UInt32} {h' : Harness} {w' : World}
    (hh : h' = reattached h devId map) (hw : w' = attachedTo h w map.generation devId map)
    (daemon : h.daemon = true ∧ w.daemon = true) (sized : Sized h w)
    (image : w.backing = h.expected) (writers : w.writers = []) (cursor : h.cursor = none)
    (hera : map.currentEra = 1) (hgran : map.granularity = h.gran) (hsize : map.devSize = h.size) :
    Ready h' w' (trackedOf h devId map) 0 := by
  refine ready_attachedTo hh hw daemon sized image writers hgran hsize List.mem_cons_self ?_ ?_
  · intro gen era hcursor
    rw [cursor] at hcursor
    cases hcursor
  · rw [hera]
    decide

/-- Nothing is there yet. -/
structure Clean (w : World) : Prop where
  daemon : w.daemon = false
  attached : w.attached = none
  metaFile : w.metaFile = none
  writers : w.writers = []

theorem run_ok {cli : Cli} (sized : Sized h w) (clean : Clean w) (image : w.backing = h.expected)
    (cursor : h.cursor = none) (hops : cli.ops.toNat + 2 < 2 ^ 32) (rng : Fault.Rng) :
    Ok canonical (run cli h rng) (fun _ _ => True) w := by
  unfold run
  refine ok_bind (startDaemon_ok clean.daemon (ok_bind ?_))
  have sized' : Sized { h with daemon := true } { w with daemon := true } :=
    ⟨sized.pos, sized.aligned, sized.gran, sized.backing, sized.expected, sized.shadow⟩
  refine attach_fresh_ok sized' rfl clean.attached clean.metaFile ?_
  intro devId map h₁ v w₁ _ hera hgran hsize hh _ hw
  have ready₁ := ready_fresh hh hw ⟨rfl, rfl⟩ sized' image clean.writers cursor hera hgran hsize
  refine ok_bind (ok_mono (runOps_ok ready₁ hops rng) ?_)
  rintro ⟨h₂, rng'⟩ w₂ ⟨t₂, ready₂⟩
  refine ok_bind (ok_context (ok_mono (opBackupVerify_ok ready₂ hops) ?_))
  rintro h₃ w₃ ⟨t₃, ready₃, -⟩
  refine ok_bind (detach_ok ready₃.up (ok_bind (ok_perform ?_ fun _ _ => id)))
  rintro onDisk w₄ ⟨rfl, rfl⟩
  have hsame : (detached w₃ t₃).backing = h₃.expected := ready₃.image
  refine ok_bind (ok_ensure (by simp [hsame]) (ok_bind (ready₃.attach_ok ?_)))
  intro h₅ v₅ w₅ t₅ hv₅ _ ready₅
  refine ok_bind (ok_ensure (by simp [hv₅]) (ok_bind (detach_ok ready₅.up (ok_bind ?_))))
  refine client_ok ready₅.up.daemon.2 ?_ ?_
  · rintro v₆ w₆ ⟨-, rfl⟩
    have hdaemon : h₅.daemon = true := ready₅.up.daemon.1
    simp only [hdaemon]
    refine ok_perform (fun _ _ _ => trivial) ?_
    rintro e w₇ ⟨hup, -⟩
    cases hup
  · rintro e w₆ ⟨he, -⟩
    cases he

/-- What the command line says is a device that the daemon takes. -/
structure Cli.Valid (cli : Cli) : Prop where
  granularity : cli.granularity = 0 ∨ validGranularity cli.granularity = true
  size : 4096 ∣ cli.size.toNat
  ops : cli.ops.toNat + 2 < 2 ^ 32

theorem Cli.Valid.gran {cli : Cli} (valid : cli.Valid) (rng : Fault.Rng) :
    validGranularity (cli.gran rng).1 = true := by
  unfold Cli.gran
  split
  · rename_i hne
    exact valid.granularity.resolve_left hne
  · have hroll := rng.below_lt (n := 4) (by decide)
    simp only
    generalize (rng.below 4).1 = roll at hroll
    interval_cases roll <;> decide

theorem Cli.Valid.devSize {cli : Cli} (valid : cli.Valid) (rng : Fault.Rng) :
    0 < (cli.devSize rng).1.toNat ∧ 4096 ∣ (cli.devSize rng).1.toNat := by
  unfold Cli.devSize
  split
  · rename_i hne
    refine ⟨Nat.pos_of_ne_zero fun hzero => hne (UInt64.toNat.inj hzero), valid.size⟩
  · have hroll := rng.below_lt (n := 16) (by decide)
    simp only
    generalize (rng.below 16).1 = roll at hroll
    interval_cases roll <;> decide

theorem setup_ok {cli : Cli} (valid : cli.Valid) (clean : Clean w) (rng : Fault.Rng) :
    Ok canonical (setup cli rng) (fun s w' => Sized s.1 w' ∧ Clean w' ∧
      w'.backing = s.1.expected ∧ s.1.cursor = none) w := by
  have hgran := valid.gran rng
  unfold setup
  generalize cli.gran rng = rolled at hgran
  obtain ⟨gran, rng⟩ := rolled
  have hsize := valid.devSize rng
  simp only
  generalize cli.devSize rng = rolled at hsize
  obtain ⟨size, rng⟩ := rolled
  obtain ⟨hpos, haligned⟩ := hsize
  change 0 < size.toNat at hpos
  change 4096 ∣ size.toNat at haligned
  have hmod : size % 4096 = 0 := by
    apply UInt64.toNat.inj
    rw [UInt64.toNat_mod]
    exact Nat.mod_eq_zero_of_dvd haligned
  simp only
  generalize rng.below 3 = queues
  refine ok_bind (ok_ensure (by simp [hmod]) (ok_bind (ok_perform ?_ fun _ _ => id)))
  rintro _ w' rfl
  have hzeros : (List.replicate size.toNat (0 : UInt8)).length = size.toNat :=
    List.length_replicate
  exact ⟨⟨hpos, haligned, hgran, hzeros, hzeros, hzeros⟩,
    ⟨clean.daemon, clean.attached, clean.metaFile, clean.writers⟩, rfl, rfl⟩

theorem episode_ok {cli : Cli} (valid : cli.Valid) (clean : Clean w) :
    Ok canonical (episode cli) (fun _ _ => True) w := by
  unfold episode
  refine ok_bind (ok_context (ok_mono (setup_ok valid clean _) ?_))
  rintro ⟨h, rng⟩ w' ⟨sized, clean', image, cursor⟩
  exact run_ok sized clean' image cursor valid.ops rng

/-- No run of an episode ends in a finding: it ends well, or with the error of
a call that has failed for reasons of its own. -/
theorem episode_passes {cli : Cli} (valid : cli.Valid) (clean : Clean w) :
    wp (world canonical) (episode cli) (fun out w' =>
      out = .ok () ∨ w'.faulted = true ∧ ∃ e, out = .error (.call e)) w := by
  refine wp_mono (episode_ok valid clean) fun out w' hpasses => ?_
  match out with
  | .ok () => exact Or.inl rfl
  | .error (.call e) => exact Or.inr ⟨hpasses, e, rfl⟩
  | .error (.check e) => exact hpasses.elim

/-- Nothing is there yet. -/
def World.empty : World :=
  { backing := [], metaFile := none, daemon := false, attached := none, used := [], slice := 0
    writers := [], logs := [], faulted := false }

def twoChunks : Cli :=
  { dir := "d", metaPath := ⟨0, "meta.bin".toList, by decide⟩, seed := 7, ops := 500
    size := 8192, granularity := 4096 }

theorem episode_passes_twoChunks :
    wp (world fun _ => none) (episode twoChunks) (fun out w' =>
      out = .ok () ∨ w'.faulted = true ∧ ∃ e, out = .error (.call e)) .empty :=
  episode_passes ⟨Or.inr (by decide), by decide, by decide⟩ ⟨rfl, rfl, rfl, rfl⟩

/-! ## What a pass means -/

section AnyWorld

variable {σ : Type} {H : Handler σ Call Call.Answer} {image : σ → Bytes}

/-- A read returns what is on the device. -/
def Reads (H : Handler σ Call Call.Answer) (image : σ → Bytes) : Prop :=
  ∀ s off len (got : Bytes) t, H s (.readExactAt off len) (.ok got) t →
    image t = image s ∧ off + len ≤ (image s).length ∧ got = slice (image s) off (off + len)

theorem readDevice_reads (reads : Reads H image) (h : Harness) (s : σ) :
    wp H (readDevice h) (fun out t => ∀ got, out = .ok got →
      image t = image s ∧ got = slice (image s) 0 h.size.toNat) s := by
  have hmax : 0 < maxRead := by decide
  have hsum := sum_lens hmax h.size.toNat
  unfold readDevice
  rw [wp_monad_bind]
  by_cases hdev : h.dev = true
  swap
  · rw [ensure, if_neg hdev]
    intro got hgot
    cases hgot
  rw [ensure, if_pos hdev, wp_ret]
  simp only
  refine wp_loop (fun done (out : Bytes) t => image t = image s ∧
    out = slice (image s) 0 done.sum ∧ out.length = done.sum) ⟨rfl, by simp [slice], rfl⟩ ?_ ?_
  · rintro done n rest out t - ⟨himage, hout, hlen⟩
    rw [wp_monad_bind]
    intro answer u hanswer
    cases answer with
    | error e =>
      intro got hgot
      cases hgot
    | ok got =>
      change Bytes at got
      obtain ⟨hsame, hin, hgot⟩ := reads _ _ _ _ _ hanswer
      rw [himage] at hsame hin hgot
      rw [hlen] at hin hgot
      have hgotlen : got.length = n := by
        rw [hgot, slice_length _ hin]
        omega
      refine ⟨hsame, ?_, ?_⟩
      · rw [hgot, hout, slice_append_slice _ (Nat.zero_le _) (Nat.le_add_right _ _)]
        simp
      · rw [List.length_append, hlen, hgotlen]
        simp
  · rintro out t ⟨himage, hout, -⟩ got ⟨⟩
    rw [hsum] at hout
    exact ⟨himage, hout⟩

theorem verify_means (reads : Reads H image) (h : Harness) (s : σ) :
    wp H (verify h) (fun out t => out = .ok () →
      slice (image t) 0 h.size.toNat = h.expected ∧ h.shadow = h.expected) s := by
  unfold verify
  rw [wp_monad_bind]
  refine wp_mono (readDevice_reads reads h s) fun out t hread => ?_
  cases out with
  | error e => exact nofun
  | ok got =>
    obtain ⟨himage, hgot⟩ := hread got rfl
    simp only
    unfold diff
    by_cases hexpected : got = h.expected
    · rw [if_pos hexpected]
      by_cases hshadow : got = h.shadow
      · rw [if_pos hshadow]
        intro _
        rw [himage, ← hgot, ← hshadow]
        exact ⟨hexpected, hexpected⟩
      · rw [if_neg hshadow]
        exact nofun
    · rw [if_neg hexpected]
      exact nofun

/-- In any world whose reads return what is on the device: a backup that has
passed is the device, byte for byte, and the device is what was written. -/
theorem backup_means (reads : Reads H image) (h : Harness) (s : σ) :
    wp H (opBackupVerify h) (fun out t => ∀ h', out = .ok h' →
      h'.expected = h.expected ∧ slice (image t) 0 h.size.toNat = h.expected ∧
        h'.shadow = h.expected) s := by
  have failed : ∀ (err : Failure) (t : σ) (h' : Harness), Except.error err = .ok h' →
      h'.expected = h.expected ∧ slice (image t) 0 h.size.toNat = h.expected ∧
        h'.shadow = h.expected := by
    intro err t h' herr
    cases herr
  unfold opBackupVerify
  refine wp_bind_of_forall (fun id t => wp_bind_of_forall (fun v t => wp_bind_of_forall
    (fun closed t => wp_bind_of_forall (fun incremental t => wp_bind_of_forall
      (fun shadow t => ?_) failed) failed) failed) failed) failed
  rw [wp_monad_bind]
  refine wp_mono (verify_means reads _ t) fun out t hverify => ?_
  cases out with
  | error err => exact failed err t
  | ok =>
    rintro h' ⟨⟩
    obtain ⟨himage, hshadow⟩ := hverify rfl
    exact ⟨rfl, himage, hshadow⟩

end AnyWorld

theorem reads_world : Reads (world canonical) World.backing := by
  rintro w off len got w' (⟨htaken, hgot, rfl⟩ | ⟨⟨e, he⟩, -⟩)
  · exact ⟨rfl, htaken.inRange, hgot⟩
  · cases he

theorem runs_perform {σ : Type} {H : Handler σ Call Call.Answer} {c : Call} {a : c.Reply}
    {s t : σ} (answer : H s c (.ok a) t) : Runs H (perform c) s (.ok a) t :=
  .call answer .ret

/-- One block that was never backed up. -/
def attachedHarness : Harness :=
  { backing := "d/backing.img", metaPath := twoChunks.metaPath, metaText := "d/meta.bin"
    size := 4096, gran := 4096, daemon := true, devId := some 0, dev := true, generation := "7"
    expected := List.replicate 4096 7, shadow := List.replicate 4096 0, cursor := none }

def oneBlock : Tracked :=
  { managed :=
      { devId := 0, backing := "d/backing.img", metaPath := none, metaText := "", supervisor := 0 }
    map := EraState.oneChunk }

def attachedWorld : World :=
  { World.empty with
    backing := attachedHarness.expected, daemon := true, attached := some oneBlock }

theorem runs_readDevice {h : Harness} {w : World} (hdev : h.dev = true) (hsize : h.size = 4096)
    (htaken : Taken w 0 4096) :
    Runs (world fun _ => none) (readDevice h) w (.ok (slice w.backing 0 4096)) w := by
  unfold readDevice
  rw [hdev, hsize, show lens maxRead (4096 : UInt64).toNat = [4096] by decide]
  exact .bind .ret (.bind (.bind (runs_perform (c := .readExactAt 0 4096)
    (a := slice w.backing 0 4096) (Or.inl ⟨htaken, rfl, rfl⟩)) .ret) .ret)

theorem runs_diff {h : Harness} {what : String} {actual model : Bytes} {w : World}
    (heq : actual = model) : Runs (world fun _ => none) (diff h what actual model) w (.ok ()) w := by
  rw [diff, if_pos heq]
  exact .ret

/-- A full backup of one block passes, and the backup is the device. -/
theorem backup_means_oneBlock : ∃ h' w',
    Runs (world fun _ => none) (opBackupVerify attachedHarness) attachedWorld (.ok h') w' ∧
      slice w'.backing 0 attachedHarness.size.toNat = attachedHarness.expected ∧
        h'.shadow = attachedHarness.expected := by
  have hrun : ∃ h' w', Runs (world fun _ => none) (opBackupVerify attachedHarness) attachedWorld
      (.ok h') w' := by
    have hlen : attachedHarness.expected.length = 4096 := List.length_replicate
    have hheld : slice attachedHarness.expected 0 4096 = attachedHarness.expected :=
      List.take_of_length_le hlen.le
    -- the image of the device is not to be evaluated
    generalize himage : attachedHarness.expected = image at hlen hheld
    have htaken : Taken (attachedWorld.checkpoint oneBlock).2 0 4096 := by
      refine ⟨rfl, ⟨0, rfl⟩, ⟨1, rfl⟩, ?_⟩
      show 0 + 4096 ≤ attachedHarness.expected.length
      rw [himage, hlen]
    have hread : ∀ h : Harness, h.dev = true → h.size = 4096 →
        Runs (world fun _ => none) (readDevice h) (attachedWorld.checkpoint oneBlock).2 (.ok image)
          (attachedWorld.checkpoint oneBlock).2 := by
      intro h hdev hsize
      have hrun := runs_readDevice hdev hsize htaken
      rw [show (attachedWorld.checkpoint oneBlock).2.backing = image from himage, hheld] at hrun
      exact hrun
    have hverify : Runs (world fun _ => none)
        (verify { attachedHarness with shadow := image, cursor := some ("7", 1) })
        (attachedWorld.checkpoint oneBlock).2 (.ok ()) (attachedWorld.checkpoint oneBlock).2 := by
      exact .bind (hread _ rfl rfl) (.bind (runs_diff himage.symm) (runs_diff rfl))
    refine ⟨{ attachedHarness with shadow := image, cursor := some ("7", 1) },
      (attachedWorld.checkpoint oneBlock).2, ?_⟩
    unfold opBackupVerify
    refine .bind (a := 0) .ret (.bind (runs_perform (c := .client (.checkpoint (target 0)))
      (Or.inl ⟨rfl, rfl⟩)) (.bind (a := 1) .ret (.bind (a := none) .ret
        (.bind (hread _ rfl rfl) (.bind hverify .ret)))))
  obtain ⟨h', w', hrun⟩ := hrun
  obtain ⟨-, hbacking, hshadow⟩ :=
    wp_iff_runs.mp (backup_means reads_world attachedHarness attachedWorld) _ _ hrun h' rfl
  exact ⟨h', w', hrun, hbacking, hshadow⟩

end Chaos

end Ublkera
