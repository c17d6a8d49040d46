import Ublkera.Chaos.World
import Ublkera.Daemon.Marker

/-!
# The harness, step by step

`Ok p Q w` says of a part of the harness that no run of it from `w` ends in a
finding: it ends with `Q`, or with the error of a call that has failed for
reasons of its own.  The rules of `Ok` are those of `wp`, one for each shape
of a program.

Then one lemma for each part that the operations are made of: `attach_ok`,
`detach_ok`, `killDaemon_ok`, `readDevice_ok`, and the requests.
-/

namespace Ublkera

namespace Chaos

open LittleEndian Effect WriteCache Chunks Manager

variable (canonical : String → Option String)

/-! ## Parts that find nothing -/

/-- A run that has found nothing, and with `Q` if it has ended well. -/
def Passes {α : Type} (Q : α → World → Prop) : Except Failure α → World → Prop
  | .ok a, w => Q a w
  | .error (.call _), w => w.faulted = true
  | .error (.check _), _ => False

def Ok {α : Type} (p : Action α) (Q : α → World → Prop) (w : World) : Prop :=
  wp (world canonical) p (Passes Q) w

variable {canonical} {α β γ : Type} {Q : α → World → Prop} {w : World}

theorem ok_mono {Q' : α → World → Prop} {p : Action α} (h : Ok canonical p Q' w)
    (hQ : ∀ a w', Q' a w' → Q a w') : Ok canonical p Q w := by
  refine wp_mono h fun out w' hout => ?_
  match out with
  | .ok a => exact hQ a w' hout
  | .error (.call e) => exact hout
  | .error (.check e) => exact hout

theorem ok_bind {p : Action β} {f : β → Action α}
    (h : Ok canonical p (fun b w' => Ok canonical (f b) Q w') w) :
    Ok canonical (p >>= f) Q w := by
  unfold Ok
  rw [wp_monad_bind]
  refine wp_mono h fun out w' hout => ?_
  match out with
  | .ok a => exact hout
  | .error (.call e) => exact hout
  | .error (.check e) => exact hout

/-- A call that the world never refuses. -/
theorem ok_perform {c : Call} {Q : c.Reply → World → Prop}
    (answered : ∀ a w', serve canonical w c (.ok a) w' → Q a w')
    (taken : ∀ e w', ¬ serve canonical w c (.error e) w') : Ok canonical (perform c) Q w := by
  intro answer w' hanswer
  cases answer with
  | ok a =>
    rcases hanswer with hserve | ⟨⟨e, he⟩, -⟩
    · exact answered a w' hserve
    · cases he
  | error e =>
    rcases hanswer with hserve | ⟨-, hfault⟩
    · exact absurd hserve (taken e w')
    · exact hfault.1

theorem ok_ensure {condition : Bool} {e : String} {Q : Unit → World → Prop}
    (h : condition = true) (hQ : Q () w) : Ok canonical (ensure condition e) Q w := by
  unfold ensure
  rw [if_pos h]
  exact hQ

theorem ok_require {e : String} {o : Option α} {a : α} (h : o = some a) (hQ : Q a w) :
    Ok canonical (require e o) Q w := by
  subst h
  exact hQ

theorem ok_context {p : Action α} {context : String} (h : Ok canonical p Q w) :
    Ok canonical (p.mapError (Failure.context context)) Q w := by
  unfold Ok
  rw [wp_mapError]
  refine wp_mono h fun out w' hout => ?_
  match out with
  | .ok a => exact hout
  | .error (.call e) => exact hout
  | .error (.check e) => exact hout

theorem ok_loop {body : β → γ → Action β} {Q : β → World → Prop} (I : List γ → β → World → Prop)
    {l : List γ} {b : β} (init : I [] b w)
    (step : ∀ done x rest b w, l = done ++ x :: rest → I done b w →
      Ok canonical (body b x) (fun b w' => I (done ++ [x]) b w') w)
    (final : ∀ b w, I l b w → Q b w) : Ok canonical (Prog.loop body l b) Q w := by
  refine wp_loop I init ?_ final
  intro done x rest b w hl hI
  refine wp_mono (step done x rest b w hl hI) fun out w' hout => ?_
  match out with
  | .ok a => exact hout
  | .error (.call e) => exact hout
  | .error (.check e) => exact hout

/-! ## The device -/

/-- The device is attached, and the harness knows it. -/
structure Up (h : Harness) (w : World) (t : Tracked) : Prop where
  daemon : h.daemon = true ∧ w.daemon = true
  attached : w.attached = some t
  devId : h.devId = some t.managed.devId.toUInt64
  dev : h.dev = true
  metaPath : t.managed.metaPath = some h.metaPath
  granularity : t.map.granularity = h.gran
  devSize : t.map.devSize = h.size
  generation : h.generation = generationText t.map.generation
  used : t.map.generation ∈ w.used

/-- The device has the size that the harness knows, and it can be attached. -/
structure Sized (h : Harness) (w : World) : Prop where
  pos : 0 < h.size.toNat
  aligned : 4096 ∣ h.size.toNat
  gran : validGranularity h.gran = true
  backing : w.backing.length = h.size.toNat
  expected : h.expected.length = h.size.toNat
  shadow : h.shadow.length = h.size.toNat

variable {h : Harness} {t : Tracked}

/-- A granularity is of whole blocks. -/
theorem dvd_granularity {granularity : UInt64} (valid : validGranularity granularity = true) :
    4096 ∣ granularity.toNat := by
  simp only [validGranularity, isPowerOfTwo, Bool.and_eq_true, bne_iff_ne, ne_eq, beq_iff_eq,
    decide_eq_true_eq, UInt64.le_iff_toNat_le] at valid
  obtain ⟨⟨hne, hand⟩, hle⟩ := valid
  have hfour : (4096 : UInt64).toNat = 2 ^ 12 := rfl
  have hone : (1 : UInt64).toNat = 1 := rfl
  have hand' : granularity.toNat &&& (granularity.toNat - 1) = 0 := by
    have hnat := congrArg UInt64.toNat hand
    rw [UInt64.toNat_and, UInt64.toNat_sub_of_le _ _ (by rw [UInt64.le_iff_toNat_le]; omega)]
      at hnat
    exact hnat
  obtain ⟨k, hk⟩ := (Nat.and_sub_one_eq_zero_iff_isPowerOfTwo (by omega)).mp hand'
  rw [hk] at hle ⊢
  have hexp : 12 ≤ k := by
    rw [hfour] at hle
    exact (Nat.pow_le_pow_iff_right (by omega)).mp hle
  exact Nat.pow_dvd_pow 2 hexp

theorem Up.taken (up : Up h w t) (sized : Sized h w) {off len : Nat} (hoff : 4096 ∣ off)
    (hlen : 4096 ∣ len) (hin : off + len ≤ h.size.toNat) : Taken w off len :=
  ⟨by rw [up.attached]; rfl, hoff, hlen, by rw [sized.backing]; exact hin⟩

/-- A read of whole blocks of the device. -/
theorem readExactAt_ok {off len : Nat} {Q : Bytes → World → Prop} (taken : Taken w off len)
    (hQ : Q (slice w.backing off (off + len)) w) : Ok canonical (readExactAt off len) Q w := by
  refine ok_perform ?_ ?_
  · intro got w' hserve
    obtain ⟨-, rfl, rfl⟩ := hserve
    exact hQ
  · intro e w' hserve
    exact hserve.1 taken

theorem readDevice_ok (up : Up h w t) (sized : Sized h w) {Q : Bytes → World → Prop}
    (hQ : Q w.backing w) : Ok canonical (readDevice h) Q w := by
  unfold readDevice
  refine ok_bind (ok_ensure up.dev ?_)
  have hmax : 0 < maxRead := by decide
  have hdvd : 4096 ∣ maxRead := by decide
  have hsum := sum_lens hmax h.size.toNat
  refine ok_loop (fun done out w' => out = slice w.backing 0 done.sum ∧ w' = w)
    ⟨by simp [slice], rfl⟩ ?_ ?_
  · rintro done n rest out w' hl ⟨hout, rfl⟩
    have hdone : done.sum + n + rest.sum = h.size.toNat := by
      rw [← hsum, hl]
      simp
      omega
    have hlen : out.length = done.sum := by
      rw [hout, slice_length _ (by rw [sized.backing]; omega)]
      omega
    have hmem : ∀ m, m ∈ done ++ n :: rest → 4096 ∣ m := by
      intro m hm
      rw [← hl] at hm
      exact dvd_lens hmax hdvd sized.aligned hm
    have hoff : 4096 ∣ done.sum :=
      List.dvd_sum fun m hm => hmem m (List.mem_append_left _ hm)
    refine ok_bind (readExactAt_ok (up.taken sized ?_ ?_ ?_) ?_)
    · rw [hlen]
      exact hoff
    · exact hmem n (by simp)
    · omega
    · refine ⟨?_, rfl⟩
      rw [hlen, hout, slice_append_slice _ (Nat.zero_le _) (Nat.le_add_right _ _)]
      simp
  · rintro out w' ⟨hout, rfl⟩
    rw [hsum, slice_self _ sized.backing.symm] at hout
    rw [hout]
    exact hQ

/-! ## Requests -/

theorem found_self (hattached : w.attached = some t) :
    w.found canonical (target t.managed.devId.toUInt64) = .ok t := by
  have hresolve : resolve canonical (w.attached.toList.map (·.managed))
      (target t.managed.devId.toUInt64) = .ok t.managed.devId := by
    show Except.ok t.managed.devId.toUInt64.toUInt32 = _
    simp
  unfold World.found
  rw [hresolve, hattached]
  simp [find]

theorem at_self (hattached : w.attached = some t)
    (f : Tracked → Except String Json × World) :
    w.at canonical (target t.managed.devId.toUInt64) f = f t := by
  unfold World.at
  rw [found_self hattached]

/-- A request that the daemon answers. -/
theorem client_ok {req : Serve.Request} {Q : Json → World → Prop} (running : w.daemon = true)
    (answered : ∀ v w', w.command canonical req (.ok v) w' → Q v w')
    (taken : ∀ e w', ¬ w.command canonical req (.error e) w') :
    Ok canonical (client req) Q w := by
  refine ok_perform ?_ ?_
  · intro v w' hserve
    exact answered v w' hserve.2
  · intro e w' hserve
    rcases hserve with ⟨-, e, hcommand⟩ | ⟨hdown, -⟩
    · exact taken e w' hcommand
    · rw [running] at hdown
      cases hdown

/-- A request to the attached device that it answers with `v`. -/
theorem client_at_ok {req : Serve.Request} {Q : Json → World → Prop} {v : Json} {w' : World}
    (running : w.daemon = true)
    (hcommand : ∀ r u, w.command canonical req r u ↔ (Except.ok v, w') = (r, u)) (hQ : Q v w') :
    Ok canonical (client req) Q w := by
  refine client_ok running ?_ ?_
  · intro v' u hv
    obtain ⟨hr, rfl⟩ := Prod.mk.inj ((hcommand _ _).mp hv)
    obtain rfl := Except.ok.inj hr
    exact hQ
  · intro e u hv
    cases (Prod.mk.inj ((hcommand _ _).mp hv)).1

theorem client_checkpoint_ok (up : Up h w t) {Q : Json → World → Prop}
    (hQ : Q (w.checkpoint t).1 (w.checkpoint t).2) :
    Ok canonical (client (.checkpoint (target t.managed.devId.toUInt64))) Q w := by
  refine client_at_ok up.daemon.2 ?_ hQ
  intro r u
  show w.at canonical _ _ = (r, u) ↔ _
  rw [at_self up.attached]

theorem client_del_ok (up : Up h w t) {Q : Json → World → Prop}
    (hQ : Q (w.del t).1 (w.del t).2) :
    Ok canonical (client (.del (target t.managed.devId.toUInt64))) Q w := by
  refine client_at_ok up.daemon.2 ?_ hQ
  intro r u
  show w.at canonical _ _ = (r, u) ↔ _
  rw [at_self up.attached]

/-- A `dump` is accepted, or it is refused, or it fails; it changes nothing
that the harness can see. -/
theorem tryClient_dump_ok (up : Up h w t) {since : UInt32} {gen : String}
    {Q : Except String Json → World → Prop}
    (accepted : ∀ v, dumpOne t since (some gen) = .ok v → Q (.ok v) w)
    (refused : ∀ e, dumpOne t since (some gen) = .error e → ∀ e', Q (.error e') w)
    (faulted : ∀ e, Q (.error e) { w with faulted := true }) :
    Ok canonical (tryClient (.dump (target t.managed.devId.toUInt64) since (some gen))) Q w := by
  have hat : ∀ r u, w.command canonical
      (.dump (target t.managed.devId.toUInt64) since (some gen)) r u ↔
      (dumpOne t since (some gen), w) = (r, u) := by
    intro r u
    show w.at canonical _ _ = (r, u) ↔ _
    rw [at_self up.attached]
  intro answer w' hanswer
  rcases hanswer with hserve | ⟨⟨e, rfl⟩, hfault⟩
  · cases answer with
    | ok v =>
      obtain ⟨hv, rfl⟩ := Prod.mk.inj ((hat _ _).mp hserve.2)
      exact accepted v hv
    | error e =>
      rcases hserve with ⟨-, e', hcommand⟩ | ⟨hdown, -⟩
      · obtain ⟨hv, rfl⟩ := Prod.mk.inj ((hat _ _).mp hcommand)
        exact refused e' hv e
      · rw [up.daemon.2] at hdown
        cases hdown
  · rw [hfault.2 _ _ _ rfl]
    exact faulted e

/-! ## Attach and detach -/

theorem waitBdevGone_ok {Q : Harness → World → Prop}
    (gone : ∀ id, h.devId = some id → w.present id = false)
    (hQ : Q { h with devId := none } w) : Ok canonical (waitBdevGone h) Q w := by
  unfold waitBdevGone
  cases hid : h.devId with
  | none =>
    have hsame : { h with devId := none } = h := by rw [← hid]
    rw [hsame] at hQ
    exact hQ
  | some id =>
    refine ok_bind (ok_perform ?_ ?_)
    · rintro a w' ⟨-, rfl⟩
      exact hQ
    · rintro e w' ⟨hpresent, -⟩
      rw [gone id hid] at hpresent
      cases hpresent

/-- The world behind a detach. -/
def detached (w : World) (t : Tracked) : World :=
  { w with metaFile := some (t.map.metaBytes true), attached := none }

theorem detach_ok (up : Up h w t) {Q : Harness → World → Prop}
    (hQ : Q { h with dev := false, devId := none } (detached w t)) :
    Ok canonical (detach h) Q w := by
  unfold detach
  refine ok_bind (ok_require up.devId ?_)
  refine ok_bind (client_del_ok up ?_)
  have hdel : (w.del t).2 = detached w t := by
    simp [World.del, World.save, up.metaPath, detached]
  rw [hdel]
  exact waitBdevGone_ok (fun _ _ => rfl) hQ

/-- What the harness asks for. -/
def specOf (h : Harness) : DeviceSpec :=
  { backing := h.backing, granularity := h.gran, metaPath := some h.metaPath
    metaText := h.metaText }

/-- The harness and the world behind an attach. -/
def reattached (h : Harness) (devId : UInt32) (map : EraState) : Harness :=
  { h with
    devId := some devId.toUInt64, generation := generationText map.generation, dev := true }

def trackedOf (h : Harness) (devId : UInt32) (map : EraState) : Tracked :=
  { managed :=
      { devId, backing := h.backing, metaPath := some h.metaPath, metaText := h.metaText
        supervisor := 0 }
    map }

def attachedTo (h : Harness) (w : World) (g : UInt64) (devId : UInt32) (map : EraState) : World :=
  { w with
    metaFile := some (map.metaBytes false), attached := some (trackedOf h devId map)
    used := g :: w.used }

theorem attach_ok (sized : Sized h w) (running : w.daemon = true) (hnone : w.attached = none)
    (file : ∀ g, ∃ r, addState (specOf h) w.metaFile h.size (.ok g) = .ok r)
    {Q : Harness × Json → World → Prop}
    (hQ : ∀ g devId map recovered, g ∉ w.used →
      addState (specOf h) w.metaFile h.size (.ok g) = .ok (map, recovered) →
      Q (reattached h devId map, addResponse devId (specOf h) h.size map recovered)
        (attachedTo h w g devId map)) :
    Ok canonical (attach h) Q w := by
  have hlen : UInt64.ofNat w.backing.length = h.size := by
    rw [sized.backing, UInt64.ofNat_toNat]
  have hcheck : ∀ g, checkAdd (w.attached.toList.map (·.managed)) (specOf h)
      { idInUse := false, opened := .ok (), devSize := .ok (UInt64.ofNat w.backing.length)
        urandom := .ok g } = .ok h.size := by
    intro g
    have hpos : h.size ≠ 0 := by
      intro hzero
      have hsize := sized.pos
      rw [hzero] at hsize
      exact absurd hsize (by decide)
    have hmod : h.size % 512 = 0 := by
      have hdvd := sized.aligned
      apply UInt64.toNat.inj
      rw [UInt64.toNat_mod]
      show h.size.toNat % 512 = 0
      omega
    simp [checkAdd, specOf, hnone, hlen, hpos, hmod]
  have hadd : ∀ g devId, ∃ map recovered,
      addState (specOf h) w.metaFile h.size (.ok g) = .ok (map, recovered) ∧
      w.add (specOf h) g devId = (.ok (addResponse devId (specOf h) h.size map recovered),
        attachedTo h w g devId map) := by
    intro g devId
    obtain ⟨⟨map, recovered⟩, hstate⟩ := file g
    refine ⟨map, recovered, hstate, ?_⟩
    have hmeta : w.metaOf (specOf h).metaPath = w.metaFile := rfl
    unfold World.add
    simp only [hcheck, hmeta, hstate]
    rfl
  unfold attach
  refine ok_bind (client_ok running ?_ ?_)
  · rintro v w' ⟨g, devId, hfresh, hcommand⟩
    obtain ⟨map, recovered, hstate, hadd⟩ := hadd g devId
    obtain ⟨hv, rfl⟩ := Prod.mk.inj (hadd.symm.trans hcommand)
    obtain rfl := Except.ok.inj hv
    have hid : ((addResponse devId (specOf h) h.size map recovered).index "dev_id").asU64
        = some devId.toUInt64 := by
      cases recovered with
      | true => rfl
      | false => rfl
    have hgen : ((addResponse devId (specOf h) h.size map recovered).index "generation").asStr
        = some (generationText map.generation) := by
      cases recovered with
      | true => rfl
      | false => rfl
    refine ok_bind (ok_require hid (ok_bind (ok_require hgen (ok_bind (ok_perform ?_ ?_)))))
    · rintro a w' ⟨-, rfl⟩
      exact hQ g devId map recovered hfresh hstate
    · rintro e w' ⟨habsent, -⟩
      simp [World.present, attachedTo, trackedOf] at habsent
  · rintro e w' ⟨g, devId, hfresh, hcommand⟩
    obtain ⟨map, recovered, -, hadd⟩ := hadd g devId
    cases (Prod.mk.inj (hadd.symm.trans hcommand)).1

theorem recovered_addResponse (devId : UInt32) (spec : DeviceSpec) (devSize : UInt64)
    (map : EraState) (recovered : Bool) :
    ((addResponse devId spec devSize map recovered).index "recovered_unclean").asBool
      = if recovered then some true else none := by
  cases recovered with
  | true => rfl
  | false => rfl

/-- An attach of a device whose metadata file is complete. -/
theorem attach_loaded_ok (sized : Sized h w) (running : w.daemon = true) (hnone : w.attached = none)
    {snap : EraState} {clean : Bool} (file : w.metaFile = some (snap.metaBytes clean))
    (hgran : snap.granularity = h.gran) (hsize : snap.devSize = h.size)
    {Q : Harness × Json → World → Prop}
    (hQ : ∀ g devId h' v w', h' = reattached h devId (snap.recover clean) →
      (v.index "recovered_unclean").asBool = (if clean then none else some true) →
      w' = attachedTo h w g devId (snap.recover clean) → Q (h', v) w') :
    Ok canonical (attach h) Q w := by
  have hstate : ∀ g, addState (specOf h) w.metaFile h.size (.ok g)
      = .ok (snap.recover clean, !clean) := by
    intro g
    rw [file]
    exact addState_metaBytes (specOf h) snap rfl hgran hsize clean g
  refine attach_ok sized running hnone (fun g => ⟨_, hstate g⟩) ?_
  intro g devId map recovered _ hmap
  rw [hstate g] at hmap
  obtain ⟨rfl, rfl⟩ := Prod.mk.inj (Except.ok.inj hmap)
  refine hQ g devId _ _ _ rfl ?_ rfl
  rw [recovered_addResponse]
  cases clean with
  | true => rfl
  | false => rfl

/-- An attach of a device without a metadata file. -/
theorem attach_fresh_ok (sized : Sized h w) (running : w.daemon = true) (hnone : w.attached = none)
    (file : w.metaFile = none) {Q : Harness × Json → World → Prop}
    (hQ : ∀ devId map h' v w', map.generation ∉ w.used → map.currentEra = 1 →
      map.granularity = h.gran → map.devSize = h.size → h' = reattached h devId map →
      (v.index "recovered_unclean").asBool = none →
      w' = attachedTo h w map.generation devId map → Q (h', v) w') :
    Ok canonical (attach h) Q w := by
  have hstate : ∀ g, ∃ map, EraState.new h.size h.gran (.ok g) = .ok map ∧
      addState (specOf h) w.metaFile h.size (.ok g) = .ok (map, false) := by
    intro g
    have hnew : ∃ map, EraState.new h.size h.gran (.ok g) = .ok map := by
      unfold EraState.new
      rw [dif_pos sized.gran]
      exact ⟨_, rfl⟩
    obtain ⟨map, hmap⟩ := hnew
    refine ⟨map, hmap, ?_⟩
    rw [file]
    simp only [addState, specOf, hmap]
  refine attach_ok sized running hnone ?_ ?_
  · intro g
    obtain ⟨map, -, hadd⟩ := hstate g
    exact ⟨(map, false), hadd⟩
  · intro g devId map recovered hfresh hmap
    obtain ⟨map', hnew, hadd⟩ := hstate g
    rw [hadd] at hmap
    obtain ⟨rfl, rfl⟩ := Prod.mk.inj (Except.ok.inj hmap)
    obtain ⟨hgen, hera, hsize, hgran⟩ := EraState.new_ok hnew
    subst hgen
    exact hQ devId map' _ _ _ hfresh hera hgran hsize rfl (recovered_addResponse ..) rfl

/-! ## The end of a daemon, and the next one -/

theorem startDaemon_ok (hdown : w.daemon = false) {Q : Harness → World → Prop}
    (hQ : Q { h with daemon := true } { w with daemon := true }) :
    Ok canonical (startDaemon h) Q w := by
  unfold startDaemon
  refine ok_bind (ok_perform ?_ ?_)
  · rintro a w' ⟨-, rfl⟩
    exact hQ
  · rintro e w' ⟨hup, -⟩
    rw [hdown] at hup
    cases hup

/-- The world behind a SIGKILL. -/
def killed (w : World) (logs : List WriterLog) (events : List (Nat × Entry)) : World :=
  { w with
    backing := overwriteAll w.backing (events.map (·.2)), daemon := false, attached := none
    writers := [], logs }

theorem killDaemon_ok (up : Up h w t) {Q : Harness → World → Prop}
    (hQ : ∀ logs events, Raced w.slice w.writers logs events →
      Q { h with dev := false, daemon := false, devId := none } (killed w logs events)) :
    Ok canonical (killDaemon h) Q w := by
  unfold killDaemon
  refine ok_bind (ok_ensure up.daemon.1 (ok_bind (ok_perform ?_ ?_)))
  · rintro a w' ⟨-, logs, events, hraced, rfl⟩
    exact waitBdevGone_ok (fun _ _ => rfl) (hQ logs events hraced)
  · rintro e w' ⟨hdown, -⟩
    rw [up.daemon.2] at hdown
    cases hdown

/-- Without writer threads nothing lands. -/
theorem raced_nil {slice : Nat} {logs : List WriterLog} {events : List (Nat × Entry)}
    (hraced : Raced slice [] logs events) : logs = [] ∧ events = [] := by
  obtain ⟨hlen, -, hlanes⟩ := hraced
  refine ⟨List.length_eq_zero_iff.mp hlen, ?_⟩
  cases events with
  | nil => rfl
  | cons e rest =>
    have hlane := hlanes e.1 (Nat.zero_le _)
    simp [lane] at hlane

/-! ## A write -/

theorem foldl_fetchMax_generation (map : EraState) (era : UInt32) (chunks : List Nat) :
    (chunks.foldl (fun map i => map.fetchMax i era) map).generation = map.generation := by
  induction chunks generalizing map with
  | nil => rfl
  | cons i chunks ih => exact ih (map.fetchMax i era)

theorem grows_markWrite (map : EraState) (offset len : UInt64) :
    Grows map (map.markWrite offset len) := by
  have hmarks := map.marks_markWrite offset len
  refine ⟨hmarks.granularity, hmarks.devSize, ?_, fun c => ?_⟩
  · unfold EraState.markWrite EraState.markPass
    split
    · rfl
    · exact foldl_fetchMax_generation map _ _
  · by_cases hc : map.Stamps offset len c
    · rw [hmarks.inside c hc, UInt32.le_iff_toNat_le, UInt32.toNat_max]
      omega
    · rw [hmarks.outside c hc]
      exact UInt32.le_refl _

/-- A request inside the device marks the chunk of each of its bytes. -/
theorem le_era_mark (map : EraState) {p : Entry} (hin : p.stop ≤ map.devSize.toNat) {x : Nat}
    (hlo : p.off ≤ x) (hhi : x < p.stop) :
    map.currentEra ≤ (mark map p).era (x / map.granularity.toNat) := by
  have hstop : p.stop = p.off + p.data.length := rfl
  have hsize := map.devSize.toNat_lt
  have hoff : (UInt64.ofNat p.off).toNat = p.off := by
    rw [UInt64.toNat_ofNat', Nat.mod_eq_of_lt (by omega)]
  have hlen : (UInt64.ofNat p.data.length).toNat = p.data.length := by
    rw [UInt64.toNat_ofNat', Nat.mod_eq_of_lt (by omega)]
  have hstamps : map.Stamps (UInt64.ofNat p.off) (UInt64.ofNat p.data.length)
      (x / map.granularity.toNat) :=
    EraState.mem_markRange (by omega) (by omega) (by omega)
  unfold mark
  rw [(map.marks_markWrite _ _).inside _ hstamps, UInt32.le_iff_toNat_le, UInt32.toNat_max]
  omega

/-- The requests of a write mark its chunks, and nothing else about the map
changes. -/
theorem mark_pieces (map : EraState) {pieces : List Entry}
    (hin : ∀ p, p ∈ pieces → p.stop ≤ map.devSize.toNat) :
    Grows map (pieces.foldl mark map) ∧ (pieces.foldl mark map).currentEra = map.currentEra ∧
      ∀ p, p ∈ pieces → ∀ x, p.off ≤ x → x < p.stop →
        map.currentEra ≤ (pieces.foldl mark map).era (x / map.granularity.toNat) := by
  induction pieces generalizing map with
  | nil => exact ⟨Grows.refl map, rfl, nofun⟩
  | cons q rest ih =>
    have hgrows : Grows map (mark map q) := grows_markWrite map _ _
    have hcurrent : (mark map q).currentEra = map.currentEra :=
      (map.marks_markWrite _ _).currentEra
    obtain ⟨hrest, hera, hmarked⟩ := ih (mark map q) fun p hp => by
      rw [hgrows.devSize]
      exact hin p (List.mem_cons_of_mem _ hp)
    rw [List.foldl_cons]
    refine ⟨hgrows.trans hrest, hera.trans hcurrent, ?_⟩
    intro p hp x hlo hhi
    rcases List.mem_cons.mp hp with rfl | hp
    · exact UInt32.le_trans (le_era_mark map (hin p List.mem_cons_self) hlo hhi) (hrest.era _)
    · have hold := hmarked p hp x hlo hhi
      rw [hcurrent, hgrows.granularity] at hold
      exact hold

end Chaos

end Ublkera
