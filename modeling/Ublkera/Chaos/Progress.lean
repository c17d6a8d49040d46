import Ublkera.Chaos.Episode

/-!
# An episode ends

As long as a generation is left, the world of the harness answers every call:
`exists_serve`.  An `add` takes one generation at most and the other calls
take none, so an episode of `n` operations takes `n + 2`.  `episode_ends`: no
run of an episode gets stuck, and where no call fails for reasons of its own,
no run fails.
-/

namespace Ublkera

namespace Chaos

open Effect Manager LittleEndian WriteCache

variable (canonical : String → Option String)

/-! ## The answers of the world -/

theorem exists_raced (slice : Nat) (writers : List Writer) :
    Raced slice writers (writers.map fun _ => { ok := [], undefined := [] }) [] := by
  refine ⟨List.length_map _, ?_, fun _ _ => rfl⟩
  intro i w log _ hlog
  rw [List.getElem?_map, Option.map_eq_some_iff] at hlog
  obtain ⟨_, -, rfl⟩ := hlog
  exact ⟨0, [], [], rfl, .nil, rfl, Or.inl ⟨rfl, rfl⟩⟩

theorem exists_command (w : World) (hfresh : ∃ g, g ∉ w.used) (req : Serve.Request) :
    ∃ r w', w.command canonical req r w' := by
  cases req with
  | add spec =>
    obtain ⟨g, hg⟩ := hfresh
    exact ⟨_, _, g, 0, hg, rfl⟩
  | list | checkpointAll | shutdown => exact ⟨_, _, rfl, rfl⟩
  | del | status | checkpoint | dump => exact ⟨_, _, rfl⟩

/-- No call is left without an answer, as long as a generation is left. -/
theorem exists_serve (w : World) (hfresh : ∃ g, g ∉ w.used) (c : Call) :
    ∃ answer w', serve canonical w c answer w' := by
  cases c with
  | createBacking | spawnWriters | sleep => exact ⟨.ok (), _, rfl⟩
  | readBacking => exact ⟨.ok w.backing, _, rfl, rfl⟩
  | joinWriters => exact ⟨.ok w.logs, _, rfl, rfl⟩
  | startDaemon =>
    cases hdaemon : w.daemon with
    | true => exact ⟨.error "", w, hdaemon, rfl⟩
    | false => exact ⟨.ok (), _, hdaemon, rfl⟩
  | killDaemon =>
    cases hdaemon : w.daemon with
    | true => exact ⟨.ok (), _, hdaemon, _, _, exists_raced w.slice w.writers, rfl⟩
    | false => exact ⟨.error "", w, hdaemon, rfl⟩
  | client req =>
    cases hdaemon : w.daemon with
    | true =>
      obtain ⟨r, w', hcommand⟩ := exists_command canonical w hfresh req
      cases r with
      | ok v => exact ⟨.ok v, w', hdaemon, hcommand⟩
      | error e => exact ⟨.error e, w', Or.inl ⟨hdaemon, e, hcommand⟩⟩
    | false => exact ⟨.error "", w, Or.inr ⟨hdaemon, rfl⟩⟩
  | bdevGone devId =>
    cases hpresent : w.present devId with
    | true => exact ⟨.error "", w, hpresent, rfl⟩
    | false => exact ⟨.ok (), w, hpresent, rfl⟩
  | openDevice devId =>
    cases hpresent : w.present devId with
    | true => exact ⟨.ok (), w, hpresent, rfl⟩
    | false => exact ⟨.error "", w, hpresent, rfl⟩
  | writeAllAt off data =>
    by_cases htaken : Taken w off data.length
    · refine ⟨.ok (), _, htaken, [{ off, data }], ⟨?_, ?_⟩, rfl⟩
      · intro p hp
        rw [List.mem_singleton.mp hp]
        exact ⟨0, data.length, Nat.zero_le _, Nat.le_refl _, ⟨0, rfl⟩, Or.inr rfl,
          by simp [slice]⟩
      · intro x hlo hhi
        exact ⟨_, List.mem_singleton_self _, hlo, hhi⟩
    · exact ⟨.error "", w, htaken, rfl⟩
  | readExactAt off len =>
    by_cases htaken : Taken w off len
    · exact ⟨.ok (slice w.backing off (off + len)), w, htaken, rfl, rfl⟩
    · exact ⟨.error "", w, htaken, rfl⟩
  | removeMeta =>
    cases hfile : w.metaFile with
    | none => exact ⟨.error "", w, hfile, rfl⟩
    | some bytes => exact ⟨.ok (), _, by rw [hfile]; rfl, rfl⟩
  | daemonExit =>
    cases hdaemon : w.daemon with
    | true => exact ⟨.error "", w, hdaemon, rfl⟩
    | false => exact ⟨.ok (), w, hdaemon, rfl⟩

/-! ## The generations that a call takes -/

/-- The generations that a call may draw. -/
def Call.draws : Call → Nat
  | .client (.add _) => 1
  | _ => 0

/-- At most `n` generations are drawn, and no call fails for reasons of its
own. -/
structure Draws (n : Nat) (w w' : World) : Prop where
  used : w'.used.length ≤ w.used.length + n
  faulted : w'.faulted = w.faulted

variable {canonical} {w w' : World} {n : Nat}

theorem Draws.refl (n : Nat) (w : World) : Draws n w w := ⟨Nat.le_add_right _ _, rfl⟩

theorem Draws.of_same (hused : w'.used = w.used) (hfaulted : w'.faulted = w.faulted) :
    Draws n w w' := ⟨by rw [hused]; exact Nat.le_add_right _ _, hfaulted⟩

theorem draws_save (path : Option MetaPath) (map : EraState) (clean : Bool) :
    Draws 0 w (w.save path map clean) := by
  cases path with
  | none => exact .refl 0 w
  | some path => exact .of_same rfl rfl

theorem draws_add (spec : DeviceSpec) (g : UInt64) (devId : UInt32) :
    Draws 1 w (w.add spec g devId).2 := by
  unfold World.add
  simp only
  split
  · exact .refl 1 w
  split
  · exact .refl 1 w
  · exact ⟨Nat.le_refl _, (draws_save (w := w) _ _ _).faulted⟩

theorem draws_checkpoint (t : Tracked) : Draws 0 w (w.checkpoint t).2 := by
  have hsave := draws_save (w := w) t.managed.metaPath t.map.checkpoint.1 false
  exact ⟨hsave.used, hsave.faulted⟩

theorem draws_del (t : Tracked) : Draws 0 w (w.del t).2 := by
  have hsave := draws_save (w := w) t.managed.metaPath t.map true
  exact ⟨hsave.used, hsave.faulted⟩

theorem draws_shutdown : Draws 0 w w.shutdown := by
  unfold World.shutdown
  cases w.attached with
  | none => exact .of_same rfl rfl
  | some t => exact ⟨(draws_del t).used, (draws_del t).faulted⟩

theorem draws_at {target : Target} {f : Tracked → Except String Json × World}
    {r : Except String Json} (h : w.at canonical target f = (r, w'))
    (hf : ∀ t, Draws n w (f t).2) : Draws n w w' := by
  have hw : w' = (w.at canonical target f).2 := by rw [h]
  rw [hw, World.at]
  cases w.found canonical target with
  | error e => exact .refl n w
  | ok t => exact hf t

theorem command_draws {req : Serve.Request} {r : Except String Json}
    (h : w.command canonical req r w') : Draws (Call.client req).draws w w' := by
  cases req with
  | add spec =>
    obtain ⟨g, devId, -, hadd⟩ := h
    have hw : w' = (w.add spec g devId).2 := by rw [hadd]
    rw [hw]
    exact draws_add spec g devId
  | list =>
    obtain ⟨-, rfl⟩ := h
    exact .refl 0 w'
  | checkpointAll =>
    obtain ⟨-, rfl⟩ := h
    cases w.attached with
    | none => exact .refl 0 w
    | some t => exact draws_checkpoint t
  | shutdown =>
    obtain ⟨-, rfl⟩ := h
    exact draws_shutdown
  | del => exact draws_at h draws_del
  | checkpoint => exact draws_at h draws_checkpoint
  | status | dump => exact draws_at h fun _ => .refl 0 w

theorem serve_draws {c : Call} {answer : c.Answer} (h : serve canonical w c answer w') :
    Draws c.draws w w' := by
  cases c with
  | client req =>
    cases answer with
    | ok v => exact command_draws h.2
    | error e =>
      rcases h with ⟨-, e, hcommand⟩ | ⟨-, rfl⟩
      · exact command_draws hcommand
      · exact .refl _ w'
  | killDaemon =>
    cases answer with
    | ok => 
      obtain ⟨-, logs, events, -, rfl⟩ := h
      exact .of_same rfl rfl
    | error e =>
      obtain ⟨-, rfl⟩ := h
      exact .refl 0 w'
  | writeAllAt off data =>
    cases answer with
    | ok => 
      obtain ⟨-, pieces, -, rfl⟩ := h
      exact .of_same rfl rfl
    | error e =>
      obtain ⟨-, rfl⟩ := h
      exact .refl 0 w'
  | createBacking | spawnWriters | sleep =>
    cases answer with
    | ok =>
      obtain rfl := h
      exact .of_same rfl rfl
    | error e => exact h.elim
  | readBacking | joinWriters =>
    cases answer with
    | ok =>
      obtain ⟨-, rfl⟩ := h
      exact .of_same rfl rfl
    | error e => exact h.elim
  | readExactAt off len =>
    cases answer with
    | ok =>
      obtain ⟨-, -, rfl⟩ := h
      exact .refl 0 w'
    | error e =>
      obtain ⟨-, rfl⟩ := h
      exact .refl 0 w'
  | startDaemon | bdevGone | openDevice | removeMeta | daemonExit =>
    cases answer with
    | ok | error e =>
      obtain ⟨-, rfl⟩ := h
      exact .of_same rfl rfl

/-! ## The generations that an episode takes -/

/-- The action draws `n` generations at most. -/
abbrev Costs {α : Type} (n : Nat) (p : Action α) : Prop := p.Within Call.draws n

variable {α : Type} {h : Harness} {rng : Fault.Rng}

theorem costs_perform (c : Call) : Costs c.draws (perform c) := by
  refine ⟨Nat.le_refl _, fun answer => ?_⟩
  cases answer <;> trivial

theorem costs_tryClient (req : Serve.Request) : Costs (Call.client req).draws (tryClient req) :=
  ⟨Nat.le_refl _, fun _ => within_ret⟩

theorem costs_ensure (condition : Bool) (e : String) : Costs n (ensure condition e) := by
  unfold ensure
  split <;> trivial

theorem costs_require (e : String) (a : Option α) : Costs n (require e a) := by
  cases a <;> trivial

theorem costs_startDaemon : Costs 0 (startDaemon h) :=
  within_bind_right (costs_perform _) fun _ => within_ret

theorem costs_waitBdevGone : Costs 0 (waitBdevGone h) := by
  unfold waitBdevGone
  split
  · exact within_bind_right (costs_perform _) fun _ => within_ret
  · trivial

theorem costs_killDaemon : Costs 0 (killDaemon h) :=
  within_bind_right (costs_ensure _ _) fun _ =>
    within_bind_right (costs_perform _) fun _ => costs_waitBdevGone

theorem costs_attach : Costs 1 (attach h) := by
  refine within_bind (m := 1) (n := 0) (costs_perform _) fun v => ?_
  refine within_bind_right (costs_require _ _) fun id => ?_
  refine within_bind_right (costs_require _ _) fun generation => ?_
  exact within_bind_right (costs_perform _) fun _ => within_ret

theorem costs_detach : Costs 0 (detach h) := by
  refine within_bind_right (costs_require _ _) fun id => ?_
  exact within_bind_right (costs_perform _) fun _ => costs_waitBdevGone

/-- A loop whose body draws nothing. -/
theorem costs_loop {β γ : Type} {body : β → γ → Action β} {l : List γ} {b : β}
    (hbody : ∀ b x, Costs 0 (body b x)) : Costs 0 (Prog.loop body l b) := by
  have hloop := within_loop (l := l) (b := b) hbody
  rw [Nat.zero_mul] at hloop
  exact hloop

theorem costs_readDevice : Costs 0 (readDevice h) := by
  refine within_bind_right (costs_ensure _ _) fun _ => costs_loop fun out n => ?_
  exact within_bind_right (costs_perform _) fun _ => within_ret

theorem costs_diff (what : String) (actual model : Bytes) : Costs 0 (diff h what actual model) := by
  unfold diff
  split <;> trivial

theorem costs_verify : Costs 0 (verify h) :=
  within_bind_right costs_readDevice fun _ =>
    within_bind_right (costs_diff _ _ _) fun _ => costs_diff _ _ _

theorem costs_opWriteBurst : Costs 0 (opWriteBurst h rng) := by
  refine costs_loop fun s i => ?_
  refine within_bind_right (costs_ensure _ _) fun _ => ?_
  exact within_bind_right (within_mapError (costs_perform _)) fun _ => within_ret

theorem costs_opCheckpoint : Costs 0 (opCheckpoint h) :=
  within_bind_right (costs_require _ _) fun _ =>
    within_bind_right (costs_perform _) fun _ => within_ret

theorem costs_copyRange (shadow : Bytes) (r : Json) : Costs 0 (copyRange h shadow r) := by
  refine within_bind_right (costs_require _ _) fun off => ?_
  refine within_bind_right (costs_require _ _) fun len => ?_
  refine within_bind_right (costs_ensure _ _) fun _ => ?_
  refine within_bind_right (costs_loop fun s n => ?_) fun _ => within_ret
  exact within_bind_right (costs_perform _) fun _ => within_ret

theorem costs_incrementalBackup (id : UInt64) : Costs 0 (incrementalBackup h id) := by
  unfold incrementalBackup copyChanged
  split
  · refine within_bind_right (costs_tryClient _) fun answer => ?_
    cases answer with
    | error e => exact within_ret
    | ok d =>
      refine within_bind_right (costs_require _ _) fun ranges => ?_
      exact within_bind_right (costs_loop costs_copyRange) fun _ => within_ret
  · exact within_ret

theorem costs_backupOr (shadow : Option Bytes) : Costs 0 (backupOr h shadow) := by
  cases shadow with
  | some shadow => exact within_ret
  | none => exact costs_readDevice

theorem costs_opBackupVerify : Costs 0 (opBackupVerify h) := by
  refine within_bind_right (costs_require _ _) fun id => ?_
  refine within_bind_right (costs_perform _) fun v => ?_
  refine within_bind_right (costs_require _ _) fun closed => ?_
  refine within_bind_right (costs_incrementalBackup id) fun incremental => ?_
  refine within_bind_right (costs_backupOr incremental) fun shadow => ?_
  exact within_bind_right costs_verify fun _ => within_ret

/-- The device comes back, and what the harness checks then draws nothing. -/
theorem costs_attach_then {f : Harness × Json → Action α} (hf : ∀ s, Costs 0 (f s)) :
    Costs 1 (attach h >>= f) := within_bind costs_attach hf

theorem costs_opReattach : Costs 1 (opReattach h) :=
  within_bind_right costs_detach fun _ => costs_attach_then fun _ =>
    within_bind_right (costs_ensure _ _) fun _ =>
      within_bind_right (costs_ensure _ _) fun _ => within_ret

theorem costs_opCrash : Costs 1 (opCrash h) :=
  within_bind_right costs_killDaemon fun _ => within_bind_right costs_startDaemon fun _ =>
    costs_attach_then fun _ => within_bind_right (costs_ensure _ _) fun _ =>
      within_bind_right (costs_ensure _ _) fun _ => within_ret

theorem costs_recoverInflight (oldGen : String) (undefined : List (Nat × Nat)) :
    Costs 1 (recoverInflight h oldGen undefined) := by
  refine within_bind_right costs_startDaemon fun _ => costs_attach_then fun _ => ?_
  refine within_bind_right (costs_ensure _ _) fun _ => ?_
  refine within_bind_right (costs_ensure _ _) fun _ => ?_
  refine within_bind_right (costs_ensure _ _) fun _ => ?_
  refine within_bind_right (costs_loop fun expected r => ?_) fun expected => ?_
  · exact within_bind_right (costs_perform _) fun _ => within_ret
  · refine within_bind_right costs_readDevice fun actual => ?_
    exact within_bind_right (costs_diff _ _ _) fun _ => within_ret

theorem costs_opCrashInflight : Costs 1 (opCrashInflight h rng) := by
  unfold opCrashInflight
  simp only
  split
  · exact within_bind (n := 0) costs_opCrash fun _ => within_ret
  · refine within_bind_right (costs_require _ _) fun _ => ?_
    refine within_bind_right (costs_perform _) fun _ => ?_
    refine within_bind_right (costs_perform _) fun _ => ?_
    refine within_bind_right costs_killDaemon fun _ => ?_
    refine within_bind_right (costs_perform _) fun _ => ?_
    exact within_bind (n := 0) (costs_recoverInflight _ _) fun _ => within_ret

theorem costs_opLoseMeta : Costs 1 (opLoseMeta h) := by
  refine within_bind_right costs_detach fun _ => ?_
  refine within_bind_right (within_mapError (costs_perform _)) fun _ => ?_
  refine costs_attach_then fun s => ?_
  refine within_bind_right (costs_ensure _ _) fun _ => ?_
  refine within_bind_right (costs_ensure _ _) fun _ => ?_
  split
  · exact within_ret
  · refine within_bind_right (costs_require _ _) fun id => ?_
    refine within_bind_right (costs_tryClient _) fun answer => ?_
    cases answer <;> trivial

theorem costs_operation (roll : Nat) : Costs 1 (operation h roll rng) := by
  have alone : ∀ {m : Nat} {op : Harness → Action Harness}, m ≤ 1 → Costs m (op h) →
      Costs 1 (do
        let h ← op h
        .ret (h, rng)) := by
    intro m op hm hop
    exact within_bind (n := 0) (within_mono hop hm) fun _ => within_ret
  unfold operation
  simp only
  split
  · exact within_mono costs_opWriteBurst (Nat.zero_le 1)
  split
  · exact alone (Nat.zero_le 1) costs_opBackupVerify
  split
  · exact alone (Nat.zero_le 1) costs_opCheckpoint
  split
  · exact alone (Nat.le_refl 1) costs_opReattach
  split
  · exact alone (Nat.le_refl 1) costs_opCrash
  split
  · exact costs_opCrashInflight
  · exact alone (Nat.le_refl 1) costs_opLoseMeta

theorem costs_runOps (ops : UInt32) :
    Costs ops.toNat (Prog.loop (runOp ops) (List.range ops.toNat) (h, rng)) := by
  have hloop : Costs (1 * (List.range ops.toNat).length)
      (Prog.loop (runOp ops) (List.range ops.toNat) (h, rng)) :=
    within_loop fun s i => within_mapError (costs_operation _)
  rw [List.length_range, Nat.one_mul] at hloop
  exact hloop

theorem costs_run (cli : Cli) : Costs (cli.ops.toNat + 2) (run cli h rng) := by
  rw [Nat.add_comm cli.ops.toNat, Nat.add_assoc 1 1]
  refine within_bind_right costs_startDaemon fun h => within_bind costs_attach fun s => ?_
  rw [Nat.add_comm 1]
  refine within_bind (costs_runOps _) fun s => ?_
  refine within_bind_right (within_mapError costs_opBackupVerify) fun h => ?_
  refine within_bind_right costs_detach fun h => ?_
  refine within_bind_right (costs_perform _) fun onDisk => ?_
  refine within_bind_right (costs_ensure _ _) fun _ => costs_attach_then fun s => ?_
  refine within_bind_right (costs_ensure _ _) fun _ => ?_
  refine within_bind_right costs_detach fun h => ?_
  refine within_bind_right (costs_perform _) fun _ => ?_
  cases h.daemon with
  | true => exact costs_perform _
  | false => exact within_ret

theorem costs_setup (cli : Cli) : Costs 0 (setup cli rng) := by
  unfold setup
  simp only
  refine within_bind_right (costs_ensure _ _) fun _ => ?_
  exact within_bind_right (costs_perform _) fun _ => within_ret

/-- Every operation draws one generation at most, and so do the first attach
and the last one. -/
theorem costs_episode (cli : Cli) : Costs (cli.ops.toNat + 2) (episode cli) :=
  within_bind_right (within_mapError (costs_setup cli)) fun _ => costs_run cli

/-! ## No run gets stuck -/

theorem exists_fresh {used : List UInt64} (h : used.length < 2 ^ 64) : ∃ g, g ∉ used := by
  have hcard : (used.map UInt64.toNat).toFinset.card < (Finset.range (2 ^ 64)).card := by
    have hle := List.toFinset_card_le (used.map UInt64.toNat)
    rw [List.length_map] at hle
    rw [Finset.card_range]
    exact hle.trans_lt h
  obtain ⟨g, hg, hfresh⟩ := Finset.exists_mem_notMem_of_card_lt_card hcard
  refine ⟨UInt64.ofNat g, fun hused => hfresh ?_⟩
  rw [List.mem_toFinset, List.mem_map]
  refine ⟨_, hused, ?_⟩
  rw [UInt64.toNat_ofNat', Nat.mod_eq_of_lt (Finset.mem_range.mp hg)]

/-- No run of an episode gets stuck, and where no call fails for reasons of its
own, every run ends well. -/
theorem episode_ends {cli : Cli} (valid : cli.Valid) (clean : Clean w)
    (room : w.used.length + (cli.ops.toNat + 2) < 2 ^ 64) (sound : w.faulted = false) :
    Ends (serve canonical) (episode cli) w ∧
      wp (serve canonical) (episode cli) (fun out _ => out = .ok ()) w := by
  constructor
  · refine ends_within (fun n (w : World) => w.used.length + n < 2 ^ 64) ?_ ?_ (costs_episode cli)
      room
    · intro n w c hcost hroom
      exact exists_serve canonical w (exists_fresh (by omega)) c
    · intro n w c answer w' hcost hroom hserve
      have hused := (serve_draws hserve).used
      omega
  · have hpasses : wp (serve canonical) (episode cli) (Passes fun _ _ => True) w :=
      wp_sub (fun _ _ _ _ => Or.inl) (episode_ok valid clean)
    have hsound : wp (serve canonical) (episode cli) (fun _ w' => w'.faulted = false) w :=
      wp_only (P := fun _ => True) (fun w : World => w.faulted = false)
        (fun _ _ _ _ _ hw hserve => (serve_draws hserve).faulted.trans hw)
        (only_of_forall (fun _ => trivial) _) sound
    refine wp_mono (wp_and hpasses hsound) fun out w' hout => ?_
    obtain ⟨hout, hfalse⟩ := hout
    match out with
    | .ok () => rfl
    | .error (.call e) =>
      have hfaulted : w'.faulted = true := hout
      rw [hfalse] at hfaulted
      cases hfaulted
    | .error (.check e) => exact hout.elim

theorem episode_ends_twoChunks : Ends (serve fun _ => none) (episode twoChunks) .empty ∧
    wp (serve fun _ => none) (episode twoChunks) (fun out _ => out = .ok ()) .empty :=
  episode_ends ⟨Or.inr (by decide), by decide, by decide⟩ ⟨rfl, rfl, rfl, rfl⟩ (by decide) rfl

end Chaos

end Ublkera
