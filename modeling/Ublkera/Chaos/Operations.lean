import Ublkera.Chaos.Race

/-!
# The operations find nothing

On a daemon that works every operation of the harness keeps `Ready`, and none
ends in a finding.

* The device holds what the harness has written.
* The metadata file on the disk is of this history and of the current era, and
  counts as not closed.
* `Covered`: when the cursor of the consumer is of this history, it is below
  the current era, and where the backup is not up to date the chunk has an era
  above the cursor.
-/

namespace Ublkera

namespace Chaos

open LittleEndian Effect WriteCache Chunks Manager

variable {canonical : String → Option String} {h : Harness} {w : World} {t : Tracked} {n : Nat}

/-! ## Between two operations -/

/-- The same history in the same era, whatever the chunks are. -/
structure SameEra (map snap : EraState) : Prop where
  granularity : snap.granularity = map.granularity
  devSize : snap.devSize = map.devSize
  generation : snap.generation = map.generation
  currentEra : snap.currentEra = map.currentEra

/-- The cursor is behind every change that the backup lacks. -/
def Covered (h : Harness) (used : List UInt64) (map : EraState) : Prop :=
  ∀ gen era, h.cursor = some (gen, era) → ∃ g ∈ used, gen = generationText g ∧
    (g = map.generation → era < map.currentEra ∧
      ∀ x : Nat, h.shadow[x]? ≠ h.expected[x]? → era < map.era (x / map.granularity.toNat))

/-- What holds before the operation `n`. -/
structure Ready (h : Harness) (w : World) (t : Tracked) (n : Nat) : Prop where
  up : Up h w t
  sized : Sized h w
  image : w.backing = h.expected
  writers : w.writers = []
  file : ∃ snap, w.metaFile = some (snap.metaBytes false) ∧ SameEra t.map snap
  covered : Covered h w.used t.map
  era : t.map.currentEra.toNat ≤ 1 + n

theorem Ready.faulted (ready : Ready h w t n) : Ready h { w with faulted := true } t n :=
  ⟨⟨ready.up.daemon, ready.up.attached, ready.up.devId, ready.up.dev, ready.up.metaPath,
      ready.up.granularity, ready.up.devSize, ready.up.generation, ready.up.used⟩,
    ⟨ready.sized.pos, ready.sized.aligned, ready.sized.gran, ready.sized.backing,
      ready.sized.expected, ready.sized.shadow⟩,
    ready.image, ready.writers, ready.file, ready.covered, ready.era⟩

/-- Where the backup differs there is a byte of the device. -/
theorem lt_size_of_ne (sized : Sized h w) {x : Nat} (hne : h.shadow[x]? ≠ h.expected[x]?) :
    x < h.size.toNat := by
  by_contra hge
  apply hne
  rw [List.getElem?_eq_none (by rw [sized.shadow]; omega),
    List.getElem?_eq_none (by rw [sized.expected]; omega)]

/-! ## Checkpoints -/

theorem checkpoint_eq (up : Up h w t) : (w.checkpoint t).2
    = { w with
        metaFile := some (t.map.checkpoint.1.metaBytes false)
        attached := some { t with map := t.map.checkpoint.1 } } := by
  simp [World.checkpoint, World.save, up.metaPath]

theorem Ready.checkpoint (ready : Ready h w t n) (hn : n + 2 < 2 ^ 32) :
    Ready h (w.checkpoint t).2 { t with map := t.map.checkpoint.1 } (n + 1) ∧
      t.map.currentEra < t.map.checkpoint.1.currentEra := by
  have up := ready.up
  have sized := ready.sized
  have hera := ready.era
  have hone : (1 : UInt32).toNat = 1 := rfl
  have hnext : t.map.checkpoint.1.currentEra.toNat = t.map.currentEra.toNat + 1 := by
    rw [EraState.checkpoint_currentEra, UInt32.toNat_add]
    omega
  have hlt : t.map.currentEra < t.map.checkpoint.1.currentEra := by
    rw [UInt32.lt_iff_toNat_lt]
    omega
  rw [checkpoint_eq up]
  refine ⟨⟨⟨up.daemon, rfl, up.devId, up.dev, up.metaPath, up.granularity, up.devSize,
      up.generation, up.used⟩, ⟨sized.pos, sized.aligned, sized.gran, sized.backing,
      sized.expected, sized.shadow⟩, ready.image, ready.writers,
      ⟨_, rfl, ⟨rfl, rfl, rfl, rfl⟩⟩, ?_, ?_⟩, hlt⟩
  · intro gen era hcursor
    obtain ⟨g, hg, hgen, hcovered⟩ := ready.covered gen era hcursor
    refine ⟨g, hg, hgen, fun hsame => ?_⟩
    obtain ⟨hbelow, hchanged⟩ := hcovered hsame
    exact ⟨UInt32.lt_trans hbelow hlt, hchanged⟩
  · show t.map.checkpoint.1.currentEra.toNat ≤ _
    omega

theorem opCheckpoint_ok (ready : Ready h w t n) (hn : n + 2 < 2 ^ 32) :
    Ok canonical (opCheckpoint h) (fun h' w' => ∃ t', Ready h' w' t' (n + 1)) w := by
  unfold opCheckpoint
  refine ok_bind (ok_require ready.up.devId (ok_bind (client_checkpoint_ok ready.up ?_)))
  exact ⟨_, (ready.checkpoint hn).1⟩

/-! ## Write bursts -/

/-- A write that the device has taken. -/
theorem Ready.write (ready : Ready h w t n) {off : Nat} {data : Bytes} {pieces : List Entry}
    (hin : off + data.length ≤ h.size.toNat) (lands : Lands { off, data } pieces) :
    Ready { h with expected := patch h.expected off data } (w.write pieces)
      { t with map := pieces.foldl mark t.map } n := by
  have up := ready.up
  have sized := ready.sized
  have hstop : ({ off, data } : Entry).stop ≤ w.backing.length := by
    rw [sized.backing]
    exact hin
  have hpieces : ∀ p, p ∈ pieces → p.stop ≤ t.map.devSize.toNat := by
    intro p hp
    have hpart := part_stop (lands.parts p hp)
    rw [up.devSize, ← sized.backing]
    omega
  obtain ⟨hgrows, hcurrent, hmarked⟩ := mark_pieces t.map hpieces
  have hover : overwriteAll w.backing pieces = patch h.expected off data := by
    rw [overwriteAll_parts hstop lands.parts lands.filled, ready.image]
    rfl
  have hlen : (patch h.expected off data).length = h.size.toNat := by
    rw [patch_length _ _ _ (by rw [sized.expected]; exact hin), sized.expected]
  refine ⟨⟨up.daemon, ?_, up.devId, up.dev, up.metaPath, hgrows.granularity.trans up.granularity,
      hgrows.devSize.trans up.devSize, ?_, ?_⟩, ⟨sized.pos, sized.aligned, sized.gran, ?_, hlen,
      sized.shadow⟩, hover, ready.writers, ?_, ?_, ?_⟩
  · simp [World.write, up.attached]
  · show h.generation = generationText (pieces.foldl mark t.map).generation
    rw [hgrows.generation]
    exact up.generation
  · show (pieces.foldl mark t.map).generation ∈ w.used
    rw [hgrows.generation]
    exact up.used
  · show (overwriteAll w.backing pieces).length = _
    rw [hover, hlen]
  · obtain ⟨snap, hfile, hsame⟩ := ready.file
    exact ⟨snap, hfile, ⟨hsame.granularity.trans hgrows.granularity.symm,
      hsame.devSize.trans hgrows.devSize.symm, hsame.generation.trans hgrows.generation.symm,
      hsame.currentEra.trans hcurrent.symm⟩⟩
  · intro gen era hcursor
    obtain ⟨g, hg, hgen, hcovered⟩ := ready.covered gen era hcursor
    refine ⟨g, hg, hgen, fun hsame => ?_⟩
    obtain ⟨hbelow, hchanged⟩ := hcovered (hsame.trans hgrows.generation)
    refine ⟨?_, fun x hx => ?_⟩
    · show era < (pieces.foldl mark t.map).currentEra
      rw [hcurrent]
      exact hbelow
    · show era < (pieces.foldl mark t.map).era (x / (pieces.foldl mark t.map).granularity.toNat)
      rw [hgrows.granularity]
      by_cases hwritten : off ≤ x ∧ x < off + data.length
      · -- the write itself has marked the chunk
        obtain ⟨p, hp, hlo, hhi⟩ := lands.filled x hwritten.1 hwritten.2
        exact UInt32.lt_of_lt_of_le hbelow (hmarked p hp x hlo hhi)
      · have hold : h.shadow[x]? ≠ h.expected[x]? := by
          intro heq
          apply hx
          show h.shadow[x]? = (patch h.expected off data)[x]?
          rw [getElem?_patch (by rw [sized.expected]; exact hin), if_neg hwritten]
          exact heq
        exact UInt32.lt_of_lt_of_le (hchanged x hold) (hgrows.era _)
  · show (pieces.foldl mark t.map).currentEra.toNat ≤ _
    rw [hcurrent]
    exact ready.era

theorem burstWrite_ok (ready : Ready h w t n) (rng : Fault.Rng) (i : Nat) :
    Ok canonical (burstWrite (h, rng) i) (fun s w' => ∃ t', Ready s.1 w' t' n) w := by
  have hsize : 0 < h.size.toNat / 4096 := by
    have hpos := ready.sized.pos
    have hdvd := ready.sized.aligned
    omega
  unfold burstWrite
  have hblock := rng.below_lt hsize
  have hpos := rolled_pos hblock
  have hblocks := (rng.below (h.size.toNat / 4096)).2.below_lt hpos
  have hfits := rolled_fits hblocks
  refine ok_bind (ok_ensure ready.up.dev (ok_bind (ok_context (ok_perform ?_ ?_))))
  · rintro a w' ⟨-, pieces, lands, rfl⟩
    refine ⟨_, ready.write ?_ lands⟩
    rw [length_fillBlock]
    exact hfits
  · rintro e w' ⟨htaken, -⟩
    apply htaken
    rw [length_fillBlock]
    exact ready.up.taken ready.sized (Nat.dvd_mul_right _ _) (Nat.dvd_mul_right _ _) hfits

theorem opWriteBurst_ok (ready : Ready h w t n) (rng : Fault.Rng) :
    Ok canonical (opWriteBurst h rng) (fun s w' => ∃ t', Ready s.1 w' t' n) w := by
  refine ok_loop (fun _ s w' => ∃ t', Ready s.1 w' t' n) ⟨t, ready⟩ ?_ fun _ _ hI => hI
  rintro done x rest ⟨h', rng'⟩ w' - ⟨t', ready'⟩
  exact burstWrite_ok ready' rng' x

/-! ## Backups -/

/-- A range of whole blocks of the device. -/
structure Blocks (size : Nat) (r : DirtyRange) : Prop where
  off : 4096 ∣ r.offset
  len : 4096 ∣ r.len
  inRange : r.offset + r.len ≤ size

theorem blocks_rangesSince (up : Up h w t) (sized : Sized h w) (since : UInt32) {r : DirtyRange}
    (hr : r ∈ t.map.rangesSince since) : Blocks h.size.toNat r := by
  have hmerged := (t.map.merged_rangesSince since).1
  have hgran : 4096 ∣ t.map.granularity.toNat := by
    rw [up.granularity]
    exact dvd_granularity sized.gran
  have hoff : 4096 ∣ r.offset := hgran.trans (hmerged.starts r hr)
  have hend : 4096 ∣ r.offset + r.len := by
    rcases hmerged.ends r hr with hborder | hsize
    · exact hgran.trans hborder
    · rw [hsize, up.devSize]
      exact sized.aligned
  have hin := hmerged.inside r hr
  rw [up.devSize] at hin
  exact ⟨hoff, (Nat.dvd_add_right hoff).mp hend, hin⟩

/-- A range that is copied holds what the device holds, and the rest of the
backup stays. -/
theorem copyRange_ok (up : Up h w t) (sized : Sized h w) {r : DirtyRange}
    (blocks : Blocks h.size.toNat r) {shadow : Bytes} (hshadow : shadow.length = h.size.toNat) :
    Ok canonical (copyRange h shadow (rangeJson r)) (fun copied w' => w' = w ∧
      copied.length = h.size.toNat ∧ ∀ x : Nat, copied[x]?
        = if r.offset ≤ x ∧ x < r.offset + r.len then w.backing[x]? else shadow[x]?) w := by
  have hlt := h.size.toNat_lt
  have hin := blocks.inRange
  have hoff : (UInt64.ofNat r.offset).toNat = r.offset := by
    rw [UInt64.toNat_ofNat', Nat.mod_eq_of_lt (by omega)]
  have hlen : (UInt64.ofNat r.len).toNat = r.len := by
    rw [UInt64.toNat_ofNat', Nat.mod_eq_of_lt (by omega)]
  have hmax : 0 < maxRead := by decide
  have hdvd : 4096 ∣ maxRead := by decide
  have hsum := sum_lens hmax r.len
  unfold copyRange
  refine ok_bind (ok_require (show ((rangeJson r).index "offset").asU64 = some _ from rfl) ?_)
  refine ok_bind (ok_require (show ((rangeJson r).index "len").asU64 = some _ from rfl) ?_)
  refine ok_bind (ok_ensure up.dev (ok_bind ?_))
  rw [hoff, hlen]
  refine ok_loop (fun done s w' => w' = w ∧ s.2 = r.offset + done.sum ∧
    s.1.length = h.size.toNat ∧ ∀ x : Nat, s.1[x]?
      = if r.offset ≤ x ∧ x < s.2 then w.backing[x]? else shadow[x]?) ?_ ?_ ?_
  · refine ⟨rfl, rfl, hshadow, fun x => ?_⟩
    rw [if_neg]
    simp
  · rintro done m rest ⟨copied, pos⟩ w' hl ⟨rfl, hpos, hcopied, hbytes⟩
    change pos = r.offset + done.sum at hpos
    change copied.length = h.size.toNat at hcopied
    have hdone : done.sum + m + rest.sum = r.len := by
      rw [← hsum, hl]
      simp
      omega
    have hmem : ∀ k, k ∈ done ++ m :: rest → 4096 ∣ k := by
      intro k hk
      rw [← hl] at hk
      exact dvd_lens hmax hdvd blocks.len hk
    have hdonedvd : 4096 ∣ done.sum := List.dvd_sum fun k hk => hmem k (List.mem_append_left _ hk)
    have hposdvd : 4096 ∣ pos := by
      rw [hpos]
      exact Nat.dvd_add blocks.off hdonedvd
    unfold copyPiece
    refine ok_bind (readExactAt_ok (up.taken sized hposdvd (hmem m (by simp)) (by omega)) ?_)
    have hgot : (slice w'.backing pos (pos + m)).length = m := by
      rw [slice_length _ (by rw [sized.backing]; omega)]
      omega
    have hfits : pos + (slice w'.backing pos (pos + m)).length ≤ copied.length := by
      rw [hgot, hcopied]
      omega
    refine ⟨rfl, ?_, ?_, fun x => ?_⟩
    · show pos + m = _
      rw [hpos, List.sum_append, List.sum_singleton, Nat.add_assoc]
    · show (patch copied pos _).length = _
      rw [patch_length _ _ _ hfits, hcopied]
    · show (patch copied pos _)[x]? = if r.offset ≤ x ∧ x < pos + m then _ else _
      rw [getElem?_patch hfits, hgot]
      by_cases hnew : pos ≤ x ∧ x < pos + m
      · rw [if_pos hnew, if_pos (by omega), getElem?_slice _ (by omega)]
        congr 1
        omega
      · rw [if_neg hnew, hbytes x]
        by_cases hold : r.offset ≤ x ∧ x < pos
        · rw [if_pos hold, if_pos (by omega)]
        · rw [if_neg hold, if_neg (by omega)]
  · rintro ⟨copied, pos⟩ w' ⟨hw, hpos, hcopied, hbytes⟩
    refine ⟨hw, hcopied, fun x => ?_⟩
    rw [hbytes x, hpos, hsum]

/-- What the backup of a cursor gives, when the cursor is accepted: the device
as it is. -/
theorem copyChanged_ok (up : Up h w t) (sized : Sized h w) (image : w.backing = h.expected)
    (covered : Covered h w.used t.map) {gen : String} {era : UInt32}
    (hcursor : h.cursor = some (gen, era)) :
    Ok canonical (copyChanged h t.managed.devId.toUInt64 gen era) (fun incremental w' =>
      (w' = w ∨ w' = { w with faulted := true }) ∧
        ∀ shadow, incremental = some shadow → shadow = h.expected) w := by
  unfold copyChanged
  refine ok_bind (tryClient_dump_ok up ?_ ?_ ?_)
  · intro v hdump
    obtain ⟨hspells, hsince, rfl⟩ := dumpOne_eq_ok_iff.mp hdump
    -- the cursor is of this history
    obtain ⟨g, -, hgen, hcovered⟩ := covered gen era hcursor
    have hsame : g = t.map.generation := by
      have hspell := hspells gen rfl
      rw [hgen] at hspell
      exact (spells_generationText g).unique hspell
    obtain ⟨-, hchanged⟩ := hcovered hsame
    have hranges : ((dumpResponse t.managed.devId era t.map).index "ranges").asArray
        = some ((t.map.rangesSince era).map rangeJson) := rfl
    refine ok_bind (ok_require hranges (ok_bind ?_))
    rw [loop_map]
    refine ok_loop (fun done shadow w' => w' = w ∧ shadow.length = h.size.toNat ∧
      ∀ x : Nat, shadow[x]? = if EraState.covers done x then w.backing[x]? else h.shadow[x]?) ?_ ?_ ?_
    · exact ⟨rfl, sized.shadow, fun x => by simp⟩
    · rintro done r rest shadow w' hl ⟨rfl, hshadow, hbytes⟩
      have hblocks := blocks_rangesSince up sized era (r := r) (by rw [hl]; simp)
      refine ok_mono (copyRange_ok up sized hblocks hshadow) ?_
      rintro copied w'' ⟨rfl, hcopied, hnew⟩
      refine ⟨rfl, hcopied, fun x => ?_⟩
      rw [hnew x, hbytes x, EraState.covers_append]
      by_cases hin : r.offset ≤ x ∧ x < r.offset + r.len
      · have hcovers : EraState.covers [r] x = true := (EraState.covers_singleton _ _ x).mpr hin
        rw [if_pos hin, hcovers, Bool.or_true, if_pos rfl]
      · have hcovers : EraState.covers [r] x = false :=
          Bool.eq_false_iff.mpr fun hx => hin ((EraState.covers_singleton _ _ x).mp hx)
        rw [if_neg hin, hcovers, Bool.or_false]
    · rintro shadow w' ⟨rfl, hshadow, hbytes⟩
      refine ⟨Or.inl rfl, ?_⟩
      rintro _ ⟨⟩
      apply List.ext_getElem?
      intro x
      rw [hbytes x, image]
      by_cases hcovers : EraState.covers (t.map.rangesSince era) x = true
      · rw [if_pos hcovers]
      · -- a byte that no range holds is the same in the backup
        rw [if_neg hcovers]
        by_contra hne
        have hx := lt_size_of_ne sized hne
        rw [← up.devSize] at hx
        exact hcovers ((t.map.covers_rangesSince era hx).mpr (hchanged x hne))
  · rintro e - e'
    exact ⟨Or.inl rfl, nofun⟩
  · intro e
    exact ⟨Or.inr rfl, nofun⟩

theorem diff_ok {what : String} {actual model : Bytes} {Q : Unit → World → Prop}
    (hsame : actual = model) (hQ : Q () w) : Ok canonical (diff h what actual model) Q w := by
  unfold diff
  rw [if_pos hsame]
  exact hQ

theorem verify_ok (up : Up h w t) (sized : Sized h w) (image : w.backing = h.expected)
    (copied : h.shadow = h.expected) {Q : Unit → World → Prop} (hQ : Q () w) :
    Ok canonical (verify h) Q w := by
  unfold verify
  refine ok_bind (readDevice_ok up sized (ok_bind (diff_ok image (diff_ok ?_ hQ))))
  rw [image, copied]

/-- An incremental backup, if there is one, is the device as it is. -/
theorem incrementalBackup_ok (ready : Ready h w t n) :
    Ok canonical (incrementalBackup h t.managed.devId.toUInt64) (fun incremental w' =>
      Ready h w' t n ∧ ∀ shadow, incremental = some shadow → shadow = h.expected) w := by
  unfold incrementalBackup
  cases hcursor : h.cursor with
  | none => exact ⟨ready, nofun⟩
  | some cursor =>
    refine ok_mono (copyChanged_ok ready.up ready.sized ready.image ready.covered hcursor) ?_
    rintro incremental w' ⟨rfl | rfl, hincremental⟩
    · exact ⟨ready, hincremental⟩
    · exact ⟨ready.faulted, hincremental⟩

theorem backupOr_ok (ready : Ready h w t n) {incremental : Option Bytes}
    (hincremental : ∀ shadow, incremental = some shadow → shadow = h.expected)
    {Q : Bytes → World → Prop} (hQ : Q h.expected w) :
    Ok canonical (backupOr h incremental) Q w := by
  cases incremental with
  | none =>
    rw [← ready.image] at hQ
    exact readDevice_ok ready.up ready.sized hQ
  | some shadow =>
    rw [← hincremental shadow rfl] at hQ
    exact hQ

/-- The backup is taken over with a cursor below the current era. -/
theorem Ready.backedUp (ready : Ready h w t n) {closed : UInt32}
    (hclosed : closed < t.map.currentEra) :
    Ready { h with shadow := h.expected, cursor := some (h.generation, closed) } w t n := by
  have up := ready.up
  have sized := ready.sized
  refine ⟨⟨up.daemon, up.attached, up.devId, up.dev, up.metaPath, up.granularity, up.devSize,
    up.generation, up.used⟩, ⟨sized.pos, sized.aligned, sized.gran, sized.backing,
    sized.expected, sized.expected⟩, ready.image, ready.writers, ready.file, ?_, ready.era⟩
  rintro gen era ⟨⟩
  refine ⟨t.map.generation, up.used, up.generation, fun _ => ⟨hclosed, fun x hne => ?_⟩⟩
  exact absurd rfl hne

theorem opBackupVerify_ok (ready : Ready h w t n) (hn : n + 2 < 2 ^ 32) :
    Ok canonical (opBackupVerify h) (fun h' w' => ∃ t', Ready h' w' t' (n + 1) ∧
      h'.shadow = h'.expected) w := by
  obtain ⟨ready', hlt⟩ := ready.checkpoint hn
  have hclosed : ((w.checkpoint t).1.index "closed_era").asU64
      = some t.map.currentEra.toUInt64 := by
    simp only [World.checkpoint, ready.up.metaPath, Option.map_some]
    rfl
  unfold opBackupVerify
  refine ok_bind (ok_require ready.up.devId (ok_bind (client_checkpoint_ok ready.up ?_)))
  refine ok_bind (ok_require hclosed ?_)
  generalize (w.checkpoint t).2 = w₁ at ready'
  refine ok_bind (ok_mono
    (incrementalBackup_ok (t := { t with map := t.map.checkpoint.1 }) ready') ?_)
  rintro incremental w₂ ⟨ready₂, hincremental⟩
  refine ok_bind (backupOr_ok ready₂ hincremental ?_)
  have hcursor : t.map.currentEra.toUInt64.toUInt32 = t.map.currentEra := by simp
  rw [hcursor]
  have ready₃ := ready₂.backedUp hlt
  exact ok_bind (verify_ok ready₃.up ready₃.sized ready₃.image rfl ⟨_, ready₃, rfl⟩)

/-! ## The device comes back -/

theorem Covered.mono {used used' : List UInt64} {map : EraState} (covered : Covered h used map)
    (hsub : ∀ g, g ∈ used → g ∈ used') : Covered h used' map := by
  intro gen era hcursor
  obtain ⟨g, hg, hrest⟩ := covered gen era hcursor
  exact ⟨g, hsub g hg, hrest⟩

/-- What an attach leaves, when its map covers the cursor. -/
theorem ready_attachedTo {h' : Harness} {w' : World} {map : EraState} {g : UInt64}
    {devId : UInt32} (hh : h' = reattached h devId map) (hw : w' = attachedTo h w g devId map)
    (daemon : h.daemon = true ∧ w.daemon = true) (sized : Sized h w)
    (image : w.backing = h.expected) (writers : w.writers = [])
    (hgran : map.granularity = h.gran) (hsize : map.devSize = h.size)
    (hused : map.generation ∈ g :: w.used) (covered : Covered h (g :: w.used) map)
    (hera : map.currentEra.toNat ≤ 1 + n) :
    Ready h' w' (trackedOf h devId map) n := by
  subst hh hw
  exact ⟨⟨daemon, rfl, rfl, rfl, rfl, hgran, hsize, rfl, hused⟩,
    ⟨sized.pos, sized.aligned, sized.gran, sized.backing, sized.expected, sized.shadow⟩, image,
    writers, ⟨map, rfl, ⟨rfl, rfl, rfl, rfl⟩⟩, covered, hera⟩

theorem Sized.detached (sized : Sized h w) :
    Sized { h with dev := false, devId := none } (Chaos.detached w t) :=
  ⟨sized.pos, sized.aligned, sized.gran, sized.backing, sized.expected, sized.shadow⟩

/-- A device that was detached comes back as it was. -/
theorem Ready.attach_ok (ready : Ready h w t n) {Q : Harness × Json → World → Prop}
    (hQ : ∀ h' v w' t', (v.index "recovered_unclean").asBool = none →
      h'.generation = h.generation → Ready h' w' t' n → Q (h', v) w') :
    Ok canonical (attach { h with dev := false, devId := none }) Q (Chaos.detached w t) := by
  have up := ready.up
  have sized := ready.sized.detached (t := t)
  have hfile : (Chaos.detached w t).metaFile = some (t.map.metaBytes true) := rfl
  refine attach_loaded_ok sized up.daemon.2 rfl hfile up.granularity up.devSize ?_
  intro g devId h' v w' hh hv hw
  refine hQ h' v w' (trackedOf h devId t.map) (by rw [hv]; rfl) ?_ ?_
  · rw [hh]
    exact up.generation.symm
  · exact ready_attachedTo (h := { h with dev := false, devId := none }) hh hw up.daemon sized
      ready.image ready.writers up.granularity up.devSize (List.mem_cons_of_mem _ up.used)
      (ready.covered.mono fun _ => List.mem_cons_of_mem _) ready.era

theorem opReattach_ok (ready : Ready h w t n) :
    Ok canonical (opReattach h) (fun h' w' => ∃ t', Ready h' w' t' n) w := by
  unfold opReattach
  refine ok_bind (detach_ok ready.up (ok_bind (ready.attach_ok ?_)))
  intro h' v w' t' hv hgen ready'
  exact ok_bind (ok_ensure (by simp [hv]) (ok_bind (ok_ensure (by simp [hgen]) ⟨t', ready'⟩)))

/-! ## A daemon that has died -/

/-- The cursor is behind the current era of its history. -/
def Behind (h : Harness) (used : List UInt64) (map : EraState) : Prop :=
  ∀ gen era, h.cursor = some (gen, era) → ∃ g ∈ used, gen = generationText g ∧
    (g = map.generation → era < map.currentEra)

theorem Covered.behind {used : List UInt64} {map : EraState} (covered : Covered h used map) :
    Behind h used map := by
  intro gen era hcursor
  obtain ⟨g, hg, hgen, hcovered⟩ := covered gen era hcursor
  exact ⟨g, hg, hgen, fun hsame => (hcovered hsame).1⟩

/-- What holds when the daemon is dead and the map is lost. -/
structure Down (h : Harness) (w : World) (map : EraState) (n : Nat) : Prop where
  sized : Sized h w
  daemon : w.daemon = false
  attached : w.attached = none
  writers : w.writers = []
  file : ∃ snap, w.metaFile = some (snap.metaBytes false) ∧ SameEra map snap
  granularity : map.granularity = h.gran
  devSize : map.devSize = h.size
  generation : h.generation = generationText map.generation
  used : map.generation ∈ w.used
  behind : Behind h w.used map
  era : map.currentEra.toNat ≤ 1 + n

/-- A map that was not closed cleanly covers every cursor of its history. -/
theorem covered_recover {h' : Harness} {w' : World} {used : List UInt64} {map snap : EraState}
    (sized : Sized h' w') (behind : Behind h used map) (hcursor : h'.cursor = h.cursor)
    (same : SameEra map snap) (hsize : snap.devSize = h'.size) :
    Covered h' used (snap.recover false) := by
  intro gen era hgen
  obtain ⟨g, hg, htext, hcovered⟩ := behind gen era (hcursor ▸ hgen)
  refine ⟨g, hg, htext, fun hhistory => ?_⟩
  have hbelow := hcovered (hhistory.trans ((snap.recover_generation false).trans same.generation))
  rw [← same.currentEra] at hbelow
  refine ⟨?_, fun x hne => ?_⟩
  · rw [snap.recover_currentEra]
    exact hbelow
  · have hx := lt_size_of_ne sized hne
    rw [← hsize] at hx
    exact UInt32.lt_of_lt_of_le hbelow
      (snap.currentEra_le_era_markAllDirty (snap.chunk_lt_nrChunks hx))

/-- The next daemon takes the device up: the history goes on, every chunk is
marked, and the harness is ready once it knows what is on the device. -/
theorem Down.attach_ok {map : EraState} (down : Down h w map n)
    {Q : Harness × Json → World → Prop}
    (hQ : ∀ h' v w' t', (v.index "recovered_unclean").asBool = some true →
      h'.generation = h.generation → h'.expected = h.expected → w'.backing = w.backing →
      Ready { h' with expected := w.backing } w' t' n → Q (h', v) w') :
    Ok canonical (startDaemon h) (fun h₁ w₁ => Ok canonical (attach h₁) Q w₁) w := by
  obtain ⟨snap, hfile, same⟩ := down.file
  have sized := down.sized
  have hgran : snap.granularity = h.gran := same.granularity.trans down.granularity
  have hsize : snap.devSize = h.size := same.devSize.trans down.devSize
  have sized₁ : Sized { h with daemon := true } { w with daemon := true } :=
    ⟨sized.pos, sized.aligned, sized.gran, sized.backing, sized.expected, sized.shadow⟩
  have sized₂ : Sized { h with daemon := true, expected := w.backing }
      { w with daemon := true } :=
    ⟨sized.pos, sized.aligned, sized.gran, sized.backing, sized.backing, sized.shadow⟩
  refine startDaemon_ok down.daemon ?_
  refine attach_loaded_ok sized₁ rfl down.attached hfile hgran hsize ?_
  intro g devId h' v w' hh hv hw
  have hsame : (snap.recover false).generation = map.generation :=
    (snap.recover_generation false).trans same.generation
  refine hQ h' v w' (trackedOf h devId (snap.recover false)) (by rw [hv]; rfl) ?_ (by rw [hh]; rfl)
    (by rw [hw]; rfl) ?_
  · rw [hh, down.generation, ← hsame]
    rfl
  · refine ready_attachedTo (h := { h with daemon := true, expected := w.backing })
      (by rw [hh]; rfl) hw ⟨rfl, rfl⟩ sized₂ rfl down.writers
      ((snap.recover_granularity false).trans hgran) ((snap.recover_devSize false).trans hsize)
      ?_ ?_ ?_
    · rw [hsame]
      exact List.mem_cons_of_mem _ down.used
    · exact (covered_recover sized₂ down.behind rfl same hsize).mono
        fun _ => List.mem_cons_of_mem _
    · rw [snap.recover_currentEra, same.currentEra]
      exact down.era

theorem opCrash_ok (ready : Ready h w t n) :
    Ok canonical (opCrash h) (fun h' w' => ∃ t', Ready h' w' t' n) w := by
  have up := ready.up
  have sized := ready.sized
  unfold opCrash
  refine ok_bind (killDaemon_ok up ?_)
  intro logs events hraced
  rw [ready.writers] at hraced
  obtain ⟨rfl, rfl⟩ := raced_nil hraced
  have down : Down { h with dev := false, daemon := false, devId := none } (killed w [] [])
      t.map n :=
    ⟨⟨sized.pos, sized.aligned, sized.gran, sized.backing, sized.expected, sized.shadow⟩, rfl, rfl,
      rfl, ready.file, up.granularity, up.devSize, up.generation, up.used, ready.covered.behind,
      ready.era⟩
  refine ok_bind (ok_mono (down.attach_ok ?_) fun _ _ hattach => ok_bind hattach)
  intro h' v w' t' hv hgen hexpected hbacking ready'
  have hsame : { h' with expected := (killed w [] []).backing } = h' := by
    have himage : (killed w [] []).backing = h'.expected := by
      rw [hexpected]
      exact ready.image
    rw [himage]
  rw [hsame] at ready'
  exact ok_bind (ok_ensure (by simp [hv]) (ok_bind (ok_ensure (by simp [hgen]) ⟨t', ready'⟩)))

theorem opLoseMeta_ok (ready : Ready h w t n) :
    Ok canonical (opLoseMeta h) (fun h' w' => ∃ t', Ready h' w' t' n) w := by
  have up := ready.up
  have hsized := ready.sized.detached (t := t)
  unfold opLoseMeta
  refine ok_bind (detach_ok up (ok_bind (ok_context (ok_perform ?_ ?_))))
  · rintro a w₁ ⟨-, rfl⟩
    have sized : Sized { h with dev := false, devId := none }
        { Chaos.detached w t with metaFile := none } :=
      ⟨hsized.pos, hsized.aligned, hsized.gran, hsized.backing, hsized.expected, hsized.shadow⟩
    refine ok_bind (attach_fresh_ok sized up.daemon.2 rfl rfl ?_)
    intro devId map h' v w' hfresh hera hgran hsize hh hv hw
    have hne : ∀ g, g ∈ w.used → g ≠ map.generation := by
      intro g hg heq
      exact hfresh (heq ▸ hg)
    -- the cursor is of a history that is lost
    have covered : Covered { h with dev := false, devId := none } (map.generation :: w.used)
        map := by
      intro gen era hcursor
      obtain ⟨g, hg, htext, -⟩ := ready.covered gen era hcursor
      exact ⟨g, List.mem_cons_of_mem _ hg, htext, fun heq => absurd heq (hne g hg)⟩
    have ready' := ready_attachedTo (n := n) hh hw up.daemon sized ready.image ready.writers hgran
      hsize List.mem_cons_self covered (by rw [hera]; simp)
    have hgen : h'.generation ≠ h.generation := by
      rw [hh, up.generation]
      exact fun heq => hne _ up.used (generationText_injective heq).symm
    have hcursor : h'.cursor = h.cursor := by
      rw [hh]
      rfl
    refine ok_bind (ok_ensure (by rw [hv]; rfl) (ok_bind (ok_ensure (by simp [hgen]) ?_)))
    cases hcase : h'.cursor with
    | none => exact ⟨_, ready'⟩
    | some cursor =>
      obtain ⟨gen, era⟩ := cursor
      refine ok_bind (ok_require ready'.up.devId (ok_bind (tryClient_dump_ok ready'.up ?_ ?_ ?_)))
      · intro d hdump
        obtain ⟨hspells, -⟩ := dumpOne_eq_ok_iff.mp hdump
        obtain ⟨g, hg, htext, -⟩ := ready.covered gen era (hcursor ▸ hcase)
        have hspell := hspells gen rfl
        rw [htext] at hspell
        exact absurd ((spells_generationText g).unique hspell) (hne g hg)
      · intro e _ e'
        exact ⟨_, ready'⟩
      · intro e
        exact ⟨_, ready'.faulted⟩
  · rintro e w₁ ⟨hnone, -⟩
    cases hnone

end Chaos

end Ublkera
