import Ublkera.Fault.Model

/-!
# What a crash can lose

`History` is the log of a run since the last crash: the image just after it,
the entries that were pushed since then, and how many of them came before the
last honest flush.

* `bounded_loss`: the committed array is the image with a prefix of the
  pushes, and the cache holds the others, which are bounded by its capacity.
* `crash_legal`: after a crash a block has its committed content or the
  content that one entry of the cache had for it, and a block that an honest
  flush has committed keeps its content until it is pushed again.
-/

namespace Ublkera

namespace Fault

open LittleEndian WriteCache Trace

/-! ## The pushes since a crash -/

structure History where
  base : Bytes
  pushes : List Entry
  /-- The number of pushes before the last honest flush. -/
  flushed : Nat

/-- What an event that leads to `m` adds. -/
def History.next (h : History) (m : Model) : Event → History
  | .keep => h
  | .push e => { h with pushes := h.pushes ++ [e] }
  | .drain => { h with flushed := h.pushes.length }
  | .lose _ => { base := m.committed, pushes := [], flushed := 0 }

/-- A step of the model with its history. -/
def HistoryStep (s : Model × History) (l : Call × Reply) (s' : Model × History) : Prop :=
  Step s.1 l s'.1 ∧ ∃ ev, s.1.Does l.1 ev ∧ s'.2 = s.2.next s'.1 ev

/-- The last `flushed` pushes and more are on the committed array. -/
structure InOrder (m : Model) (h : History) (k : Nat) : Prop where
  since : Since h.base h.pushes k m.cache
  flushed : h.flushed ≤ k

/-- `Does` names one event, but for the parts that a crash leaves. -/
theorem does_unique {m : Model} {c : Call} {ev ev' : Event} (h : m.Does c ev)
    (h' : m.Does c ev') : ev = ev' ∨ ∃ parts parts', ev = .lose parts ∧ ev' = .lose parts' := by
  cases c with
  | crash mode =>
    obtain ⟨parts, rfl, -⟩ := h
    obtain ⟨parts', rfl, -⟩ := h'
    exact Or.inr ⟨parts, parts', rfl, rfl⟩
  | read | write | discard | flush | hang | setPolicy => exact Or.inl (h.trans h'.symm)

/-- One call keeps the pushes in order. -/
theorem InOrder.step {m m' : Model} {h : History} {k : Nat} {ev : Event} {c : Call}
    (horder : InOrder m h k) (hstepped : m.Stepped c ev m') :
    ∃ k', InOrder m' (h.next m' ev) k' := by
  obtain ⟨hsince, hflushed⟩ := horder
  have hstep := hstepped.step
  cases ev with
  | keep =>
    refine ⟨k, ?_, hflushed⟩
    generalize m'.cache = c' at hstep
    cases hstep with
    | keep => exact hsince
  | push e =>
    obtain ⟨k', hle, hsince'⟩ := hsince.push hstep
    exact ⟨k', hsince', hflushed.trans hle⟩
  | drain => exact ⟨h.pushes.length, hsince.drain hstep, Nat.le_refl _⟩
  | lose parts =>
    refine ⟨0, ?_, Nat.le_refl _⟩
    have hpending : m'.cache.pending = [] := by
      generalize m'.cache = c' at hstep
      cases hstep with
      | lose => rfl
    exact since_self m'.cache hpending

/-- The history of a step. -/
theorem exists_history {m m' : Model} {l : Call × Reply} (hvalid : m.Valid) (hs : Step m l m')
    (h : History) : ∃ h', HistoryStep (m, h) l (m', h') := by
  obtain ⟨ev, hstepped⟩ := Model.step_spec hvalid hs
  exact ⟨h.next m' ev, hs, ev, hstepped.does, rfl⟩

theorem InOrder.historyStep {s s' : Model × History} {l : Call × Reply} {k : Nat}
    (horder : InOrder s.1 s.2 k) (hvalid : s.1.Valid) (hs : HistoryStep s l s') :
    ∃ k', InOrder s'.1 s'.2 k' := by
  obtain ⟨hstep, ev, hdoes, hnext⟩ := hs
  obtain ⟨ev', hstepped⟩ := Model.step_spec hvalid hstep
  have hsame : s.2.next s'.1 ev = s.2.next s'.1 ev' := by
    rcases does_unique hdoes hstepped.does with rfl | ⟨parts, parts', rfl, rfl⟩
    · rfl
    · rfl
  rw [hnext, hsame]
  exact horder.step hstepped

/-- A model that has just been made, with its history. -/
def start (size lbs cacheCap : Nat) (seed : UInt64) (policy : Policy) : Model × History :=
  (.new size lbs cacheCap seed policy,
    { base := List.replicate size 0, pushes := [], flushed := 0 })

/-- In every reachable state the loss is bounded, and no call fails. -/
structure Bounded (size cacheCap : Nat) (m : Model) (h : History) (k : Nat) : Prop where
  le : k ≤ h.pushes.length
  committed : m.committed = overwriteAll h.base (h.pushes.take k)
  volatile : m.volatile = h.pushes.drop k
  counted : m.volatileBytes = bytes m.volatile
  bounded : m.volatileBytes ≤ cacheCap
  flushed : h.flushed ≤ k
  /-- The eviction loop ends, takes nothing from an empty list, and does not
  count below zero. -/
  returns : ∀ c, c.InRange size → ∃ reply m', m.call c = some (reply, m')
  /-- A crash that drops the cache undoes the pushes from `k` on. -/
  dropped : ∀ report m', m.crash .drop = some (report, m') →
    m'.committed = overwriteAll h.base (h.pushes.take k) ∧ bytes (h.pushes.drop k) ≤ cacheCap

theorem InOrder.bounded {size lbs cacheCap : Nat} {m : Model} {h : History} {k : Nat}
    (horder : InOrder m h k) (hsized : m.Sized size lbs cacheCap) :
    Bounded size cacheCap m h k := by
  obtain ⟨⟨hle, hstable, hpending⟩, hflushed⟩ := horder
  have hcap : m.volatileBytes ≤ cacheCap := hsized.cacheCap ▸ hsized.valid.bounded
  refine ⟨hle, hstable, hpending, hsized.valid.counted, hcap, hflushed, ?_, ?_⟩
  · intro c hc
    rw [← hsized.size] at hc
    obtain ⟨reply, m', ev, hcall, -⟩ := Model.call_total hsized.valid hc
    exact ⟨reply, m', hcall⟩
  · intro report m' hcrash
    obtain ⟨report', m'', parts, hcrash', heffect, hdrop⟩ := Model.crash_spec hsized.valid .drop
    rw [hcrash] at hcrash'
    obtain ⟨-, rfl⟩ := Prod.mk.inj (Option.some.inj hcrash')
    have hstep := heffect.step
    rw [hdrop rfl] at hstep
    have hcommitted : m'.cache.stable = m.cache.stable := by
      generalize m'.cache = c' at hstep
      cases hstep with
      | lose => rfl
    refine ⟨hcommitted.trans hstable, ?_⟩
    change m.volatile = h.pushes.drop k at hpending
    rw [← hpending, ← hsized.valid.counted]
    exact hcap

/-- The loss is bounded and in order, over every run with any crashes. -/
theorem bounded_loss {size lbs cacheCap : Nat} {seed : UInt64} {policy : Policy}
    {trace : List (Call × Reply)} {m : Model} (hlbs : 0 < lbs)
    (hrun : Run Step (.new size lbs cacheCap seed policy) trace m) :
    ∃ h k, Run HistoryStep (start size lbs cacheCap seed policy) trace (m, h) ∧
      Bounded size cacheCap m h k := by
  have hall : m.Sized size lbs cacheCap ∧
      ∃ h k, Run HistoryStep (start size lbs cacheCap seed policy) trace (m, h) ∧
        InOrder m h k := by
    induction hrun with
    | nil =>
      exact ⟨Model.sized_new hlbs, _, 0, .nil, ⟨Nat.le_refl _, rfl, rfl⟩, Nat.le_refl _⟩
    | snoc run last ih =>
      obtain ⟨hsized, h, k, hrun, horder⟩ := ih
      obtain ⟨h', hstep⟩ := exists_history hsized.valid last h
      obtain ⟨k', horder'⟩ := horder.historyStep hsized.valid hstep
      exact ⟨hsized.step last, h', k', hrun.snoc hstep, horder'⟩
  obtain ⟨hsized, h, k, hrun, horder⟩ := hall
  exact ⟨h, k, hrun, horder.bounded hsized⟩

/-- A push that is larger than the cache, and a crash that drops another
one. -/
theorem bounded_loss_fourBytes :
    ∃ (trace : List (Call × Reply)) (m : Model), Run Step (.new 4 1 2 0 {}) trace m ∧
      m.committed = [1, 2, 3, 0] ∧
      ∃ h k, Run HistoryStep (start 4 1 2 0 {}) trace (m, h) ∧ Bounded 4 2 m h k := by
  have hlarge : Run Step (.new 4 1 2 0 {}) _ _ :=
    .single (ran (.write 0 [1, 2, 3]) (.result 3) (by decide) rfl)
  have hsmall := hlarge.snoc (ran (.discard 0 2) .done (by decide) rfl)
  have hcrash := hsmall.snoc (ran (.crash .drop) (.report { dropped := 1 }) (by decide) rfl)
  exact ⟨_, _, hcrash, rfl, bounded_loss (by decide) hcrash⟩

/-! ## Blocks -/

/-- The kernel sends requests of whole blocks. -/
def Call.Aligned (lbs : Nat) : Call → Prop
  | .write off data => lbs ∣ off ∧ lbs ∣ data.length
  | .discard off len => lbs ∣ off ∧ lbs ∣ len
  | _ => True

/-- A call of whole blocks. -/
def AlignedStep (m : Model) (l : Call × Reply) (m' : Model) : Prop :=
  Step m l m' ∧ l.1.Aligned m.lbs

/-- The content of a block. -/
def block (lbs b : Nat) (image : Bytes) : Bytes := slice image (b * lbs) ((b + 1) * lbs)

def Whole (m : Model) : Prop := ∀ e, e ∈ m.volatile → Aligned m.lbs e

/-- What an aligned call pushes is aligned. -/
theorem aligned_push {m : Model} {c : Call} {e : Entry} (hlbs : 0 < m.lbs)
    (haligned : c.Aligned m.lbs) (hdoes : m.Does c (.push e)) : Aligned m.lbs e := by
  cases c with
  | write off data =>
    obtain ⟨hoff, hlen⟩ := haligned
    change Event.push e = Model.enters off (m.entered data) at hdoes
    unfold Model.entered at hdoes
    split at hdoes
    · split at hdoes
      · obtain rfl := Event.push.inj hdoes
        obtain ⟨n, hn, hle⟩ := Model.keeps_le hlbs data.length
        refine ⟨hoff, ?_⟩
        show m.lbs ∣ (data.take (m.keeps data.length)).length
        rw [List.length_take, hn, Nat.min_eq_left hle]
        exact Nat.dvd_mul_left m.lbs n
      · cases hdoes
    · obtain rfl := Event.push.inj hdoes
      exact ⟨hoff, hlen⟩
  | discard off len =>
    obtain rfl := Event.push.inj hdoes
    refine ⟨haligned.1, ?_⟩
    show m.lbs ∣ (List.replicate len (0 : UInt8)).length
    rw [List.length_replicate]
    exact haligned.2
  | flush =>
    change Event.push e = if m.lies then .keep else .drain at hdoes
    split at hdoes
    · cases hdoes
    · cases hdoes
  | crash mode =>
    obtain ⟨parts, hparts, -⟩ := hdoes
    cases hparts
  | read | hang | setPolicy => cases hdoes

theorem Whole.step {m m' : Model} {l : Call × Reply} (h : Whole m) (hvalid : m.Valid)
    (hs : AlignedStep m l m') : Whole m' := by
  obtain ⟨ev, hstepped⟩ := Model.step_spec hvalid hs.1
  have hstep := hstepped.step
  intro e he
  rw [hstepped.lbs]
  change e ∈ m'.cache.pending at he
  generalize m'.cache = c' at hstep he
  cases hstep with
  | keep => exact h e he
  | @push new k inRange =>
    rcases List.mem_append.mp (List.mem_of_mem_drop he) with he | he
    · exact h e he
    · rw [List.mem_singleton.mp he]
      exact aligned_push hvalid.lbs hs.2 hstepped.does
  | drain | lose => cases he

/-- A call pushes nothing over the block. -/
def Spares (b : Nat) (m : Model) (c : Call) : Prop :=
  ∀ e, m.Does c (.push e) → e.Misses (b * m.lbs) ((b + 1) * m.lbs)

/-- A range that is durable stays durable over calls that push nothing over
it, crashes included. -/
theorem durable_step {m m' : Model} {l : Call × Reply} {i j : Nat} {value : Bytes}
    (h : Durable i j value m.cache) (hvalid : m.Valid) (hs : Step m l m')
    (hspares : ∀ e, m.Does l.1 (.push e) → e.Misses i j) : Durable i j value m'.cache := by
  obtain ⟨ev, hstepped⟩ := Model.step_spec hvalid hs
  exact h.step hvalid.cache (fun e he => hspares e (he ▸ hstepped.does)) hstepped.step

/-- After an honest flush every range is durable. -/
theorem durable_flush {m m' : Model} {i j : Nat} (hvalid : m.Valid)
    (hflush : m.flush = some m') (honest : m.lies = false) (hj : j ≤ m.committed.length) :
    Durable i j (slice m.view i j) m'.cache := by
  obtain ⟨m'', hflush', heffect⟩ := Model.flush_spec hvalid
  rw [hflush] at hflush'
  obtain rfl := Option.some.inj hflush'
  rw [honest] at heffect
  have hstep : Cache.Step m.lbs m.cache .drain m'.cache := heffect.step
  generalize m'.cache = c' at hstep
  cases hstep with
  | drain =>
    have hlen : m.cache.view.length = m.committed.length := overwriteAll_length hvalid.cache
    exact durable_of_drained (c := { stable := m.cache.view, pending := [] }) rfl (hlen ▸ hj)

/-- Every outcome of a crash is one that a volatile cache allows. -/
theorem crash_legal {size lbs cacheCap : Nat} {seed : UInt64} {policy : Policy}
    {trace : List (Call × Reply)} {m : Model} {b : Nat} (hlbs : 0 < lbs)
    (hrun : Run AlignedStep (.new size lbs cacheCap seed policy) trace m)
    (hb : (b + 1) * lbs ≤ size) :
    (∀ mode report m', m.crash mode = some (report, m') →
      block lbs b m'.view = block lbs b m.committed ∨
        ∃ e, e ∈ m.volatile ∧ e.Covers (b * lbs) ((b + 1) * lbs) ∧
          block lbs b m'.view = e.window (b * lbs) ((b + 1) * lbs)) ∧
      ∀ m₀, m.flush = some m₀ → m.lies = false →
        ∀ trace' m', Run (fun s l s' => AlignedStep s l s' ∧ Spares b s l.1) m₀ trace' m' →
          block lbs b m'.view = block lbs b m.view ∧
            block lbs b m'.committed = block lbs b m.view := by
  have hall : m.Sized size lbs cacheCap ∧ Whole m := by
    refine hrun.state_invariant (fun m => m.Sized size lbs cacheCap ∧ Whole m)
      ⟨Model.sized_new hlbs, nofun⟩ ?_
    intro _ _ _ ⟨hsized, hwhole⟩ hs
    exact ⟨hsized.step hs.1, hwhole.step hsized.valid hs⟩
  obtain ⟨hsized, hwhole⟩ := hall
  obtain rfl := hsized.lbs
  constructor
  · intro mode report m' hcrash
    obtain ⟨report', m'', parts, hcrash', heffect, -⟩ := Model.crash_spec hsized.valid mode
    rw [hcrash] at hcrash'
    obtain ⟨-, rfl⟩ := Prod.mk.inj (Option.some.inj hcrash')
    have hstep := heffect.step
    have hview : m'.view = m'.cache.stable := by
      rw [Model.view]
      generalize m'.cache = c' at hstep
      cases hstep with
      | lose => rfl
    rw [hview]
    exact block_lose hsized.valid.cache hwhole hstep (hsized.size ▸ hb)
  · intro m₀ hflush honest trace' m' hrun'
    have hdurable := durable_flush (i := b * m.lbs) hsized.valid hflush honest (hsized.size ▸ hb)
    have hstep₀ : Step m (.flush, .done) m₀ :=
      ⟨trivial, by
        show m.flush.map _ = _
        rw [hflush]
        rfl⟩
    have hboth : m'.Sized size m.lbs cacheCap ∧
        Durable (b * m.lbs) ((b + 1) * m.lbs) (block m.lbs b m.view) m'.cache := by
      induction hrun' with
      | nil => exact ⟨hsized.step hstep₀, hdurable⟩
      | snoc run last ih =>
        obtain ⟨hsized', hdurable'⟩ := ih
        obtain ⟨hs, hspares⟩ := last
        refine ⟨hsized'.step hs.1, durable_step hdurable' hsized'.valid hs.1 ?_⟩
        rw [Spares, hsized'.lbs] at hspares
        exact hspares
    exact ⟨hboth.2.view hboth.1.valid.cache, hboth.2.stable⟩

/-- Two blocks, one of them written twice. -/
theorem crash_legal_twoBlocks :
    ∃ (trace : List (Call × Reply)) (m : Model), Run AlignedStep (.new 4 2 8 0 {}) trace m ∧
      m.volatile = [⟨0, [1, 2, 3, 4]⟩, ⟨2, [5, 6]⟩] ∧
      (∀ mode report m', m.crash mode = some (report, m') →
        block 2 1 m'.view = block 2 1 m.committed ∨
          ∃ e, e ∈ m.volatile ∧ e.Covers (1 * 2) ((1 + 1) * 2) ∧
            block 2 1 m'.view = e.window (1 * 2) ((1 + 1) * 2)) ∧
      ∀ m₀, m.flush = some m₀ → m.lies = false →
        ∀ trace' m', Run (fun s l s' => AlignedStep s l s' ∧ Spares 1 s l.1) m₀ trace' m' →
          block 2 1 m'.view = block 2 1 m.view ∧ block 2 1 m'.committed = block 2 1 m.view := by
  have hfirst : Run AlignedStep (.new 4 2 8 0 {}) _ _ :=
    .single ⟨ran (.write 0 [1, 2, 3, 4]) (.result 4) (by decide) rfl, by decide, by decide⟩
  have hsecond : Run AlignedStep _ _ _ := hfirst.snoc
    ⟨ran (.write 2 [5, 6]) (.result 2) (by decide) rfl, by decide, by decide⟩
  exact ⟨_, _, hsecond, rfl, crash_legal (by decide) hsecond (by decide)⟩

end Fault

end Ublkera
