import Ublkera.Lib.LittleEndian

/-!
# A disk with a volatile write-back cache

A disk is a byte string, and a write to it is an `Entry`: an offset and the
bytes that go there.  `overwriteAll` applies a list of entries in order.

A `Cache` is a stable byte string with the entries that are not written back
yet.  It takes a write, writes back its oldest entries, drains, or loses its
pending entries but for some parts of them.

* `Cache.view_step`: only a write and a loss change what is read.
* `Since.step`: the stable bytes are an old image with a prefix of the writes
  since then, and the pending entries are the others.
* `block_lose`: after a loss an aligned block has its stable content or the
  content that one pending entry had for it.
* `Durable.step`: a byte range that no pending entry touches keeps its content
  until the next write that touches it.

Nothing in this module is about a particular disk.
-/

namespace WriteCache

open LittleEndian

/-! ## Entries -/

structure Entry where
  off : Nat
  data : Bytes
  deriving DecidableEq, Repr

namespace Entry

def stop (e : Entry) : Nat := e.off + e.data.length

/-- The entry has a byte for the whole range. -/
def Covers (i j : Nat) (e : Entry) : Prop := e.off ≤ i ∧ j ≤ e.stop

/-- The entry has no byte for the range. -/
def Misses (i j : Nat) (e : Entry) : Prop := e.stop ≤ i ∨ j ≤ e.off

instance (i j : Nat) (e : Entry) : Decidable (e.Covers i j) :=
  inferInstanceAs (Decidable (_ ∧ _))

instance (i j : Nat) (e : Entry) : Decidable (e.Misses i j) :=
  inferInstanceAs (Decidable (_ ∨ _))

/-- The bytes of the entry for a range that it covers. -/
def window (i j : Nat) (e : Entry) : Bytes := slice e.data (i - e.off) (j - e.off)

end Entry

def overwrite (image : Bytes) (e : Entry) : Bytes := patch image e.off e.data

def overwriteAll (image : Bytes) (entries : List Entry) : Bytes := entries.foldl overwrite image

/-- The bytes of all entries. -/
def bytes (entries : List Entry) : Nat := (entries.map (·.data.length)).sum

def InRange (size : Nat) (entries : List Entry) : Prop := ∀ e, e ∈ entries → e.stop ≤ size

@[simp] theorem overwriteAll_nil (image : Bytes) : overwriteAll image [] = image := rfl

@[simp] theorem overwriteAll_cons (image : Bytes) (e : Entry) (entries : List Entry) :
    overwriteAll image (e :: entries) = overwriteAll (overwrite image e) entries := rfl

theorem overwriteAll_append (image : Bytes) (before after : List Entry) :
    overwriteAll image (before ++ after) = overwriteAll (overwriteAll image before) after :=
  List.foldl_append

@[simp] theorem bytes_nil : bytes [] = 0 := rfl

@[simp] theorem bytes_cons (e : Entry) (entries : List Entry) :
    bytes (e :: entries) = e.data.length + bytes entries := rfl

theorem bytes_append (before after : List Entry) :
    bytes (before ++ after) = bytes before + bytes after := by
  simp [bytes]

theorem InRange.append {size : Nat} {before after : List Entry} (h : InRange size before)
    (h' : InRange size after) : InRange size (before ++ after) := by
  intro e he
  rcases List.mem_append.mp he with he | he
  · exact h e he
  · exact h' e he

theorem InRange.subset {size : Nat} {entries entries' : List Entry} (h : InRange size entries)
    (hsub : ∀ e, e ∈ entries' → e ∈ entries) : InRange size entries' :=
  fun e he => h e (hsub e he)

theorem inRange_singleton {size : Nat} {e : Entry} (h : e.stop ≤ size) : InRange size [e] := by
  intro e' he
  rw [List.mem_singleton.mp he]
  exact h

theorem overwrite_length {image : Bytes} {e : Entry} (h : e.stop ≤ image.length) :
    (overwrite image e).length = image.length :=
  patch_length image e.off e.data h

theorem overwriteAll_length {image : Bytes} {entries : List Entry}
    (h : InRange image.length entries) : (overwriteAll image entries).length = image.length := by
  induction entries generalizing image with
  | nil => rfl
  | cons e entries ih =>
    have hlen := overwrite_length (h e List.mem_cons_self)
    rw [overwriteAll_cons, ih, hlen]
    rw [hlen]
    exact fun e' he => h e' (List.mem_cons_of_mem _ he)

/-! ## A byte range of the disk -/

/-- An entry that misses the range leaves it alone. -/
theorem slice_overwrite_of_misses {image : Bytes} {e : Entry} {i j : Nat}
    (hin : e.stop ≤ image.length) (hj : j ≤ image.length) (h : e.Misses i j) :
    slice (overwrite image e) i j = slice image i j := by
  refine slice_congr (by rw [overwrite_length hin]; exact hj) hj fun k hik hkj => ?_
  rw [overwrite, getElem?_patch hin, if_neg]
  unfold Entry.Misses Entry.stop at h
  omega

/-- An entry that covers the range decides it. -/
theorem slice_overwrite_of_covers {image : Bytes} {e : Entry} {i j : Nat}
    (hin : e.stop ≤ image.length) (h : e.Covers i j) :
    slice (overwrite image e) i j = e.window i j := by
  obtain ⟨hi, hj⟩ := h
  have hlen := overwrite_length hin
  have hstop : e.stop = e.off + e.data.length := rfl
  apply List.ext_getElem?
  intro k
  rcases Nat.lt_or_ge (i + k) j with hk | hk
  · rw [Entry.window, getElem?_slice _ hk, getElem?_slice _ (by omega), overwrite,
      getElem?_patch hin, if_pos (by omega)]
    congr 1
    omega
  · rw [List.getElem?_eq_none (by rw [slice_length _ (by rw [hlen]; omega)]; omega),
      List.getElem?_eq_none (by rw [Entry.window, slice_length _ (by omega)]; omega)]

theorem slice_overwriteAll_of_misses {image : Bytes} {entries : List Entry} {i j : Nat}
    (hin : InRange image.length entries) (hj : j ≤ image.length)
    (h : ∀ e, e ∈ entries → e.Misses i j) :
    slice (overwriteAll image entries) i j = slice image i j := by
  induction entries generalizing image with
  | nil => rfl
  | cons e entries ih =>
    have he := hin e List.mem_cons_self
    have hlen := overwrite_length he
    rw [overwriteAll_cons, ih, slice_overwrite_of_misses he hj (h e List.mem_cons_self)]
    · rw [hlen]
      exact fun e' he' => hin e' (List.mem_cons_of_mem _ he')
    · rw [hlen]
      exact hj
    · exact fun e' he' => h e' (List.mem_cons_of_mem _ he')

/-- A range that every entry covers or misses has its old content or the
content of one of the entries. -/
theorem slice_overwriteAll_cases {image : Bytes} {entries : List Entry} {i j : Nat}
    (hin : InRange image.length entries) (hj : j ≤ image.length)
    (h : ∀ e, e ∈ entries → e.Covers i j ∨ e.Misses i j) :
    slice (overwriteAll image entries) i j = slice image i j ∨
      ∃ e, e ∈ entries ∧ e.Covers i j ∧
        slice (overwriteAll image entries) i j = e.window i j := by
  induction entries generalizing image with
  | nil => exact Or.inl rfl
  | cons e entries ih =>
    have he := hin e List.mem_cons_self
    have hlen := overwrite_length he
    have hin' : InRange (overwrite image e).length entries := by
      rw [hlen]
      exact fun e' he' => hin e' (List.mem_cons_of_mem _ he')
    have hcases := ih hin' (by rw [hlen]; exact hj)
      (fun e' he' => h e' (List.mem_cons_of_mem _ he'))
    rw [overwriteAll_cons]
    rcases hcases with hold | ⟨e', he', hcovers, hnew⟩
    · rcases h e List.mem_cons_self with hcovers | hmisses
      · refine Or.inr ⟨e, List.mem_cons_self, hcovers, ?_⟩
        rw [hold, slice_overwrite_of_covers he hcovers]
      · left
        rw [hold, slice_overwrite_of_misses he hj hmisses]
    · exact Or.inr ⟨e', List.mem_cons_of_mem _ he', hcovers, hnew⟩

/-! ## The cache -/

structure Cache where
  stable : Bytes
  pending : List Entry
  deriving DecidableEq

/-- What is read from the disk. -/
def Cache.view (c : Cache) : Bytes := overwriteAll c.stable c.pending

/-- `p` is a run of whole blocks of `e`; the last one may be short. -/
def Part (block : Nat) (e p : Entry) : Prop :=
  ∃ i j, i ≤ j ∧ j ≤ e.data.length ∧ block ∣ i ∧ (block ∣ j ∨ j = e.data.length) ∧
    p = { off := e.off + i, data := slice e.data i j }

inductive Event where
  /-- Nothing is written. -/
  | keep
  | push (e : Entry)
  | drain
  /-- The parts that a loss of power leaves. -/
  | lose (parts : List Entry)

inductive Cache.Step (block : Nat) : Cache → Event → Cache → Prop where
  | keep {c : Cache} : Step block c .keep c
  /-- A write, and then the oldest `k` entries are written back. -/
  | push {c : Cache} {e : Entry} {k : Nat} (inRange : e.stop ≤ c.stable.length) :
      Step block c (.push e)
        { stable := overwriteAll c.stable ((c.pending ++ [e]).take k)
          pending := (c.pending ++ [e]).drop k }
  | drain {c : Cache} : Step block c .drain { stable := c.view, pending := [] }
  | lose {c : Cache} {parts : List Entry}
      (survive : ∀ p, p ∈ parts → ∃ e, e ∈ c.pending ∧ Part block e p) :
      Step block c (.lose parts) { stable := overwriteAll c.stable parts, pending := [] }

/-- The pending entries fit on the disk. -/
def Cache.Valid (c : Cache) : Prop := InRange c.stable.length c.pending

theorem part_stop {block : Nat} {e p : Entry} (h : Part block e p) : p.stop ≤ e.stop := by
  obtain ⟨i, j, hij, hj, -, -, rfl⟩ := h
  show e.off + i + (slice e.data i j).length ≤ e.off + e.data.length
  rw [slice_length _ hj]
  omega

theorem Cache.Step.length {block : Nat} {c c' : Cache} {ev : Event} (h : c.Valid)
    (hs : Step block c ev c') : c'.stable.length = c.stable.length := by
  cases hs with
  | keep => rfl
  | push inRange =>
    refine overwriteAll_length (InRange.subset ?_ fun e he => List.mem_of_mem_take he)
    exact InRange.append h (inRange_singleton inRange)
  | drain => exact overwriteAll_length h
  | lose survive =>
    refine overwriteAll_length fun p hp => ?_
    obtain ⟨e, he, hpart⟩ := survive p hp
    exact (part_stop hpart).trans (h e he)

/-- What an event that is no loss does to what is read. -/
def Event.apply (image : Bytes) : Event → Bytes
  | .push e => overwrite image e
  | _ => image

def Event.isLoss : Event → Bool
  | .lose _ => true
  | _ => false

theorem Cache.view_step {block : Nat} {c c' : Cache} {ev : Event} (hs : Step block c ev c')
    (hloss : ev.isLoss = false) : c'.view = ev.apply c.view := by
  cases hs with
  | keep | drain => rfl
  | @push e k inRange =>
    show overwriteAll (overwriteAll c.stable _) _ = overwrite c.view e
    rw [← overwriteAll_append, List.take_append_drop, overwriteAll_append]
    rfl
  | lose => cases hloss

/-- What is read from a range changes only by a write that touches it and by a
loss. -/
theorem Cache.slice_view_step {block i j : Nat} {c c' : Cache} {ev : Event} (h : c.Valid)
    (hs : Step block c ev c') (hloss : ev.isLoss = false) (hj : j ≤ c.stable.length)
    (hmisses : ∀ e, ev = .push e → e.Misses i j) : slice c'.view i j = slice c.view i j := by
  have hlen : c.view.length = c.stable.length := overwriteAll_length h
  rw [view_step hs hloss]
  cases ev with
  | keep | drain | lose => rfl
  | push e =>
    cases hs with
    | push inRange =>
      exact slice_overwrite_of_misses (hlen ▸ inRange) (hlen ▸ hj) (hmisses e rfl)

/-! ## The writes since a loss -/

/-- The disk is the image `base` with the first `k` of the writes, and the
others are pending. -/
structure Since (base : Bytes) (pushes : List Entry) (k : Nat) (c : Cache) : Prop where
  le : k ≤ pushes.length
  stable : c.stable = overwriteAll base (pushes.take k)
  pending : c.pending = pushes.drop k

theorem Since.view {base : Bytes} {pushes : List Entry} {k : Nat} {c : Cache}
    (h : Since base pushes k c) : c.view = overwriteAll base pushes := by
  rw [Cache.view, h.stable, h.pending, ← overwriteAll_append, List.take_append_drop]

theorem since_self (c : Cache) (h : c.pending = []) : Since c.stable [] 0 c :=
  ⟨Nat.le_refl _, rfl, h⟩

/-- A write adds to the writes, and the prefix can only grow. -/
theorem Since.push {block : Nat} {base : Bytes} {pushes : List Entry} {k : Nat} {c c' : Cache}
    {e : Entry} (h : Since base pushes k c) (hs : Cache.Step block c (.push e) c') :
    ∃ k', k ≤ k' ∧ Since base (pushes ++ [e]) k' c' := by
  cases hs with
  | @push _ n inRange =>
    obtain ⟨hle, hstable, hpending⟩ := h
    have hdrop : c.pending ++ [e] = (pushes ++ [e]).drop k := by
      rw [List.drop_append_of_le_length hle, hpending]
    have htake : (pushes ++ [e]).take k = pushes.take k := List.take_append_of_le_length hle
    have hlen : ((pushes ++ [e]).drop k).length = pushes.length + 1 - k := by simp
    refine ⟨k + min n (pushes.length + 1 - k), Nat.le_add_right _ _, ?_, ?_, ?_⟩
    · rw [List.length_append, List.length_singleton]
      omega
    · show overwriteAll c.stable ((c.pending ++ [e]).take n) = _
      rw [hdrop, hstable, ← htake, ← overwriteAll_append, List.take_add]
      congr 2
      rw [← hlen, List.take_eq_take_min]
    · show (c.pending ++ [e]).drop n = _
      rw [hdrop, ← List.drop_drop]
      rcases Nat.le_total n (pushes.length + 1 - k) with hn | hn
      · rw [Nat.min_eq_left hn]
      · rw [Nat.min_eq_right hn, List.drop_eq_nil_of_le (by rw [hlen]; exact hn),
          List.drop_eq_nil_of_le (by rw [hlen])]

theorem Since.drain {block : Nat} {base : Bytes} {pushes : List Entry} {k : Nat} {c c' : Cache}
    (h : Since base pushes k c) (hs : Cache.Step block c .drain c') :
    Since base pushes pushes.length c' := by
  cases hs with
  | drain =>
    refine ⟨Nat.le_refl _, ?_, ?_⟩
    · show c.view = _
      rw [h.view, List.take_length]
    · rw [List.drop_length]

/-! ## Blocks -/

/-- An entry of whole blocks. -/
def Aligned (block : Nat) (e : Entry) : Prop := block ∣ e.off ∧ block ∣ e.data.length

theorem aligned_part {block : Nat} {e p : Entry} (h : Aligned block e) (hp : Part block e p) :
    Aligned block p := by
  obtain ⟨hoff, hlen⟩ := h
  obtain ⟨i, j, hij, hj, hi, hend, rfl⟩ := hp
  have hdvd : block ∣ j := hend.elim id fun hend => hend ▸ hlen
  refine ⟨Nat.dvd_add hoff hi, ?_⟩
  show block ∣ (slice e.data i j).length
  rw [slice_length _ hj]
  exact Nat.dvd_sub hdvd hi

/-- Whole blocks hold a block or miss it. -/
theorem covers_or_misses {block : Nat} {e : Entry} (h : Aligned block e) (b : Nat) :
    e.Covers (b * block) ((b + 1) * block) ∨ e.Misses (b * block) ((b + 1) * block) := by
  obtain ⟨⟨m, hm⟩, ⟨n, hn⟩⟩ := h
  unfold Entry.Covers Entry.Misses Entry.stop
  rw [hm, hn, ← Nat.mul_add, Nat.mul_comm b, Nat.mul_comm (b + 1)]
  rcases Nat.lt_or_ge b m with hb | hb
  · exact Or.inr (Or.inr (Nat.mul_le_mul_left block hb))
  · rcases Nat.lt_or_ge b (m + n) with hb' | hb'
    · exact Or.inl ⟨Nat.mul_le_mul_left block hb, Nat.mul_le_mul_left block hb'⟩
    · exact Or.inr (Or.inl (Nat.mul_le_mul_left block hb'))

/-- A part that covers a range has the bytes of its entry for it. -/
theorem window_part {block : Nat} {e p : Entry} {i j : Nat} (hij : i ≤ j) (hp : Part block e p)
    (h : p.Covers i j) : e.Covers i j ∧ p.window i j = e.window i j := by
  obtain ⟨k, l, hkl, hl, -, -, rfl⟩ := hp
  obtain ⟨hi, hj⟩ := h
  have hlen := slice_length e.data (i := k) hl
  change e.off + k ≤ i at hi
  change j ≤ e.off + k + (slice e.data k l).length at hj
  have hstop : e.stop = e.off + e.data.length := rfl
  refine ⟨⟨by omega, by omega⟩, ?_⟩
  show slice (slice e.data k l) (i - (e.off + k)) (j - (e.off + k)) = slice e.data _ _
  rw [slice_slice _ (by omega)]
  congr 1 <;> omega

/-- After a loss a block has its stable content or the content that one
pending entry had for it. -/
theorem block_lose {block : Nat} {c c' : Cache} {parts : List Entry} (h : c.Valid)
    (haligned : ∀ e, e ∈ c.pending → Aligned block e) (hs : Cache.Step block c (.lose parts) c')
    {b : Nat} (hb : (b + 1) * block ≤ c.stable.length) :
    slice c'.stable (b * block) ((b + 1) * block)
        = slice c.stable (b * block) ((b + 1) * block) ∨
      ∃ e, e ∈ c.pending ∧ e.Covers (b * block) ((b + 1) * block) ∧
        slice c'.stable (b * block) ((b + 1) * block)
          = e.window (b * block) ((b + 1) * block) := by
  cases hs with
  | lose survive =>
    have hin : InRange c.stable.length parts := by
      intro p hp
      obtain ⟨e, he, hpart⟩ := survive p hp
      exact (part_stop hpart).trans (h e he)
    have hwhole : ∀ p, p ∈ parts →
        p.Covers (b * block) ((b + 1) * block) ∨ p.Misses (b * block) ((b + 1) * block) := by
      intro p hp
      obtain ⟨e, he, hpart⟩ := survive p hp
      exact covers_or_misses (aligned_part (haligned e he) hpart) b
    rcases slice_overwriteAll_cases hin hb hwhole with hold | ⟨p, hp, hcovers, hnew⟩
    · exact Or.inl hold
    · obtain ⟨e, he, hpart⟩ := survive p hp
      have hblock : b * block ≤ (b + 1) * block := Nat.mul_le_mul_right block (Nat.le_succ b)
      obtain ⟨hecovers, hwindow⟩ := window_part hblock hpart hcovers
      exact Or.inr ⟨e, he, hecovers, hnew.trans hwindow⟩

/-! ## A write in pieces -/

/-- A part has the bytes of its entry. -/
theorem getElem?_overwrite_part {block : Nat} {image : Bytes} {e p : Entry} {x : Nat}
    (hin : e.stop ≤ image.length) (hp : Part block e p) (hlo : p.off ≤ x) (hhi : x < p.stop) :
    (overwrite image p)[x]? = e.data[x - e.off]? := by
  have hstop : p.off + p.data.length ≤ image.length := (part_stop hp).trans hin
  have hx : x < p.off + p.data.length := hhi
  rw [overwrite, getElem?_patch hstop, if_pos ⟨hlo, hx⟩]
  obtain ⟨i, j, hij, hj, -, -, rfl⟩ := hp
  have hlen := slice_length e.data (i := i) hj
  change e.off + i ≤ x at hlo
  change x < e.off + i + (slice e.data i j).length at hx
  show (slice e.data i j)[x - (e.off + i)]? = _
  rw [getElem?_slice _ (by omega)]
  congr 1
  omega

/-- The bytes that some part holds are those of the entry, and the others are
left alone. -/
theorem getElem?_overwriteAll_parts {block : Nat} {image : Bytes} {e : Entry} {parts : List Entry}
    (hin : e.stop ≤ image.length) (h : ∀ p, p ∈ parts → Part block e p) (x : Nat) :
    ((∃ p, p ∈ parts ∧ p.off ≤ x ∧ x < p.stop) →
        (overwriteAll image parts)[x]? = e.data[x - e.off]?) ∧
      ((∀ p, p ∈ parts → p.off ≤ x → p.stop ≤ x) →
        (overwriteAll image parts)[x]? = image[x]?) := by
  induction parts generalizing image with
  | nil => simp
  | cons p rest ih =>
    have hp := h p List.mem_cons_self
    have hpin : p.stop ≤ image.length := (part_stop hp).trans hin
    have hrest := @ih (overwrite image p) (by rwa [overwrite_length hpin])
      fun q hq => h q (List.mem_cons_of_mem _ hq)
    rw [overwriteAll_cons]
    constructor
    · intro hex
      by_cases hlater : ∃ q, q ∈ rest ∧ q.off ≤ x ∧ x < q.stop
      · exact hrest.1 hlater
      · have hmiss : ∀ q, q ∈ rest → q.off ≤ x → q.stop ≤ x := by
          intro q hq hlo
          by_contra hlt
          exact hlater ⟨q, hq, hlo, by omega⟩
        rw [hrest.2 hmiss]
        rcases hex with ⟨q, hq, hlo, hhi⟩
        rcases List.mem_cons.mp hq with rfl | hq
        · exact getElem?_overwrite_part hin hp hlo hhi
        · exact absurd (hmiss q hq hlo) (by omega)
    · intro hmiss
      have hout := hmiss p List.mem_cons_self
      have hstop : p.stop = p.off + p.data.length := rfl
      rw [hrest.2 fun q hq => hmiss q (List.mem_cons_of_mem _ hq), overwrite,
        getElem?_patch hpin, if_neg (by omega)]

/-- Parts that hold every byte of an entry write it. -/
theorem overwriteAll_parts {block : Nat} {image : Bytes} {e : Entry} {parts : List Entry}
    (hin : e.stop ≤ image.length) (h : ∀ p, p ∈ parts → Part block e p)
    (covers : ∀ x, e.off ≤ x → x < e.stop → ∃ p, p ∈ parts ∧ p.off ≤ x ∧ x < p.stop) :
    overwriteAll image parts = overwrite image e := by
  apply List.ext_getElem?
  intro x
  have hstop : e.stop = e.off + e.data.length := rfl
  obtain ⟨hheld, hmissed⟩ := getElem?_overwriteAll_parts hin h x
  rw [overwrite, getElem?_patch hin]
  split
  · rename_i hx
    exact hheld (covers x hx.1 (by omega))
  · rename_i hx
    refine hmissed fun p hp hlo => ?_
    have hpstop := part_stop (h p hp)
    obtain ⟨i, j, hij, hj, -, -, rfl⟩ := h p hp
    have hlen := slice_length e.data (i := i) hj
    change e.off + i ≤ x at hlo
    show e.off + i + (slice e.data i j).length ≤ x
    omega

/-- A part of a part is a part. -/
theorem part_trans {block : Nat} {e p q : Entry} (hp : Part block e p) (hq : Part block p q) :
    Part block e q := by
  obtain ⟨i, j, hij, hj, hi, hend, rfl⟩ := hp
  have hlen := slice_length e.data (i := i) hj
  obtain ⟨k, l, hkl, hl, hk, hstop, rfl⟩ := hq
  change l ≤ (slice e.data i j).length at hl
  change block ∣ l ∨ l = (slice e.data i j).length at hstop
  refine ⟨i + k, i + l, by omega, by omega, Nat.dvd_add hi hk, ?_, ?_⟩
  · rcases hstop with hstop | hstop
    · exact Or.inl (Nat.dvd_add hi hstop)
    · have hij' : i + l = j := by omega
      rwa [hij']
  · rw [Entry.mk.injEq]
    exact ⟨Nat.add_assoc _ _ _, slice_slice _ (by omega)⟩

/-- The parts of an entry that misses a range miss it. -/
theorem part_misses {block : Nat} {e p : Entry} {i j : Nat} (hp : Part block e p)
    (h : e.Misses i j) : p.Misses i j := by
  have hstop := part_stop hp
  obtain ⟨k, l, hkl, hl, -, -, rfl⟩ := hp
  rcases h with h | h
  · exact Or.inl (hstop.trans h)
  · exact Or.inr (h.trans (Nat.le_add_right _ _))

/-- Over parts of an entry of whole blocks, a block is the old one or that of
the entry. -/
theorem block_parts {block : Nat} {image : Bytes} {e : Entry} {parts : List Entry}
    (haligned : Aligned block e) (hin : InRange image.length parts)
    (h : ∀ p, p ∈ parts → Part block e p) {b : Nat} (hb : (b + 1) * block ≤ image.length) :
    slice (overwriteAll image parts) (b * block) ((b + 1) * block)
        = slice image (b * block) ((b + 1) * block) ∨
      e.Covers (b * block) ((b + 1) * block) ∧
        slice (overwriteAll image parts) (b * block) ((b + 1) * block)
          = e.window (b * block) ((b + 1) * block) := by
  have hwhole : ∀ p, p ∈ parts →
      p.Covers (b * block) ((b + 1) * block) ∨ p.Misses (b * block) ((b + 1) * block) :=
    fun p hp => covers_or_misses (aligned_part haligned (h p hp)) b
  rcases slice_overwriteAll_cases hin hb hwhole with hold | ⟨p, hp, hcovers, hnew⟩
  · exact Or.inl hold
  · have hblock : b * block ≤ (b + 1) * block := Nat.mul_le_mul_right block (Nat.le_succ b)
    have hwindow := window_part hblock (h p hp) hcovers
    exact Or.inr ⟨hwindow.1, hnew.trans hwindow.2⟩

/-! ## Several writers -/

/-- What is written to a byte does not depend on the rest of the image. -/
theorem getElem?_overwrite_congr {image image' : Bytes} {e : Entry} {x : Nat}
    (hin : e.stop ≤ image.length) (hlen : image'.length = image.length)
    (h : image'[x]? = image[x]?) : (overwrite image' e)[x]? = (overwrite image e)[x]? := by
  rw [overwrite, overwrite, getElem?_patch hin, getElem?_patch (by rw [hlen]; exact hin), h]

theorem getElem?_overwriteAll_congr {image image' : Bytes} {entries : List Entry} {x : Nat}
    (hin : InRange image.length entries) (hlen : image'.length = image.length)
    (h : image'[x]? = image[x]?) :
    (overwriteAll image' entries)[x]? = (overwriteAll image entries)[x]? := by
  induction entries generalizing image image' with
  | nil => exact h
  | cons e rest ih =>
    have he := hin e List.mem_cons_self
    have hlen₁ := overwrite_length he
    have hlen₂ : (overwrite image' e).length = image'.length :=
      overwrite_length (by rw [hlen]; exact he)
    refine ih ?_ (by omega) (getElem?_overwrite_congr he hlen h)
    rw [hlen₁]
    exact fun q hq => hin q (List.mem_cons_of_mem _ hq)

theorem getElem?_overwrite_of_misses {image : Bytes} {e : Entry} {x : Nat}
    (hin : e.stop ≤ image.length) (h : e.Misses x (x + 1)) :
    (overwrite image e)[x]? = image[x]? := by
  unfold Entry.Misses Entry.stop at h
  rw [overwrite, getElem?_patch hin, if_neg (by omega)]

theorem getElem?_overwriteAll_of_misses {image : Bytes} {entries : List Entry} {x : Nat}
    (hin : InRange image.length entries) (h : ∀ e, e ∈ entries → e.Misses x (x + 1)) :
    (overwriteAll image entries)[x]? = image[x]? := by
  induction entries generalizing image with
  | nil => rfl
  | cons e rest ih =>
    have he := hin e List.mem_cons_self
    have hlen := overwrite_length he
    rw [overwriteAll_cons, ih, getElem?_overwrite_of_misses he (h e List.mem_cons_self)]
    · rw [hlen]
      exact fun q hq => hin q (List.mem_cons_of_mem _ hq)
    · exact fun q hq => h q (List.mem_cons_of_mem _ hq)

/-- A byte that only one of several writers writes to holds what that writer
has written there, in its order. -/
theorem getElem?_overwriteAll_lane {ι : Type} [DecidableEq ι] {image : Bytes}
    {events : List (ι × Entry)} {i : ι} {x : Nat} (hin : InRange image.length (events.map (·.2)))
    (h : ∀ e, e ∈ events → e.1 ≠ i → e.2.Misses x (x + 1)) :
    (overwriteAll image (events.map (·.2)))[x]?
      = (overwriteAll image ((events.filter fun e => e.1 = i).map (·.2)))[x]? := by
  induction events generalizing image with
  | nil => rfl
  | cons e rest ih =>
    have he : e.2.stop ≤ image.length := hin e.2 (by simp)
    have hlen := overwrite_length he
    have hrest : InRange image.length (rest.map (·.2)) :=
      fun q hq => hin q (List.mem_cons_of_mem _ hq)
    have hlater := @ih (overwrite image e.2) (by rw [hlen]; exact hrest)
      fun q hq => h q (List.mem_cons_of_mem _ hq)
    rw [List.map_cons, overwriteAll_cons, hlater]
    by_cases hi : e.1 = i
    · rw [List.filter_cons_of_pos (by simpa using hi), List.map_cons, overwriteAll_cons]
    · rw [List.filter_cons_of_neg (by simpa using hi)]
      refine getElem?_overwriteAll_congr ?_ hlen
        (getElem?_overwrite_of_misses he (h e List.mem_cons_self hi))
      exact fun q hq => hrest q ((List.filter_sublist.map _).subset hq)

/-! ## What a loss does not touch -/

/-- The range has the content `value` on the stable bytes, and no pending
entry touches it. -/
structure Durable (i j : Nat) (value : Bytes) (c : Cache) : Prop where
  bound : j ≤ c.stable.length
  stable : slice c.stable i j = value
  misses : ∀ e, e ∈ c.pending → e.Misses i j

theorem Durable.view {i j : Nat} {value : Bytes} {c : Cache} (h : Durable i j value c)
    (hvalid : c.Valid) : slice c.view i j = value := by
  rw [Cache.view, slice_overwriteAll_of_misses hvalid h.bound h.misses]
  exact h.stable

/-- A drained cache is durable everywhere. -/
theorem durable_of_drained {i j : Nat} {c : Cache} (h : c.pending = [])
    (hj : j ≤ c.stable.length) : Durable i j (slice c.stable i j) c := by
  refine ⟨hj, rfl, ?_⟩
  rw [h]
  nofun

theorem Durable.step {block i j : Nat} {value : Bytes} {c c' : Cache} {ev : Event}
    (h : Durable i j value c) (hvalid : c.Valid)
    (hmisses : ∀ e, ev = .push e → e.Misses i j) (hs : Cache.Step block c ev c') :
    Durable i j value c' := by
  obtain ⟨hj, hstable, hpending⟩ := h
  have hlen := hs.length hvalid
  refine ⟨hlen ▸ hj, ?_, ?_⟩
  · cases hs with
    | keep => exact hstable
    | @push e k inRange =>
      refine (slice_overwriteAll_of_misses ?_ hj ?_).trans hstable
      · refine InRange.subset ?_ fun e he => List.mem_of_mem_take he
        exact InRange.append hvalid (inRange_singleton inRange)
      · intro e' he'
        rcases List.mem_append.mp (List.mem_of_mem_take he') with he' | he'
        · exact hpending e' he'
        · rw [List.mem_singleton.mp he']
          exact hmisses e rfl
    | drain => exact (slice_overwriteAll_of_misses hvalid hj hpending).trans hstable
    | lose survive =>
      refine (slice_overwriteAll_of_misses ?_ hj ?_).trans hstable
      · intro p hp
        obtain ⟨e, he, hpart⟩ := survive p hp
        exact (part_stop hpart).trans (hvalid e he)
      · intro p hp
        obtain ⟨e, he, hpart⟩ := survive p hp
        exact part_misses hpart (hpending e he)
  · cases hs with
    | keep => exact hpending
    | @push e k inRange =>
      intro e' he'
      rcases List.mem_append.mp (List.mem_of_mem_drop he') with he' | he'
      · exact hpending e' he'
      · rw [List.mem_singleton.mp he']
        exact hmisses e rfl
    | drain | lose => nofun

end WriteCache
