import Mathlib.Data.String.Basic
import Ublkera.Scenario.Line

/-!
# The documented format of a scenario line

`Documented` is the format as `scenario.rs` documents it: a verb, the
arguments that it needs and the ones that it allows, each at most once, and
nothing else.  It is compared with `parseLine`.

* `parseStep_eq_ok_iff`: what a verb takes out of the tokens is `Carries`.
* `parse_line_iff`: the lines on which the parser and the format agree are
  the lines in which no token is dropped and no size wraps, and the lines
  that are refused for what they lack.
-/

namespace Ublkera

namespace Scenario

/-! ## The format -/

/-- The arguments of a verb. -/
def keysOf : String → List String
  | "write" | "write-fails" | "expect" => ["off", "len", "pattern"]
  | "crash" => ["mode"]
  | "set" => ["error_pm", "flush_lie_pm", "hang_pm"]
  | "thaw" => ["result"]
  | "sleep" => ["ms"]
  | _ => []

/-- The flags of a verb. -/
def flagsOf : String → List String
  | "write" | "write-fails" => ["fsync"]
  | _ => []

/-- What a token is for: the key of an argument, or a flag. -/
def nameOf (tok : String) : String :=
  match splitArg tok with
  | some (k, _) => k
  | none => tok

/-- Every token is an argument or a flag of the verb, and none comes twice. -/
structure Listed (verb : String) (toks : List String) : Prop where
  known : ∀ tok ∈ toks, tok ∈ flagsOf verb ∨ ∃ k ∈ keysOf verb, ∃ v, tok = k ++ "=" ++ v
  once : (toks.map nameOf).Nodup

def valueOf (k : String) (tok : String) : Option String :=
  match splitArg tok with
  | some (k', v) => if k' = k then some v else none
  | none => none

/-- The value of a key.  Where a key comes twice, it is the last one. -/
def given (toks : List String) (k : String) : Option String :=
  (toks.filterMap (valueOf k)).getLast?

/-- The number that is written. -/
def numberValue (s : String) : Option Nat := Decimal.decimal s.toList

def sizeValue (s : String) : Option Nat :=
  (Decimal.decimal (splitSize s.toList).1).map (· * (splitSize s.toList).2)

def IsNumber (s : String) (n : UInt64) : Prop := numberValue s = some n.toNat

def IsSize (s : String) (n : UInt64) : Prop := sizeValue s = some n.toNat

/-- The value of the key reads as `n`. -/
def Reads (read : String → UInt64 → Prop) (toks : List String) (k : String) (n : UInt64) : Prop :=
  ∃ v, given toks k = some v ∧ read v n

/-- The step of the verb carries the values of the arguments, with the sizes
read by `size`. -/
inductive Carries (size : String → UInt64 → Prop) (toks : List String) (verb : String) :
    Step → Prop where
  | write {pattern : String} {off len : UInt64} (isVerb : verb = "write" ∨ verb = "write-fails")
      (offRead : Reads size toks "off" off) (lenRead : Reads size toks "len" len)
      (patternGiven : given toks "pattern" = some pattern) :
      Carries size toks verb (.write off len pattern ("fsync" ∈ toks) (verb = "write-fails"))
  | expect {pattern : String} {off len : UInt64} (isVerb : verb = "expect")
      (offRead : Reads size toks "off" off) (lenRead : Reads size toks "len" len)
      (patternGiven : given toks "pattern" = some pattern) :
      Carries size toks verb (.expect off len pattern)
  | flush (isVerb : verb = "flush") : Carries size toks verb .flush
  | crash {mode : String} (isVerb : verb = "crash") (modeGiven : given toks "mode" = some mode) :
      Carries size toks verb (.crash mode)
  /-- The pairs that are given, in the order of their keys. -/
  | set {pairs : List (String × UInt64)} (isVerb : verb = "set")
      (numbers : ∀ k v, given toks k = some v → ∃ n, IsNumber v n)
      (members : ∀ k n, (k, n) ∈ pairs ↔ Reads IsNumber toks k n)
      (sorted : pairs.Pairwise fun a b => a.1 < b.1) (nonempty : pairs ≠ []) :
      Carries size toks verb (.set pairs)
  | thaw {result : String} (isVerb : verb = "thaw")
      (resultGiven : given toks "result" = some result) : Carries size toks verb (.thaw result)
  | sleep {ms : UInt64} (isVerb : verb = "sleep") (msRead : Reads IsNumber toks "ms" ms) :
      Carries size toks verb (.sleep ms)

/-- The text is the verb, with the command behind it. -/
def Command (text : List Char) (verb cmd : String) : Prop :=
  cmd ≠ "" ∧ Text.Parts isWhitespace text verb.toList cmd.toList

/-- The line without its comment stands for the step. -/
inductive Documented (text : List Char) : Step → Prop where
  | listed {verb : String} {toks : List String} {step : Step} (split : tokens text = verb :: toks)
      (listed : Listed verb toks) (carries : Carries IsSize toks verb step) : Documented text step
  | run {cmd : String} (command : Command text "run" cmd) : Documented text (.run cmd true)
  | fail {cmd : String} (command : Command text "fail" cmd) : Documented text (.run cmd false)

/-- The parser does with the line what the format says. -/
structure Agrees (order : HashOrder) (line : String) : Prop where
  step : ∀ step, parseLine order line = .ok (some step) ↔ Documented (uncomment line.toList) step
  blank : parseLine order line = .ok none ↔ Text.Gap isWhitespace (uncomment line.toList)
  refused : (∃ e, parseLine order line = .error e) ↔
    ¬ Text.Gap isWhitespace (uncomment line.toList) ∧
      ∀ step, ¬ Documented (uncomment line.toList) step

/-! ## The lines on which they agree -/

/-- No size is too large for 64 bits. -/
def Fits (verb : String) (toks : List String) : Prop :=
  ∀ k v n, (k = "off" ∨ k = "len") → k ∈ keysOf verb → given toks k = some v →
    sizeValue v = some n → n < 2 ^ 64

/-- The text is a number that `parse::<u64>` reads. -/
def Readable (text : List Char) : Prop := ∃ n, Decimal.decimal text = some n ∧ n < 2 ^ 64

/-- The verb finds what it needs, and each number that it reads is one. -/
def Complete (toks : List String) : String → Prop
  | "write" | "write-fails" | "expect" =>
    (∃ v, given toks "off" = some v ∧ Readable (splitSize v.toList).1) ∧
      (∃ v, given toks "len" = some v ∧ Readable (splitSize v.toList).1) ∧
      ∃ v, given toks "pattern" = some v
  | "flush" => True
  | "crash" => ∃ v, given toks "mode" = some v
  | "set" =>
    (∃ k v, given toks k = some v) ∧ ∀ k v, given toks k = some v → Readable v.toList
  | "thaw" => ∃ v, given toks "result" = some v
  | "sleep" => ∃ v, given toks "ms" = some v ∧ Readable v.toList
  | _ => False

/-- A line that has what its verb needs has nothing else. -/
def NothingDropped (line : String) : Prop :=
  ∀ verb toks, tokens (uncomment line.toList) = verb :: toks → Complete toks verb →
    Listed verb toks ∧ Fits verb toks

/-! ## The map of the arguments -/

/-! ### The values of a listed line -/

/-! ### The map that is read -/

theorem readTokens_snoc (toks : List String) (tok : String) :
    readTokens (toks ++ [tok]) = readToken (readTokens toks) tok := by
  rw [readTokens, List.foldl_append]
  rfl

theorem given_snoc (toks : List String) (tok k : String) :
    given (toks ++ [tok]) k = (valueOf k tok).or (given toks k) := by
  rw [given, List.filterMap_append, List.getLast?_append]
  cases h : valueOf k tok with
  | none => simp [h, given]
  | some v => simp [h]

/-- The map keeps the last value of every key. -/
theorem lookup_readTokens (toks : List String) (k : String) :
    (readTokens toks).1.lookup k = given toks k := by
  induction toks using List.reverseRecOn with
  | nil => rfl
  | append_singleton toks tok ih =>
    rw [readTokens_snoc, given_snoc, readToken, valueOf]
    cases h : splitArg tok with
    | none => exact ih
    | some arg =>
      obtain ⟨k', v⟩ := arg
      simp only
      rw [Dict.lookup_insert, ih]
      by_cases hk : k' = k
      · rw [if_pos hk, if_pos hk]
        rfl
      · rw [if_neg hk, if_neg hk]
        rfl

theorem nodup_readTokens (toks : List String) : Dict.Distinct (readTokens toks).1 := by
  induction toks using List.reverseRecOn with
  | nil => exact List.nodup_nil
  | append_singleton toks tok ih =>
    rw [readTokens_snoc, readToken]
    split
    · exact Dict.nodup_insert ih _ _
    · exact ih

theorem mem_readTokens {toks : List String} {k v : String} :
    (k, v) ∈ (readTokens toks).1 ↔ given toks k = some v := by
  rw [Dict.mem_iff_lookup (nodup_readTokens toks), lookup_readTokens]

/-- The flags are the tokens that are no arguments. -/
theorem mem_flags {toks : List String} {flag : String} (h : splitArg flag = none) :
    flag ∈ (readTokens toks).2 ↔ flag ∈ toks := by
  induction toks using List.reverseRecOn with
  | nil => rfl
  | append_singleton toks tok ih =>
    rw [readTokens_snoc, readToken]
    cases htok : splitArg tok with
    | none => simp [ih]
    | some arg =>
      have hne : flag ≠ tok := by
        intro heq
        rw [← heq, h] at htok
        cases htok
      simp [ih, hne]

/-! ## Numbers -/

theorem parseU64_eq_ok_iff {s : List Char} {n : UInt64} :
    parseU64 s = .ok n ↔ Decimal.decimal s = some n.toNat := by
  have hpos : 0 < 2 ^ 64 := by decide
  have hparse := @Decimal.parse_eq_ok_iff (2 ^ 64) n.toNat s hpos
  have hn := UInt64.toNat_lt n
  rw [parseU64]
  constructor
  · intro h
    split at h
    · rename_i m hm
      have hlt := ((Decimal.parse_eq_ok_iff hpos).mp hm).2
      cases h
      rw [UInt64.toNat_ofNat', Nat.mod_eq_of_lt hlt]
      exact ((Decimal.parse_eq_ok_iff hpos).mp hm).1
    · cases h
  · intro h
    rw [hparse.mpr ⟨h, hn⟩]
    exact congrArg Except.ok UInt64.ofNat_toNat

theorem readable_iff {text : List Char} :
    Readable text ↔ ∃ n : UInt64, Decimal.decimal text = some n.toNat := by
  constructor
  · intro h
    obtain ⟨n, hn, hlt⟩ := h
    refine ⟨UInt64.ofNat n, ?_⟩
    rw [hn, UInt64.toNat_ofNat', Nat.mod_eq_of_lt hlt]
  · intro h
    obtain ⟨n, hn⟩ := h
    exact ⟨n.toNat, hn, UInt64.toNat_lt n⟩

theorem parseSize_eq_ok_iff {s : String} {n : UInt64} :
    parseSize s = .ok n ↔ ∃ m : UInt64, Decimal.decimal (splitSize s.toList).1 = some m.toNat ∧
      n = m * UInt64.ofNat (splitSize s.toList).2 := by
  rw [parseSize]
  constructor
  · intro h
    split at h
    · rename_i m hm
      cases h
      exact ⟨m, parseU64_eq_ok_iff.mp hm, rfl⟩
    · cases h
  · intro h
    obtain ⟨m, hm, rfl⟩ := h
    rw [parseU64_eq_ok_iff.mpr hm]

theorem splitSize_pos (s : List Char) :
    0 < (splitSize s).2 ∧ (splitSize s).2 < 2 ^ 64 := by
  unfold splitSize
  split <;> simp

/-- A size that fits is read as it is written. -/
theorem parseSize_isSize {s : String} {n : UInt64} (h : parseSize s = .ok n)
    (fits : ∀ N, sizeValue s = some N → N < 2 ^ 64) : IsSize s n := by
  obtain ⟨m, hm, rfl⟩ := parseSize_eq_ok_iff.mp h
  have hvalue : sizeValue s = some (m.toNat * (splitSize s.toList).2) := by
    rw [sizeValue, hm]
    rfl
  have hlt := fits _ hvalue
  rw [IsSize, hvalue, UInt64.toNat_mul, UInt64.toNat_ofNat',
    Nat.mod_eq_of_lt (splitSize_pos s.toList).2, Nat.mod_eq_of_lt hlt]

theorem isSize_parseSize {s : String} {n : UInt64} (h : IsSize s n) : parseSize s = .ok n := by
  obtain ⟨m, hm, heq⟩ := Option.map_eq_some_iff.mp h
  obtain ⟨hpos, hmul⟩ := splitSize_pos s.toList
  have hn := UInt64.toNat_lt n
  have hle : m ≤ n.toNat := heq ▸ Nat.le_mul_of_pos_right m hpos
  have hmod : m % 2 ^ 64 = m := Nat.mod_eq_of_lt (by omega)
  refine parseSize_eq_ok_iff.mpr ⟨UInt64.ofNat m, ?_, ?_⟩
  · rw [hm, UInt64.toNat_ofNat', hmod]
  · apply UInt64.toNat.inj
    rw [UInt64.toNat_mul, UInt64.toNat_ofNat', UInt64.toNat_ofNat', hmod, Nat.mod_eq_of_lt hmul,
      heq, Nat.mod_eq_of_lt hn]

/-! ## What a verb takes out of its tokens -/

theorem bind_eq_ok {α β : Type} {x : Except String α} {f : α → Except String β} {b : β} :
    x >>= f = .ok b ↔ ∃ a, x = .ok a ∧ f a = .ok b := by
  cases x with
  | error e =>
    constructor
    · intro h
      cases h
    · intro h
      obtain ⟨a, ha, -⟩ := h
      cases ha
  | ok a =>
    constructor
    · intro h
      exact ⟨a, rfl, h⟩
    · intro h
      obtain ⟨a', ha, hf⟩ := h
      cases ha
      exact hf

variable {toks : List String} {verb : String}

theorem need_eq_ok_iff {k v : String} :
    need verb (readTokens toks).1 k = .ok v ↔ given toks k = some v := by
  rw [need, lookup_readTokens]
  cases given toks k with
  | none => simp
  | some v' => simp

def Parsed (v : String) (n : UInt64) : Prop := parseSize v = .ok n

theorem needSize_eq_ok_iff {k : String} {n : UInt64} :
    needSize verb (readTokens toks).1 k = .ok n ↔ Reads Parsed toks k n := by
  rw [needSize, Reads]
  exact bind_eq_ok.trans (exists_congr fun v => and_congr_left fun _ => need_eq_ok_iff)

theorem contains_fsync : (readTokens toks).2.contains "fsync" = decide ("fsync" ∈ toks) := by
  have hflag : splitArg "fsync" = none := by decide
  rw [List.contains_eq_mem]
  exact decide_eq_decide.mpr (mem_flags hflag)

/-- A verb with one argument. -/
theorem need_bind_eq_ok_iff {k : String} {f : String → Step} {step : Step} :
    (need verb (readTokens toks).1 k >>= fun v => .ok (f v)) = .ok step ↔
      ∃ v, given toks k = some v ∧ f v = step := by
  simp only [bind_eq_ok, need_eq_ok_iff, Except.ok.injEq]

/-- A verb with an offset, a length and a pattern. -/
theorem sizes_bind_eq_ok_iff {f : UInt64 → UInt64 → String → Step} {step : Step} :
    (needSize verb (readTokens toks).1 "off" >>= fun off =>
      needSize verb (readTokens toks).1 "len" >>= fun len =>
        need verb (readTokens toks).1 "pattern" >>= fun pattern => .ok (f off len pattern))
      = .ok step ↔
      ∃ off len pattern, Reads Parsed toks "off" off ∧ Reads Parsed toks "len" len ∧
        given toks "pattern" = some pattern ∧ f off len pattern = step := by
  simp only [bind_eq_ok, needSize_eq_ok_iff, need_eq_ok_iff, Except.ok.injEq]
  constructor
  · intro h
    obtain ⟨off, hoff, len, hlen, pattern, hpattern, hstep⟩ := h
    exact ⟨off, len, pattern, hoff, hlen, hpattern, hstep⟩
  · intro h
    obtain ⟨off, len, pattern, hoff, hlen, hpattern, hstep⟩ := h
    exact ⟨off, hoff, len, hlen, pattern, hpattern, hstep⟩

/-! ### `set` -/

theorem readPairs_eq_ok_iff {args : Args} {pairs : List (String × UInt64)} :
    readPairs args = .ok pairs ↔ Dict.Convert IsNumber args pairs := by
  induction args generalizing pairs with
  | nil => simp [readPairs, Dict.Convert, eq_comm]
  | cons a rest ih =>
    obtain ⟨k, v⟩ := a
    rw [readPairs]
    constructor
    · intro h
      split at h
      · cases h
      · rename_i n hn
        cases hrest : readPairs rest with
        | error e =>
          rw [hrest] at h
          cases h
        | ok tail =>
          rw [hrest] at h
          cases h
          exact .cons ⟨rfl, parseU64_eq_ok_iff.mp hn⟩ (ih.mp hrest)
    · intro h
      cases h with
      | cons hhead htail =>
        rename_i b tail
        obtain ⟨k', n⟩ := b
        obtain ⟨rfl, hn⟩ := hhead
        rw [parseU64_eq_ok_iff.mpr hn, ih.mpr htail]
        rfl

theorem isNumber_unique (v : String) (n n' : UInt64) (h : IsNumber v n) (h' : IsNumber v n') :
    n = n' := by
  rw [IsNumber, h] at h'
  exact UInt64.toNat.inj (Option.some.inj h')

theorem sortPairs_perm (pairs : List (String × UInt64)) : (sortPairs pairs).Perm pairs :=
  List.mergeSort_perm pairs _

/-- Pairs with distinct keys are sorted by their keys. -/
theorem sortPairs_sorted {pairs : List (String × UInt64)} (h : Dict.Distinct pairs) :
    (sortPairs pairs).Pairwise fun a b => a.1 < b.1 := by
  have hsorted : (sortPairs pairs).Pairwise fun a b =>
      (a.1 < b.1 || a.1 = b.1 && a.2 ≤ b.2) = true := by
    apply List.pairwise_mergeSort
    · intro a b c hab hbc
      simp only [Bool.or_eq_true, Bool.and_eq_true, decide_eq_true_eq] at hab hbc ⊢
      rcases hab with hab | ⟨hab, hle⟩
      · rcases hbc with hbc | ⟨hbc, -⟩
        · exact .inl (lt_trans hab hbc)
        · exact .inl (hbc ▸ hab)
      · rcases hbc with hbc | ⟨hbc, hle'⟩
        · exact .inl (hab ▸ hbc)
        · exact .inr ⟨hab.trans hbc, UInt64.le_trans hle hle'⟩
    · intro a b
      simp only [Bool.or_eq_true, Bool.and_eq_true, decide_eq_true_eq]
      rcases lt_trichotomy a.1 b.1 with hlt | heq | hgt
      · exact .inl (.inl hlt)
      · rcases UInt64.le_total a.2 b.2 with hle | hle
        · exact .inl (.inr ⟨heq, hle⟩)
        · exact .inr (.inr ⟨heq.symm, hle⟩)
      · exact .inr (.inl hgt)
  have hkeys : ((sortPairs pairs).map Prod.fst).Nodup :=
    ((sortPairs_perm pairs).map Prod.fst).nodup_iff.mpr h
  have hdistinct : (sortPairs pairs).Pairwise fun a b => a.1 ≠ b.1 := List.pairwise_map.mp hkeys
  refine (hsorted.and hdistinct).imp ?_
  intro a b hab
  obtain ⟨hle, hne⟩ := hab
  simp only [Bool.or_eq_true, Bool.and_eq_true, decide_eq_true_eq] at hle
  rcases hle with hlt | ⟨heq, -⟩
  · exact hlt
  · exact absurd heq hne

/-- The order of the map does not matter to the pairs. -/
theorem mem_pairs_iff {order : HashOrder} {pairs : List (String × UInt64)}
    (h : Dict.Convert IsNumber (order.order (readTokens toks).1) pairs) {k : String} {n : UInt64} :
    (k, n) ∈ pairs ↔ Reads IsNumber toks k n := by
  rw [h.mem_iff isNumber_unique]
  exact exists_congr fun v =>
    and_congr_left fun _ => ((order.perm _).mem_iff).trans mem_readTokens

theorem distinct_pairs {order : HashOrder} {pairs : List (String × UInt64)}
    (h : Dict.Convert IsNumber (order.order (readTokens toks).1) pairs) : Dict.Distinct pairs := by
  rw [Dict.Distinct, ← h.keys]
  exact ((order.perm _).map Prod.fst).nodup_iff.mpr (nodup_readTokens toks)

theorem sortPairs_eq {order : HashOrder} {pairs sorted : List (String × UInt64)}
    (h : Dict.Convert IsNumber (order.order (readTokens toks).1) pairs)
    (members : ∀ k n, (k, n) ∈ sorted ↔ Reads IsNumber toks k n)
    (hsorted : sorted.Pairwise fun a b => a.1 < b.1) : sortPairs pairs = sorted := by
  refine Dict.eq_of_sorted (sortPairs_sorted (distinct_pairs h)) hsorted ?_
  intro a
  obtain ⟨k, n⟩ := a
  rw [(sortPairs_perm pairs).mem_iff, mem_pairs_iff h, members]

theorem parseSet_eq_ok_iff {order : HashOrder} {size : String → UInt64 → Prop} {step : Step} :
    parseStep order "set" (readTokens toks).1 (readTokens toks).2 = .ok step ↔
      Carries size toks "set" step := by
  have hmem : ∀ {k v}, (k, v) ∈ order.order (readTokens toks).1 ↔ given toks k = some v :=
    ((order.perm _).mem_iff).trans mem_readTokens
  have hset : parseStep order "set" (readTokens toks).1 (readTokens toks).2
      = readPairs (order.order (readTokens toks).1) >>= fun pairs =>
        if pairs = [] then .error "set: no key=value pairs" else .ok (.set (sortPairs pairs)) := rfl
  rw [hset, bind_eq_ok]
  constructor
  · intro h
    obtain ⟨pairs, hpairs, hstep⟩ := h
    have hconvert := readPairs_eq_ok_iff.mp hpairs
    split at hstep
    · cases hstep
    · rename_i hne
      cases hstep
      refine .set rfl ?_ ?_ (sortPairs_sorted (distinct_pairs hconvert)) ?_
      · intro k v hgiven
        exact hconvert.exists_read (hmem.mpr hgiven)
      · intro k n
        rw [(sortPairs_perm pairs).mem_iff]
        exact mem_pairs_iff hconvert
      · intro hnil
        have hperm := sortPairs_perm pairs
        rw [hnil] at hperm
        exact hne hperm.nil_eq.symm
  · intro h
    cases h with
    | @set sorted _ numbers members hsorted nonempty =>
      have hexists : ∃ pairs, Dict.Convert IsNumber (order.order (readTokens toks).1) pairs :=
        Dict.exists_convert fun a ha => numbers a.1 a.2 (hmem.mp ha)
      obtain ⟨pairs, hconvert⟩ := hexists
      have heq := sortPairs_eq hconvert members hsorted
      refine ⟨pairs, readPairs_eq_ok_iff.mpr hconvert, ?_⟩
      rw [if_neg, heq]
      intro hnil
      have hperm := sortPairs_perm pairs
      rw [heq, hnil] at hperm
      exact nonempty hperm.eq_nil
    | write hverb | expect hverb | flush hverb | crash hverb | thaw hverb | sleep hverb =>
      exact absurd hverb (by decide)

/-! ### The other verbs -/

theorem parseWrite_eq_ok_iff {order : HashOrder} {step : Step}
    (isWrite : verb = "write" ∨ verb = "write-fails") :
    parseStep order verb (readTokens toks).1 (readTokens toks).2 = .ok step ↔
      Carries Parsed toks verb step := by
  have hwrite : parseStep order verb (readTokens toks).1 (readTokens toks).2 =
      needSize verb (readTokens toks).1 "off" >>= fun off =>
        needSize verb (readTokens toks).1 "len" >>= fun len =>
          need verb (readTokens toks).1 "pattern" >>= fun pattern =>
            .ok (.write off len pattern ((readTokens toks).2.contains "fsync")
              (verb = "write-fails")) := by
    rcases isWrite with rfl | rfl
    · rfl
    · rfl
  rw [hwrite, sizes_bind_eq_ok_iff, contains_fsync]
  constructor
  · intro h
    obtain ⟨off, len, pattern, hoff, hlen, hpattern, rfl⟩ := h
    exact .write isWrite hoff hlen hpattern
  · intro h
    cases h with
    | write _ hoff hlen hpattern => exact ⟨_, _, _, hoff, hlen, hpattern, rfl⟩
    | expect hverb | flush hverb | crash hverb | set hverb | thaw hverb | sleep hverb =>
      rcases isWrite with rfl | rfl
      · exact absurd hverb (by decide)
      · exact absurd hverb (by decide)

theorem parseExpect_eq_ok_iff {order : HashOrder} {step : Step} :
    parseStep order "expect" (readTokens toks).1 (readTokens toks).2 = .ok step ↔
      Carries Parsed toks "expect" step := by
  refine sizes_bind_eq_ok_iff.trans ?_
  constructor
  · intro h
    obtain ⟨off, len, pattern, hoff, hlen, hpattern, rfl⟩ := h
    exact .expect rfl hoff hlen hpattern
  · intro h
    cases h with
    | expect _ hoff hlen hpattern => exact ⟨_, _, _, hoff, hlen, hpattern, rfl⟩
    | write hverb | flush hverb | crash hverb | set hverb | thaw hverb | sleep hverb =>
      exact absurd hverb (by decide)

theorem parseFlush_eq_ok_iff {order : HashOrder} {step : Step} :
    parseStep order "flush" (readTokens toks).1 (readTokens toks).2 = .ok step ↔
      Carries Parsed toks "flush" step := by
  constructor
  · intro h
    cases h
    exact .flush rfl
  · intro h
    cases h with
    | flush => rfl
    | write hverb | expect hverb | crash hverb | set hverb | thaw hverb | sleep hverb =>
      exact absurd hverb (by decide)

theorem parseCrash_eq_ok_iff {order : HashOrder} {step : Step} :
    parseStep order "crash" (readTokens toks).1 (readTokens toks).2 = .ok step ↔
      Carries Parsed toks "crash" step := by
  refine need_bind_eq_ok_iff.trans ?_
  constructor
  · intro h
    obtain ⟨mode, hmode, rfl⟩ := h
    exact .crash rfl hmode
  · intro h
    cases h with
    | crash _ hmode => exact ⟨_, hmode, rfl⟩
    | write hverb | expect hverb | flush hverb | set hverb | thaw hverb | sleep hverb =>
      exact absurd hverb (by decide)

theorem parseThaw_eq_ok_iff {order : HashOrder} {step : Step} :
    parseStep order "thaw" (readTokens toks).1 (readTokens toks).2 = .ok step ↔
      Carries Parsed toks "thaw" step := by
  refine need_bind_eq_ok_iff.trans ?_
  constructor
  · intro h
    obtain ⟨result, hresult, rfl⟩ := h
    exact .thaw rfl hresult
  · intro h
    cases h with
    | thaw _ hresult => exact ⟨_, hresult, rfl⟩
    | write hverb | expect hverb | flush hverb | crash hverb | set hverb | sleep hverb =>
      exact absurd hverb (by decide)

theorem parseSleep_eq_ok_iff {order : HashOrder} {step : Step} :
    parseStep order "sleep" (readTokens toks).1 (readTokens toks).2 = .ok step ↔
      Carries Parsed toks "sleep" step := by
  have hsleep : parseStep order "sleep" (readTokens toks).1 (readTokens toks).2 =
      need "sleep" (readTokens toks).1 "ms" >>= fun ms =>
        parseU64 ms.toList >>= fun ms => .ok (.sleep ms) := rfl
  simp only [hsleep, bind_eq_ok, need_eq_ok_iff, parseU64_eq_ok_iff, Except.ok.injEq]
  constructor
  · intro h
    obtain ⟨v, hv, ms, hms, rfl⟩ := h
    exact .sleep rfl ⟨v, hv, hms⟩
  · intro h
    cases h with
    | sleep _ msRead =>
      obtain ⟨v, hv, hms⟩ := msRead
      exact ⟨v, hv, _, hms, rfl⟩
    | write hverb | expect hverb | flush hverb | crash hverb | set hverb | thaw hverb =>
      exact absurd hverb (by decide)

/-- What the parser makes of the tokens of a verb. -/
theorem parseStep_eq_ok_iff {order : HashOrder} {step : Step} :
    parseStep order verb (readTokens toks).1 (readTokens toks).2 = .ok step ↔
      Carries Parsed toks verb step := by
  by_cases hwrite : verb = "write" ∨ verb = "write-fails"
  · exact parseWrite_eq_ok_iff hwrite
  by_cases hexpect : verb = "expect"
  · subst hexpect
    exact parseExpect_eq_ok_iff
  by_cases hflush : verb = "flush"
  · subst hflush
    exact parseFlush_eq_ok_iff
  by_cases hcrash : verb = "crash"
  · subst hcrash
    exact parseCrash_eq_ok_iff
  by_cases hset : verb = "set"
  · subst hset
    exact parseSet_eq_ok_iff
  by_cases hthaw : verb = "thaw"
  · subst hthaw
    exact parseThaw_eq_ok_iff
  by_cases hsleep : verb = "sleep"
  · subst hsleep
    exact parseSleep_eq_ok_iff
  have hunknown : parseStep order verb (readTokens toks).1 (readTokens toks).2
      = .error s!"unknown verb '{verb}'" := by
    obtain ⟨hw, hwf⟩ := not_or.mp hwrite
    simp [parseStep]
  rw [hunknown]
  constructor
  · intro h
    cases h
  · intro h
    cases h with
    | write hverb => exact absurd hverb hwrite
    | expect hverb => exact absurd hverb hexpect
    | flush hverb => exact absurd hverb hflush
    | crash hverb => exact absurd hverb hcrash
    | set hverb => exact absurd hverb hset
    | thaw hverb => exact absurd hverb hthaw
    | sleep hverb => exact absurd hverb hsleep

theorem Carries.imp {size size' : String → UInt64 → Prop} {step : Step}
    (h : Carries size toks verb step)
    (imp : ∀ k v n, (k = "off" ∨ k = "len") → k ∈ keysOf verb → given toks k = some v →
      size v n → size' v n) : Carries size' toks verb step := by
  have hreads : ∀ {k n}, (k = "off" ∨ k = "len") → k ∈ keysOf verb → Reads size toks k n →
      Reads size' toks k n := by
    intro k n hk hkey hread
    obtain ⟨v, hv, hn⟩ := hread
    exact ⟨v, hv, imp k v n hk hkey hv hn⟩
  cases h with
  | write isVerb offRead lenRead patternGiven =>
    have hkeys : keysOf verb = ["off", "len", "pattern"] := by
      rcases isVerb with rfl | rfl
      · rfl
      · rfl
    exact .write isVerb (hreads (.inl rfl) (by simp [hkeys]) offRead)
      (hreads (.inr rfl) (by simp [hkeys]) lenRead) patternGiven
  | expect isVerb offRead lenRead patternGiven =>
    subst isVerb
    exact .expect rfl (hreads (.inl rfl) (by simp [keysOf]) offRead)
      (hreads (.inr rfl) (by simp [keysOf]) lenRead) patternGiven
  | flush isVerb => exact .flush isVerb
  | crash isVerb modeGiven => exact .crash isVerb modeGiven
  | set isVerb numbers members sorted nonempty =>
    exact .set isVerb numbers members sorted nonempty
  | thaw isVerb resultGiven => exact .thaw isVerb resultGiven
  | sleep isVerb msRead => exact .sleep isVerb msRead

/-! ### Complete lines -/

theorem readable_of_reads {k : String} {n : UInt64} (h : Reads Parsed toks k n) :
    ∃ v, given toks k = some v ∧ Readable (splitSize v.toList).1 := by
  obtain ⟨v, hv, hparsed⟩ := h
  obtain ⟨m, hm, -⟩ := parseSize_eq_ok_iff.mp hparsed
  exact ⟨v, hv, readable_iff.mpr ⟨m, hm⟩⟩

theorem reads_of_readable {k v : String} (hv : given toks k = some v)
    (h : Readable (splitSize v.toList).1) : ∃ n, Reads Parsed toks k n := by
  obtain ⟨m, hm⟩ := readable_iff.mp h
  exact ⟨_, v, hv, parseSize_eq_ok_iff.mpr ⟨m, hm, rfl⟩⟩

theorem complete_of_sizes {off len : UInt64} {pattern : String}
    (offRead : Reads Parsed toks "off" off) (lenRead : Reads Parsed toks "len" len)
    (patternGiven : given toks "pattern" = some pattern) : Complete toks "expect" :=
  ⟨readable_of_reads offRead, readable_of_reads lenRead, pattern, patternGiven⟩

theorem sizes_of_complete (h : Complete toks "expect") :
    ∃ off len pattern, Reads Parsed toks "off" off ∧ Reads Parsed toks "len" len ∧
      given toks "pattern" = some pattern := by
  obtain ⟨⟨v, hv, hread⟩, ⟨w, hw, hread'⟩, pattern, hpattern⟩ := h
  obtain ⟨off, hoff⟩ := reads_of_readable hv hread
  obtain ⟨len, hlen⟩ := reads_of_readable hw hread'
  exact ⟨off, len, pattern, hoff, hlen, hpattern⟩

theorem complete_of_carries {step : Step} (h : Carries Parsed toks verb step) :
    Complete toks verb := by
  cases h with
  | write isVerb offRead lenRead patternGiven =>
    rcases isVerb with rfl | rfl
    · exact complete_of_sizes offRead lenRead patternGiven
    · exact complete_of_sizes offRead lenRead patternGiven
  | expect isVerb offRead lenRead patternGiven =>
    subst isVerb
    exact complete_of_sizes offRead lenRead patternGiven
  | flush isVerb =>
    subst isVerb
    exact trivial
  | crash isVerb modeGiven =>
    subst isVerb
    exact ⟨_, modeGiven⟩
  | @set pairs isVerb numbers members sorted nonempty =>
    subst isVerb
    refine ⟨?_, fun k v hv => readable_iff.mpr (numbers k v hv)⟩
    obtain ⟨⟨k, n⟩, hpair⟩ := List.exists_mem_of_ne_nil pairs nonempty
    obtain ⟨v, hv, -⟩ := (members k n).mp hpair
    exact ⟨k, v, hv⟩
  | thaw isVerb resultGiven =>
    subst isVerb
    exact ⟨_, resultGiven⟩
  | sleep isVerb msRead =>
    subst isVerb
    obtain ⟨v, hv, hms⟩ := msRead
    exact ⟨v, hv, readable_iff.mpr ⟨_, hms⟩⟩

/-- The order in which the map was built, as good as any other. -/
def builtOrder : HashOrder := { order := id, perm := fun args => .refl args }

theorem exists_set (hsome : ∃ k v, given toks k = some v)
    (hread : ∀ k v, given toks k = some v → Readable v.toList) :
    ∃ step, Carries Parsed toks "set" step := by
  have hnumbers : ∀ k v, given toks k = some v → ∃ n, IsNumber v n :=
    fun k v hv => readable_iff.mp (hread k v hv)
  have hexists : ∃ pairs, Dict.Convert IsNumber (builtOrder.order (readTokens toks).1) pairs :=
    Dict.exists_convert fun a ha => hnumbers a.1 a.2 (mem_readTokens.mp ha)
  obtain ⟨pairs, hconvert⟩ := hexists
  have hmem : ∀ k n, (k, n) ∈ sortPairs pairs ↔ Reads IsNumber toks k n := by
    intro k n
    rw [(sortPairs_perm pairs).mem_iff]
    exact mem_pairs_iff hconvert
  refine ⟨_, .set rfl hnumbers hmem (sortPairs_sorted (distinct_pairs hconvert)) ?_⟩
  intro hnil
  obtain ⟨k, v, hv⟩ := hsome
  obtain ⟨n, hn⟩ := hnumbers k v hv
  have hpair := (hmem k n).mpr ⟨v, hv, hn⟩
  rw [hnil] at hpair
  exact absurd hpair List.not_mem_nil

theorem exists_carries (h : Complete toks verb) : ∃ step, Carries Parsed toks verb step := by
  unfold Complete at h
  split at h
  · obtain ⟨off, len, pattern, hoff, hlen, hpattern⟩ := sizes_of_complete h
    exact ⟨_, .write (.inl rfl) hoff hlen hpattern⟩
  · obtain ⟨off, len, pattern, hoff, hlen, hpattern⟩ := sizes_of_complete h
    exact ⟨_, .write (.inr rfl) hoff hlen hpattern⟩
  · obtain ⟨off, len, pattern, hoff, hlen, hpattern⟩ := sizes_of_complete h
    exact ⟨_, .expect rfl hoff hlen hpattern⟩
  · exact ⟨_, .flush rfl⟩
  · obtain ⟨v, hv⟩ := h
    exact ⟨_, .crash rfl hv⟩
  · exact exists_set h.1 h.2
  · obtain ⟨v, hv⟩ := h
    exact ⟨_, .thaw rfl hv⟩
  · obtain ⟨v, hv, hread⟩ := h
    obtain ⟨ms, hms⟩ := readable_iff.mp hread
    exact ⟨_, .sleep rfl ⟨v, hv, hms⟩⟩
  · exact h.elim

/-! ## Parser and format -/

theorem carries_of_isSize {step : Step} (h : Carries IsSize toks verb step) :
    Carries Parsed toks verb step :=
  h.imp fun _ _ _ _ _ _ => isSize_parseSize

theorem fits_of_isSize {step : Step} (h : Carries IsSize toks verb step) : Fits verb toks := by
  have hread : ∀ {k v n N}, Reads IsSize toks k n → given toks k = some v →
      sizeValue v = some N → N < 2 ^ 64 := by
    intro k v n N hread hv hN
    obtain ⟨w, hw, hn⟩ := hread
    obtain rfl : w = v := Option.some.inj (hw.symm.trans hv)
    rw [IsSize, hN] at hn
    rw [Option.some.inj hn]
    exact UInt64.toNat_lt n
  intro k v N hk hkey hv hN
  cases h with
  | write _ offRead lenRead | expect _ offRead lenRead =>
    rcases hk with rfl | rfl
    · exact hread offRead hv hN
    · exact hread lenRead hv hN
  | flush isVerb | crash isVerb | set isVerb | thaw isVerb | sleep isVerb =>
    subst isVerb
    rcases hk with rfl | rfl
    · exact absurd hkey (by decide)
    · exact absurd hkey (by decide)

/-- On the tokens of one verb. -/
theorem carries_iff :
    (∀ step, Carries Parsed toks verb step ↔ Listed verb toks ∧ Carries IsSize toks verb step) ↔
      (Complete toks verb → Listed verb toks ∧ Fits verb toks) := by
  constructor
  · intro h hcomplete
    obtain ⟨step, hstep⟩ := exists_carries hcomplete
    obtain ⟨hlisted, hcarries⟩ := (h step).mp hstep
    exact ⟨hlisted, fits_of_isSize hcarries⟩
  · intro h step
    constructor
    · intro hstep
      obtain ⟨hlisted, hfits⟩ := h (complete_of_carries hstep)
      refine ⟨hlisted, hstep.imp fun k v n hk hkey hv hparsed => ?_⟩
      exact parseSize_isSize hparsed fun N hN => hfits k v N hk hkey hv hN
    · intro hstep
      exact carries_of_isSize hstep.2

variable {order : HashOrder} {line : String}

theorem parseLine_of_gap (h : Text.Gap isWhitespace (uncomment line.toList)) :
    parseLine order line = .ok none := by
  simp only [parseLine, Text.trim_eq_nil_iff.mpr h, if_true]

theorem parseLine_of_parts {first rest : List Char}
    (h : Text.Parts isWhitespace (uncomment line.toList) first rest) :
    parseLine order line = (parseVerb order (String.ofList first) rest).map some := by
  obtain ⟨hne, hsplit⟩ := Text.splitFirst_of_parts h
  obtain ⟨hfirst, hrest⟩ := Prod.mk.inj hsplit
  simp only [parseLine, if_neg hne, splitVerb, hfirst, hrest]

theorem parseLine_eq_ok_some_iff {first rest : List Char}
    (h : Text.Parts isWhitespace (uncomment line.toList) first rest) {step : Step} :
    parseLine order line = .ok (some step) ↔
      parseVerb order (String.ofList first) rest = .ok step := by
  rw [parseLine_of_parts h]
  cases parseVerb order (String.ofList first) rest with
  | error e => simp [Except.map]
  | ok step' => simp [Except.map]

theorem tokens_of_parts {text first rest : List Char}
    (h : Text.Parts isWhitespace text first rest) :
    tokens text = String.ofList first :: tokens rest := by
  rw [tokens, Text.words_of_parts h]
  rfl

theorem tokens_of_gap {text : List Char} (h : Text.Gap isWhitespace text) : tokens text = [] := by
  rw [tokens, Text.words_gap h]
  rfl

/-- A command is what stands behind its verb. -/
theorem command_iff {text first rest : List Char} (h : Text.Parts isWhitespace text first rest)
    {verb cmd : String} :
    Command text verb cmd ↔ rest ≠ [] ∧ String.ofList first = verb ∧ String.ofList rest = cmd := by
  constructor
  · intro hcommand
    obtain ⟨hne, hparts⟩ := hcommand
    have hsame := (Text.splitFirst_of_parts h).2.symm.trans (Text.splitFirst_of_parts hparts).2
    obtain ⟨rfl, rfl⟩ := Prod.mk.inj hsame
    refine ⟨fun hnil => hne ?_, String.ofList_toList, String.ofList_toList⟩
    rw [← String.toList_inj, hnil]
    rfl
  · intro hrest
    obtain ⟨hne, rfl, rfl⟩ := hrest
    refine ⟨fun hempty => hne ?_, ?_⟩
    · rw [← String.toList_inj, String.toList_ofList] at hempty
      exact hempty
    · rw [String.toList_ofList, String.toList_ofList]
      exact h

theorem parseRun_eq_ok_iff {first rest : List Char} {step : Step}
    (h : Text.Parts isWhitespace (uncomment line.toList) first rest)
    (isRun : String.ofList first = "run" ∨ String.ofList first = "fail") :
    parseVerb order (String.ofList first) rest = .ok step ↔
      Documented (uncomment line.toList) step := by
  have hrun : parseVerb order (String.ofList first) rest = .ok step ↔
      rest ≠ [] ∧ step = .run (String.ofList rest) (String.ofList first = "run") := by
    rw [parseVerb, if_pos isRun]
    by_cases hrest : rest = []
    · simp [hrest]
    · simp [hrest, eq_comm]
  rw [hrun]
  constructor
  · intro hstep
    obtain ⟨hne, rfl⟩ := hstep
    rcases isRun with hverb | hverb
    · rw [decide_eq_true hverb]
      exact .run ((command_iff h).mpr ⟨hne, hverb, rfl⟩)
    · rw [decide_eq_false (by rw [hverb]; decide)]
      exact .fail ((command_iff h).mpr ⟨hne, hverb, rfl⟩)
  · intro hstep
    cases hstep with
    | listed split listed carries =>
      rw [tokens_of_parts h] at split
      obtain ⟨rfl, -⟩ := List.cons.inj split
      cases carries with
      | write hverb | expect hverb | flush hverb | crash hverb | set hverb | thaw hverb
      | sleep hverb =>
        rcases isRun with hrun | hfail
        · rw [hrun] at hverb
          exact absurd hverb (by decide)
        · rw [hfail] at hverb
          exact absurd hverb (by decide)
    | run command =>
      obtain ⟨hne, hverb, rfl⟩ := (command_iff h).mp command
      exact ⟨hne, by rw [decide_eq_true hverb]⟩
    | fail command =>
      obtain ⟨hne, hverb, rfl⟩ := (command_iff h).mp command
      exact ⟨hne, by rw [decide_eq_false (by rw [hverb]; decide)]⟩

theorem documented_iff {text first rest : List Char} {step : Step}
    (h : Text.Parts isWhitespace text first rest)
    (notRun : ¬ (String.ofList first = "run" ∨ String.ofList first = "fail")) :
    Documented text step ↔ Listed (String.ofList first) (tokens rest) ∧
      Carries IsSize (tokens rest) (String.ofList first) step := by
  constructor
  · intro hstep
    cases hstep with
    | listed split listed carries =>
      rw [tokens_of_parts h] at split
      obtain ⟨rfl, rfl⟩ := List.cons.inj split
      exact ⟨listed, carries⟩
    | run command => exact absurd (.inl ((command_iff h).mp command).2.1) notRun
    | fail command => exact absurd (.inr ((command_iff h).mp command).2.1) notRun
  · intro hstep
    exact .listed (tokens_of_parts h) hstep.1 hstep.2

/-- It is enough to agree on the steps. -/
theorem agrees_iff : Agrees order line ↔
    ∀ step, parseLine order line = .ok (some step) ↔
      Documented (uncomment line.toList) step := by
  constructor
  · intro h
    exact h.step
  · intro h
    have hblank : parseLine order line = .ok none ↔
        Text.Gap isWhitespace (uncomment line.toList) := by
      constructor
      · intro hnone
        by_contra hgap
        obtain ⟨first, rest, hparts⟩ := Text.exists_parts hgap
        rw [parseLine_of_parts hparts] at hnone
        cases hverb : parseVerb order (String.ofList first) rest with
        | error e =>
          rw [hverb] at hnone
          cases hnone
        | ok step =>
          rw [hverb] at hnone
          cases hnone
      · exact parseLine_of_gap
    refine ⟨h, hblank, ?_⟩
    rw [← hblank]
    constructor
    · intro herror
      obtain ⟨e, he⟩ := herror
      refine ⟨by rw [he]; simp, fun step hstep => ?_⟩
      rw [← h step, he] at hstep
      cases hstep
    · intro hnone
      cases hline : parseLine order line with
      | error e => exact ⟨e, rfl⟩
      | ok parsed =>
        cases parsed with
        | none => exact absurd hline hnone.1
        | some step => exact absurd ((h step).mp hline) (hnone.2 step)

theorem parse_line_iff (order : HashOrder) (line : String) :
    Agrees order line ↔ NothingDropped line := by
  rw [agrees_iff]
  by_cases hgap : Text.Gap isWhitespace (uncomment line.toList)
  · have htokens := tokens_of_gap hgap
    constructor
    · intro _ verb toks htoks
      rw [htokens] at htoks
      cases htoks
    · intro _ step
      rw [parseLine_of_gap hgap]
      constructor
      · intro h
        cases h
      · intro h
        cases h with
        | listed split =>
          rw [htokens] at split
          cases split
        | run command | fail command =>
          exact absurd (Text.trim_eq_nil_iff.mpr hgap) (Text.splitFirst_of_parts command.2).1
  · obtain ⟨first, rest, hparts⟩ := Text.exists_parts hgap
    by_cases hrun : String.ofList first = "run" ∨ String.ofList first = "fail"
    · constructor
      · intro _ verb toks htoks hcomplete
        rw [tokens_of_parts hparts] at htoks
        obtain ⟨rfl, -⟩ := List.cons.inj htoks
        rcases hrun with hverb | hverb
        · rw [hverb] at hcomplete
          exact hcomplete.elim
        · rw [hverb] at hcomplete
          exact hcomplete.elim
      · intro _ step
        rw [parseLine_eq_ok_some_iff hparts]
        exact parseRun_eq_ok_iff hparts hrun
    · have hverb : ∀ step, parseVerb order (String.ofList first) rest = .ok step ↔
          Carries Parsed (tokens rest) (String.ofList first) step := by
        intro step
        rw [parseVerb, if_neg hrun]
        exact parseStep_eq_ok_iff
      have hkept : NothingDropped line ↔ (Complete (tokens rest) (String.ofList first) →
          Listed (String.ofList first) (tokens rest) ∧
            Fits (String.ofList first) (tokens rest)) := by
        constructor
        · intro h
          exact h _ _ (tokens_of_parts hparts)
        · intro h verb toks htoks
          rw [tokens_of_parts hparts] at htoks
          obtain ⟨rfl, rfl⟩ := List.cons.inj htoks
          exact h
      rw [hkept, ← carries_iff]
      refine forall_congr' fun step => ?_
      rw [parseLine_eq_ok_some_iff hparts, hverb step, documented_iff hparts hrun]

/-! ### A misspelt flag -/

def misspelt : String := "write off=0 len=4K pattern=x fsnyc"

theorem tokens_misspelt : tokens (uncomment misspelt.toList)
    = ["write", "off=0", "len=4K", "pattern=x", "fsnyc"] := by decide

/-- The write is accepted, and is not synced. -/
theorem parse_misspelt :
    parseLine builtOrder misspelt = .ok (some (.write 0 4096 "x" false false)) ∧
      ¬ Agrees builtOrder misspelt := by
  have hparse : parseLine builtOrder misspelt = .ok (some (.write 0 4096 "x" false false)) := by
    decide
  refine ⟨hparse, fun h => ?_⟩
  have hdocumented := (h.step _).mp hparse
  cases hdocumented with
  | listed split listed carries =>
    rw [tokens_misspelt] at split
    obtain ⟨rfl, rfl⟩ := List.cons.inj split
    rcases listed.known "fsnyc" (by decide) with hflag | ⟨k, -, v, hkey⟩
    · exact absurd hflag (by decide)
    · have hequals : '=' ∈ "fsnyc".toList := by
        rw [hkey]
        simp
      exact absurd hequals (by decide)

end Scenario

end Ublkera
