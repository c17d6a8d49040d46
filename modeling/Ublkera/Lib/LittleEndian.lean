import Mathlib.Tactic

/-!
# Little-endian fields of a byte string

`leBytes width n` is the little-endian image of `n` in `width` bytes and
`leNat` reads such an image back.  `slice bytes i j` is the byte range
`bytes[i..j]`, and `patch bytes i field` overwrites the bytes that start at
`i`.  The lemmas read a slice of a concatenation and a slice of a patched
string, which is what a decoder of a fixed layout needs.

Nothing in this module is about a particular format.
-/

namespace LittleEndian

abbrev Bytes := List UInt8

/-- The `width` little-endian bytes of `n`.  What does not fit is dropped. -/
def leBytes : Nat → Nat → Bytes
  | 0, _ => []
  | width + 1, n => UInt8.ofNat n :: leBytes width (n / 256)

/-- The number that a little-endian byte string stands for. -/
def leNat : Bytes → Nat
  | [] => 0
  | b :: rest => b.toNat + 256 * leNat rest

@[simp] theorem leBytes_length (width n : Nat) :
    (leBytes width n).length = width := by
  induction width generalizing n with
  | zero => rfl
  | succ width ih => simp [leBytes, ih]

/-- Reading the image back gives the number, as soon as it fits. -/
theorem leNat_leBytes (width n : Nat) (h : n < 256 ^ width) :
    leNat (leBytes width n) = n := by
  induction width generalizing n with
  | zero =>
    have hn : n = 0 := by simpa using h
    simp [leBytes, leNat, hn]
  | succ width ih =>
    have hdiv : n / 256 < 256 ^ width := by
      rw [pow_succ] at h
      omega
    have hmod : (UInt8.ofNat n).toNat = n % 256 := UInt8.toNat_ofNat'
    rw [leBytes, leNat, ih _ hdiv, hmod]
    omega

theorem leNat_lt (bytes : Bytes) : leNat bytes < 256 ^ bytes.length := by
  induction bytes with
  | nil => simp [leNat]
  | cons b rest ih =>
    have hb := UInt8.toNat_lt b
    rw [leNat, List.length_cons, pow_succ]
    omega

/-- Every byte string is the image of the number it stands for. -/
theorem leBytes_leNat (bytes : Bytes) :
    leBytes bytes.length (leNat bytes) = bytes := by
  induction bytes with
  | nil => rfl
  | cons b rest ih =>
    have hb := UInt8.toNat_lt b
    have hdiv : (b.toNat + 256 * leNat rest) / 256 = leNat rest := by omega
    have hbyte : UInt8.ofNat (b.toNat + 256 * leNat rest) = b := by
      apply UInt8.toNat.inj
      rw [UInt8.toNat_ofNat']
      omega
    rw [List.length_cons, leNat, leBytes, hdiv, ih, hbyte]

/-! ## Fixed-width words -/

def u32Bytes (v : UInt32) : Bytes := leBytes 4 v.toNat

def u64Bytes (v : UInt64) : Bytes := leBytes 8 v.toNat

/-- `u32::from_le_bytes`. -/
def u32Of (bytes : Bytes) : UInt32 := UInt32.ofNat (leNat bytes)

/-- `u64::from_le_bytes`. -/
def u64Of (bytes : Bytes) : UInt64 := UInt64.ofNat (leNat bytes)

@[simp] theorem u32Bytes_length (v : UInt32) : (u32Bytes v).length = 4 :=
  leBytes_length 4 _

@[simp] theorem u64Bytes_length (v : UInt64) : (u64Bytes v).length = 8 :=
  leBytes_length 8 _

@[simp] theorem u32Of_u32Bytes (v : UInt32) : u32Of (u32Bytes v) = v := by
  have h : v.toNat < 256 ^ 4 := by simpa using UInt32.toNat_lt v
  rw [u32Of, u32Bytes, leNat_leBytes 4 _ h, UInt32.ofNat_toNat]

@[simp] theorem u64Of_u64Bytes (v : UInt64) : u64Of (u64Bytes v) = v := by
  have h : v.toNat < 256 ^ 8 := by simpa using UInt64.toNat_lt v
  rw [u64Of, u64Bytes, leNat_leBytes 8 _ h, UInt64.ofNat_toNat]

/-- Four bytes are the image of the word that they are read as. -/
theorem u32Bytes_u32Of {bytes : Bytes} (h : bytes.length = 4) : u32Bytes (u32Of bytes) = bytes := by
  have hlt := leNat_lt bytes
  rw [h] at hlt
  rw [u32Bytes, u32Of, UInt32.toNat_ofNat', Nat.mod_eq_of_lt (by simpa using hlt), ← h]
  exact leBytes_leNat bytes

/-- Eight bytes are the image of the word that they are read as. -/
theorem u64Bytes_u64Of {bytes : Bytes} (h : bytes.length = 8) : u64Bytes (u64Of bytes) = bytes := by
  have hlt := leNat_lt bytes
  rw [h] at hlt
  rw [u64Bytes, u64Of, UInt64.toNat_ofNat', Nat.mod_eq_of_lt (by simpa using hlt), ← h]
  exact leBytes_leNat bytes

/-! ## Slices and patches -/

/-- The byte range `bytes[i..j]`. -/
def slice (bytes : Bytes) (i j : Nat) : Bytes := (bytes.drop i).take (j - i)

/-- `bytes` with `field` written over the bytes from `i` on. -/
def patch (bytes : Bytes) (i : Nat) (field : Bytes) : Bytes :=
  bytes.take i ++ field ++ bytes.drop (i + field.length)

theorem slice_append_left (a b : Bytes) {i j : Nat} (h : j ≤ a.length) :
    slice (a ++ b) i j = slice a i j := by
  unfold slice
  rcases Nat.lt_or_ge a.length i with hi | hi
  · have hji : j - i = 0 := by omega
    rw [hji, List.take_zero, List.take_zero]
  · rw [List.drop_append_of_le_length hi, List.take_append_of_le_length]
    rw [List.length_drop]
    omega

theorem slice_append_right (a b : Bytes) {i j : Nat} (h : a.length ≤ i) :
    slice (a ++ b) i j = slice b (i - a.length) (j - a.length) := by
  have hij : j - i = j - a.length - (i - a.length) := by omega
  rw [slice, slice, List.drop_append, List.drop_eq_nil_of_le h, List.nil_append,
    hij]

theorem slice_length (bytes : Bytes) {i j : Nat} (h : j ≤ bytes.length) :
    (slice bytes i j).length = j - i := by
  rw [slice, List.length_take, List.length_drop]
  omega

/-- Two slices that meet are one slice. -/
theorem slice_append_slice (bytes : Bytes) {i j k : Nat} (hij : i ≤ j) (hjk : j ≤ k) :
    slice bytes i j ++ slice bytes j k = slice bytes i k := by
  have hdrop : bytes.drop j = (bytes.drop i).drop (j - i) := by
    rw [List.drop_drop]
    congr 1
    omega
  have hk : k - i = (j - i) + (k - j) := by omega
  rw [slice, slice, slice, hdrop, hk, List.take_add]

theorem getElem?_slice (bytes : Bytes) {i j k : Nat} (h : i + k < j) :
    (slice bytes i j)[k]? = bytes[i + k]? := by
  rw [slice, List.getElem?_take_of_lt (by omega), List.getElem?_drop]

theorem slice_slice (bytes : Bytes) {i j k l : Nat} (h : i + l ≤ j) :
    slice (slice bytes i j) k l = slice bytes (i + k) (i + l) := by
  rw [slice, slice, slice, List.drop_take, List.take_take, List.drop_drop]
  congr 1
  omega

/-- Strings that agree on a byte range have the same slice there. -/
theorem slice_congr {a b : Bytes} {i j : Nat} (ha : j ≤ a.length) (hb : j ≤ b.length)
    (h : ∀ k, i ≤ k → k < j → a[k]? = b[k]?) : slice a i j = slice b i j := by
  apply List.ext_getElem?
  intro k
  rcases Nat.lt_or_ge (i + k) j with hk | hk
  · rw [getElem?_slice a hk, getElem?_slice b hk]
    exact h (i + k) (Nat.le_add_right i k) hk
  · rw [List.getElem?_eq_none (by rw [slice_length a ha]; omega),
      List.getElem?_eq_none (by rw [slice_length b hb]; omega)]

/-- A field at the front of the string is the slice of its own width. -/
theorem slice_append_self (a b : Bytes) {j : Nat} (h : j = a.length) :
    slice (a ++ b) 0 j = a := by
  subst h
  rw [slice, List.drop_zero, Nat.sub_zero, List.take_left]

theorem slice_self (a : Bytes) {j : Nat} (h : j = a.length) : slice a 0 j = a := by
  simpa using slice_append_self a [] h

@[simp] theorem patch_length (bytes : Bytes) (i : Nat) (field : Bytes)
    (h : i + field.length ≤ bytes.length) :
    (patch bytes i field).length = bytes.length := by
  simp only [patch, List.length_append, List.length_take, List.length_drop]
  omega

/-- A patch changes the bytes of its field and no others. -/
theorem getElem?_patch {bytes : Bytes} {i : Nat} {field : Bytes}
    (h : i + field.length ≤ bytes.length) (k : Nat) :
    (patch bytes i field)[k]?
      = if i ≤ k ∧ k < i + field.length then field[k - i]? else bytes[k]? := by
  have hi : (bytes.take i).length = i := by
    rw [List.length_take]
    omega
  rw [patch]
  split
  · rename_i hk
    rw [List.getElem?_append_left (by rw [List.length_append, hi]; omega),
      List.getElem?_append_right (by omega), hi]
  · rename_i hk
    rcases Nat.lt_or_ge k i with hlt | hge
    · rw [List.append_assoc, List.getElem?_append_left (by omega), List.getElem?_take_of_lt hlt]
    · rw [List.getElem?_append_right (by rw [List.length_append, hi]; omega),
        List.length_append, hi, List.getElem?_drop]
      congr 1
      omega

/-- A patch of a field that a split of the string singles out. -/
theorem patch_append (a old new b : Bytes) (h : old.length = new.length) :
    patch (a ++ old ++ b) a.length new = a ++ new ++ b := by
  have htake : (a ++ old ++ b).take a.length = a := by
    rw [List.append_assoc, List.take_left]
  have hdrop : (a ++ old ++ b).drop (a.length + new.length) = b := by
    rw [← h, ← List.length_append, List.drop_left]
  rw [patch, htake, hdrop]

/-! ## Fields of a layout -/

/-- A layout is a list of fields one after the other.  The slice at the
offset of a field is the field. -/
theorem slice_flatten (before : List Bytes) (field : Bytes) (after : List Bytes) {i j : Nat}
    (hi : i = before.flatten.length) (hj : j = i + field.length) :
    slice (before ++ field :: after).flatten i j = field := by
  rw [List.flatten_append, List.flatten_cons, slice_append_right _ _ (Nat.le_of_eq hi.symm),
    ← hi, Nat.sub_self]
  exact slice_append_self _ _ (by omega)

/-- An array of equal-width words: the slice of its `i`-th word. -/
theorem slice_words {α : Type} (encode : α → Bytes) (width : Nat)
    (hwidth : ∀ a, (encode a).length = width) (words : List α) (i : Nat)
    (h : i < words.length) :
    slice (words.map encode).flatten (i * width) (i * width + width) = encode words[i] := by
  induction words generalizing i with
  | nil => simp at h
  | cons a words ih =>
    rw [List.map_cons, List.flatten_cons]
    cases i with
    | zero =>
      rw [Nat.zero_mul, Nat.zero_add]
      exact slice_append_self _ _ (hwidth a).symm
    | succ i =>
      have hle : (encode a).length ≤ (i + 1) * width := by
        rw [hwidth, Nat.succ_mul]
        omega
      have hsub : (i + 1) * width - width = i * width := by
        rw [Nat.succ_mul]
        omega
      have hsub' : (i + 1) * width + width - width = i * width + width := by
        rw [Nat.succ_mul]
        omega
      rw [slice_append_right _ _ hle, hwidth, hsub, hsub', List.getElem_cons_succ]
      exact ih i (by simpa using h)

/-- An array of words is what its words are read as. -/
theorem flatten_words {α : Type} (encode : α → Bytes) (decode : Bytes → α) {width : Nat}
    (hcodec : ∀ bytes, bytes.length = width → encode (decode bytes) = bytes) {n : Nat}
    {bytes : Bytes} (h : bytes.length = n * width) :
    (((List.range n).map fun i => decode (slice bytes (i * width) (i * width + width))).map
      encode).flatten = bytes := by
  have hupto : ∀ m, m ≤ n →
      (((List.range m).map fun i => decode (slice bytes (i * width) (i * width + width))).map
        encode).flatten = slice bytes 0 (m * width) := by
    intro m hm
    induction m with
    | zero => simp [slice]
    | succ m ih =>
      have hle : m * width + width ≤ bytes.length := by
        rw [h, ← Nat.succ_mul]
        exact Nat.mul_le_mul_right width hm
      have hword : (slice bytes (m * width) (m * width + width)).length = width := by
        rw [slice_length bytes hle]
        omega
      rw [List.range_succ, List.map_append, List.map_append, List.flatten_append,
        ih (Nat.le_of_succ_le hm)]
      simp only [List.map_cons, List.map_nil, List.flatten_cons, List.flatten_nil,
        List.append_nil]
      rw [hcodec _ hword, slice_append_slice _ (Nat.zero_le _) (Nat.le_add_right _ _),
        Nat.succ_mul]
  rw [hupto n (Nat.le_refl n), ← h]
  exact slice_self bytes rfl

end LittleEndian
