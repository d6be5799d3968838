import Bracelet.EdgeWriter

/-!
# Codecs

The formats behind the parameters of the writers: the byte stream of `streamvbyte`, and
frames of `zstd` with one raw block.
-/
namespace Bracelet.Edges

/-! ## `streamvbyte` -/

/-- The bytes a word takes, less one. -/
def code (w : UInt32) : Nat :=
  if w.toNat < 256 then 0 else if w.toNat < 65536 then 1 else if w.toNat < 16777216 then 2 else 3

/-- Four codes to a byte, the first lowest. -/
def keyBytes : List Nat → Bytes
  | a :: b :: c :: d :: codes => UInt8.ofNat (a + 4 * b + 16 * c + 64 * d) :: keyBytes codes
  | [a, b, c] => [UInt8.ofNat (a + 4 * b + 16 * c)]
  | [a, b] => [UInt8.ofNat (a + 4 * b)]
  | [a] => [UInt8.ofNat a]
  | [] => []

def codeAt (keys : Bytes) (i : Nat) : Nat := (keys.getD (i / 4) 0).toNat / 4 ^ (i % 4) % 4

def dataBytes (w : UInt32) : Bytes := leBytes (code w + 1) w.toNat

def readData : List Nat → Bytes → List UInt32
  | [], _ => []
  | c :: codes, data => UInt32.ofNat (ofLE (data.take (c + 1))) :: readData codes (data.drop (c + 1))

def encodeWords (words : List UInt32) : Bytes :=
  keyBytes (words.map code) ++ words.flatMap dataBytes

def codesOf (bytes : Bytes) (n : Nat) : List Nat := (List.range n).map (codeAt bytes)

def decodeWords (bytes : Bytes) (n : Nat) : List UInt32 :=
  readData (codesOf bytes n) (bytes.drop ((n + 3) / 4))

def validate (bytes : Bytes) (size n : Nat) : Bool :=
  (n + 3) / 4 + ((codesOf bytes n).map (· + 1)).sum == size

def deltas : UInt32 → List UInt32 → List UInt32
  | _, [] => []
  | previous, w :: words => (w - previous) :: deltas w words

def sums : UInt32 → List UInt32 → List UInt32
  | _, [] => []
  | previous, d :: ds => (previous + d) :: sums (previous + d) ds

def streamvbyte : StreamVByte where
  encode := encodeWords
  delta_encode words previous := encodeWords (deltas previous words)
  validate_stream := validate
  decode := decodeWords
  delta_decode bytes n previous := sums previous (decodeWords bytes n)

theorem code_le (w : UInt32) : code w ≤ 3 := by
  unfold code
  split_ifs <;> omega

/-- A word fits the bytes of its code. -/
theorem toNat_lt_code (w : UInt32) : w.toNat < 256 ^ (code w + 1) := by
  have hlt := w.toNat_lt
  unfold code
  split_ifs <;> omega

theorem length_keyBytes (codes : List Nat) : (keyBytes codes).length = (codes.length + 3) / 4 := by
  induction codes using keyBytes.induct with
  | case1 a b c d codes ih =>
    simp only [keyBytes, List.length_cons, ih]
    omega
  | case2 => simp [keyBytes]
  | case3 => simp [keyBytes]
  | case4 => simp [keyBytes]
  | case5 => simp [keyBytes]

/-- A code is read back from its byte. -/
theorem codeAt_keyBytes {codes : List Nat} (h : ∀ c ∈ codes, c ≤ 3) {i : Nat}
    (hi : i < codes.length) (rest : Bytes) : codeAt (keyBytes codes ++ rest) i = codes[i] := by
  unfold codeAt
  induction codes using keyBytes.induct generalizing i with
  | case1 a b c d codes ih =>
    simp only [List.mem_cons, forall_eq_or_imp] at h
    obtain ⟨ha, hb, hc, hd, hcodes⟩ := h
    match i with
    | 0 => simp [keyBytes]; omega
    | 1 => simp [keyBytes]; omega
    | 2 => simp [keyBytes]; omega
    | 3 => simp [keyBytes]; omega
    | i + 4 =>
      have := ih hcodes (i := i) (by simpa using hi)
      have hdiv : (i + 4) / 4 = i / 4 + 1 := by omega
      have hmod : (i + 4) % 4 = i % 4 := by omega
      simpa [keyBytes, hdiv, hmod] using this
  | case2 a b c =>
    simp only [List.mem_cons, forall_eq_or_imp] at h
    match i with
    | 0 => simp [keyBytes]; omega
    | 1 => simp [keyBytes]; omega
    | 2 => simp [keyBytes]; omega
    | i + 3 => simp at hi
  | case3 a b =>
    simp only [List.mem_cons, forall_eq_or_imp] at h
    match i with
    | 0 => simp [keyBytes]; omega
    | 1 => simp [keyBytes]; omega
    | i + 2 => simp at hi
  | case4 a =>
    simp only [List.mem_cons, forall_eq_or_imp] at h
    match i with
    | 0 => simp [keyBytes]; omega
    | i + 1 => simp at hi
  | case5 => simp at hi

theorem codesOf_encodeWords (words : List UInt32) (rest : Bytes) :
    codesOf (encodeWords words ++ rest) words.length = words.map code := by
  apply List.ext_getElem
  · simp [codesOf]
  · intro i h₁ h₂
    have hi : i < (words.map code).length := h₂
    have hle : ∀ c ∈ words.map code, c ≤ 3 := by
      intro c hc
      obtain ⟨w, -, rfl⟩ := List.mem_map.mp hc
      exact code_le w
    simp only [codesOf, List.getElem_map, List.getElem_range, encodeWords, List.append_assoc]
    rw [codeAt_keyBytes hle hi]
    simp

theorem readData_dataBytes (words : List UInt32) (rest : Bytes) :
    readData (words.map code) (words.flatMap dataBytes ++ rest) = words := by
  induction words with
  | nil => rfl
  | cons w words ih =>
    have hlen : (dataBytes w).length = code w + 1 := length_leBytes _ _
    rw [List.map_cons, List.flatMap_cons, List.append_assoc, readData, List.take_left' hlen,
      List.drop_left' hlen, ih, dataBytes, ofLE_leBytes, Nat.mod_eq_of_lt (toNat_lt_code w),
      UInt32.ofNat_toNat]

theorem decodeWords_encodeWords (words : List UInt32) (rest : Bytes) :
    decodeWords (encodeWords words ++ rest) words.length = words := by
  have hkeys : (keyBytes (words.map code)).length = (words.length + 3) / 4 := by
    rw [length_keyBytes, List.length_map]
  rw [decodeWords, codesOf_encodeWords, encodeWords, List.append_assoc, List.drop_left' hkeys,
    readData_dataBytes]

theorem length_encodeWords (words : List UInt32) : (encodeWords words).length =
    (words.length + 3) / 4 + ((words.map code).map (· + 1)).sum := by
  rw [encodeWords, List.length_append, length_keyBytes, List.length_map, List.length_flatMap,
    List.map_map]
  congr 2
  exact List.map_congr_left fun w _ => length_leBytes _ _

theorem sums_deltas (previous : UInt32) (words : List UInt32) :
    sums previous (deltas previous words) = words := by
  induction words generalizing previous with
  | nil => rfl
  | cons w words ih =>
    have hw : previous + (w - previous) = w := by rw [UInt32.add_comm, UInt32.sub_add_cancel]
    rw [deltas, sums, hw, ih]

theorem length_deltas (previous : UInt32) (words : List UInt32) :
    (deltas previous words).length = words.length := by
  induction words generalizing previous with
  | nil => rfl
  | cons w words ih => simp [deltas, ih]

theorem sum_code_le (words : List UInt32) :
    ((words.map code).map (· + 1)).sum ≤ 4 * words.length := by
  induction words with
  | nil => exact Nat.le_refl 0
  | cons w words ih =>
    have hw := code_le w
    simp only [List.map_cons, List.sum_cons, List.length_cons]
    omega

theorem validate_encodeWords (words : List UInt32) (rest : Bytes) :
    validate (encodeWords words ++ rest) (encodeWords words).length words.length = true := by
  rw [validate, codesOf_encodeWords, length_encodeWords, beq_self_eq_true]

theorem streamvbyte_lossless : streamvbyte.Lossless where
  validate := validate_encodeWords
  decode := decodeWords_encodeWords
  delta_validate words previous rest := by
    have h := validate_encodeWords (deltas previous words) rest
    rwa [length_deltas] at h
  delta_decode words previous rest := by
    have h := decodeWords_encodeWords (deltas previous words) rest
    rw [length_deltas] at h
    show sums previous (decodeWords (encodeWords _ ++ rest) words.length) = words
    rw [h, sums_deltas]
  delta_length words previous := by
    have h := sum_code_le (deltas previous words)
    rw [length_deltas] at h
    show (encodeWords (deltas previous words)).length ≤ _
    rw [length_encodeWords, length_deltas]
    omega

/-! ## `zstd` -/

def ZSTD_MAGIC : Bytes := [0x28, 0xb5, 0x2f, 0xfd]

/-- The frame of one raw block, whose header has room for a short length only; longer
data is stored as it is. -/
def rawFrame (data : Bytes) : Bytes :=
  if data.length < 256 then
    ZSTD_MAGIC ++ [0x20, UInt8.ofNat data.length] ++ leBytes 3 (8 * data.length + 1) ++ data
  else 0 :: data

def rawContentSize : Bytes → ContentSize
  | 0x28 :: 0xb5 :: 0x2f :: 0xfd :: 0x20 :: n :: _ => .size n.toNat
  | 0 :: data => .size data.length
  | _ => .error

def rawContent : Bytes → Option Bytes
  | 0x28 :: 0xb5 :: 0x2f :: 0xfd :: 0x20 :: n :: _ :: _ :: _ :: data => some (data.take n.toNat)
  | 0 :: data => some data
  | _ => none

def zstd : Zstd where
  compress := rawFrame
  getFrameContentSize := rawContentSize
  decompress capacity bytes :=
    match rawContent bytes with
    | none => .error "Unknown frame descriptor"
    | some data => if data.length ≤ capacity then .ok data else .error "Destination buffer is too small"

theorem rawContent_rawFrame (data : Bytes) : rawContent (rawFrame data) = some data := by
  unfold rawFrame
  split
  · rename_i h
    have hn : (UInt8.ofNat data.length).toNat = data.length := by
      rw [UInt8.toNat_ofNat']
      omega
    simp only [ZSTD_MAGIC, leBytes, List.cons_append, List.nil_append, rawContent, hn,
      List.take_length]
  · rfl

theorem zstd_lossless : zstd.Lossless where
  size data := by
    show rawContentSize (rawFrame data) = _
    unfold rawFrame
    split
    · rename_i h
      have hn : (UInt8.ofNat data.length).toNat = data.length := by
        rw [UInt8.toNat_ofNat']
        omega
      simp only [ZSTD_MAGIC, leBytes, List.cons_append, List.nil_append, rawContentSize, hn]
    · rfl
  decompress data capacity h := by
    simp only [zstd, rawContent_rawFrame, if_pos h]

end Bracelet.Edges
