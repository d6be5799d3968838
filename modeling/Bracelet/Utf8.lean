import Mathlib.Tactic

/-!
# Text files

The bytes of a text are the encodings of its characters one after another.  A byte below 128 in them
is a character of its own (`encode_eq_append_cons`), so a file that is put together of lines, and of
cells with separators of one byte, decodes exactly when its parts do.
-/
namespace Bracelet.Utf8

def encode (text : List Char) : List UInt8 := text.flatMap String.utf8EncodeChar

/-- The text with the given bytes, if there is one. -/
def decode (bytes : List UInt8) : Option (List Char) :=
  (String.fromUTF8? bytes.toByteArray).map String.toList

theorem toByteArray_inj {a b : List UInt8} (h : a.toByteArray = b.toByteArray) : a = b := by
  have hdata := congrArg ByteArray.data h
  simpa [List.data_toByteArray] using hdata

theorem decode_encode (text : List Char) : decode (encode text) = some text := by
  have hbytes : (encode text).toByteArray = (String.ofList text).toByteArray := rfl
  rw [decode, hbytes, String.fromUTF8?, dif_pos (String.ofList text).isValidUTF8]
  exact congrArg some String.toList_ofList

theorem decode_eq_some {bytes : List UInt8} {text : List Char} :
    decode bytes = some text ↔ encode text = bytes := by
  constructor
  · intro h
    obtain ⟨s, hs, rfl⟩ := Option.map_eq_some_iff.mp h
    unfold String.fromUTF8? at hs
    split at hs
    next hvalid =>
      obtain rfl := Option.some.inj hs
      apply toByteArray_inj
      have hbytes : (encode (String.fromUTF8 bytes.toByteArray hvalid).toList).toByteArray =
          (String.ofList (String.fromUTF8 bytes.toByteArray hvalid).toList).toByteArray := rfl
      rw [hbytes, String.ofList_toList]
      rfl
    next => cases hs
  · rintro rfl
    exact decode_encode text

theorem encode_inj {a b : List Char} (h : encode a = encode b) : a = b := by
  have ha := decode_encode a
  rw [h, decode_encode] at ha
  exact (Option.some.inj ha).symm

@[simp] theorem encode_nil : encode [] = [] := rfl

theorem encode_cons (c : Char) (text : List Char) :
    encode (c :: text) = String.utf8EncodeChar c ++ encode text := rfl

@[simp] theorem encode_append (a b : List Char) : encode (a ++ b) = encode a ++ encode b :=
  List.flatMap_append

/-! ## Bytes that are characters -/

/-- Characters of one byte. -/
def Ascii (c : Char) : Prop := c.toNat < 128

instance (c : Char) : Decidable (Ascii c) := inferInstanceAs (Decidable (c.toNat < 128))

theorem utf8EncodeChar_ascii {c : Char} (h : Ascii c) :
    String.utf8EncodeChar c = [UInt8.ofNat c.toNat] := by
  have hle : c.val.toNat ≤ 0x7f := Nat.le_of_lt_succ h
  rw [String.utf8EncodeChar]
  exact if_pos hle

/-- The bytes of other characters are from 128 on. -/
theorem le_of_mem_utf8EncodeChar {c : Char} (h : ¬ Ascii c) :
    ∀ b ∈ String.utf8EncodeChar c, 128 ≤ b.toNat := by
  have hlt : ¬ c.val.toNat ≤ 0x7f := fun hle => h (Nat.lt_succ_of_le hle)
  have hbound : ∀ n : Nat, 128 ≤ n → n < 256 → 128 ≤ (UInt8.ofNat n).toNat := by
    intro n hn hn'
    rwa [UInt8.toNat_ofNat_of_lt' hn']
  unfold String.utf8EncodeChar
  simp only [hlt, if_false]
  split_ifs <;> simp only [List.forall_mem_cons, List.not_mem_nil, false_imp_iff, implies_true,
    and_true]
  all_goals and_intros <;> exact hbound _ (by omega) (by omega)

/-- The bytes of a text of characters of one byte. -/
theorem encode_ascii {text : List Char} (h : ∀ c ∈ text, Ascii c) :
    encode text = text.map fun c => UInt8.ofNat c.toNat := by
  induction text with
  | nil => rfl
  | cons c text ih =>
    rw [List.forall_mem_cons] at h
    rw [encode_cons, utf8EncodeChar_ascii h.1, ih h.2]
    rfl

/-- **A byte below 128 is a character**: the text before it and the text after it are encoded on
their own. -/
theorem encode_eq_append_cons {text : List Char} {before after : List UInt8} {b : UInt8}
    (hb : b.toNat < 128) (h : encode text = before ++ b :: after) :
    ∃ x y, text = x ++ Char.ofNat b.toNat :: y ∧ encode x = before ∧ encode y = after := by
  induction text generalizing before with
  | nil => cases before <;> cases h
  | cons c text ih =>
    rw [encode_cons] at h
    by_cases hc : Ascii c
    · rw [utf8EncodeChar_ascii hc, List.singleton_append] at h
      cases before with
      | nil =>
        obtain ⟨rfl, rfl⟩ := List.cons_eq_cons.mp h
        refine ⟨[], text, ?_, rfl, rfl⟩
        have hlt : c.toNat < 256 := Nat.lt_trans hc (by omega)
        rw [UInt8.toNat_ofNat_of_lt' hlt, Char.ofNat_toNat]
        rfl
      | cons b' before =>
        obtain ⟨rfl, hrest⟩ := List.cons_eq_cons.mp h
        obtain ⟨x, y, rfl, rfl, rfl⟩ := ih hrest
        exact ⟨c :: x, y, rfl, by rw [encode_cons, utf8EncodeChar_ascii hc]; rfl, rfl⟩
    · -- The byte is behind those of the character.
      obtain ⟨before, rfl⟩ : ∃ before', before = String.utf8EncodeChar c ++ before' := by
        rcases List.append_eq_append_iff.mp h with ⟨as, rfl, -⟩ | ⟨bs, hbytes, hrest⟩
        · exact ⟨as, rfl⟩
        · cases bs with
          | nil => exact ⟨[], by simpa using hbytes.symm⟩
          | cons b' bs =>
            obtain ⟨rfl, -⟩ := List.cons_eq_cons.mp hrest
            have hle := le_of_mem_utf8EncodeChar hc b (by rw [hbytes]; simp)
            omega
      rw [List.append_assoc] at h
      obtain ⟨x, y, rfl, rfl, rfl⟩ := ih (List.append_cancel_left h)
      exact ⟨c :: x, y, rfl, rfl, rfl⟩

end Bracelet.Utf8
