import Bracelet.RuntimeFormatRoundTrip

/-!
# What unpacking accepts

Bytes that unpack to a value need not be bytes that the value packs to.  Integers and pointers
leave no choice, so it depends on the codes of the enums in a type (`Ty.codes`): a plain enum
rejects codes above the number of its variants, but the code 0, which is the reserved one, comes
back as the last variant; flags drop the bits that they do not know.  A type accepts only what
packing produces where some code is rejected or none is taken for another one
(`unpack_exact_iff`).
-/
namespace Bracelet.RuntimeFormat

open Buffer

/-! ## Integers -/

theorem ofLE_lt (bytes : List UInt8) : ofLE bytes < 256 ^ bytes.length := by
  induction bytes with
  | nil => exact Nat.one_pos
  | cons b bytes ih =>
    have hb := b.toNat_lt
    rw [ofLE, List.length_cons, pow_succ]
    omega

theorem ofLE_inj {bytes bytes' : List UInt8} (hlen : bytes.length = bytes'.length)
    (h : ofLE bytes = ofLE bytes') : bytes = bytes' := by
  induction bytes generalizing bytes' with
  | nil => exact (List.length_eq_zero_iff.mp hlen.symm).symm
  | cons b bytes ih =>
    obtain ⟨b', rest, rfl⟩ := List.exists_cons_of_length_eq_add_one hlen.symm
    have hb := b.toNat_lt
    have hb' := b'.toNat_lt
    rw [ofLE, ofLE] at h
    have hfirst : b = b' := UInt8.toNat_inj.mp (by omega)
    rw [hfirst, ih (by simpa using hlen) (by omega)]

namespace IntTy
variable {ty : IntTy} {data data' : List UInt8}

theorem unpack_unsigned (hsigned : ty.signed = false) (hlen : data.length = ty.bytes) :
    ty.unpack data = some (ofLE data : Int) := by
  simp [unpack, hlen, hsigned]

/-- Bytes unpack to a number in range. -/
theorem unpack_inRange (hlen : data.length = ty.bytes) :
    ∃ n, ty.unpack data = some n ∧ ty.InRange n := by
  have hlt := ofLE_lt data
  rw [hlen, pow_bytes] at hlt
  cases hsigned : ty.signed with
  | false =>
    refine ⟨ofLE data, unpack_unsigned hsigned hlen, ?_⟩
    simp only [InRange, hsigned, Bool.false_eq_true, if_false]
    exact ⟨Int.natCast_nonneg _, by exact_mod_cast hlt⟩
  | true =>
    refine ⟨_, if_pos hlen, ?_⟩
    simp only [InRange, hsigned, if_true, true_and]
    rcases ty.valid with h | h | h | h <;> rw [h] at hlt ⊢ <;> split_ifs <;> omega

/-- Different bytes unpack to different numbers. -/
theorem unpack_inj (hlen : data.length = ty.bytes) (hlen' : data'.length = ty.bytes)
    (h : ty.unpack data = ty.unpack data') : data = data' := by
  have hlt := ofLE_lt data
  have hlt' := ofLE_lt data'
  rw [hlen, pow_bytes] at hlt
  rw [hlen', pow_bytes] at hlt'
  apply ofLE_inj (hlen.trans hlen'.symm)
  unfold unpack at h
  rw [if_pos hlen, if_pos hlen', Option.some_inj] at h
  zify at hlt hlt' ⊢
  split_ifs at h <;> omega

end IntTy

/-! ## Codes of enums -/

namespace EnumTy
variable {ty : EnumTy} {code : Nat}

/-- A code without a variant: unpacking raises. -/
def Undefined (ty : EnumTy) (code : Nat) : Prop :=
  ty.is_flags = false ∧ (ty.variants = 0 ∨ ty.variants < code)

/-- A code that is taken for another one: the reserved 0, or one with unknown flags. -/
def Aliased (ty : EnumTy) (code : Nat) : Prop :=
  if ty.is_flags then 2 ^ ty.variants ≤ code else code = 0

theorem ofRaw_undefined (h : ty.Undefined code) : ty.ofRaw code = none := by
  obtain ⟨hplain, h⟩ := h
  rcases h with hzero | hlt
  · simp [ofRaw, hplain, hzero]
  · have hne : code ≠ 0 := by omega
    have habove : ¬ code - 1 < ty.variants := by omega
    simp [ofRaw, hplain, hne, habove]

/-- **Every other code has a value**, which has the code unless it is taken for another one. -/
theorem ofRaw_defined (h : ¬ ty.Undefined code) :
    ∃ v, ty.ofRaw code = some v ∧ (Ty.enum ty).Typed v ∧ (ty.raw v = some code ↔ ¬ ty.Aliased code) := by
  cases hflags : ty.is_flags with
  | true =>
    obtain ⟨v, hv⟩ : ∃ v, v = Val.flags ((List.range ty.variants).map fun i =>
      code &&& 1 <<< i != 0) := ⟨_, rfl⟩
    have hof : ty.ofRaw code = some v := by simp [ofRaw, hflags, hv]
    have htyped : (Ty.enum ty).Typed v := by simp [hv, Ty.Typed, hflags]
    refine ⟨v, hof, htyped, ?_⟩
    obtain ⟨r, hraw, hlt, hr⟩ := raw_spec htyped
    simp only [max_value, hflags, if_true, Nat.one_shiftLeft] at hlt
    rw [hraw, Option.some_inj, Aliased, if_pos hflags, not_le]
    constructor
    · rintro rfl
      exact hlt
    · intro hcode
      -- Both have the flags of the value below the unknown ones, and no others.
      have hbits : ∀ i < ty.variants, r.testBit i = code.testBit i := by
        have heq := hr.trans hof.symm
        simp only [ofRaw, hflags, if_true, and_shiftLeft_bne, Option.some_inj, Val.flags.injEq,
          List.map_inj_left, List.mem_range] at heq
        exact heq
      apply Nat.eq_of_testBit_eq
      intro i
      by_cases hi : i < ty.variants
      · exact hbits i hi
      · have hpow := Nat.pow_le_pow_right (show 0 < 2 by decide) (not_lt.mp hi)
        rw [Nat.testBit_lt_two_pow (hlt.trans_le hpow), Nat.testBit_lt_two_pow (hcode.trans_le hpow)]
  | false =>
    have hbounds : ty.variants ≠ 0 ∧ code ≤ ty.variants := by
      simp only [Undefined, hflags, true_and] at h
      omega
    rw [Aliased, if_neg (by rw [hflags]; exact Bool.false_ne_true)]
    by_cases hzero : code = 0
    · refine ⟨.variant (ty.variants - 1), by simp [ofRaw, hflags, hzero, hbounds.1], ?_, ?_⟩
      · exact ⟨hflags, by omega⟩
      · have hlast : ty.variants - 1 < ty.variants := by omega
        simp [raw, hflags, hzero, hlast]
    · have hlt : code - 1 < ty.variants := by omega
      refine ⟨.variant (code - 1), by simp [ofRaw, hflags, hzero, hlt], ⟨hflags, hlt⟩, ?_⟩
      simp [raw, hflags, hzero, hlt]
      omega

end EnumTy

mutual

/-- The enums in a type, each with its code in the bytes. -/
def Ty.codes : Ty → List UInt8 → List (EnumTy × Nat)
  | .enum ty, data => [(ty, ofLE data)]
  | .atomic of, data => of.codes data
  | .array of count _, data =>
    (List.range count).flatMap fun i => of.codes (window data (i * of.size) of.size)
  | .struct fields, data => fields.codes fields.offsets data
  | _, _ => []

def Fields.codes : Fields → List Nat → List UInt8 → List (EnumTy × Nat)
  | .one ty, [offset], data => ty.codes (window data offset ty.size)
  | .cons ty fields, offset :: offsets, data =>
    ty.codes (window data offset ty.size) ++ fields.codes offsets data
  | _, _, _ => []

end

mutual

/-- The places of the bytes that belong to a field. -/
def Ty.fieldBytes : Ty → List Nat
  | .int ty => List.range ty.bytes
  | .enum ty => List.range (Ty.enum ty).size
  | .pointer => List.range U64.bytes
  | .atomic of => of.fieldBytes
  | .array of count _ =>
    (List.range count).flatMap fun i => of.fieldBytes.map fun byte => i * of.size + byte
  | .struct fields => fields.fieldBytes fields.offsets

def Fields.fieldBytes : Fields → List Nat → List Nat
  | .one ty, [offset] => ty.fieldBytes.map fun byte => offset + byte
  | .cons ty fields, offset :: offsets =>
    (ty.fieldBytes.map fun byte => offset + byte) ++ fields.fieldBytes offsets
  | _, _ => []

end

/-! ## Reading -/

/-- **The outcome of unpacking** bytes with some codes: it is rejected for one that is undefined,
or a value that the bytes encode unless a code is taken for another one. -/
inductive Reads {α : Type} (codes : List (EnumTy × Nat)) (Typed Encodes : α → Prop) :
    Option α → Prop
  | rejected (code : EnumTy × Nat) (hmem : code ∈ codes) (h : code.1.Undefined code.2) :
    Reads codes Typed Encodes none
  | value (v : α) (hdefined : ∀ code ∈ codes, ¬ code.1.Undefined code.2) (htyped : Typed v)
    (hencodes : Encodes v ↔ ∀ code ∈ codes, ¬ code.1.Aliased code.2) :
    Reads codes Typed Encodes (some v)

namespace Reads
variable {α β : Type} {codes codes' : List (EnumTy × Nat)} {Typed Encodes : α → Prop}
  {Typed' Encodes' : β → Prop} {r : Option α}

theorem map {f : α → β} (htyped : ∀ v, Typed v → Typed' (f v))
    (hencodes : ∀ v, Encodes' (f v) ↔ Encodes v) (h : Reads codes Typed Encodes r) :
    Reads codes Typed' Encodes' (r.map f) := by
  cases h with
  | rejected code hmem h => exact .rejected code hmem h
  | value v hdefined ht he => exact .value (f v) hdefined (htyped v ht) ((hencodes v).trans he)

/-- One value after the other. -/
theorem cons {Typed' Encodes' Typed'' Encodes'' : List α → Prop} {r' : Option (List α)}
    (htyped : ∀ v vs, Typed v → Typed' vs → Typed'' (v :: vs))
    (hencodes : ∀ v vs, Encodes'' (v :: vs) ↔ Encodes v ∧ Encodes' vs)
    (h : Reads codes Typed Encodes r) (h' : Reads codes' Typed' Encodes' r') :
    Reads (codes ++ codes') Typed'' Encodes'' (do return (← r) :: (← r')) := by
  cases h with
  | rejected code hmem h => exact .rejected code (List.mem_append_left _ hmem) h
  | value v hdefined ht he =>
    cases h' with
    | rejected code hmem h => exact .rejected code (List.mem_append_right _ hmem) h
    | value vs hdefined' ht' he' =>
      refine .value (v :: vs) ?_ (htyped v vs ht ht') ?_
      · exact List.forall_mem_append.mpr ⟨hdefined, hdefined'⟩
      · rw [hencodes, he, he', List.forall_mem_append]

/-- The loop over the elements of an array. -/
theorem mapM {ι : Type} {f : ι → Option α} {codes : ι → List (EnumTy × Nat)}
    {Encodes : ι → α → Prop} {is : List ι}
    (h : ∀ i ∈ is, Reads (codes i) Typed (Encodes i) (f i)) :
    Reads (is.flatMap codes) (fun vs => vs.length = is.length ∧ ∀ v ∈ vs, Typed v)
      (fun vs => List.Forall₂ Encodes is vs) (is.mapM f) := by
  induction is with
  | nil => exact .value [] (by simp) ⟨rfl, by simp⟩ (by simp)
  | cons i is ih =>
    obtain ⟨hi, his⟩ := List.forall_mem_cons.mp h
    rw [List.mapM_cons, List.flatMap_cons]
    refine Reads.cons ?_ ?_ hi (ih his)
    · rintro v vs hv ⟨hlength, hvs⟩
      exact ⟨by rw [List.length_cons, List.length_cons, hlength], List.forall_mem_cons.mpr ⟨hv, hvs⟩⟩
    · intro v vs
      exact List.forall₂_cons

end Reads

/-- The elements of an array one by one. -/
theorem forall₂_range {α : Type} {R : Nat → α → Prop} {count : Nat} {vs : List α} :
    List.Forall₂ R (List.range count) vs ↔
      vs.length = count ∧ ∀ i v, vs[i]? = some v → R i v := by
  rw [List.forall₂_iff_get]
  simp only [List.length_range, List.get_eq_getElem, List.getElem_range]
  constructor
  · rintro ⟨hlength, h⟩
    refine ⟨hlength.symm, fun i v hv => ?_⟩
    obtain ⟨hi, rfl⟩ := List.getElem?_eq_some_iff.mp hv
    exact h i (hlength ▸ hi) hi
  · rintro ⟨hlength, h⟩
    exact ⟨hlength.symm, fun i _ hi => h i _ (List.getElem?_eq_getElem hi)⟩

theorem EnumTy.reads (ty : EnumTy) {int_ty : IntTy} (hint : ty.underlying_int = some int_ty)
    {data : List UInt8} (hlen : data.length = int_ty.bytes) :
    Reads [(ty, ofLE data)] (Ty.enum ty).Typed ((Ty.enum ty).Encodes · data)
      ((Ty.enum ty).unpack data) := by
  have hunpack : int_ty.unpack data = some (ofLE data : Int) := by
    rcases ty.underlying_int_spec with ⟨-, int_ty', hint', hsigned, -⟩ | ⟨-, hnone⟩
    · obtain rfl : int_ty = int_ty' := Option.some_inj.mp (hint.symm.trans hint')
      exact IntTy.unpack_unsigned hsigned hlen
    · rw [hint] at hnone
      cases hnone
  have hof : (Ty.enum ty).unpack data = ty.ofRaw (ofLE data) := by
    simp [Ty.unpack, hint, hunpack]
  rw [hof]
  by_cases hdefined : ty.Undefined (ofLE data)
  · rw [ofRaw_undefined hdefined]
    exact .rejected _ List.mem_cons_self hdefined
  · obtain ⟨v, hv, htyped, hraw⟩ := ofRaw_defined hdefined
    rw [hv]
    refine .value v (by simpa using hdefined) htyped ?_
    rw [List.forall_mem_singleton, ← hraw]
    constructor
    · rintro ⟨int_ty', hint', r, hr, hdata⟩
      obtain rfl : int_ty = int_ty' := Option.some_inj.mp (hint.symm.trans hint')
      have hcode : (ofLE data : Int) = r := Option.some_inj.mp (hunpack.symm.trans hdata)
      rw [hr, Int.natCast_inj.mp hcode]
    · intro h
      exact ⟨int_ty, hint, ofLE data, h, hunpack⟩

/-- The bytes of an element. -/
theorem length_element {data : List UInt8} {size count i : Nat} (hlen : data.length = size * count)
    (hi : i ∈ List.range count) : (window data (i * size) size).length = size := by
  apply length_window
  have hle := Nat.mul_le_mul_right size (Nat.succ_le_of_lt (List.mem_range.mp hi))
  rw [Nat.succ_mul, Nat.mul_comm count, ← hlen] at hle
  exact hle

mutual

/-- **The outcome of unpacking** bytes of the size of a type. -/
theorem Ty.reads (ty : Ty) {l : Layout} (hl : ty.layout = some l) {data : List UInt8}
    (hlen : data.length = l.size) :
    Reads (ty.codes data) ty.Typed (ty.Encodes · data) (ty.unpack data) := by
  match ty with
  | .int ty =>
    obtain rfl := Option.some_inj.mp hl
    obtain ⟨n, hn, hrange⟩ := IntTy.unpack_inRange hlen
    have hunpack : (Ty.int ty).unpack data = some (.int n) := by simp [Ty.unpack, hn]
    rw [hunpack]
    exact .value _ (by simp [Ty.codes]) hrange (by simp [Ty.codes, Ty.Encodes, hn])
  | .enum ty =>
    obtain ⟨int_ty, hint, rfl⟩ := Option.map_eq_some_iff.mp hl
    exact ty.reads hint hlen
  | .pointer =>
    obtain rfl := Option.some_inj.mp hl
    have hn : U64.unpack data = some (ofLE data : Int) := IntTy.unpack_unsigned rfl hlen
    have hlt := ofLE_lt data
    have hsize : data.length = 8 := hlen
    rw [hsize] at hlt
    have hunpack : Ty.pointer.unpack data = some (.pointer (ofLE data)) := by simp [Ty.unpack, hn]
    rw [hunpack]
    exact .value _ (by simp [Ty.codes]) hlt (by simp [Ty.codes, Ty.Encodes, hn])
  | .atomic of => exact of.reads hl hlen
  | .array of count pos =>
    obtain ⟨element, hof, rfl⟩ := Option.map_eq_some_iff.mp hl
    have hlength : data.length = count * element.size := hlen.trans (Nat.mul_comm ..)
    have hunpack : (Ty.array of count pos).unpack data = ((List.range count).mapM fun i =>
        of.unpack (window data (i * element.size) element.size)).map Val.array := by
      simp only [Ty.unpack, hof, Option.bind_eq_bind, Option.bind_some, hlength, if_true]
      exact Option.map_eq_bind.symm
    rw [hunpack, Ty.codes, Ty.size_eq hof]
    refine Reads.map (f := Val.array) ?_ ?_ (Reads.mapM fun i hi =>
      of.reads hof (length_element hlen hi))
    · rintro vs ⟨hcount, hvs⟩
      exact ⟨hcount.trans List.length_range, hvs⟩
    · intro vs
      rw [Ty.Encodes, Ty.size_eq hof, forall₂_range]
  | .struct fields =>
    obtain ⟨ls, hls, rfl⟩ := Option.map_eq_some_iff.mp hl
    have hend : fieldsEnd ls 0 ≤ data.length :=
      (fieldsEnd_le_size (Fields.layouts_ne_nil hls)).trans hlen.ge
    have hunpack : (Ty.struct fields).unpack data =
        (fields.unpack (field_offsets ls 0) data).map Val.struct := by
      simp only [Ty.unpack, hls, Option.bind_eq_bind, Option.bind_some]
      exact Option.map_eq_bind.symm
    rw [hunpack, Ty.codes, Fields.offsets_eq hls]
    refine Reads.map (f := Val.struct) (fun vs h => h) ?_ (fields.reads hls hend)
    intro vs
    rw [Ty.Encodes, Fields.offsets_eq hls]

theorem Fields.reads (fields : Fields) {ls : List Layout} (hls : fields.layouts = some ls)
    {offset : Nat} {data : List UInt8} (hlen : fieldsEnd ls offset ≤ data.length) :
    Reads (fields.codes (field_offsets ls offset) data) fields.Typed
      (fields.Encodes (field_offsets ls offset) · data)
      (fields.unpack (field_offsets ls offset) data) := by
  match fields with
  | .one ty =>
    obtain ⟨l, hl, rfl⟩ := Option.map_eq_some_iff.mp hls
    rw [fieldsEnd, fieldsEnd] at hlen
    rw [field_offsets, field_offsets]
    have hunpack : (Fields.one ty).unpack [alignTo l.align l.align_pos offset] data =
        (ty.unpack (window data (alignTo l.align l.align_pos offset) l.size)).map ([·]) := by
      simp only [Fields.unpack, hl, Option.bind_eq_bind, Option.bind_some]
      exact Option.map_eq_bind.symm
    rw [hunpack, Fields.codes, Ty.size_eq hl]
    refine Reads.map (fun v h => h) ?_ (ty.reads hl (length_window hlen))
    intro v
    rw [Fields.Encodes, Ty.size_eq hl]
  | .cons ty fields =>
    simp only [Fields.layouts, Option.bind_eq_bind, Option.bind_eq_some_iff, Option.pure_def,
      Option.some_inj] at hls
    obtain ⟨l, hl, ls, hls, rfl⟩ := hls
    rw [fieldsEnd] at hlen
    have hend := (le_fieldsEnd ls _).trans hlen
    rw [field_offsets]
    have hunpack : ∀ first offsets, (Fields.cons ty fields).unpack (first :: offsets) data =
        (do return (← ty.unpack (window data first l.size)) :: (← fields.unpack offsets data)) := by
      intro first offsets
      simp only [Fields.unpack, hl, Option.bind_eq_bind, Option.bind_some]
    rw [hunpack, Fields.codes, Ty.size_eq hl]
    refine Reads.cons (fun v vs hv hvs => ⟨hv, hvs⟩) ?_ (ty.reads hl (length_window hend))
      (fields.reads hls hlen)
    intro v vs
    rw [Fields.Encodes, Ty.size_eq hl]

end

/-! ## Bytes of fields -/

/-- The bytes agree at some places. -/
def SameAt (places : List Nat) (data data' : List UInt8) : Prop :=
  ∀ i ∈ places, data[i]? = data'[i]?

theorem sameAt_range {data data' : List UInt8} {n : Nat} (hlen : data.length = n)
    (hlen' : data'.length = n) : SameAt (List.range n) data data' ↔ data = data' := by
  constructor
  · intro h
    apply List.ext_getElem?
    intro i
    by_cases hi : i < n
    · exact h i (List.mem_range.mpr hi)
    · rw [List.getElem?_eq_none (by omega), List.getElem?_eq_none (by omega)]
  · rintro rfl i _
    rfl

/-- The bytes of a part agree at its places if they do so in the whole. -/
theorem sameAt_window {data data' : List UInt8} {places : List Nat} {offset size : Nat}
    (hlt : ∀ byte ∈ places, byte < size) :
    SameAt places (window data offset size) (window data' offset size) ↔
      SameAt (places.map fun byte => offset + byte) data data' := by
  unfold SameAt
  rw [List.forall_mem_map]
  refine forall₂_congr fun byte hbyte => ?_
  rw [getElem?_window, getElem?_window, if_pos (hlt byte hbyte), if_pos (hlt byte hbyte)]

theorem sameAt_append {data data' : List UInt8} {places places' : List Nat} :
    SameAt (places ++ places') data data' ↔
      SameAt places data data' ∧ SameAt places' data data' :=
  List.forall_mem_append

theorem IntTy.unpack_iff_sameAt {ty : IntTy} {data data' : List UInt8} {n : Int}
    (hlen : data.length = ty.bytes) (hlen' : data'.length = ty.bytes)
    (h : ty.unpack data' = some n) :
    ty.unpack data = some n ↔ SameAt (List.range ty.bytes) data data' := by
  rw [sameAt_range hlen hlen', ← h]
  constructor
  · intro heq
    exact unpack_inj hlen hlen' heq
  · rintro rfl
    rfl

mutual

/-- Places of fields lie inside of the type. -/
theorem Ty.fieldBytes_lt (ty : Ty) {l : Layout} (hl : ty.layout = some l) :
    ∀ byte ∈ ty.fieldBytes, byte < l.size := by
  match ty with
  | .int _ | .pointer =>
    obtain rfl := Option.some_inj.mp hl
    exact fun byte hbyte => List.mem_range.mp hbyte
  | .enum _ =>
    intro byte hbyte
    rw [Ty.fieldBytes, Ty.size_eq hl] at hbyte
    exact List.mem_range.mp hbyte
  | .atomic of => exact of.fieldBytes_lt hl
  | .array of count _ =>
    obtain ⟨element, hof, rfl⟩ := Option.map_eq_some_iff.mp hl
    intro byte hbyte
    rw [Ty.fieldBytes, Ty.size_eq hof] at hbyte
    obtain ⟨i, hi, hbyte⟩ := List.mem_flatMap.mp hbyte
    obtain ⟨byte, hmem, rfl⟩ := List.mem_map.mp hbyte
    have hlt := of.fieldBytes_lt hof byte hmem
    have hle := Nat.mul_le_mul_right element.size (Nat.succ_le_of_lt (List.mem_range.mp hi))
    rw [Nat.succ_mul] at hle
    calc i * element.size + byte < i * element.size + element.size := by omega
      _ ≤ count * element.size := hle
      _ = element.size * count := Nat.mul_comm ..
  | .struct fields =>
    obtain ⟨ls, hls, rfl⟩ := Option.map_eq_some_iff.mp hl
    intro byte hbyte
    rw [Ty.fieldBytes, Fields.offsets_eq hls] at hbyte
    exact (fields.fieldBytes_lt hls 0 byte hbyte).trans_le
      (fieldsEnd_le_size (Fields.layouts_ne_nil hls))

theorem Fields.fieldBytes_lt (fields : Fields) {ls : List Layout} (hls : fields.layouts = some ls)
    (offset : Nat) : ∀ byte ∈ fields.fieldBytes (field_offsets ls offset),
      byte < fieldsEnd ls offset := by
  match fields with
  | .one ty =>
    obtain ⟨l, hl, rfl⟩ := Option.map_eq_some_iff.mp hls
    intro byte hbyte
    rw [field_offsets, field_offsets, Fields.fieldBytes] at hbyte
    obtain ⟨byte, hmem, rfl⟩ := List.mem_map.mp hbyte
    have hlt := ty.fieldBytes_lt hl byte hmem
    rw [fieldsEnd, fieldsEnd]
    omega
  | .cons ty fields =>
    simp only [Fields.layouts, Option.bind_eq_bind, Option.bind_eq_some_iff, Option.pure_def,
      Option.some_inj] at hls
    obtain ⟨l, hl, ls, hls, rfl⟩ := hls
    intro byte hbyte
    rw [field_offsets, Fields.fieldBytes] at hbyte
    rw [fieldsEnd]
    rcases List.mem_append.mp hbyte with hbyte | hbyte
    · obtain ⟨byte, hmem, rfl⟩ := List.mem_map.mp hbyte
      have hlt := ty.fieldBytes_lt hl byte hmem
      have hend := le_fieldsEnd ls (alignTo l.align l.align_pos offset + l.size)
      omega
    · exact fields.fieldBytes_lt hls _ byte hbyte

end

mutual

/-- **Bytes encode a value if they agree at its fields with bytes that do.** -/
theorem Ty.encodes_iff_sameAt (ty : Ty) {l : Layout} (hl : ty.layout = some l)
    {data data' : List UInt8} (hlen : data.length = l.size) (hlen' : data'.length = l.size)
    {v : Val} (h : ty.Encodes v data') :
    ty.Encodes v data ↔ SameAt ty.fieldBytes data data' := by
  match ty, v, h with
  | .int ty, .int n, h =>
    obtain rfl := Option.some_inj.mp hl
    exact IntTy.unpack_iff_sameAt hlen hlen' h
  | .enum ty, v, ⟨int_ty, hint, r, hr, h⟩ =>
    rw [Ty.fieldBytes, Ty.size_eq hl]
    obtain ⟨int_ty', hint', rfl⟩ := Option.map_eq_some_iff.mp hl
    obtain rfl : int_ty = int_ty' := Option.some_inj.mp (hint.symm.trans hint')
    refine Iff.trans ?_ (IntTy.unpack_iff_sameAt hlen hlen' h)
    constructor
    · rintro ⟨int_ty', hint', r', hr', hdata⟩
      obtain rfl : int_ty = int_ty' := Option.some_inj.mp (hint.symm.trans hint')
      obtain rfl : r = r' := Option.some_inj.mp (hr.symm.trans hr')
      exact hdata
    · intro hdata
      exact ⟨int_ty, hint, r, hr, hdata⟩
  | .pointer, .pointer address, h =>
    obtain rfl := Option.some_inj.mp hl
    exact IntTy.unpack_iff_sameAt hlen hlen' h
  | .atomic of, v, h => exact of.encodes_iff_sameAt hl hlen hlen' h
  | .array of count _, .array elems, ⟨hcount, h⟩ =>
    obtain ⟨element, hof, rfl⟩ := Option.map_eq_some_iff.mp hl
    have helement : ∀ i v, elems[i]? = some v →
        (of.Encodes v (window data (i * element.size) element.size) ↔
          SameAt (of.fieldBytes.map fun byte => i * element.size + byte) data data') := by
      intro i v hv
      have hi : i ∈ List.range count :=
        List.mem_range.mpr (hcount ▸ (List.getElem?_eq_some_iff.mp hv).1)
      have h := h i v hv
      rw [Ty.size_eq hof] at h
      rw [← sameAt_window (of.fieldBytes_lt hof)]
      exact of.encodes_iff_sameAt hof (length_element hlen hi) (length_element hlen' hi) h
    rw [Ty.Encodes, Ty.fieldBytes, Ty.size_eq hof]
    constructor
    · rintro ⟨-, hencodes⟩ place hplace
      obtain ⟨i, hi, hplace⟩ := List.mem_flatMap.mp hplace
      have hi : i < elems.length := hcount ▸ List.mem_range.mp hi
      have hv := List.getElem?_eq_getElem hi
      exact (helement i _ hv).mp (hencodes i _ hv) place hplace
    · intro hsame
      refine ⟨hcount, fun i v hv => (helement i v hv).mpr fun place hplace => ?_⟩
      have hi : i < count := hcount ▸ (List.getElem?_eq_some_iff.mp hv).1
      exact hsame place (List.mem_flatMap.mpr ⟨i, List.mem_range.mpr hi, hplace⟩)
  | .struct fields, .struct vs, h =>
    obtain ⟨ls, hls, rfl⟩ := Option.map_eq_some_iff.mp hl
    have hend : fieldsEnd ls 0 ≤ (structLayout ls).size :=
      fieldsEnd_le_size (Fields.layouts_ne_nil hls)
    rw [Ty.Encodes, Fields.offsets_eq hls] at h ⊢
    rw [Ty.fieldBytes, Fields.offsets_eq hls]
    exact fields.encodes_iff_sameAt hls (hend.trans hlen.ge) (hend.trans hlen'.ge) h

theorem Fields.encodes_iff_sameAt (fields : Fields) {ls : List Layout}
    (hls : fields.layouts = some ls) {offset : Nat} {data data' : List UInt8}
    (hlen : fieldsEnd ls offset ≤ data.length) (hlen' : fieldsEnd ls offset ≤ data'.length)
    {vs : List Val} (h : fields.Encodes (field_offsets ls offset) vs data') :
    fields.Encodes (field_offsets ls offset) vs data ↔
      SameAt (fields.fieldBytes (field_offsets ls offset)) data data' := by
  match fields, vs with
  | .one ty, [v] =>
    obtain ⟨l, hl, rfl⟩ := Option.map_eq_some_iff.mp hls
    rw [fieldsEnd, fieldsEnd] at hlen hlen'
    rw [field_offsets, field_offsets] at h ⊢
    rw [Fields.Encodes, Ty.size_eq hl] at h ⊢
    rw [Fields.fieldBytes, ← sameAt_window (ty.fieldBytes_lt hl)]
    exact ty.encodes_iff_sameAt hl (length_window hlen) (length_window hlen') h
  | .cons ty fields, v :: vs =>
    simp only [Fields.layouts, Option.bind_eq_bind, Option.bind_eq_some_iff, Option.pure_def,
      Option.some_inj] at hls
    obtain ⟨l, hl, ls, hls, rfl⟩ := hls
    rw [fieldsEnd] at hlen hlen'
    have hend := le_fieldsEnd ls (alignTo l.align l.align_pos offset + l.size)
    rw [field_offsets] at h ⊢
    rw [Fields.Encodes, Ty.size_eq hl] at h ⊢
    rw [Fields.fieldBytes, sameAt_append, ← sameAt_window (ty.fieldBytes_lt hl)]
    refine and_congr ?_ (fields.encodes_iff_sameAt hls hlen hlen' h.2)
    exact ty.encodes_iff_sameAt hl (length_window (hend.trans hlen))
      (length_window (hend.trans hlen')) h.1
  | .one _, [] | .one _, _ :: _ :: _ =>
    obtain ⟨l, -, rfl⟩ := Option.map_eq_some_iff.mp hls
    rw [field_offsets, field_offsets] at h
    exact False.elim h
  | .cons _ _, [] =>
    cases ls with
    | nil => exact absurd rfl (Fields.layouts_ne_nil hls)
    | cons l ls => exact False.elim h

end

/-! ## Unpacking what was packed -/

/-- **Unpacking accepts only what packing produces**: if the bytes unpack to a value, it packs to
bytes that are the same at every field, and bytes that are those of no value are rejected. -/
structure Ty.Exact (ty : Ty) (data : List UInt8) : Prop where
  packs_back : ∀ v, ty.unpack data = some v →
    ∃ bytes, ty.pack v = some bytes ∧ SameAt ty.fieldBytes data bytes
  rejects : (∀ v bytes, ty.pack v = some bytes → ¬ SameAt ty.fieldBytes data bytes) →
    ty.unpack data = none

/-- **When unpacking is exact.**  For bytes of the size of a type, if and only if the code of some
enum in them is rejected, or none is taken for another one. -/
theorem unpack_exact_iff (ty : Ty) {l : Layout} (hl : ty.layout = some l) (data : List UInt8)
    (hlen : data.length = l.size) :
    ty.Exact data ↔ (∃ code ∈ ty.codes data, code.1.Undefined code.2) ∨
      ∀ code ∈ ty.codes data, ¬ code.1.Aliased code.2 := by
  have hreads := ty.reads hl hlen
  generalize hunpack : ty.unpack data = r at hreads
  cases hreads with
  | rejected code hmem h =>
    refine iff_of_true ⟨?_, fun _ => hunpack⟩ (Or.inl ⟨code, hmem, h⟩)
    intro v hv
    rw [hunpack] at hv
    cases hv
  | value v hdefined htyped hencodes =>
    obtain ⟨bytes, hpack, hlength, hbytes⟩ := ty.pack_encodes hl htyped
    have hsame := ty.encodes_iff_sameAt hl hlen hlength hbytes
    have hnot : ¬ ∃ code ∈ ty.codes data, code.1.Undefined code.2 :=
      fun ⟨code, hmem, h⟩ => hdefined code hmem h
    rw [or_iff_right hnot, ← hencodes, hsame]
    constructor
    · intro h
      obtain ⟨bytes', hpack', hsame'⟩ := h.packs_back v hunpack
      obtain rfl : bytes = bytes' := Option.some_inj.mp (hpack.symm.trans hpack')
      exact hsame'
    · intro h
      refine ⟨fun v' hv' => ?_, fun hall => absurd h (hall v bytes hpack)⟩
      obtain rfl : v = v' := Option.some_inj.mp (hunpack.symm.trans hv')
      exact ⟨bytes, hpack, h⟩

/-- The layout of a byte. -/
def byteLayout : Layout := IntTy.layout ⟨8, false, eight_bits⟩

theorem alignTo_one (offset : Nat) : alignTo 1 Nat.one_pos offset = offset := by
  rw [alignTo, if_pos (Nat.mod_one offset)]

theorem enumFields_offsets : field_offsets [byteLayout, byteLayout] 0 = [0, 1] := by
  have hfirst : alignTo byteLayout.align byteLayout.align_pos 0 = 0 := alignTo_one 0
  have hsecond : alignTo byteLayout.align byteLayout.align_pos 1 = 1 := alignTo_one 1
  rw [field_offsets, field_offsets, field_offsets, hfirst]
  exact congrArg (fun offset => [0, offset]) hsecond

/-- A byte for one of three variants, and a byte for two flags. -/
def enumFields : Fields := .cons (.enum ⟨false, 3⟩) (.one (.enum ⟨true, 2⟩))

theorem enumFields_layouts : enumFields.layouts = some [byteLayout, byteLayout] := by
  have hplain : (EnumTy.mk false 3).underlying_int = some ⟨8, false, by decide⟩ := by decide
  have hflags : (EnumTy.mk true 2).underlying_int = some ⟨8, false, by decide⟩ := by decide
  simp [enumFields, Ty.layout, Fields.layouts, hplain, hflags, byteLayout]

theorem enumStruct_layout : ∃ l, (Ty.struct enumFields).layout = some l ∧ l.size = 2 := by
  refine ⟨structLayout [byteLayout, byteLayout], ?_, ?_⟩
  · rw [Ty.layout, enumFields_layouts]
    rfl
  · simp only [structLayout, enumFields_offsets]
    exact alignTo_one 2

theorem enumFields_exact : (Ty.struct enumFields).Exact [2, 3] := by
  obtain ⟨l, hl, hsize⟩ := enumStruct_layout
  have hcodes : (Ty.struct enumFields).codes [2, 3] = [(⟨false, 3⟩, 2), (⟨true, 2⟩, 3)] := by
    rw [Ty.codes, Fields.offsets_eq enumFields_layouts, enumFields_offsets]
    rfl
  refine (unpack_exact_iff _ hl [2, 3] hsize.symm).mpr (Or.inr ?_)
  rw [hcodes]
  simp [EnumTy.Aliased]

/-- The reserved code 0 is taken for the last variant, and the unknown flag is dropped. -/
theorem undefined_code_accepted :
    (Ty.struct enumFields).unpack [0, 7] = some (.struct [.variant 2, .flags [true, true]]) ∧
    (Ty.struct enumFields).pack (.struct [.variant 2, .flags [true, true]]) = some [3, 3] ∧
    ¬ SameAt (Ty.struct enumFields).fieldBytes [0, 7] [3, 3] := by
  obtain ⟨l, hl, hsize⟩ := enumStruct_layout
  refine ⟨?_, ?_, fun h => ?_⟩
  · rw [Ty.unpack, enumFields_layouts, Option.bind_eq_bind, Option.bind_some, enumFields_offsets]
    rfl
  · simp only [Ty.pack, hl, hsize, Option.bind_eq_bind, Option.bind_some, Ty.pack_into,
      enumFields_layouts, enumFields_offsets]
    rfl
  · rw [Ty.fieldBytes, Fields.offsets_eq enumFields_layouts, enumFields_offsets] at h
    exact absurd (h 0 List.mem_cons_self) (by decide)

end Bracelet.RuntimeFormat
