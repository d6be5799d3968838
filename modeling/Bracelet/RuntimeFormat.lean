import Bracelet.Buffers
import Bracelet.Records

/-!
# Struct packing

The types of `runtime_format.py`, their layouts, and `pack` and `unpack`.  `pack` writes in
place through slices of one shared buffer: a `View` is a `memoryview` of it.  An exception
is `none`.

A pointer is an address; what it points to plays no part in packing.  A value of a plain
enum is the index of its variant, a value of a flags enum says of each variant whether it
is in it, and a value of a struct is the tuple of its fields.
-/
namespace Bracelet.RuntimeFormat

open Buffer

structure Layout where
  size : Nat
  align : Nat
  align_pow : ∃ k, align = 2 ^ k

theorem Layout.align_pos (l : Layout) : 0 < l.align := by
  obtain ⟨k, hk⟩ := l.align_pow
  rw [hk]
  exact Nat.two_pow_pos k

/-- A slice of the buffer. -/
structure View where
  start : Nat
  len : Nat

/-- `data[a:b]` -/
def View.slice (data : View) (a b : Nat) : View :=
  ⟨data.start + min a data.len, min b data.len - min a data.len⟩

/-! ## Integers -/

structure IntTy where
  bits : Nat
  signed : Bool
  valid : bits = 8 ∨ bits = 16 ∨ bits = 32 ∨ bits = 64
  deriving DecidableEq

namespace IntTy

def bytes (ty : IntTy) : Nat := ty.bits / 8

def layout (ty : IntTy) : Layout where
  size := ty.bytes
  align := ty.bytes
  align_pow := by
    unfold bytes
    rcases ty.valid with h | h | h | h <;> rw [h]
    exacts [⟨0, rfl⟩, ⟨1, rfl⟩, ⟨2, rfl⟩, ⟨3, rfl⟩]

def InRange (ty : IntTy) (n : Int) : Prop :=
  if ty.signed then -2 ^ (ty.bits - 1) ≤ n ∧ n < 2 ^ (ty.bits - 1) else 0 ≤ n ∧ n < 2 ^ ty.bits

instance (ty : IntTy) (n : Int) : Decidable (ty.InRange n) := by
  unfold InRange
  infer_instance

/-- `struct.Struct.pack_into` -/
def pack_into (ty : IntTy) (n : Int) (data : View) (buf : List UInt8) : Option (List UInt8) :=
  if ty.InRange n ∧ ty.bytes ≤ data.len then
    some (write buf data.start (leBytes ty.bytes (n % 2 ^ ty.bits).toNat))
  else none

/-- `struct.Struct.unpack` -/
def unpack (ty : IntTy) (data : List UInt8) : Option Int :=
  if data.length = ty.bytes then
    let raw := ofLE data
    some (if ty.signed ∧ 2 ^ (ty.bits - 1) ≤ raw then (raw : Int) - 2 ^ ty.bits else raw)
  else none

end IntTy

theorem eight_bits : 8 = 8 ∨ 8 = 16 ∨ 8 = 32 ∨ 8 = 64 := .inl rfl

theorem thirtyTwo_bits : 32 = 8 ∨ 32 = 16 ∨ 32 = 32 ∨ 32 = 64 := .inr (.inr (.inl rfl))

def U64 : IntTy := ⟨64, false, by decide⟩

def INT_TYPES : List IntTy :=
  [⟨8, true, by decide⟩, ⟨16, true, by decide⟩, ⟨32, true, by decide⟩, ⟨64, true, by decide⟩,
    ⟨8, false, by decide⟩, ⟨16, false, by decide⟩, ⟨32, false, by decide⟩, U64]

/-! ## Enums -/

structure EnumTy where
  is_flags : Bool
  /-- The number of variants. -/
  variants : Nat
  deriving DecidableEq

/-- Values. -/
inductive Val where
  | int (n : Int)
  | variant (i : Nat)
  | flags (set : List Bool)
  | pointer (address : Nat)
  | array (elems : List Val)
  | struct (fields : List Val)

namespace EnumTy

def max_value (ty : EnumTy) : Nat := if ty.is_flags then 1 <<< ty.variants else ty.variants + 1

def underlying_int (ty : EnumTy) : Option IntTy :=
  (INT_TYPES.filter fun int_ty => !int_ty.signed && ty.max_value < 1 <<< int_ty.bits).argmin
    IntTy.bits

/-- The integer of a value. -/
def raw (ty : EnumTy) : Val → Option Nat
  | .variant i => if !ty.is_flags && i < ty.variants then some (1 + i) else none
  | .flags set =>
    if ty.is_flags && set.length = ty.variants then
      some (set.zipIdx.foldl (fun raw (v, i) => if v then raw ||| 1 <<< i else raw) 0)
    else none
  | _ => none

/-- The value of an integer. -/
def ofRaw (ty : EnumTy) (raw : Nat) : Option Val :=
  if ty.is_flags then
    some (.flags ((List.range ty.variants).map fun i => raw &&& 1 <<< i != 0))
  else if raw = 0 then
    -- An index of -1 is that of the last variant.
    if ty.variants = 0 then none else some (.variant (ty.variants - 1))
  else if raw - 1 < ty.variants then some (.variant (raw - 1)) else none

end EnumTy

/-! ## Types -/

mutual

inductive Ty where
  | int (ty : IntTy)
  | enum (ty : EnumTy)
  | pointer
  | atomic (of : Ty)
  | array (of : Ty) (count : Nat) (count_pos : 0 < count)
  | struct (fields : Fields)

/-- The types of the fields of a struct, which has one at least. -/
inductive Fields where
  | one (ty : Ty)
  | cons (ty : Ty) (fields : Fields)

end

/-- One step of the loops that align offsets. -/
theorem mod_succ_ite (offset align : Nat) (h : 0 < align) : (offset + 1) % align =
    if offset % align + 1 = align then 0 else offset % align + 1 := by
  have hlt := Nat.mod_lt offset h
  rw [Nat.add_mod_eq_ite]
  by_cases hone : align = 1
  · subst hone
    simp [Nat.mod_one]
  · rw [Nat.mod_eq_of_lt (show 1 < align by omega)]
    split_ifs <;> omega

/-- `while offset % align != 0: offset += 1` -/
def alignTo (align : Nat) (pos : 0 < align) (offset : Nat) : Nat :=
  if offset % align = 0 then offset else alignTo align pos (offset + 1)
termination_by (align - offset % align) % align
decreasing_by
  have hlt := Nat.mod_lt offset pos
  rw [mod_succ_ite offset align pos, Nat.mod_eq_of_lt (show align - offset % align < align by omega)]
  split_ifs
  · rw [Nat.sub_zero, Nat.mod_self]
    omega
  · rw [Nat.mod_eq_of_lt (by omega)]
    omega

def field_offsets : List Layout → Nat → List Nat
  | [], _ => []
  | l :: ls, offset =>
    let offset := alignTo l.align l.align_pos offset
    offset :: field_offsets ls (offset + l.size)

/-- The largest alignment. -/
def maxAlign (ls : List Layout) : Nat := ls.foldr (fun l align => max l.align align) 1

theorem maxAlign_pow (ls : List Layout) : ∃ k, maxAlign ls = 2 ^ k := by
  induction ls with
  | nil => exact ⟨0, rfl⟩
  | cons l ls ih =>
    rcases max_choice l.align (maxAlign ls) with h | h
    · exact l.align_pow.imp fun k hk => h.trans hk
    · exact ih.imp fun k hk => h.trans hk

/-- The layout of a struct. -/
def structLayout (ls : List Layout) : Layout where
  size :=
    match ls, ls.getLast?, (field_offsets ls 0).getLast? with
    -- The size is a multiple of the alignment of the first field.
    | first :: _, some last, some offset => alignTo first.align first.align_pos (offset + last.size)
    | _, _, _ => 0
  align := maxAlign ls
  align_pow := maxAlign_pow ls

mutual

def Ty.layout : Ty → Option Layout
  | .int ty => some ty.layout
  | .enum ty => ty.underlying_int.map IntTy.layout
  | .pointer => some U64.layout
  | .atomic of => of.layout
  | .array of count _ => of.layout.map fun l => ⟨l.size * count, l.align, l.align_pow⟩
  | .struct fields => fields.layouts.map structLayout

def Fields.layouts : Fields → Option (List Layout)
  | .one ty => ty.layout.map ([·])
  | .cons ty fields => do return (← ty.layout) :: (← fields.layouts)

end

/-! ## Packing -/

/-- The loop of `ArrayTy.pack_into`. -/
def packElements (pack_into : Val → View → List UInt8 → Option (List UInt8)) (sz : Nat) :
    List Val → View → List UInt8 → Option (List UInt8)
  | [], _, buf => some buf
  | elem :: elems, data, buf => do
    let elem_data := data.slice 0 sz
    let data := data.slice sz data.len
    packElements pack_into sz elems data (← pack_into elem elem_data buf)

mutual

def Ty.pack_into : Ty → Val → View → List UInt8 → Option (List UInt8)
  | .int ty, .int n, data, buf => ty.pack_into n data buf
  | .enum ty, v, data, buf => do (← ty.underlying_int).pack_into (← ty.raw v) data buf
  | .pointer, .pointer address, data, buf => U64.pack_into address data buf
  | .atomic of, v, data, buf => of.pack_into v data buf
  | .array of _ _, .array elems, data, buf => do
    packElements of.pack_into (← of.layout).size elems data buf
  | .struct fields, .struct vs, data, buf => do
    fields.pack_into (field_offsets (← fields.layouts) 0) vs data buf
  | _, _, _, _ => none

def Fields.pack_into : Fields → List Nat → List Val → View → List UInt8 → Option (List UInt8)
  | .one ty, [offset], [v], data, buf => do
    ty.pack_into v (data.slice offset (offset + (← ty.layout).size)) buf
  | .cons ty fields, offset :: offsets, v :: vs, data, buf => do
    fields.pack_into offsets vs data
      (← ty.pack_into v (data.slice offset (offset + (← ty.layout).size)) buf)
  | _, _, _, _, _ => none

end

def Ty.pack (ty : Ty) (v : Val) : Option (List UInt8) := do
  let size := (← ty.layout).size
  ty.pack_into v ⟨0, size⟩ (List.replicate size 0)

mutual

def Ty.unpack : Ty → List UInt8 → Option Val
  | .int ty, data => (ty.unpack data).map .int
  | .enum ty, data => do ty.ofRaw (← (← ty.underlying_int).unpack data).toNat
  | .pointer, data => (U64.unpack data).map fun address => .pointer address.toNat
  | .atomic of, data => of.unpack data
  | .array of count _, data => do
    let size := (← of.layout).size
    if data.length = count * size then
      return .array (← (List.range count).mapM fun i => of.unpack (window data (i * size) size))
    else none
  | .struct fields, data => do
    return .struct (← fields.unpack (field_offsets (← fields.layouts) 0) data)

def Fields.unpack : Fields → List Nat → List UInt8 → Option (List Val)
  | .one ty, [offset], data => do return [← ty.unpack (window data offset (← ty.layout).size)]
  | .cons ty fields, offset :: offsets, data => do
    return (← ty.unpack (window data offset (← ty.layout).size)) :: (← fields.unpack offsets data)
  | _, _, _ => none

end

/-! ## Values of a type -/

mutual

/-- The values of a type. -/
def Ty.Typed : Ty → Val → Prop
  | .int ty, .int n => ty.InRange n
  | .enum ty, .variant i => ty.is_flags = false ∧ i < ty.variants
  | .enum ty, .flags set => ty.is_flags = true ∧ set.length = ty.variants
  | .pointer, .pointer address => address < 2 ^ 64
  | .atomic of, v => of.Typed v
  | .array of count _, .array elems => elems.length = count ∧ ∀ v ∈ elems, of.Typed v
  | .struct fields, .struct vs => fields.Typed vs
  | _, _ => False

def Fields.Typed : Fields → List Val → Prop
  | .one ty, [v] => ty.Typed v
  | .cons ty fields, v :: vs => ty.Typed v ∧ fields.Typed vs
  | _, _ => False

end

mutual

/-- Every enum in the type packs into an integer type: fewer than 64 flags, fewer than
2^64 - 1 plain variants. -/
def Ty.EnumsFit : Ty → Prop
  | .enum ty => if ty.is_flags then ty.variants < 64 else ty.variants < 2 ^ 64 - 1
  | .atomic of => of.EnumsFit
  | .array of _ _ => of.EnumsFit
  | .struct fields => fields.EnumsFit
  | _ => True

def Fields.EnumsFit : Fields → Prop
  | .one ty => ty.EnumsFit
  | .cons ty fields => ty.EnumsFit ∧ fields.EnumsFit

end

end Bracelet.RuntimeFormat
