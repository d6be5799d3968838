import Bracelet.RuntimeFormatRoundTrip

/-!
# The layouts of a C compiler

`runtime_format.py` computes the layouts that the compilers of its generated declarations arrive
at on their own.  Here are the rules of C: a field lies at the next multiple of its alignment, the
alignment of a struct is the largest of its fields, and its size is the end of the last field,
rounded up to its alignment.  `StructTy.layout` rounds to the alignment of the first field, so the
two agree, on a type and on everything it contains by value, exactly where this is enough in every
struct (`same_layout_iff`).

What a compiler makes of `_Atomic` is its own choice, and a parameter; `AtomicTy` leaves a layout
as it is.
-/
namespace Bracelet.RuntimeFormat

/-! ## Multiples of an alignment -/

/-- The next multiple of an alignment. -/
def roundUp (align offset : Nat) : Nat := (offset + align - 1) / align * align

theorem roundUp_of_dvd {align offset : Nat} (pos : 0 < align) (h : align ∣ offset) :
    roundUp align offset = offset := by
  obtain ⟨k, rfl⟩ := h
  unfold roundUp
  rw [Nat.add_sub_assoc pos, Nat.mul_add_div pos, Nat.div_eq_of_lt (Nat.sub_lt pos Nat.one_pos),
    Nat.add_zero, Nat.mul_comm]

theorem roundUp_succ {align offset : Nat} (pos : 0 < align) (h : offset % align ≠ 0) :
    roundUp align (offset + 1) = roundUp align offset := by
  have hlt := Nat.mod_lt offset pos
  have hdiv := Nat.div_add_mod offset align
  -- Both are in the multiple that follows that of the offset.
  have hquot : ∀ r, 0 < r → r ≤ align →
      (align * (offset / align) + r + align - 1) / align = offset / align + 1 := by
    intro r hr hle
    have heq : align * (offset / align) + r + align - 1 =
        align * (offset / align + 1) + (r - 1) := by
      rw [Nat.mul_succ]
      omega
    have hsmall : (r - 1) / align = 0 := Nat.div_eq_of_lt (by omega)
    rw [heq, Nat.mul_add_div pos, hsmall, Nat.add_zero]
  have hoffset := hquot (offset % align) (by omega) hlt.le
  have hsucc := hquot (offset % align + 1) (by omega) hlt
  rw [hdiv] at hoffset
  rw [← Nat.add_assoc, hdiv] at hsucc
  unfold roundUp
  rw [hoffset, hsucc]

/-- The loop that aligns an offset stops at the next multiple. -/
theorem alignTo_eq_roundUp (align : Nat) (pos : 0 < align) (offset : Nat) :
    alignTo align pos offset = roundUp align offset := by
  fun_induction alignTo with
  | case1 offset h => exact (roundUp_of_dvd pos (Nat.dvd_of_mod_eq_zero h)).symm
  | case2 offset h ih => rw [ih, roundUp_succ pos h]

theorem dvd_roundUp (align offset : Nat) : align ∣ roundUp align offset := Nat.dvd_mul_left ..

theorem le_roundUp {align : Nat} (pos : 0 < align) (offset : Nat) : offset ≤ roundUp align offset := by
  rw [← alignTo_eq_roundUp align pos]
  exact le_alignTo align pos offset

theorem roundUp_le {align offset m : Nat} (pos : 0 < align) (h : align ∣ m) (hle : offset ≤ m) :
    roundUp align offset ≤ m := by
  obtain ⟨k, rfl⟩ := h
  have hlt : offset + align - 1 < align * (k + 1) := by
    rw [Nat.mul_succ]
    omega
  have hquot : (offset + align - 1) / align ≤ k := Nat.lt_succ_iff.mp (Nat.div_lt_of_lt_mul hlt)
  calc roundUp align offset ≤ k * align := Nat.mul_le_mul_right align hquot
    _ = align * k := Nat.mul_comm ..

/-- Rounding up to a divisor of an alignment is enough if it leads to a multiple of it. -/
theorem roundUp_eq_of_dvd {small align offset : Nat} (pos : 0 < small) (pos' : 0 < align)
    (hsmall : small ∣ align) :
    align ∣ roundUp small offset ↔ roundUp small offset = roundUp align offset := by
  constructor
  · intro h
    apply Nat.le_antisymm
    · exact roundUp_le pos (hsmall.trans (dvd_roundUp ..)) (le_roundUp pos' offset)
    · exact roundUp_le pos' h (le_roundUp pos offset)
  · intro h
    rw [h]
    exact dvd_roundUp ..

/-! ## The rules of C -/

/-- Where the fields lie after an offset. -/
def cOffsets : List Layout → Nat → List Nat
  | [], _ => []
  | l :: ls, offset => roundUp l.align offset :: cOffsets ls (roundUp l.align offset + l.size)

/-- Where the last field ends. -/
def cEnd : List Layout → Nat → Nat
  | [], offset => offset
  | l :: ls, offset => cEnd ls (roundUp l.align offset + l.size)

def cStruct (ls : List Layout) : Layout where
  size := roundUp (maxAlign ls) (cEnd ls 0)
  align := maxAlign ls
  align_pow := maxAlign_pow ls

section
variable (atomic : Layout → Layout)

mutual

/-- The layout of the declaration of a type. -/
def Ty.cLayout : Ty → Option Layout
  | .int ty => some ty.layout
  | .enum ty => ty.underlying_int.map IntTy.layout
  | .pointer => some U64.layout
  | .atomic of => of.cLayout.map atomic
  | .array of count _ => of.cLayout.map fun l => ⟨l.size * count, l.align, l.align_pow⟩
  | .struct fields => fields.cLayouts.map cStruct

def Fields.cLayouts : Fields → Option (List Layout)
  | .one ty => ty.cLayout.map ([·])
  | .cons ty fields => do return (← ty.cLayout) :: (← fields.cLayouts)

end

/-- The offsets that a compiler gives the fields of a type. -/
def Ty.cFieldOffsets : Ty → Option (List Nat)
  | .struct fields => (fields.cLayouts atomic).map fun ls => cOffsets ls 0
  | _ => some []

end

/-- `StructTy.field_offsets` -/
def Ty.field_offsets : Ty → Option (List Nat)
  | .struct fields => fields.layouts.map fun ls => RuntimeFormat.field_offsets ls 0
  | _ => some []

theorem field_offsets_eq (ls : List Layout) (offset : Nat) :
    field_offsets ls offset = cOffsets ls offset := by
  induction ls generalizing offset with
  | nil => rfl
  | cons l ls ih => rw [field_offsets, cOffsets, alignTo_eq_roundUp, ih]

theorem fieldsEnd_eq (ls : List Layout) (offset : Nat) : fieldsEnd ls offset = cEnd ls offset := by
  induction ls generalizing offset with
  | nil => rfl
  | cons l ls ih => rw [fieldsEnd, cEnd, alignTo_eq_roundUp, ih]

theorem structLayout_size (first : Layout) (rest : List Layout) :
    (structLayout (first :: rest)).size = roundUp first.align (cEnd (first :: rest) 0) := by
  obtain ⟨last, o, hlast, ho, hend⟩ := getLast?_field_offsets (List.cons_ne_nil first rest) 0
  unfold structLayout
  dsimp only
  rw [hlast, ho]
  dsimp only
  rw [hend, fieldsEnd_eq, alignTo_eq_roundUp]

theorem align_dvd_maxAlign (first : Layout) (rest : List Layout) :
    first.align ∣ maxAlign (first :: rest) := by
  obtain ⟨j, hj⟩ := first.align_pow
  obtain ⟨k, hk⟩ := maxAlign_pow (first :: rest)
  have hle : first.align ≤ maxAlign (first :: rest) := le_max_left ..
  rw [hj, hk] at hle ⊢
  exact Nat.pow_dvd_pow 2 ((Nat.pow_le_pow_iff_right (by decide)).mp hle)

/-- The rounding of a struct is that of C if the alignment of the first field is enough. -/
theorem structLayout_eq_iff (first : Layout) (rest : List Layout) :
    structLayout (first :: rest) = cStruct (first :: rest) ↔
      maxAlign (first :: rest) ∣ roundUp first.align (cEnd (first :: rest) 0) := by
  have hpos : 0 < maxAlign (first :: rest) := (structLayout (first :: rest)).align_pos
  rw [roundUp_eq_of_dvd first.align_pos hpos (align_dvd_maxAlign first rest), ← structLayout_size]
  constructor
  · intro h
    rw [h]
    rfl
  · intro h
    rw [cStruct, ← h]
    rfl

/-! ## What a type contains -/

mutual

/-- A type and the types that it contains by value. -/
def Ty.contained : Ty → List Ty
  | .atomic of => .atomic of :: of.contained
  | .array of count count_pos => .array of count count_pos :: of.contained
  | .struct fields => .struct fields :: fields.contained
  | ty => [ty]

def Fields.contained : Fields → List Ty
  | .one ty => ty.contained
  | .cons ty fields => ty.contained ++ fields.contained

end

theorem Ty.self_mem_contained (ty : Ty) : ty ∈ ty.contained := by
  cases ty <;> simp [Ty.contained]

mutual

/-- What is contained in a part is contained in the whole. -/
theorem Ty.contained_trans (ty : Ty) {part : Ty} (h : part ∈ ty.contained) :
    part.contained ⊆ ty.contained := by
  match ty with
  | .int _ | .enum _ | .pointer =>
    obtain rfl := List.mem_singleton.mp h
    exact List.Subset.refl _
  | .atomic of | .array of _ _ =>
    rw [Ty.contained] at h ⊢
    rcases List.mem_cons.mp h with rfl | h
    · rw [Ty.contained]
      exact List.Subset.refl _
    · exact List.subset_cons_of_subset _ (of.contained_trans h)
  | .struct fields =>
    rw [Ty.contained] at h ⊢
    rcases List.mem_cons.mp h with rfl | h
    · rw [Ty.contained]
      exact List.Subset.refl _
    · exact List.subset_cons_of_subset _ (fields.contained_trans h)

theorem Fields.contained_trans (fields : Fields) {part : Ty} (h : part ∈ fields.contained) :
    part.contained ⊆ fields.contained := by
  match fields with
  | .one ty => exact ty.contained_trans h
  | .cons ty fields =>
    rw [Fields.contained] at h ⊢
    rcases List.mem_append.mp h with h | h
    · exact List.subset_append_of_subset_left _ (ty.contained_trans h)
    · exact List.subset_append_of_subset_right _ (fields.contained_trans h)

end

/-! ## Where the layouts agree -/

section
variable (atomic : Layout → Layout)

/-- **A type has the layout of its C declaration**, and the elements of an array of it are
aligned. -/
structure Ty.SameLayout (ty : Ty) : Prop where
  layout : ty.layout = ty.cLayout atomic
  field_offsets : ty.field_offsets = ty.cFieldOffsets atomic
  aligned : ∀ l, ty.layout = some l → ∀ i, l.align ∣ i * l.size

/-- The end of the last field of a struct, rounded up to the alignment of the first one, is a
multiple of that of the struct; and an atomic type lies as the type it is of. -/
def Ty.RoundsRight : Ty → Prop
  | .atomic of => ∀ l, of.cLayout atomic = some l → atomic l = l
  | .struct fields => ∀ first rest, fields.cLayouts atomic = some (first :: rest) →
      maxAlign (first :: rest) ∣ roundUp first.align (cEnd (first :: rest) 0)
  | _ => True

variable {atomic}

/-- The fields have the layouts of C if each of them has. -/
theorem Fields.layouts_congr (fields : Fields)
    (h : ∀ part ∈ fields.contained, part.layout = part.cLayout atomic) :
    fields.layouts = fields.cLayouts atomic := by
  match fields with
  | .one ty => rw [Fields.layouts, Fields.cLayouts, h ty ty.self_mem_contained]
  | .cons ty fields =>
    have hty := h ty (List.mem_append_left _ ty.self_mem_contained)
    have hfields := fields.layouts_congr fun part hpart => h part (List.mem_append_right _ hpart)
    rw [Fields.layouts, Fields.cLayouts, hty, hfields]

theorem Fields.exists_layouts_cons {fields : Fields} {ls : List Layout}
    (h : fields.layouts = some ls) : ∃ first rest, ls = first :: rest :=
  List.exists_cons_of_ne_nil (Fields.layouts_ne_nil h)

mutual

/-- **Where all structs round right, layouts are those of C.** -/
theorem Ty.layout_eq (ty : Ty) (h : ∀ part ∈ ty.contained, part.RoundsRight atomic) :
    ty.layout = ty.cLayout atomic := by
  match ty with
  | .int _ | .enum _ | .pointer => rfl
  | .atomic of =>
    have hof := of.layout_eq fun part hpart => h part (List.mem_cons_of_mem _ hpart)
    rw [Ty.layout, Ty.cLayout, hof]
    cases hl : of.cLayout atomic with
    | none => rfl
    | some l => rw [Option.map_some, h (.atomic of) List.mem_cons_self l hl]
  | .array of _ _ =>
    have hof := of.layout_eq fun part hpart => h part (List.mem_cons_of_mem _ hpart)
    rw [Ty.layout, Ty.cLayout, hof]
  | .struct fields =>
    have hfields := fields.layouts_eq fun part hpart => h part (List.mem_cons_of_mem _ hpart)
    rw [Ty.layout, Ty.cLayout, hfields]
    cases hls : fields.cLayouts atomic with
    | none => rfl
    | some ls =>
      obtain ⟨first, rest, rfl⟩ := Fields.exists_layouts_cons (hfields.trans hls)
      rw [Option.map_some, Option.map_some,
        (structLayout_eq_iff first rest).mpr (h (.struct fields) List.mem_cons_self first rest hls)]

theorem Fields.layouts_eq (fields : Fields)
    (h : ∀ part ∈ fields.contained, part.RoundsRight atomic) :
    fields.layouts = fields.cLayouts atomic := by
  match fields with
  | .one ty => rw [Fields.layouts, Fields.cLayouts, ty.layout_eq h]
  | .cons ty fields =>
    have hty := ty.layout_eq fun part hpart => h part (List.mem_append_left _ hpart)
    have hfields := fields.layouts_eq fun part hpart => h part (List.mem_append_right _ hpart)
    rw [Fields.layouts, Fields.cLayouts, hty, hfields]

end

/-- A size is a multiple of its alignment. -/
theorem Ty.align_dvd_size (ty : Ty) (h : ∀ part ∈ ty.contained, part.RoundsRight atomic)
    {l : Layout} (hl : ty.layout = some l) : l.align ∣ l.size := by
  match ty with
  | .int _ | .pointer =>
    obtain rfl := Option.some_inj.mp hl
    exact dvd_refl _
  | .enum _ =>
    obtain ⟨int_ty, -, rfl⟩ := Option.map_eq_some_iff.mp hl
    exact dvd_refl _
  | .atomic of => exact of.align_dvd_size (fun part hpart => h part (List.mem_cons_of_mem _ hpart)) hl
  | .array of _ _ =>
    obtain ⟨element, hof, rfl⟩ := Option.map_eq_some_iff.mp hl
    have hdvd := of.align_dvd_size (fun part hpart => h part (List.mem_cons_of_mem _ hpart)) hof
    exact Dvd.dvd.mul_right hdvd _
  | .struct fields =>
    have heq := (Ty.struct fields).layout_eq h
    rw [hl] at heq
    obtain ⟨ls, -, rfl⟩ := Option.map_eq_some_iff.mp heq.symm
    exact dvd_roundUp ..

theorem Ty.sameLayout (ty : Ty) (h : ∀ part ∈ ty.contained, part.RoundsRight atomic) :
    ty.SameLayout atomic where
  layout := ty.layout_eq h
  field_offsets := by
    cases ty with
    | struct fields =>
      have hfields := fields.layouts_eq fun part hpart => h part (List.mem_cons_of_mem _ hpart)
      rw [Ty.field_offsets, Ty.cFieldOffsets, hfields]
      simp only [field_offsets_eq]
    | _ => rfl
  aligned l hl i := Dvd.dvd.mul_left (ty.align_dvd_size h hl) i

/-- A type that has the layout of C, and so have its parts, rounds right. -/
theorem Ty.roundsRight (ty : Ty) (h : ∀ part ∈ ty.contained, part.SameLayout atomic) :
    ty.RoundsRight atomic := by
  cases ty with
  | atomic of =>
    intro l hl
    have hof := (h of (List.mem_cons_of_mem _ of.self_mem_contained)).layout
    have hatomic := (h (.atomic of) List.mem_cons_self).layout
    rw [Ty.layout, Ty.cLayout, hof, hl] at hatomic
    exact (Option.some_inj.mp hatomic).symm
  | struct fields =>
    intro first rest hls
    have hfields := fields.layouts_congr fun part hpart =>
      (h part (List.mem_cons_of_mem _ hpart)).layout
    have hstruct := (h (.struct fields) List.mem_cons_self).layout
    rw [Ty.layout, Ty.cLayout, hfields, hls] at hstruct
    exact (structLayout_eq_iff first rest).mp (Option.some_inj.mp hstruct)
  | _ => trivial

end

/-- **When struct layouts are those of C.**  A type and everything it contains by value have the
offsets, sizes and alignments of their C declarations if and only if in each of its structs the
end of the last field, rounded up to the alignment of the first, is a multiple of that of the
struct, and the compiler leaves the layouts of its atomic types as they are. -/
theorem same_layout_iff (atomic : Layout → Layout) (ty : Ty) :
    (∀ part ∈ ty.contained, part.SameLayout atomic) ↔
      ∀ part ∈ ty.contained, part.RoundsRight atomic := by
  constructor
  · intro h part hpart
    exact part.roundsRight fun part' hpart' => h part' (ty.contained_trans hpart hpart')
  · intro h part hpart
    exact part.sameLayout fun part' hpart' => h part' (ty.contained_trans hpart hpart')

/-- A byte, a word and a byte. -/
def byteWordByte : Ty :=
  .struct (.cons (.int ⟨8, false, eight_bits⟩) (.cons (.int ⟨32, false, thirtyTwo_bits⟩)
    (.one (.int ⟨8, false, eight_bits⟩))))

/-- The size is not a multiple of the alignment, so the second element of an array is not
aligned. -/
theorem byteWordByte_size : byteWordByte.layout.map (fun l => (l.size, l.align)) = some (9, 4) ∧
    (byteWordByte.cLayout id).map (fun l => (l.size, l.align)) = some (12, 4) ∧
    ¬ byteWordByte.SameLayout id := by
  have hcode : byteWordByte.layout.map (fun l => (l.size, l.align)) = some (9, 4) := by
    simp [byteWordByte, Ty.layout, Fields.layouts, structLayout, field_offsets, alignTo_eq_roundUp,
      roundUp, IntTy.layout, IntTy.bytes, maxAlign]
  have hC : (byteWordByte.cLayout id).map (fun l => (l.size, l.align)) = some (12, 4) := by
    decide
  refine ⟨hcode, hC, fun h => ?_⟩
  rw [h.layout, hC] at hcode
  exact absurd hcode (by decide)

end Bracelet.RuntimeFormat
