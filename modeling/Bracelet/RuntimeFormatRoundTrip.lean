import Bracelet.RuntimeFormat

/-!
# Struct packing round trip

`Packs` is what packing a value into a slice does: the bytes of the slice are replaced by
bytes that encode the value, and no other byte changes.  It holds of integers and
enums, of the loop over the elements of an array, and field by field of structs, whose
offsets follow one another (`field_offsets`).  Bytes that encode a value unpack to it.
-/
namespace Bracelet.RuntimeFormat

open Buffer

/-- **What packing a value does** to every buffer with room for it. -/
def Packs (size : Nat) (pack_into : View → List UInt8 → Option (List UInt8))
    (unpack : List UInt8 → Prop) : Prop :=
  ∀ buf start, start + size ≤ buf.length → ∃ bytes, bytes.length = size ∧
    pack_into ⟨start, size⟩ buf = some (write buf start bytes) ∧ unpack bytes

/-- The size of a type that has a layout. -/
def Ty.size (ty : Ty) : Nat := (ty.layout.map Layout.size).getD 0

theorem Ty.size_eq {ty : Ty} {l : Layout} (h : ty.layout = some l) : ty.size = l.size := by
  rw [Ty.size, h]
  rfl

/-- The offsets of the fields of a struct that has a layout. -/
def Fields.offsets (fields : Fields) : List Nat := field_offsets (fields.layouts.getD []) 0

theorem Fields.offsets_eq {fields : Fields} {ls : List Layout} (h : fields.layouts = some ls) :
    fields.offsets = field_offsets ls 0 := by
  rw [Fields.offsets, h]
  rfl

mutual

/-- **The bytes encode the value**, in each of its integers.  Those between fields do not
matter. -/
def Ty.Encodes : Ty → Val → List UInt8 → Prop
  | .int ty, .int n, data => ty.unpack data = some n
  | .enum ty, v, data => ∃ int_ty, ty.underlying_int = some int_ty ∧
      ∃ raw, ty.raw v = some raw ∧ int_ty.unpack data = some (raw : Int)
  | .pointer, .pointer address, data => U64.unpack data = some (address : Int)
  | .atomic of, v, data => of.Encodes v data
  | .array of count _, .array elems, data => elems.length = count ∧
      ∀ i v, elems[i]? = some v → of.Encodes v (window data (i * of.size) of.size)
  | .struct fields, .struct vs, data => fields.Encodes fields.offsets vs data
  | _, _, _ => False

def Fields.Encodes : Fields → List Nat → List Val → List UInt8 → Prop
  | .one ty, [offset], [v], data => ty.Encodes v (window data offset ty.size)
  | .cons ty fields, offset :: offsets, v :: vs, data =>
    ty.Encodes v (window data offset ty.size) ∧ fields.Encodes offsets vs data
  | _, _, _, _ => False

end

/-! ## Integers and enums -/

theorem IntTy.pow_bytes (ty : IntTy) : 256 ^ ty.bytes = 2 ^ ty.bits := by
  unfold bytes
  rcases ty.valid with h | h | h | h <;> rw [h] <;> rfl

theorem IntTy.packs {ty : IntTy} {n : Int} (hn : ty.InRange n) :
    Packs ty.bytes (ty.pack_into n) (ty.unpack · = some n) := by
  intro buf start _
  refine ⟨leBytes ty.bytes (n % 2 ^ ty.bits).toNat, length_leBytes .., if_pos ⟨hn, le_rfl⟩, ?_⟩
  have hbits := ty.pow_bytes
  have hraw : ofLE (leBytes ty.bytes (n % 2 ^ ty.bits).toNat) = (n % 2 ^ ty.bits).toNat := by
    have hpos : (0 : Int) < 2 ^ ty.bits := by positivity
    have hlt := Int.emod_lt_of_pos n hpos
    have hnonneg := Int.emod_nonneg n hpos.ne'
    rw [ofLE_leBytes, hbits, Nat.mod_eq_of_lt]
    zify
    rwa [Int.toNat_of_nonneg hnonneg]
  dsimp only [IntTy.unpack]
  rw [if_pos (length_leBytes ..), hraw]
  unfold IntTy.InRange at hn
  congr 1
  cases hs : ty.signed with
  | false =>
    rw [hs] at hn
    rcases ty.valid with h | h | h | h <;> simp [h] at hn ⊢ <;> omega
  | true =>
    rw [hs] at hn
    rcases ty.valid with h | h | h | h <;> simp [h] at hn ⊢ <;> split_ifs <;> omega

theorem EnumTy.underlying_int_spec (ty : EnumTy) :
    (ty.max_value < 2 ^ 64 ∧ ∃ int_ty, ty.underlying_int = some int_ty ∧ int_ty.signed = false ∧
      ty.max_value < 2 ^ int_ty.bits) ∨
    2 ^ 64 ≤ ty.max_value ∧ ty.underlying_int = none := by
  have hbits : ∀ int_ty ∈ INT_TYPES, int_ty.signed = false → int_ty.bits ≤ 64 := by decide
  unfold underlying_int
  cases hmin : (INT_TYPES.filter fun int_ty =>
      !int_ty.signed && ty.max_value < 1 <<< int_ty.bits).argmin IntTy.bits with
  | none =>
    rw [List.argmin_eq_none, List.filter_eq_nil_iff] at hmin
    have hU64 := hmin U64 (by decide)
    have hge : ¬ ty.max_value < 2 ^ 64 := fun hlt => hU64 (decide_eq_true hlt)
    exact .inr ⟨not_lt.mp hge, rfl⟩
  | some int_ty =>
    obtain ⟨hmem, hfit⟩ := List.mem_filter.mp (List.argmin_mem hmin)
    simp only [Bool.and_eq_true, Bool.not_eq_true', decide_eq_true_eq, Nat.one_shiftLeft] at hfit
    exact .inl ⟨hfit.2.trans_le (Nat.pow_le_pow_right (by decide) (hbits _ hmem hfit.1)),
      int_ty, rfl, hfit⟩

/-- The bits of the integer of a flags value. -/
theorem testBit_foldl_flags (set : List Bool) (start acc i : Nat) :
    ((set.zipIdx start).foldl (fun raw (v, i) => if v then raw ||| 1 <<< i else raw) acc).testBit i =
      (acc.testBit i || decide (start ≤ i) && (set[i - start]?).getD false) := by
  induction set generalizing start acc with
  | nil => simp
  | cons v set ih =>
    rw [List.zipIdx_cons, List.foldl_cons, ih]
    have hbit : (if v = true then acc ||| 1 <<< start else acc).testBit i =
        (acc.testBit i || decide (start = i) && v) := by
      cases v <;> simp [Nat.one_shiftLeft, Nat.testBit_two_pow]
    dsimp only
    rw [hbit]
    rcases lt_trichotomy i start with hlt | rfl | hgt
    · have hne : start ≠ i := by omega
      have hsucc : ¬ start + 1 ≤ i := by omega
      have hle : ¬ start ≤ i := by omega
      simp [hne, hsucc, hle]
    · simp
    · obtain ⟨k, rfl⟩ : ∃ k, i = start + 1 + k := ⟨i - (start + 1), by omega⟩
      have hne : start ≠ start + 1 + k := by omega
      have hsub : start + 1 + k - start = k + 1 := by omega
      have hle : start ≤ start + 1 + k := by omega
      simp [hne, hsub, hle]

theorem and_shiftLeft_bne (r i : Nat) : (r &&& 1 <<< i != 0) = r.testBit i := by
  have hbit : ∀ j, (r &&& 2 ^ i).testBit j = (r.testBit j && decide (i = j)) := fun j => by
    rw [Nat.testBit_and, Nat.testBit_two_pow]
  rw [Nat.one_shiftLeft]
  cases hr : r.testBit i with
  | false =>
    refine bne_eq_false_iff_eq.mpr (Nat.eq_of_testBit_eq fun j => ?_)
    rw [hbit, Nat.zero_testBit]
    by_cases hj : i = j
    · rw [← hj, hr, Bool.false_and]
    · rw [decide_eq_false hj, Bool.and_false]
  | true =>
    refine bne_iff_ne.mpr fun hzero => ?_
    have hi := hbit i
    rw [hzero, hr] at hi
    simp at hi

/-- The integer of a value of an enum. -/
theorem EnumTy.raw_spec {ty : EnumTy} {v : Val} (hv : (Ty.enum ty).Typed v) :
    ∃ r, ty.raw v = some r ∧ r < ty.max_value ∧ ty.ofRaw r = some v := by
  cases v with
  | variant i =>
    obtain ⟨hplain, hi⟩ := hv
    refine ⟨1 + i, by simp [raw, hplain, hi], ?_, ?_⟩
    · simp only [max_value, hplain, Bool.false_eq_true, if_false]
      omega
    · simp [ofRaw, hplain, hi]
  | flags set =>
    obtain ⟨hflags, hlength⟩ := hv
    obtain ⟨r, hr⟩ : ∃ r, r = set.zipIdx.foldl
      (fun raw (v, i) => if v then raw ||| 1 <<< i else raw) 0 := ⟨_, rfl⟩
    have hbit : ∀ i, r.testBit i = (set[i]?).getD false := fun i => by
      rw [hr, testBit_foldl_flags]
      simp
    refine ⟨r, by rw [raw, hflags, hlength, hr]; simp, ?_, ?_⟩
    · simp only [max_value, hflags, if_true, Nat.one_shiftLeft]
      refine Nat.lt_pow_two_of_testBit _ fun i hi => ?_
      rw [hbit, List.getElem?_eq_none (by omega), Option.getD_none]
    · simp only [ofRaw, hflags, if_true, and_shiftLeft_bne, hbit, ← hlength]
      refine congrArg (fun set => some (Val.flags set)) (List.ext_getElem (by simp) fun i _ hi => ?_)
      simp [hi]
  | _ => exact hv.elim

/-- An enum that fits. -/
theorem EnumTy.layout_of_fits {ty : EnumTy} (hfits : (Ty.enum ty).EnumsFit) :
    ∃ int_ty, ty.underlying_int = some int_ty ∧ int_ty.signed = false ∧
      ty.max_value < 2 ^ int_ty.bits := by
  have hlt : ty.max_value < 2 ^ 64 := by
    unfold Ty.EnumsFit at hfits
    unfold max_value
    split_ifs at hfits ⊢
    · rw [Nat.one_shiftLeft]
      exact Nat.pow_lt_pow_right (by decide) hfits
    · omega
  rcases ty.underlying_int_spec with ⟨-, h⟩ | ⟨hge, -⟩
  · exact h
  · exact absurd hlt (not_lt.mpr hge)

/-- **Enums pack.** -/
theorem EnumTy.packs {ty : EnumTy} {int_ty : IntTy} (hint : ty.underlying_int = some int_ty)
    {v : Val} (hv : (Ty.enum ty).Typed v) :
    Packs int_ty.bytes ((Ty.enum ty).pack_into v) ((Ty.enum ty).Encodes v) := by
  obtain ⟨r, hraw, hlt, -⟩ := raw_spec hv
  rcases ty.underlying_int_spec with ⟨-, int_ty', hint', hsigned, hmax⟩ | ⟨-, hnone⟩
  · obtain rfl : int_ty = int_ty' := Option.some_inj.mp (hint.symm.trans hint')
    have hrange : int_ty.InRange r := by
      unfold IntTy.InRange
      rw [hsigned]
      simp only [Bool.false_eq_true, if_false]
      exact ⟨Int.natCast_nonneg r, by exact_mod_cast hlt.trans hmax⟩
    intro buf start hbuf
    obtain ⟨bytes, hlength, hpack, hunpack⟩ := IntTy.packs hrange buf start hbuf
    refine ⟨bytes, hlength, ?_, int_ty, hint, r, hraw, hunpack⟩
    simp [Ty.pack_into, hint, hraw, hpack]
  · rw [hint] at hnone
    cases hnone

/-! ## Arrays -/

theorem mapM_range {α : Type} {vs : List α} {f : Nat → Option α}
    (hf : ∀ i v, vs[i]? = some v → f i = some v) : (List.range vs.length).mapM f = some vs := by
  induction vs generalizing f with
  | nil => rfl
  | cons v vs ih =>
    have htail : (List.range vs.length).mapM (f ∘ Nat.succ) = some vs :=
      ih fun i w hw => hf (i + 1) w hw
    rw [List.length_cons, List.range_succ_eq_map, List.mapM_cons, hf 0 v rfl, List.mapM_map]
    simp only [Option.bind_eq_bind, Option.bind_some]
    rw [htail]
    rfl

/-- **The elements of an array** are packed one after the other. -/
theorem packElements_spec {pack_into : Val → View → List UInt8 → Option (List UInt8)}
    {Encodes : Val → List UInt8 → Prop} {sz : Nat} {vs : List Val}
    (hpacks : ∀ v ∈ vs, Packs sz (pack_into v) (Encodes v)) :
    Packs (vs.length * sz) (packElements pack_into sz vs) fun bytes =>
      ∀ i v, vs[i]? = some v → Encodes v (window bytes (i * sz) sz) := by
  induction vs with
  | nil =>
    intro buf start hbuf
    refine ⟨[], by simp, ?_, by simp⟩
    rw [packElements, write_nil (by simpa using hbuf)]
  | cons v vs ih =>
    obtain ⟨hv, hvs⟩ := List.forall_mem_cons.mp hpacks
    intro buf start hbuf
    rw [List.length_cons, Nat.add_mul, Nat.one_mul] at hbuf ⊢
    obtain ⟨bytes, hlength, hpack, hunpack⟩ := hv buf start (by omega)
    have hwritten : (write buf start bytes).length = buf.length := length_write (by omega)
    obtain ⟨rest, hrest, hpacks, hunpacks⟩ := ih hvs (write buf start bytes) (start + sz) (by omega)
    have hfirst : (View.mk start (vs.length * sz + sz)).slice 0 sz = ⟨start, sz⟩ := by
      simp [View.slice]
    have hothers : (View.mk start (vs.length * sz + sz)).slice sz (vs.length * sz + sz) =
        ⟨start + sz, vs.length * sz⟩ := by
      simp [View.slice]
    refine ⟨bytes ++ rest, by simp [hlength, hrest]; omega, ?_, fun i w hw => ?_⟩
    · rw [packElements]
      dsimp only
      rw [hfirst, hothers, hpack, Option.bind_eq_bind, Option.bind_some, hpacks]
      rw [← hlength, write_append (by omega)]
    · cases i with
      | zero =>
        obtain rfl := Option.some_inj.mp hw
        rw [Nat.zero_mul]
        unfold window
        rw [List.drop_zero, List.take_left' hlength]
        exact hunpack
      | succ i =>
        have hskip : window (bytes ++ rest) ((i + 1) * sz) sz = window rest (i * sz) sz := by
          unfold window
          rw [Nat.add_mul, Nat.one_mul, Nat.add_comm, ← List.drop_drop, List.drop_left' hlength]
        rw [hskip]
        exact hunpacks i w hw

/-! ## Structs -/

theorem le_alignTo (align : Nat) (pos : 0 < align) (offset : Nat) :
    offset ≤ alignTo align pos offset := by
  fun_induction alignTo with
  | case1 => exact le_rfl
  | case2 offset _ ih => omega

/-- Where the last of some fields ends. -/
def fieldsEnd : List Layout → Nat → Nat
  | [], offset => offset
  | l :: ls, offset => fieldsEnd ls (alignTo l.align l.align_pos offset + l.size)

theorem le_fieldsEnd (ls : List Layout) (offset : Nat) : offset ≤ fieldsEnd ls offset := by
  induction ls generalizing offset with
  | nil => exact le_rfl
  | cons l ls ih =>
    have hle := le_alignTo l.align l.align_pos offset
    have hend := ih (alignTo l.align l.align_pos offset + l.size)
    rw [fieldsEnd]
    omega

theorem getLast?_field_offsets {ls : List Layout} (hne : ls ≠ []) (offset : Nat) :
    ∃ last o, ls.getLast? = some last ∧ (field_offsets ls offset).getLast? = some o ∧
      o + last.size = fieldsEnd ls offset := by
  induction ls generalizing offset with
  | nil => exact absurd rfl hne
  | cons l ls ih =>
    rw [field_offsets, fieldsEnd]
    cases ls with
    | nil => exact ⟨l, _, rfl, rfl, rfl⟩
    | cons l' ls =>
      obtain ⟨last, o, hlast, ho, hend⟩ :=
        ih (List.cons_ne_nil _ _) (alignTo l.align l.align_pos offset + l.size)
      refine ⟨last, o, ?_, ?_, hend⟩
      · rw [List.getLast?_cons_cons, hlast]
      · rw [field_offsets] at ho ⊢
        rw [List.getLast?_cons_cons, ho]

/-- A struct has room for its fields. -/
theorem fieldsEnd_le_size {ls : List Layout} (hne : ls ≠ []) :
    fieldsEnd ls 0 ≤ (structLayout ls).size := by
  obtain ⟨last, o, hlast, ho, hend⟩ := getLast?_field_offsets hne 0
  obtain ⟨first, rest, rfl⟩ := List.exists_cons_of_ne_nil hne
  unfold structLayout
  dsimp only
  rw [hlast, ho, ← hend]
  exact le_alignTo ..

theorem Fields.layouts_ne_nil {fields : Fields} {ls : List Layout} (h : fields.layouts = some ls) :
    ls ≠ [] := by
  cases fields with
  | one ty =>
    obtain ⟨l, -, rfl⟩ := Option.map_eq_some_iff.mp h
    exact List.cons_ne_nil _ _
  | cons ty fields =>
    simp only [Fields.layouts, Option.bind_eq_bind, Option.bind_eq_some_iff, Option.pure_def,
      Option.some_inj] at h
    obtain ⟨l, -, ls', -, rfl⟩ := h
    exact List.cons_ne_nil _ _

/-- A slice for a field. -/
theorem slice_field {start len offset size : Nat} (h : offset + size ≤ len) :
    (View.mk start len).slice offset (offset + size) = ⟨start + offset, size⟩ := by
  unfold View.slice
  dsimp only
  rw [Nat.min_eq_left (by omega), Nat.min_eq_left h, Nat.add_sub_cancel_left]

/-- One field is packed into its place. -/
theorem packs_field {size : Nat} {pack_into : View → List UInt8 → Option (List UInt8)}
    {Encodes : List UInt8 → Prop} (h : Packs size pack_into Encodes) {offset len : Nat}
    (hlen : offset + size ≤ len) {buf : List UInt8} {start : Nat}
    (hbuf : start + len ≤ buf.length) : ∃ bytes, bytes.length = size ∧
      pack_into ((View.mk start len).slice offset (offset + size)) buf =
        some (write buf (start + offset) bytes) ∧
      (write buf (start + offset) bytes).length = buf.length ∧
      Encodes (window (write buf (start + offset) bytes) (start + offset) size) := by
  obtain ⟨bytes, hlength, hpack, hunpack⟩ := h buf (start + offset) (by omega)
  refine ⟨bytes, hlength, by rw [slice_field hlen, hpack], length_write (by omega), ?_⟩
  rw [← hlength, window_write (by omega)]
  exact hunpack

mutual

/-- **Every value packs** into bytes that encode it. -/
theorem Ty.packs (ty : Ty) {l : Layout} (hl : ty.layout = some l) {v : Val} (hv : ty.Typed v) :
    Packs l.size (ty.pack_into v) (ty.Encodes v) := by
  match ty, v, hv with
  | .int ty, .int n, hv =>
    obtain rfl := Option.some_inj.mp hl
    exact IntTy.packs hv
  | .enum ty, v, hv =>
    obtain ⟨int_ty, hint, rfl⟩ := Option.map_eq_some_iff.mp hl
    exact EnumTy.packs hint hv
  | .pointer, .pointer address, hv =>
    obtain rfl := Option.some_inj.mp hl
    have hrange : U64.InRange address := ⟨Int.natCast_nonneg _, by exact_mod_cast hv⟩
    exact IntTy.packs hrange
  | .atomic of, v, hv => exact of.packs hl hv
  | .array of count pos, .array elems, hv =>
    obtain ⟨rfl, helems⟩ := hv
    obtain ⟨element, hof, rfl⟩ := Option.map_eq_some_iff.mp hl
    have hpacks : ∀ v ∈ elems, Packs element.size (of.pack_into v) (of.Encodes v) :=
      fun v hv => of.packs hof (helems v hv)
    intro buf start hbuf
    dsimp only at hbuf ⊢
    rw [Nat.mul_comm element.size] at hbuf ⊢
    obtain ⟨bytes, hlength, hpack, hunpack⟩ := packElements_spec hpacks buf start hbuf
    refine ⟨bytes, hlength, ?_, ?_⟩
    · simpa [Ty.pack_into, hof] using hpack
    · rw [Ty.Encodes, Ty.size_eq hof]
      exact ⟨rfl, hunpack⟩
  | .struct fields, .struct vs, hv =>
    obtain ⟨ls, hls, rfl⟩ := Option.map_eq_some_iff.mp hl
    intro buf start hbuf
    obtain ⟨bytes, hlength, hpack, -, hunpack⟩ := fields.packs hls hv
      (fieldsEnd_le_size (Fields.layouts_ne_nil hls)) buf start hbuf
    refine ⟨bytes, hlength, by simp [Ty.pack_into, hls, hpack], ?_⟩
    rw [Ty.Encodes, Fields.offsets_eq hls]
    exact hunpack

/-- Fields from an offset on: what lies before them stays as it is. -/
theorem Fields.packs (fields : Fields) {ls : List Layout} (hls : fields.layouts = some ls)
    {vs : List Val} (hvs : fields.Typed vs) {offset len : Nat} (hlen : fieldsEnd ls offset ≤ len)
    (buf : List UInt8) (start : Nat) (hbuf : start + len ≤ buf.length) :
    ∃ bytes, bytes.length = len ∧
      fields.pack_into (field_offsets ls offset) vs ⟨start, len⟩ buf =
        some (write buf start bytes) ∧
      window bytes 0 offset = window buf start offset ∧
      fields.Encodes (field_offsets ls offset) vs bytes := by
  match fields, vs, hvs with
  | .one ty, [v], hv =>
    obtain ⟨l, hl, rfl⟩ := Option.map_eq_some_iff.mp hls
    rw [fieldsEnd, fieldsEnd] at hlen
    have hle := le_alignTo l.align l.align_pos offset
    rw [field_offsets, field_offsets]
    obtain ⟨bytes, hlength, hpack, hwritten, hunpack⟩ := packs_field (ty.packs hl hv) hlen hbuf
    refine ⟨window (write buf (start + alignTo l.align l.align_pos offset) bytes) start len,
      length_window (by omega), ?_, ?_, ?_⟩
    · rw [write_window hbuf (by omega) (by omega)]
      simp [Fields.pack_into, hl, hpack]
    · rw [window_window (by omega), window_write_of_le (by omega) (by omega), Nat.add_zero]
    · rw [Fields.Encodes, Ty.size_eq hl, window_window hlen]
      exact hunpack
  | .cons ty fields, v :: vs, ⟨hv, hvs⟩ =>
    simp only [Fields.layouts, Option.bind_eq_bind, Option.bind_eq_some_iff, Option.pure_def,
      Option.some_inj] at hls
    obtain ⟨l, hl, ls, hls, rfl⟩ := hls
    rw [fieldsEnd] at hlen
    have hle := le_alignTo l.align l.align_pos offset
    have hend := le_fieldsEnd ls (alignTo l.align l.align_pos offset + l.size)
    rw [field_offsets]
    obtain ⟨bytes, hlength, hpack, hwritten, hunpack⟩ :=
      packs_field (ty.packs hl hv) (hend.trans hlen) hbuf
    obtain ⟨all, hall, hpacks, hbefore, hunpacks⟩ := fields.packs hls hvs hlen
      (write buf (start + alignTo l.align l.align_pos offset) bytes) start (by omega)
    refine ⟨all, hall, ?_, ?_, ?_⟩
    · simp only [Fields.pack_into, hl, hpack, hpacks, Option.bind_eq_bind, Option.bind_some]
      rw [write_write_cover (by omega) (by omega) (by omega)]
    · have hpre : window all 0 offset = window (window all 0 (alignTo l.align l.align_pos offset +
          l.size)) 0 offset := by rw [window_window (by omega)]
      rw [hpre, hbefore, window_window (by omega), Nat.add_zero,
        window_write_of_le (by omega) (by omega)]
    · have hfield : window all (alignTo l.align l.align_pos offset) l.size =
          window (write buf (start + alignTo l.align l.align_pos offset) bytes)
            (start + alignTo l.align l.align_pos offset) l.size := by
        rw [← @window_window _ _ start _ _ _ le_rfl, ← hbefore, window_window le_rfl, Nat.zero_add]
      rw [Fields.Encodes, Ty.size_eq hl, hfield]
      exact ⟨hunpack, hunpacks⟩

end

mutual

/-- **Bytes unpack to the value that they encode.** -/
theorem Ty.unpack_of_encodes (ty : Ty) {l : Layout} (hl : ty.layout = some l) {v : Val}
    (hv : ty.Typed v) {data : List UInt8} (hlen : data.length = l.size) (h : ty.Encodes v data) :
    ty.unpack data = some v := by
  match ty, v, hv with
  | .int ty, .int n, _ =>
    have hunpack : ty.unpack data = some n := h
    simp [Ty.unpack, hunpack]
  | .enum ty, v, hv =>
    obtain ⟨int_ty, hint, r, hraw, hunpack⟩ := h
    obtain ⟨r', hraw', -, hof⟩ := EnumTy.raw_spec hv
    obtain rfl : r = r' := Option.some_inj.mp (hraw.symm.trans hraw')
    simp [Ty.unpack, hint, hunpack, hof]
  | .pointer, .pointer address, _ =>
    have hunpack : U64.unpack data = some (address : Int) := h
    simp [Ty.unpack, hunpack]
  | .atomic of, v, hv => exact of.unpack_of_encodes hl hv hlen h
  | .array of count _, .array elems, ⟨hcount, helems⟩ =>
    obtain ⟨element, hof, rfl⟩ := Option.map_eq_some_iff.mp hl
    obtain ⟨-, hencodes⟩ := h
    rw [Ty.size_eq hof] at hencodes
    have hlength : data.length = count * element.size := by
      rw [hlen]
      exact Nat.mul_comm ..
    have hunpack : ∀ i v, elems[i]? = some v →
        of.unpack (window data (i * element.size) element.size) = some v := by
      intro i v hv
      have hi : i < count := hcount ▸ (List.getElem?_eq_some_iff.mp hv).1
      have hle := Nat.mul_le_mul_right element.size (Nat.succ_le_of_lt hi)
      rw [Nat.succ_mul, ← hlength] at hle
      exact of.unpack_of_encodes hof (helems v (List.mem_of_getElem? hv)) (length_window hle)
        (hencodes i v hv)
    subst hcount
    simp [Ty.unpack, hof, hlength, mapM_range hunpack]
  | .struct fields, .struct vs, hv =>
    obtain ⟨ls, hls, rfl⟩ := Option.map_eq_some_iff.mp hl
    have hend : fieldsEnd ls 0 ≤ data.length :=
      (fieldsEnd_le_size (Fields.layouts_ne_nil hls)).trans hlen.ge
    rw [Ty.Encodes, Fields.offsets_eq hls] at h
    simp [Ty.unpack, hls, fields.unpack_of_encodes hls hv hend h]

theorem Fields.unpack_of_encodes (fields : Fields) {ls : List Layout} (hls : fields.layouts = some ls)
    {vs : List Val} (hvs : fields.Typed vs) {offset : Nat} {data : List UInt8}
    (hlen : fieldsEnd ls offset ≤ data.length)
    (h : fields.Encodes (field_offsets ls offset) vs data) :
    fields.unpack (field_offsets ls offset) data = some vs := by
  match fields, vs, hvs with
  | .one ty, [v], hv =>
    obtain ⟨l, hl, rfl⟩ := Option.map_eq_some_iff.mp hls
    rw [fieldsEnd, fieldsEnd] at hlen
    rw [field_offsets, field_offsets] at h ⊢
    rw [Fields.Encodes, Ty.size_eq hl] at h
    simp [Fields.unpack, hl, ty.unpack_of_encodes hl hv (length_window hlen) h]
  | .cons ty fields, v :: vs, ⟨hv, hvs⟩ =>
    simp only [Fields.layouts, Option.bind_eq_bind, Option.bind_eq_some_iff, Option.pure_def,
      Option.some_inj] at hls
    obtain ⟨l, hl, ls, hls, rfl⟩ := hls
    rw [fieldsEnd] at hlen
    have hend := (le_fieldsEnd ls _).trans hlen
    rw [field_offsets] at h ⊢
    rw [Fields.Encodes, Ty.size_eq hl] at h
    have hfirst := ty.unpack_of_encodes hl hv (length_window hend) h.1
    have hrest := fields.unpack_of_encodes hls hvs hlen h.2
    simp [Fields.unpack, hl, hfirst, hrest]

end

/-! ## Layouts -/

mutual

/-- A type has a layout if its enums fit. -/
theorem Ty.layout_of_fits (ty : Ty) (hfits : ty.EnumsFit) : ∃ l, ty.layout = some l := by
  match ty with
  | .int ty => exact ⟨_, rfl⟩
  | .enum ty =>
    obtain ⟨int_ty, hint, -⟩ := EnumTy.layout_of_fits hfits
    exact ⟨_, by rw [Ty.layout, hint]; rfl⟩
  | .pointer => exact ⟨_, rfl⟩
  | .atomic of => exact of.layout_of_fits hfits
  | .array of count _ =>
    obtain ⟨l, hl⟩ := of.layout_of_fits hfits
    exact ⟨_, by rw [Ty.layout, hl]; rfl⟩
  | .struct fields =>
    obtain ⟨ls, hls⟩ := fields.layouts_of_fits hfits
    exact ⟨_, by rw [Ty.layout, hls]; rfl⟩

theorem Fields.layouts_of_fits (fields : Fields) (hfits : fields.EnumsFit) :
    ∃ ls, fields.layouts = some ls := by
  match fields with
  | .one ty =>
    obtain ⟨l, hl⟩ := ty.layout_of_fits hfits
    exact ⟨_, by rw [Fields.layouts, hl]; rfl⟩
  | .cons ty fields =>
    obtain ⟨l, hl⟩ := ty.layout_of_fits hfits.1
    obtain ⟨ls, hls⟩ := fields.layouts_of_fits hfits.2
    exact ⟨l :: ls, by rw [Fields.layouts, hl, hls]; rfl⟩

end

/-- The places of the elements of an array or the fields of a struct: offset and size. -/
def Ty.parts : Ty → Option (List (Nat × Nat))
  | .array of count _ => do
    let l ← of.layout
    return (List.range count).map fun i => (i * l.size, l.size)
  | .struct fields => do
    let ls ← fields.layouts
    return (field_offsets ls 0).zip (ls.map Layout.size)
  | _ => some []

/-- Parts that lie one after the other. -/
def Disjoint (size : Nat) (parts : List (Nat × Nat)) : Prop :=
  (∀ part ∈ parts, part.1 + part.2 ≤ size) ∧ parts.Pairwise fun a b => a.1 + a.2 ≤ b.1

/-- Fields lie one after the other. -/
theorem fields_disjoint (ls : List Layout) (offset : Nat) :
    (∀ part ∈ (field_offsets ls offset).zip (ls.map Layout.size),
      offset ≤ part.1 ∧ part.1 + part.2 ≤ fieldsEnd ls offset) ∧
    ((field_offsets ls offset).zip (ls.map Layout.size)).Pairwise fun a b => a.1 + a.2 ≤ b.1 := by
  induction ls generalizing offset with
  | nil => simp [field_offsets]
  | cons l ls ih =>
    obtain ⟨hrange, hpairwise⟩ := ih (alignTo l.align l.align_pos offset + l.size)
    have hle := le_alignTo l.align l.align_pos offset
    have hend := le_fieldsEnd ls (alignTo l.align l.align_pos offset + l.size)
    rw [field_offsets, fieldsEnd, List.map_cons, List.zip_cons_cons]
    refine ⟨fun part hpart => ?_, List.pairwise_cons.mpr ⟨fun part hpart => ?_, hpairwise⟩⟩
    · rcases List.mem_cons.mp hpart with rfl | hpart
      · exact ⟨hle, hend⟩
      · have hpart := hrange part hpart
        exact ⟨by omega, hpart.2⟩
    · exact (hrange part hpart).1

/-- **Fields and elements** have disjoint places inside of the layout. -/
theorem Ty.parts_disjoint {ty : Ty} {l : Layout} (hl : ty.layout = some l) :
    ∃ parts, ty.parts = some parts ∧ Disjoint l.size parts := by
  cases ty with
  | array of count pos =>
    obtain ⟨element, hof, rfl⟩ := Option.map_eq_some_iff.mp hl
    refine ⟨_, by rw [Ty.parts, hof]; rfl, fun part hpart => ?_, ?_⟩
    · obtain ⟨i, hi, rfl⟩ := List.mem_map.mp hpart
      have hle := Nat.mul_le_mul_right element.size (List.mem_range.mp hi)
      rw [Nat.succ_mul] at hle
      rwa [Nat.mul_comm element.size]
    · rw [List.pairwise_map]
      refine List.pairwise_lt_range.imp fun {i j} hij => ?_
      have hle := Nat.mul_le_mul_right element.size (Nat.succ_le_of_lt hij)
      rwa [Nat.succ_mul] at hle
  | struct fields =>
    obtain ⟨ls, hls, rfl⟩ := Option.map_eq_some_iff.mp hl
    obtain ⟨hrange, hpairwise⟩ := fields_disjoint ls 0
    exact ⟨_, by rw [Ty.parts, hls]; rfl, fun part hpart => (hrange part hpart).2.trans
      (fieldsEnd_le_size (Fields.layouts_ne_nil hls)), hpairwise⟩
  | _ => exact ⟨[], rfl, by simp [Disjoint]⟩

theorem Ty.pack_encodes (ty : Ty) {l : Layout} (hl : ty.layout = some l) {v : Val}
    (hv : ty.Typed v) :
    ∃ bytes, ty.pack v = some bytes ∧ bytes.length = l.size ∧ ty.Encodes v bytes := by
  obtain ⟨bytes, hlength, hpack, hencodes⟩ :=
    ty.packs hl hv (List.replicate l.size 0) 0 (by simp)
  refine ⟨bytes, ?_, hlength, hencodes⟩
  have hwrite : write (List.replicate l.size 0) 0 bytes = bytes := by
    simp [write, hlength]
  simp [Ty.pack, hl, hpack, hwrite]

/-- **The round trip**: every type whose enums fit has a layout, every value of it packs
into as many bytes as the layout says, which unpack to the value, and fields and elements
do not overlap. -/
theorem pack_round_trip (ty : Ty) (hfits : ty.EnumsFit) : ∃ l, ty.layout = some l ∧
    (∀ v, ty.Typed v → ∃ bytes, ty.pack v = some bytes ∧ bytes.length = l.size ∧
      ty.unpack bytes = some v) ∧
    ∃ parts, ty.parts = some parts ∧ Disjoint l.size parts := by
  obtain ⟨l, hl⟩ := ty.layout_of_fits hfits
  refine ⟨l, hl, fun v hv => ?_, Ty.parts_disjoint hl⟩
  obtain ⟨bytes, hpack, hlength, hencodes⟩ := ty.pack_encodes hl hv
  exact ⟨bytes, hpack, hlength, ty.unpack_of_encodes hl hv hlength hencodes⟩

/-- A struct with an array of flags in it. -/
def sampleStruct : Ty :=
  .struct (.cons (.int ⟨8, true, eight_bits⟩) (.cons (.array (.enum ⟨true, 3⟩) 2 (by decide))
    (.one (.atomic .pointer))))

def sampleValue : Val :=
  .struct [.int (-1), .array [.flags [true, false, true], .flags [false, true, false]],
    .pointer 4096]

theorem pack_round_trip_sampleStruct : ∃ bytes, sampleStruct.pack sampleValue = some bytes ∧
    sampleStruct.unpack bytes = some sampleValue := by
  have hfits : sampleStruct.EnumsFit := by simp [sampleStruct, Ty.EnumsFit, Fields.EnumsFit]
  have htyped : sampleStruct.Typed sampleValue := by
    simp [sampleStruct, sampleValue, Ty.Typed, Fields.Typed, IntTy.InRange]
  obtain ⟨l, -, hpack, -⟩ := pack_round_trip sampleStruct hfits
  obtain ⟨bytes, hbytes, -, hunpack⟩ := hpack sampleValue htyped
  exact ⟨bytes, hbytes, hunpack⟩

/-- No integer type has a bit for each of 65 flags. -/
theorem manyFlags_not_packed : ¬ ∀ (ty : Ty) (v : Val), ty.Typed v → ∃ bytes, ty.pack v = some bytes := by
  intro hall
  obtain ⟨bytes, hbytes⟩ := hall (.enum ⟨true, 65⟩) (.flags (List.replicate 65 false))
    ⟨rfl, by simp⟩
  rcases EnumTy.underlying_int_spec ⟨true, 65⟩ with ⟨hlt, -⟩ | ⟨-, hnone⟩
  · exact absurd hlt (by decide)
  · simp [Ty.pack, Ty.layout, hnone] at hbytes

end Bracelet.RuntimeFormat
