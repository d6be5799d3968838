import Bracelet.StaticRuns

/-!
# The addresses of a static object

While the locations that calls concern fit the fields of an exploded address, the
addresses they give are never null, fit a node and tell their locations apart
(`addresses_apart`).  An offset of 2³² or more does not fit, and no error says so.
-/
namespace Bracelet.ObjectParsing
open Edges (Address Packable)

variable {asked : Nat → Prop} {obj : ObjectFile}

/-- An address that stands for a location that fits is not null and fits a node. -/
theorem StaticObject.Denotes.packable {so : StaticObject} (h : Sound asked so) {l : Location}
    {addr : Address} (hl : so.Denotes l addr) (hfits : l.Fits so.obj) :
    addr ≠ 0 ∧ Packable addr := by
  have hword : 2 ^ 32 ≤ addr.toNat ∧ addr.toNat + 1 < 2 ^ 48 := by
    cases l with
    | inSection idx offset =>
      obtain ⟨hword, -, -⟩ := ExplodedAddress.at_iff.mp hl
      have hroom := hfits.2
      omega
    | external name =>
      obtain ⟨i, hi, hat⟩ := hl
      obtain ⟨hword, -, -⟩ := ExplodedAddress.at_iff.mp hat
      obtain ⟨keys, hinterned, -⟩ := h.indices
      obtain ⟨hmem, hplace⟩ := hinterned.mem_of_get? hi
      have hlt := Dict.place_lt hmem
      have hle : keys.length ≤ so.obj.externs.card := hinterned.length ▸ h.length_le
      have hi' : i.toNat ≤ Dict.place keys name := by
        rw [hplace, UInt32.toNat_ofNat']
        exact Nat.mod_le _ _
      have hroom := hfits.2
      omega
  refine ⟨fun h0 => ?_, ?_⟩
  · rw [h0, UInt64.toNat_zero] at hword
    omega
  · unfold Packable
    omega

/-- **While locations fit, addresses tell them apart, are not null and are accepted as
nodes**, whatever the calls and their order. -/
theorem addresses_apart {asserts : Bool} {so : StaticObject}
    (hinit : StaticObject.init obj = .ok so) {calls : List Call}
    (hfits : ∀ call ∈ calls, ∀ l, call.Concerns obj l → l.Fits obj)
    {answers : List (Call × List Address)} {so' : StaticObject}
    (hrun : run asserts calls so = some (answers, so')) :
    (∀ y ∈ given obj answers, ∀ z ∈ given obj answers, ∀ l m, y.1 = some l → z.1 = some m →
      l ≠ m → y.2 ≠ z.2) ∧
      ∀ y ∈ given obj answers, ∀ l, y.1 = some l →
        so'.Denotes l y.2 ∧ y.2 ≠ 0 ∧ ∃ n, Edges.Node.mkSymbol true y.2 = .ok n := by
  obtain ⟨rfl, hsound⟩ := init_sound (fun _ => True) hinit
  obtain ⟨hsound', hgrows, hstands⟩ :=
    run_stands hsound (fun _ _ _ _ => trivial) hfits hrun
  have hlocation : ∀ y ∈ given so.obj answers, ∀ l, y.1 = some l →
      so'.Denotes l y.2 ∧ l.Fits so'.obj ∧ l.Within so'.obj := by
    intro y hy l hl
    obtain ⟨call, hmem, hstand⟩ := stands_of_mem_given hstands hy
    rw [hl] at hstand hmem
    exact ⟨hstand.1, hstand.2.1, hgrows.obj ▸ Call.within hmem⟩
  constructor
  · intro y hy z hz l m hl hm hne hsame
    obtain ⟨hyl, hfit, hwithin⟩ := hlocation y hy l hl
    obtain ⟨hzm, -, hwithin'⟩ := hlocation z hz m hm
    exact hne (hyl.injective hsound' (hsame ▸ hzm) hfit hwithin hwithin')
  · intro y hy l hl
    obtain ⟨hyl, hfit, -⟩ := hlocation y hy l hl
    obtain ⟨hne, hpack⟩ := hyl.packable hsound' hfit
    exact ⟨hyl, hne, _, Edges.Node.mkSymbol_eq hpack⟩

/-! ## Pointers into a large section -/

def largeHeader : SectionHeader := ⟨2, .ok ".lbss", 0, 0x200000000, true, true, false, true⟩

def largeSymbol : Symbol := ⟨.ok "big", .OBJECT, .ok 0, .ok (some largeHeader)⟩

/-- `.data` holds a pointer to the start of an array of 8 GiB and one further in. -/
def pointers (further : Int64) : ObjectFile where
  bytesInAddress := 8
  sections := [
    ⟨⟨0, .ok "", 0, 0, false, false, false, false⟩, .ok none, []⟩,
    ⟨⟨1, .ok ".data", 0, 16, true, true, false, false⟩, .ok none, []⟩,
    ⟨largeHeader, .ok none, []⟩,
    ⟨⟨3, .ok ".rela.data", 0, 48, false, false, false, false⟩,
      .ok (some ⟨1, .ok ".data", 0, 16, true, true, false, false⟩),
      [⟨0, some largeSymbol, some 0⟩, ⟨8, some largeSymbol, some further⟩]⟩]
  indexed := by
    intro i sec h
    match i with
    | 0 | 1 | 2 | 3 => exact Option.some.inj h ▸ rfl
    | i + 4 => cases h
  defined := by
    simp [largeSymbol]

theorem pointers_apart : ∃ so, StaticObject.init (pointers 64) = .ok so ∧
    ∃ answers so', run true [.visitSections, .resolvePointers 2 0x200000000] so =
        some (answers, so') ∧
      ∀ y ∈ given (pointers 64) answers, ∀ z ∈ given (pointers 64) answers, ∀ l m,
        y.1 = some l → z.1 = some m → l ≠ m → y.2 ≠ z.2 := by
  obtain ⟨so, hinit⟩ : ∃ so, StaticObject.init (pointers 64) = .ok so := ⟨_, rfl⟩
  obtain ⟨answers, so', hrun⟩ : ∃ answers so',
      run true [.visitSections, .resolvePointers 2 0x200000000] so = some (answers, so') := by
    obtain rfl := Except.ok.inj hinit
    exact ⟨_, _, rfl⟩
  refine ⟨so, hinit, answers, so', hrun, (addresses_apart hinit ?_ hrun).1⟩
  rw [List.forall_mem_cons, List.forall_mem_singleton]
  constructor
  · rintro l ⟨i, hi, rfl⟩
    have hi : i < 4 := hi
    exact ⟨by norm_num, by omega⟩
  · rintro l ⟨_, rfl, reloc, hmem, hloc⟩
    have hrelocs : (pointers 64).relocationsOf 1 =
        [⟨0, some largeSymbol, some 0⟩, ⟨8, some largeSymbol, some 64⟩] := rfl
    have hmem : reloc ∈ (pointers 64).relocationsOf 1 := hmem
    rw [hrelocs] at hmem
    rcases List.mem_cons.mp hmem with rfl | hmem
    · obtain rfl : Location.inSection 2 0 = l := Option.some.inj hloc
      exact ⟨by norm_num, by norm_num⟩
    · obtain rfl := List.mem_singleton.mp hmem
      obtain rfl : Location.inSection 2 64 = l := Option.some.inj hloc
      exact ⟨by norm_num, by norm_num⟩

theorem pointers_not_apart : ∃ so, StaticObject.init (pointers 0x100000000) = .ok so ∧
    ∃ answers so', run true [.resolvePointers 2 0x200000000] so = some (answers, so') ∧
      ∃ y ∈ given (pointers 0x100000000) answers, ∃ z ∈ given (pointers 0x100000000) answers,
        ∃ l m, y.1 = some l ∧ z.1 = some m ∧ l ≠ m ∧ y.2 = z.2 := by
  refine ⟨_, rfl, [(.resolvePointers 2 0x200000000, [0x300000000, 0x300000000])], _, rfl, ?_⟩
  refine ⟨(some (.inSection 2 0), 0x300000000), ?_, (some (.inSection 2 0x100000000), 0x300000000),
    ?_, _, _, rfl, rfl, by decide, rfl⟩
  · exact List.mem_cons_self
  · exact List.mem_cons_of_mem _ List.mem_cons_self

end Bracelet.ObjectParsing
