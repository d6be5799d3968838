import Bracelet.StaticObject

/-!
# The section of an address

`translateAddr` takes the section with the greatest start at or below the address, and of
the sections with one start the first.  It finds the section that an address lies in, for
all addresses of a section, exactly when no section before it starts where it does, none
starts inside it, and its index and offsets fit the fields of an exploded address
(`findsSections_iff`).
-/
namespace Bracelet.ObjectParsing
open Edges (Address Result Failure ensure assert bind_ok)

/-! ## Exploded addresses -/

namespace ExplodedAddress

theorem toNat_toAddress (section_offset : UInt32) (section_idx_plus_one : UInt16) :
    (toAddress { section_offset, section_idx_plus_one }).toNat =
      section_idx_plus_one.toNat * 2 ^ 32 + section_offset.toNat := by
  have hoff := section_offset.toNat_lt
  have hidx := section_idx_plus_one.toNat_lt
  have hshift : (section_idx_plus_one.toUInt64 <<< 32).toNat =
      section_idx_plus_one.toNat * 2 ^ 32 := by
    rw [UInt64.toNat_shiftLeft, UInt16.toNat_toUInt64, show (32 : UInt64).toNat % 64 = 32 by decide,
      Nat.shiftLeft_eq]
    omega
  have hzero : ((0 : UInt16).toUInt64 <<< 48) = 0 := by decide
  rw [toAddress, hzero, UInt64.or_zero, UInt64.toNat_or, hshift, UInt32.toNat_toUInt64, Nat.or_comm,
    ← Nat.shiftLeft_eq, Nat.shiftLeft_add_eq_or_of_lt hoff]

/-- The address is of this offset in the section of this index. -/
def At (addr : Address) (idx offset : Nat) : Prop :=
  (ofAddress addr).section_idx_plus_one.toNat = idx + 1 ∧
    (ofAddress addr).section_offset.toNat = offset ∧ (ofAddress addr).zero = 0

theorem at_iff {addr : Address} {idx offset : Nat} :
    At addr idx offset ↔
      addr.toNat = (idx + 1) * 2 ^ 32 + offset ∧ idx < 65535 ∧ offset < 2 ^ 32 := by
  have hlt := addr.toNat_lt
  have hidx : (ofAddress addr).section_idx_plus_one.toNat = addr.toNat / 2 ^ 32 % 2 ^ 16 := by
    rw [ofAddress, UInt64.toNat_toUInt16, UInt64.toNat_shiftRight,
      show (32 : UInt64).toNat % 64 = 32 by decide, Nat.shiftRight_eq_div_pow]
  have hoff : (ofAddress addr).section_offset.toNat = addr.toNat % 2 ^ 32 := by
    rw [ofAddress, UInt64.toNat_toUInt32]
  have hzero : (ofAddress addr).zero = 0 ↔ addr.toNat / 2 ^ 48 = 0 := by
    have hnat : (ofAddress addr).zero.toNat = addr.toNat / 2 ^ 48 := by
      rw [ofAddress, UInt64.toNat_toUInt16, UInt64.toNat_shiftRight,
        show (48 : UInt64).toNat % 64 = 48 by decide, Nat.shiftRight_eq_div_pow]
      omega
    rw [← hnat, ← UInt16.toNat_inj]
    rfl
  rw [At, hidx, hoff, hzero]
  omega

theorem At.unique {addr addr' : Address} {idx offset : Nat} (h : At addr idx offset)
    (h' : At addr' idx offset) : addr = addr' :=
  UInt64.toNat_inj.mp ((at_iff.mp h).1.trans (at_iff.mp h').1.symm)

theorem make_eq (asserts : Bool) {idx : UInt16} (h : idx.toNat < 65535) (offset : UInt32) :
    ∃ addr, make asserts idx offset = .ok addr ∧ At addr idx.toNat offset.toNat := by
  have hlt : idx < 65535 := by
    rw [UInt16.lt_iff_toNat_lt]
    exact h
  have hadd : (idx + 1).toNat = idx.toNat + 1 := by
    rw [UInt16.toNat_add, UInt16.toNat_one]
    omega
  refine ⟨_, by simp only [make, hlt, decide_true, Edges.assert_true, Edges.ok_bind]; rfl, ?_⟩
  rw [at_iff, toNat_toAddress, hadd]
  exact ⟨rfl, h, offset.toNat_lt⟩

/-- An address that is made has these fields. -/
theorem make_ok {asserts : Bool} {idx : UInt16} {offset : UInt32} {addr : Address}
    (h : make asserts idx offset = .ok addr) :
    addr.toNat = (idx + 1).toNat * 2 ^ 32 + offset.toNat := by
  obtain ⟨-, -, h⟩ := bind_ok h
  rw [← Except.ok.inj h, toNat_toAddress]

end ExplodedAddress
/-! ## Sections -/

/-- The section occupies a part of the address space: it is loaded, and it is not the
template of thread-local variables that start as zero. -/
def SectionHeader.occupies (sec : SectionHeader) : Bool := sec.alloc && !(sec.tls && sec.nobits)

def SectionHeader.Contains (sec : SectionHeader) (addr : Address) : Prop :=
  sec.address.toNat ≤ addr.toNat ∧ addr.toNat < sec.address.toNat + sec.size.toNat

namespace ObjectFile

def headers (obj : ObjectFile) : List SectionHeader := obj.sections.map SectionRef.header

/-- No section before it starts where it does. -/
def IsFirst (obj : ObjectFile) (sec : SectionHeader) : Prop :=
  ∀ t ∈ obj.headers, t.index < sec.index → t.address ≠ sec.address

variable {obj : ObjectFile}

theorem index_of_getElem {i : Nat} {sec : SectionHeader} (h : obj.headers[i]? = some sec) :
    sec.index = i := by
  rw [headers, List.getElem?_map, Option.map_eq_some_iff] at h
  obtain ⟨ref, href, rfl⟩ := h
  exact obj.indexed i ref href

theorem exists_getElem {sec : SectionHeader} (h : sec ∈ obj.headers) :
    obj.headers[sec.index]? = some sec := by
  obtain ⟨i, hi⟩ := List.getElem?_of_mem h
  rwa [index_of_getElem hi]

/-- What the map of the sections holds. -/
theorem mem_sections_iff {k : Nat} {sec : SectionHeader} :
    (k, sec) ∈ (ExplodedAddressLoadInfo.new obj).sections ↔
      sec ∈ obj.headers ∧ k = sec.address.toNat ∧ obj.IsFirst sec := by
  have hentries : (obj.sections.map fun sec => (sec.header.address.toNat, sec.header)) =
      obj.headers.map fun sec => (sec.address.toNat, sec) := by
    rw [headers, List.map_map]
    rfl
  rw [ExplodedAddressLoadInfo.new, hentries, OrderedMap.mem_ofList, List.find?_map,
    Option.map_eq_some_iff]
  constructor
  · rintro ⟨sec', hfind, heq⟩
    obtain ⟨rfl, rfl⟩ := Prod.mk.inj heq
    refine ⟨List.mem_of_find?_eq_some hfind, rfl, fun t ht hlt hsame => ?_⟩
    obtain ⟨-, i, hi, hget, hbefore⟩ := List.find?_eq_some_iff_getElem.mp hfind
    have hindex : sec'.index = i := index_of_getElem (by rw [List.getElem?_eq_getElem hi, hget])
    have ht' := exists_getElem ht
    obtain ⟨hlen, hgett⟩ := List.getElem?_eq_some_iff.mp ht'
    have hnot := hbefore t.index (hindex ▸ hlt)
    simp [hgett, hsame] at hnot
  · rintro ⟨hmem, rfl, hfirst⟩
    refine ⟨sec, List.find?_eq_some_iff_getElem.mpr ⟨by simp, ?_⟩, rfl⟩
    obtain ⟨hlen, hget⟩ := List.getElem?_eq_some_iff.mp (exists_getElem hmem)
    refine ⟨sec.index, hlen, hget, fun j hj => ?_⟩
    have hjlen : j < obj.headers.length := hj.trans hlen
    have hjindex : obj.headers[j].index = j := index_of_getElem (List.getElem?_eq_getElem hjlen)
    have hne := hfirst _ (List.getElem_mem hjlen) (hjindex.symm ▸ hj)
    simpa [UInt64.toNat_inj] using hne

/-- **The section that is found for an address.** -/
theorem floor_eq_some_iff {addr : Address} {k : Nat} {sec : SectionHeader} :
    OrderedMap.floor (ExplodedAddressLoadInfo.new obj).sections addr.toNat = some (k, sec) ↔
      (sec ∈ obj.headers ∧ k = sec.address.toNat ∧ obj.IsFirst sec) ∧
        sec.address.toNat ≤ addr.toNat ∧
        ∀ t ∈ obj.headers, t.address.toNat ≤ addr.toNat → t.address.toNat ≤ sec.address.toNat := by
  have hsorted : OrderedMap.Sorted (ExplodedAddressLoadInfo.new obj).sections :=
    OrderedMap.sorted_ofList _
  rw [OrderedMap.floor_eq_some hsorted, mem_sections_iff]
  refine and_congr_right fun ⟨hmem, hk, _⟩ => and_congr (by rw [hk]) ?_
  constructor
  · intro h t ht hle
    have hkey : t.address.toNat ∈ (ExplodedAddressLoadInfo.new obj).sections.map Prod.fst := by
      rw [ExplodedAddressLoadInfo.new, OrderedMap.keys_ofList, List.map_map]
      obtain ⟨ref, href, rfl⟩ := List.mem_map.mp ht
      exact List.mem_map_of_mem (f := fun sec : SectionRef => sec.header.address.toNat) href
    obtain ⟨⟨k', t'⟩, hentry, hk'⟩ := List.mem_map.mp hkey
    have hle' := h _ hentry (hk' ▸ hle)
    rw [hk'] at hle'
    exact hk ▸ hle'
  · rintro h ⟨k', t⟩ hentry hle
    obtain ⟨ht, rfl, -⟩ := mem_sections_iff.mp hentry
    exact hk ▸ h t ht hle

end ObjectFile

variable {asserts : Bool} {obj : ObjectFile}

theorem toNat_sub {addr start : UInt64} (h : start.toNat ≤ addr.toNat) :
    (addr - start).toNat = addr.toNat - start.toNat := by
  have hlt := addr.toNat_lt
  rw [UInt64.toNat_sub]
  omega

/-- What is translated lies in the section that was found. -/
theorem translateAddr_eq (asserts : Bool) {addr : Address} {k : Nat} {sec : SectionHeader}
    (h : OrderedMap.floor (ExplodedAddressLoadInfo.new obj).sections addr.toNat = some (k, sec)) :
    (sec.Contains addr ∧
      (ExplodedAddressLoadInfo.new obj).translateAddr asserts addr =
        ExplodedAddress.make asserts (UInt16.ofNat sec.index) (addr - sec.address).toUInt32) ∨
    (¬ sec.Contains addr ∧ ∃ messages,
      (ExplodedAddressLoadInfo.new obj).translateAddr asserts addr =
        .error (.error messages)) := by
  obtain ⟨-, hle, -⟩ := ObjectFile.floor_eq_some_iff.mp h
  have hsub := toNat_sub hle
  unfold ExplodedAddressLoadInfo.translateAddr
  simp only [h]
  by_cases hlt : addr - sec.address < sec.size
  · refine Or.inl ⟨⟨hle, ?_⟩, by simp only [hlt, decide_true, Edges.ensure_true, Edges.ok_bind]⟩
    rw [UInt64.lt_iff_toNat_lt, hsub] at hlt
    omega
  · refine Or.inr ⟨fun hcontains => hlt ?_, ?_⟩
    · rw [UInt64.lt_iff_toNat_lt, hsub]
      unfold SectionHeader.Contains at hcontains
      omega
    · simp only [hlt, decide_false, ensure]
      exact ⟨_, rfl⟩

/-! ## What is found -/

/-- The addresses of the sections that occupy a part of the address space are translated,
and an address in no section is an error. -/
structure FindsSections (asserts : Bool) (obj : ObjectFile) : Prop where
  found : ∀ sec ∈ obj.headers, sec.occupies = true → ∀ addr, sec.Contains addr → ∃ out,
    (ExplodedAddressLoadInfo.new obj).translateAddr asserts addr = .ok out ∧
      ExplodedAddress.At out sec.index (addr.toNat - sec.address.toNat)
  error : ∀ addr, (∀ sec ∈ obj.headers, ¬ sec.Contains addr) → ∃ messages,
    (ExplodedAddressLoadInfo.new obj).translateAddr asserts addr = .error (.error messages)

/-- No section stands in the way of this one, and its addresses can be exploded. -/
structure ObjectFile.Reaches (obj : ObjectFile) (sec : SectionHeader) : Prop where
  first : obj.IsFirst sec
  inside : ∀ t ∈ obj.headers, sec.address.toNat < t.address.toNat →
    sec.address.toNat + sec.size.toNat ≤ t.address.toNat
  index : sec.index < 65535
  /-- As far as the section lies in the address space. -/
  size : min sec.size.toNat (2 ^ 64 - sec.address.toNat) ≤ 2 ^ 32

theorem found_of_reaches {sec : SectionHeader} (hmem : sec ∈ obj.headers) (h : obj.Reaches sec)
    {addr : Address} (hcontains : sec.Contains addr) : ∃ out,
    (ExplodedAddressLoadInfo.new obj).translateAddr asserts addr = .ok out ∧
      ExplodedAddress.At out sec.index (addr.toNat - sec.address.toNat) := by
  obtain ⟨hle, hlt⟩ := hcontains
  have hfloor := ObjectFile.floor_eq_some_iff.mpr ⟨⟨hmem, rfl, h.first⟩, hle, fun t ht hta => by
    by_contra hgt
    have hafter := h.inside t ht (not_le.mp hgt)
    omega⟩
  obtain ⟨-, heq⟩ | ⟨hnot, -⟩ := translateAddr_eq asserts hfloor
  · have hsize := h.size
    have haddr := addr.toNat_lt
    have hindex : (UInt16.ofNat sec.index).toNat = sec.index := by
      have hidx := h.index
      rw [UInt16.toNat_ofNat']
      omega
    have hoffset : (addr - sec.address).toUInt32.toNat = addr.toNat - sec.address.toNat := by
      rw [UInt64.toNat_toUInt32, toNat_sub hle]
      omega
    rw [heq, ← hoffset]
    have hmake := ExplodedAddress.make_eq asserts (hindex.symm ▸ h.index)
      (addr - sec.address).toUInt32
    rwa [hindex] at hmake
  · exact absurd ⟨hle, hlt⟩ hnot

/-- A section whose address is translated is the one that was found. -/
theorem floor_of_found {sec : SectionHeader} (hmem : sec ∈ obj.headers) {addr out : Address}
    (hcontains : sec.Contains addr)
    (hout : (ExplodedAddressLoadInfo.new obj).translateAddr asserts addr = .ok out)
    (hat : ExplodedAddress.At out sec.index (addr.toNat - sec.address.toNat)) : ∃ k,
    OrderedMap.floor (ExplodedAddressLoadInfo.new obj).sections addr.toNat = some (k, sec) := by
  obtain ⟨hle, -⟩ := hcontains
  cases hfloor : OrderedMap.floor (ExplodedAddressLoadInfo.new obj).sections addr.toNat with
  | none => simp [ExplodedAddressLoadInfo.translateAddr, hfloor] at hout
  | some p =>
    obtain ⟨k, t⟩ := p
    obtain ⟨⟨ht, -, hfirst⟩, hta, hmax⟩ := ObjectFile.floor_eq_some_iff.mp hfloor
    have hst := hmax sec hmem hle
    obtain ⟨hword, hidx, hoff⟩ := ExplodedAddress.at_iff.mp hat
    have hmake : ExplodedAddress.make asserts (UInt16.ofNat t.index)
        (addr - t.address).toUInt32 = .ok out := by
      obtain ⟨-, heq⟩ | ⟨-, messages, herror⟩ := translateAddr_eq asserts hfloor
      · exact heq ▸ hout
      · rw [herror] at hout
        cases hout
    have hmade := ExplodedAddress.make_ok hmake
    rw [UInt64.toNat_toUInt32, toNat_sub hta, UInt16.toNat_add, UInt16.toNat_ofNat',
      UInt16.toNat_one] at hmade
    -- The offset tells that both start at one address, and the index that they are one.
    have hindex : t.index % 2 ^ 16 = sec.index := by omega
    have hstart : t.address = sec.address := UInt64.toNat_inj.mp (by omega)
    have hsame : t.index = sec.index := by
      by_contra hne
      exact hfirst sec hmem (by omega) hstart.symm
    have heq : some t = some sec :=
      (ObjectFile.exists_getElem ht).symm.trans (hsame ▸ ObjectFile.exists_getElem hmem)
    exact ⟨k, by rw [Option.some.inj heq]⟩

/-- **The section of an address is found exactly when no other section stands in the way.** -/
theorem findsSections_iff : FindsSections asserts obj ↔
    ∀ sec ∈ obj.headers, sec.occupies = true → sec.size ≠ 0 → obj.Reaches sec := by
  constructor
  · intro h sec hmem hocc hne
    have hsize : 0 < sec.size.toNat := by
      rw [Nat.pos_iff_ne_zero]
      exact fun h0 => hne (UInt64.toNat_inj.mp (by simpa using h0))
    have hfloor : ∀ addr, sec.Contains addr → ∃ k,
        OrderedMap.floor (ExplodedAddressLoadInfo.new obj).sections addr.toNat = some (k, sec) := by
      intro addr hcontains
      obtain ⟨out, hout, hat⟩ := h.found sec hmem hocc addr hcontains
      exact floor_of_found hmem hcontains hout hat
    have hstart : sec.Contains sec.address := ⟨le_rfl, by omega⟩
    obtain ⟨k, hk⟩ := hfloor sec.address hstart
    obtain ⟨out, -, hat⟩ := h.found sec hmem hocc sec.address hstart
    refine ⟨(ObjectFile.floor_eq_some_iff.mp hk).1.2.2, fun t ht hlt => ?_,
      (ExplodedAddress.at_iff.mp hat).2.1, ?_⟩
    · by_contra hinside
      obtain ⟨k', hk'⟩ := hfloor t.address ⟨hlt.le, by omega⟩
      have hmax := (ObjectFile.floor_eq_some_iff.mp hk').2.2 t ht le_rfl
      omega
    · by_contra hbig
      have haddr : (UInt64.ofNat (sec.address.toNat + 2 ^ 32)).toNat =
          sec.address.toNat + 2 ^ 32 := by
        rw [UInt64.toNat_ofNat']
        omega
      obtain ⟨out, -, hat⟩ := h.found sec hmem hocc (UInt64.ofNat (sec.address.toNat + 2 ^ 32))
        ⟨by omega, by omega⟩
      have hoff := (ExplodedAddress.at_iff.mp hat).2.2
      omega
  · intro h
    refine ⟨fun sec hmem hocc addr hcontains => ?_, fun addr hnone => ?_⟩
    · have hne : sec.size ≠ 0 := by
        intro h0
        have hzero : sec.size.toNat = 0 := by rw [h0]; rfl
        unfold SectionHeader.Contains at hcontains
        omega
      exact found_of_reaches hmem (h sec hmem hocc hne) hcontains
    · cases hfloor : OrderedMap.floor (ExplodedAddressLoadInfo.new obj).sections addr.toNat with
      | none =>
        simp only [ExplodedAddressLoadInfo.translateAddr, hfloor]
        exact ⟨_, rfl⟩
      | some p =>
        obtain ⟨hcontains, -⟩ | ⟨-, herror⟩ := translateAddr_eq asserts hfloor
        · exact absurd hcontains (hnone p.2 (ObjectFile.floor_eq_some_iff.mp hfloor).1.1)
        · exact herror

/-! ## An empty section at the start of another -/

/-- Sections that occupy a part of the address space do not overlap. -/
def ObjectFile.Disjoint (obj : ObjectFile) : Prop :=
  ∀ s ∈ obj.headers, ∀ t ∈ obj.headers, s.occupies = true → t.occupies = true →
    s.index ≠ t.index → ∀ addr, s.Contains addr → ¬ t.Contains addr

/-- An empty `.tm_clone_table` where `.data` starts. -/
def cloneTable : ObjectFile where
  bytesInAddress := 8
  sections := [
    ⟨⟨0, .ok "", 0, 0, false, false, false, false⟩, .ok none, []⟩,
    ⟨⟨1, .ok ".tm_clone_table", 0x4000, 0, true, true, false, false⟩, .ok none, []⟩,
    ⟨⟨2, .ok ".data", 0x4000, 16, true, true, false, false⟩, .ok none, []⟩]
  indexed := by
    intro i sec h
    match i with
    | 0 | 1 | 2 => exact Option.some.inj h ▸ rfl
    | i + 3 => cases h
  defined := by simp

theorem cloneTable_not_found :
    cloneTable.Disjoint ∧ ∀ asserts, ¬ FindsSections asserts cloneTable := by
  have hempty : ∀ s ∈ cloneTable.headers, s.index ≠ 2 → s.size.toNat = 0 := by
    intro s hs hne
    rcases List.mem_cons.mp hs with rfl | hs
    · rfl
    rcases List.mem_cons.mp hs with rfl | hs
    · rfl
    obtain rfl := List.mem_singleton.mp hs
    exact absurd rfl hne
  constructor
  · intro s hs t ht _ _ hne addr hsaddr htaddr
    unfold SectionHeader.Contains at hsaddr htaddr
    by_cases hidx : s.index = 2
    · have := hempty t ht (hidx ▸ hne.symm)
      omega
    · have := hempty s hs hidx
      omega
  · intro asserts h
    have hdata : (⟨2, .ok ".data", 0x4000, 16, true, true, false, false⟩ : SectionHeader) ∈
        cloneTable.headers := List.mem_cons_of_mem _ (List.mem_cons_of_mem _ List.mem_cons_self)
    obtain ⟨out, hout, -⟩ := h.found _ hdata rfl 0x4000 (by unfold SectionHeader.Contains; decide)
    have herror : ∃ messages, (ExplodedAddressLoadInfo.new cloneTable).translateAddr asserts 0x4000 =
        .error (.error messages) := ⟨_, rfl⟩
    obtain ⟨messages, herror⟩ := herror
    rw [herror] at hout
    cases hout

end Bracelet.ObjectParsing
