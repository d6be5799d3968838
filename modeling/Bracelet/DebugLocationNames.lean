import Bracelet.DebugLocations

/-!
# Looking up the locations of locals

`emitAddresses` looks a local up by the position in its name.  It finds the right one, whatever
the line and the column, for the paths and names that leave its separators alone
(`finds_iff`): a colon, an `@[` or a space in the path leads it astray, and so do a file right
under the root, and colons in the name of the value where it stands in for a column or a location
that was not printed.
-/
namespace Bracelet.Edges.DebugLocations

/-! ## Numbers -/

theorem decimal_of_lt {n : Nat} (h : n < 10) : decimal n = [UInt8.ofNat (48 + n)] := by
  rw [decimal, Nat.toDigits_of_lt_base h, List.map_singleton, Nat.toNat_digitChar_of_lt_ten h,
    Nat.add_comm]

theorem decimal_of_le {n : Nat} (h : 10 ≤ n) :
    decimal n = decimal (n / 10) ++ [UInt8.ofNat (48 + n % 10)] := by
  have hlt : n % 10 < 10 := Nat.mod_lt n (by decide)
  rw [decimal, Nat.toDigits_of_base_le (by decide) h, List.map_append, List.map_singleton,
    Nat.toNat_digitChar_of_lt_ten hlt, Nat.add_comm]
  rfl

theorem toNat_digit {d : Nat} (h : d < 10) : (UInt8.ofNat (48 + d)).toNat = 48 + d := by
  rw [UInt8.toNat_ofNat']
  omega

/-- A decimal number is made of digits. -/
theorem decimal_digit (n : Nat) : ∀ b ∈ decimal n, 48 ≤ b.toNat ∧ b.toNat ≤ 57 := by
  induction n using Nat.strong_induction_on with
  | _ n ih =>
    have hdigit : ∀ d, d < 10 → 48 ≤ (UInt8.ofNat (48 + d)).toNat ∧
        (UInt8.ofNat (48 + d)).toNat ≤ 57 := by
      intro d hd
      rw [toNat_digit hd]
      omega
    rcases Nat.lt_or_ge n 10 with h | h
    · rw [decimal_of_lt h, List.forall_mem_singleton]
      exact hdigit n h
    · rw [decimal_of_le h, List.forall_mem_append, List.forall_mem_singleton]
      exact ⟨ih (n / 10) (by omega), hdigit _ (Nat.mod_lt n (by decide))⟩

theorem not_mem_decimal {b : UInt8} (h : b.toNat < 48 ∨ 57 < b.toNat) (n : Nat) :
    b ∉ decimal n := by
  intro hb
  have hdigit := decimal_digit n b hb
  omega

theorem decimal_ne_nil (n : Nat) : decimal n ≠ [] := by
  rw [decimal, ne_eq, List.map_eq_nil_iff]
  exact Nat.toDigits_ne_nil

/-- Only the number 0 starts with a 0. -/
theorem head?_decimal (n : Nat) : (decimal n).head? = some 48 ↔ n = 0 := by
  induction n using Nat.strong_induction_on with
  | _ n ih =>
    rcases Nat.lt_or_ge n 10 with h | h
    · rw [decimal_of_lt h, List.head?_cons, Option.some_inj, ← UInt8.toNat_inj, toNat_digit h]
      have : (48 : UInt8).toNat = 48 := rfl
      omega
    · have hhead : (decimal n).head? = (decimal (n / 10)).head? := by
        rw [decimal_of_le h, List.head?_append_of_ne_nil _ (decimal_ne_nil _)]
      rw [hhead, ih (n / 10) (by omega)]
      omega

theorem foldl_decimal (n : Nat) :
    (decimal n).foldl (fun n b => 10 * n + (b.toNat - 48)) 0 = n := by
  induction n using Nat.strong_induction_on with
  | _ n ih =>
    rcases Nat.lt_or_ge n 10 with h | h
    · rw [decimal_of_lt h, List.foldl_cons, List.foldl_nil, toNat_digit h]
      omega
    · rw [decimal_of_le h, List.foldl_append, ih (n / 10) (by omega), List.foldl_cons,
        List.foldl_nil, toNat_digit (Nat.mod_lt n (by decide))]
      omega

theorem SimpleAtoi_decimal {n : Nat} (h : n < 2 ^ 32) : SimpleAtoi (decimal n) = some n := by
  have hspace : ∀ b ∈ decimal n, isSpace b = false := by
    intro b hb
    have hdigit := decimal_digit n b hb
    simp only [isSpace, UInt8.le_iff_toNat_le, ← UInt8.toNat_inj, decide_eq_false_iff_not]
    have h9 : (9 : UInt8).toNat = 9 := rfl
    have h13 : (13 : UInt8).toNat = 13 := rfl
    have h32 : (32 : UInt8).toNat = 32 := rfl
    omega
  have hdrop : ∀ l : Bytes, (∀ b ∈ l, isSpace b = false) → l.dropWhile isSpace = l := by
    intro l hl
    cases l with
    | nil => rfl
    | cons b l => rw [List.dropWhile_cons, hl b List.mem_cons_self]; rfl
  have hplus : (decimal n).head? ≠ some 43 := fun hhead =>
    not_mem_decimal (Or.inl (by decide)) n (List.mem_of_head? hhead)
  have hall : (decimal n).all (fun b => 48 ≤ b ∧ b ≤ 57) = true := by
    rw [List.all_eq_true]
    intro b hb
    exact decide_eq_true (decimal_digit n b hb)
  unfold SimpleAtoi
  rw [hdrop _ hspace, hdrop _ (fun b hb => hspace b (List.mem_reverse.mp hb)), List.reverse_reverse]
  simp only [if_neg hplus, hall, decimal_ne_nil, not_true_eq_false, or_self, if_false,
    foldl_decimal, if_pos h]

/-- A bar is no part of a number. -/
theorem SimpleAtoi_bar {text : Bytes} (h : 124 ∈ text) : SimpleAtoi text = none := by
  have hdrop : ∀ l : Bytes, 124 ∈ l → 124 ∈ l.dropWhile isSpace := by
    intro l
    induction l with
    | nil => exact id
    | cons b l ih =>
      intro hl
      rw [List.dropWhile_cons]
      split_ifs with hb
      · rcases List.mem_cons.mp hl with rfl | hl
        · exact absurd hb (by decide)
        · exact ih hl
      · exact hl
  have hmem := List.mem_reverse.mpr (hdrop _ (List.mem_reverse.mpr (hdrop text h)))
  unfold SimpleAtoi
  generalize ((text.dropWhile isSpace).reverse.dropWhile isSpace).reverse = trimmed at *
  have hdigits : 124 ∈ if trimmed.head? = some 43 then trimmed.tail else trimmed := by
    split_ifs with hplus
    · obtain ⟨rest, rfl⟩ := List.head?_eq_some_iff.mp hplus
      exact (List.mem_cons.mp hmem).resolve_left (by decide)
    · exact hmem
  refine if_pos (Or.inr fun hall => ?_)
  exact absurd (List.all_eq_true.mp hall 124 hdigits) (by decide)

/-! ## File names -/

/-- What follows the last slash. -/
def baseName (path : Bytes) : Bytes := (path.reverse.takeWhile (· != 47)).reverse

/-- **A path of which the base name is found**: it has no space in it, but perhaps in front of a
path without slashes, and the file is not right under the root. -/
def NamedRight (path : Bytes) : Prop :=
  (47 ∉ path ∧ 32 ∉ path.tail) ∨
    ∃ directory name, path = directory ++ 47 :: name ∧ directory ≠ [] ∧ 47 ∉ name ∧ 32 ∉ name

/-- A text is split at the last place of a byte. -/
theorem exists_last {b : UInt8} {text : Bytes} (h : b ∈ text) :
    ∃ a rest, text = a ++ b :: rest ∧ b ∉ rest := by
  obtain ⟨x, y, heq, hx⟩ := List.eq_append_cons_of_mem (List.mem_reverse.mpr h)
  refine ⟨y.reverse, x.reverse, ?_, by simpa using hx⟩
  rw [← List.reverse_reverse text, heq]
  simp

theorem baseName_of_not_mem {path : Bytes} (h : 47 ∉ path) : baseName path = path := by
  have hall := bne_of_not_mem (List.mem_reverse.not.mpr h)
  rw [baseName, List.takeWhile_eq_self_iff.mpr hall, List.reverse_reverse]

theorem baseName_append {directory name : Bytes} (h : 47 ∉ name) :
    baseName (directory ++ 47 :: name) = name := by
  have hreverse : (directory ++ 47 :: name).reverse = name.reverse ++ 47 :: directory.reverse := by
    simp
  have hbefore := before_append (List.mem_reverse.not.mpr h) directory.reverse
  unfold before at hbefore
  rw [baseName, hreverse, hbefore, List.reverse_reverse]

/-- The place of the last byte of a kind, or 0. -/
theorem rfind_getD {b : UInt8} {a rest : Bytes} (h : b ∉ rest) :
    (rfind b (a ++ b :: rest) (a ++ b :: rest).length).getD 0 = a.length := by
  rw [rfind_last h]
  rfl

theorem drop_inj {text : Bytes} {i j : Nat} (hi : i ≤ text.length) (hj : j ≤ text.length) :
    text.drop i = text.drop j ↔ i = j := by
  constructor
  · intro h
    have hlength := congrArg List.length h
    rw [List.length_drop, List.length_drop] at hlength
    omega
  · rintro rfl
    rfl

/-- Without slashes. -/
theorem fileName_eq_self_iff {path : Bytes} (hslash : 47 ∉ path) :
    fileName path = path ↔ 32 ∉ path.tail := by
  unfold fileName
  rw [rfind_eq_none hslash]
  by_cases hspace : 32 ∈ path
  · obtain ⟨u, v, rfl, hv⟩ := exists_last hspace
    rw [rfind_getD hv]
    cases u with
    | nil => simpa using hv
    | cons c u =>
      refine iff_of_false (fun h => ?_) (fun h => h (by simp))
      have hlength := congrArg List.length h
      simp only [List.length_drop, List.length_append, List.length_cons, Option.getD_none] at hlength
      omega
  · rw [rfind_eq_none hspace]
    exact iff_of_true rfl fun h => hspace (List.mem_of_mem_tail h)

/-- The last space of a path comes before its last slash if the base name has none. -/
theorem rfind_space_le_iff {directory name : Bytes} :
    (rfind 32 (directory ++ 47 :: name) (directory ++ 47 :: name).length).getD 0 ≤
      directory.length ↔ 32 ∉ name := by
  by_cases hname : 32 ∈ name
  · obtain ⟨u, v, rfl, hv⟩ := exists_last hname
    have heq : directory ++ 47 :: (u ++ 32 :: v) = (directory ++ 47 :: u) ++ 32 :: v := by simp
    rw [heq, rfind_getD hv, List.length_append, List.length_cons]
    exact iff_of_false (by omega) (not_not.mpr hname)
  · refine iff_of_true ?_ hname
    by_cases hdirectory : 32 ∈ directory
    · obtain ⟨u, v, rfl, hv⟩ := exists_last hdirectory
      have heq : (u ++ 32 :: v) ++ 47 :: name = u ++ 32 :: (v ++ 47 :: name) := by simp
      have hrest : 32 ∉ v ++ 47 :: name := by
        simp [hv, hname]
      rw [heq, rfind_getD hrest, List.length_append]
      omega
    · have hnone : 32 ∉ directory ++ 47 :: name := by simp [hdirectory, hname]
      rw [rfind_eq_none hnone]
      exact Nat.zero_le _

/-- With a slash. -/
theorem fileName_eq_name_iff {directory name : Bytes} (hname : 47 ∉ name) :
    fileName (directory ++ 47 :: name) = name ↔ directory ≠ [] ∧ 32 ∉ name := by
  have hdrop : name = (directory ++ 47 :: name).drop (directory.length + 1) := by
    rw [← List.drop_drop, List.drop_left]
    rfl
  have hle : directory.length + 1 ≤ (directory ++ 47 :: name).length := by
    rw [List.length_append, List.length_cons]
    omega
  have hspace : (rfind 32 (directory ++ 47 :: name) (directory ++ 47 :: name).length).getD 0 <
      (directory ++ 47 :: name).length := by
    cases h : rfind 32 (directory ++ 47 :: name) (directory ++ 47 :: name).length with
    | none => exact lt_of_lt_of_le (Nat.succ_pos _) hle
    | some i => exact rfind_lt h
  unfold fileName
  rw [rfind_getD hname, ← @rfind_space_le_iff directory name, ← List.length_pos_iff]
  conv_lhs => rhs; rw [hdrop]
  rw [drop_inj _ hle]
  · split_ifs with hzero <;> omega
  · split_ifs with hzero <;> omega

/-- Which file names are base names. -/
theorem fileName_eq_iff (path : Bytes) : fileName path = baseName path ↔ NamedRight path := by
  by_cases hslash : 47 ∈ path
  · obtain ⟨directory, name, rfl, hname⟩ := exists_last hslash
    rw [baseName_append hname, fileName_eq_name_iff hname]
    constructor
    · rintro ⟨hdirectory, hspace⟩
      exact Or.inr ⟨directory, name, rfl, hdirectory, hname, hspace⟩
    · rintro (⟨hnone, -⟩ | ⟨directory', name', heq, hdirectory, hname', hspace⟩)
      · exact absurd hslash hnone
      · have hsame : name = name' := by
          rw [← baseName_append hname, heq, baseName_append hname']
        subst hsame
        rw [List.append_cancel_right heq]
        exact ⟨hdirectory, hspace⟩
  · rw [baseName_of_not_mem hslash, fileName_eq_self_iff hslash]
    constructor
    · intro hspace
      exact Or.inl ⟨hslash, hspace⟩
    · rintro (⟨-, hspace⟩ | ⟨directory, name, rfl, -⟩)
      · exact hspace
      · exact absurd (by simp) hslash

/-! ## The names of locals -/

/-- **What the name of a local is made of**, but for the line and the column: the file of its
location, if it has one, and the calls that it was inlined at; the name of its value, and how it
prints without one.  No part has a NUL in it. -/
structure Local where
  location : Option (Bytes × List DebugLoc)
  LocalName : Bytes
  operand : Bytes
  location_nul : ∀ file inlinedAt, location = some (file, inlinedAt) →
    0 ∉ file ∧ ∀ l ∈ inlinedAt, 0 ∉ l.file
  name_nul : 0 ∉ valueName LocalName operand

namespace Local
variable (x : Local)

/-- The debug location, with its line and column. -/
def DL (line col : UInt32) : Option (DebugLoc × List DebugLoc) :=
  x.location.map fun (file, inlinedAt) => (⟨file, line, col⟩, inlinedAt)

/-- The name that `nameWithLocation` gives the local. -/
def text (line col : UInt32) : Bytes := nameWithLocation false (x.DL line col) x.LocalName x.operand

/-- The position to look up: none without a line or a column. -/
def position (line col : UInt32) : Option SourceLocation :=
  x.location.bind fun (file, _) =>
    if line = 0 ∨ col = 0 then none else some ⟨baseName file, line.toNat, col.toNat⟩

/-- The name of the value, up to an `@[`. -/
def trimmedName : Bytes := trimInlined (valueName x.LocalName x.operand)

/-- **The separators of the name are those of its location.**  Without a location, the name of the
value has no two colons, with no 0 after the first one and a bar or a space after the second one.
Otherwise, the path is named right and has no colon, no `@[` and some character (which an assertion
asks for); and where no call follows, the name has no colon with a bar or a space after it. -/
def Unambiguous (asserts : Bool) : Prop :=
  match x.location with
  | none => ∀ a LineNoStr tail, x.trimmedName = a ++ 58 :: (LineNoStr ++ 58 :: tail) → 58 ∉ a →
      58 ∉ LineNoStr → LineNoStr.head? = some 48 ∨ 124 ∉ tail ∧ 32 ∉ tail
  | some (file, inlinedAt) => NamedRight file ∧ 58 ∉ file ∧ ¬ HasInlined file ∧
      (asserts = true → file ≠ []) ∧
      (inlinedAt = [] → ∀ a tail, x.trimmedName = a ++ 58 :: tail → 58 ∉ a →
        124 ∉ tail ∧ 32 ∉ tail)

end Local

/-- **A local is looked up by a position**, whatever the addresses of positions. -/
def Finds (asserts : Bool) (Name : Bytes) (position : Option SourceLocation) : Prop :=
  ∀ (env : EdgeOutput) (fi : FunctionInfo) (N : Node) (local_idx : Nat)
    (slm : SourceLocation → List (Address × Address)), env.slm = some slm →
    fi.debug_data.has_locals = true → fi.debug_data.local_name local_idx = .ok Name →
    emitAddresses asserts env fi N local_idx = addressesOf slm N position

/-- A function with one local of a name. -/
def functionOf (Name : Bytes) : FunctionInfo where
  function := Node.ofSymbol 0x1000
  num_allocas := 0
  num_locals := 1
  debug_data := ⟨Name ++ [0], some [0], [0]⟩
  sbom_info := none
  edge_data _ := []
  symbol_addresses := []

theorem local_name_functionOf {Name : Bytes} (h : 0 ∉ Name) :
    (functionOf Name).debug_data.local_name 0 = .ok Name := by
  have hstring := before_append h []
  unfold before at hstring
  simp only [functionOf, GraphDebugData.local_name, GraphDebugData.string]
  exact congrArg Except.ok hstring

theorem finds_iff_printedPosition {asserts : Bool} {Name : Bytes} (h : 0 ∉ Name)
    (position : Option SourceLocation) :
    Finds asserts Name position ↔ printedPosition asserts Name = .ok position := by
  constructor
  · intro hfinds
    have hall : ∀ slm, printedPosition asserts Name >>= addressesOf slm (Node.ofSymbol 0) =
        addressesOf slm (Node.ofSymbol 0) position := by
      intro slm
      rw [← hfinds ⟨⟨false, 8, [], fun _ _ => .ok [], fun _ _ => .ok []⟩, fun _ => .ok [], some slm,
        false⟩ (functionOf Name) (Node.ofSymbol 0) 0 slm rfl rfl (local_name_functionOf h)]
      exact (emitAddresses_eq rfl rfl (local_name_functionOf h)).symm
    cases hprinted : printedPosition asserts Name with
    | error e =>
      have hsome := hall fun _ => []
      rw [hprinted] at hsome
      cases position <;> cases hsome
    | ok found =>
      -- Addresses for one position only tell it from the others.
      have hone : expandRanges (Node.ofSymbol 0) [(0, 0)] = .ok [(0, Node.ofSymbol 0)] := rfl
      have hnone : expandRanges (Node.ofSymbol 0) [] = .ok [] := rfl
      have heq : ∀ slm, addressesOf slm (Node.ofSymbol 0) found =
          addressesOf slm (Node.ofSymbol 0) position := by
        intro slm
        have hslm := hall slm
        rwa [hprinted] at hslm
      cases found with
      | none =>
        cases position with
        | none => rfl
        | some p => exact absurd (heq fun _ => [(0, 0)]) (by simp [addressesOf, hone])
      | some q =>
        have hq := heq fun p => if p = q then [(0, 0)] else []
        cases position with
        | none => simp [addressesOf, hone] at hq
        | some p =>
          by_cases hpq : p = q
          · rw [hpq]
          · simp [addressesOf, hpq, hone, hnone] at hq
  · intro hprinted env fi N local_idx slm hslm hlocals hName
    rw [emitAddresses_eq hslm hlocals hName, hprinted]
    rfl

/-! ## What stands in a name -/

/-- `<line>[:<col>]` -/
def numbers (line col : UInt32) : Bytes :=
  decimal line.toNat ++ if col = 0 then [] else 58 :: decimal col.toNat

/-- The calls, as they follow a position. -/
def callsText : List DebugLoc → Bytes
  | [] => []
  | inlinedAt :: calls => ascii " @[ " ++ print inlinedAt calls ++ ascii " ]"

theorem print_eq (l : DebugLoc) (inlinedAt : List DebugLoc) :
    print l inlinedAt = l.file ++ 58 :: (numbers l.line l.col ++ callsText inlinedAt) := by
  cases inlinedAt <;> simp [print, DebugLoc.position, numbers, callsText]

theorem not_mem_numbers {b : UInt8} (h : b.toNat < 48 ∨ 58 < b.toNat) (line col : UInt32) :
    b ∉ numbers line col := by
  have hcolon : b ≠ 58 := by
    rintro rfl
    exact absurd h (by decide)
  have hdecimal := not_mem_decimal (show b.toNat < 48 ∨ 57 < b.toNat by omega)
  unfold numbers
  split_ifs
  · simpa using hdecimal _
  · simp [hdecimal, hcolon]

theorem nul_not_mem_print {l : DebugLoc} {inlinedAt : List DebugLoc} (hl : 0 ∉ l.file)
    (h : ∀ call ∈ inlinedAt, 0 ∉ call.file) : 0 ∉ print l inlinedAt := by
  induction inlinedAt generalizing l with
  | nil =>
    have hnumbers := @not_mem_numbers 0 (Or.inl (by decide)) l.line l.col
    simp [print_eq, callsText, hl, hnumbers]
  | cons call calls ih =>
    have hnumbers := @not_mem_numbers 0 (Or.inl (by decide)) l.line l.col
    obtain ⟨hcall, hcalls⟩ := List.forall_mem_cons.mp h
    have hprint := ih hcall hcalls
    have hopen : 0 ∉ ascii " @[ " := by decide
    have hclose : 0 ∉ ascii " ]" := by decide
    simp [print_eq l, callsText, hl, hnumbers, hprint, hopen, hclose]

namespace Local
variable (x : Local)

theorem text_none (h : x.location = none) (line col : UInt32) :
    x.text line col = 124 :: valueName x.LocalName x.operand := by
  simp [text, nameWithLocation, DL, h]

theorem text_some {file : Bytes} {inlinedAt : List DebugLoc}
    (h : x.location = some (file, inlinedAt)) (line col : UInt32) : x.text line col =
      file ++ 58 :: (numbers line col ++ (callsText inlinedAt ++
        124 :: valueName x.LocalName x.operand)) := by
  simp [text, nameWithLocation, DL, h, print_eq]

theorem nul_not_mem_text (line col : UInt32) : 0 ∉ x.text line col := by
  have hname := x.name_nul
  have hne : (0 : UInt8) ≠ 124 := by decide
  unfold text nameWithLocation DL
  cases hlocation : x.location with
  | none => simp [hname, hne]
  | some location =>
    obtain ⟨file, inlinedAt⟩ := location
    obtain ⟨hfile, hcalls⟩ := x.location_nul file inlinedAt hlocation
    have hprint := @nul_not_mem_print ⟨file, line, col⟩ inlinedAt hfile hcalls
    simp [hname, hne, hprint]

theorem bar_mem_text (line col : UInt32) : 124 ∈ x.text line col := by
  simp [text, nameWithLocation]

end Local

theorem not_hasInlined {text : Bytes} (h : 64 ∉ text) : ¬ HasInlined text := by
  rintro ⟨a, rest, rfl⟩
  exact h (by simp)

theorem trimInlined_cons_of_ne {b : UInt8} (h : b ≠ 64) (bytes : Bytes) :
    trimInlined (b :: bytes) = b :: trimInlined bytes := by
  rw [trimInlined_cons, if_neg]
  rw [isPrefixOf_inlined, List.cons_prefix_cons]
  exact fun hprefix => h hprefix.1.symm

/-- What is left after the position: the bar and the name of the value, or a space before the
calls. -/
def afterNumbers (inlinedAt : List DebugLoc) (trimmedName : Bytes) : Bytes :=
  match inlinedAt with
  | [] => 124 :: trimmedName
  | _ :: _ => [32]

theorem trimInlined_callsText (inlinedAt : List DebugLoc) (name : Bytes) :
    trimInlined (callsText inlinedAt ++ 124 :: name) =
      afterNumbers inlinedAt (trimInlined name) := by
  cases inlinedAt with
  | nil => exact trimInlined_cons_of_ne (by decide) name
  | cons call calls =>
    have heq : callsText (call :: calls) ++ 124 :: name = 32 :: 64 :: 91 ::
        (32 :: (print call calls ++ ascii " ]" ++ 124 :: name)) := by
      simp [callsText, ascii]
    rw [heq, trimInlined_cons_of_ne (by decide), trimInlined_cons, if_pos]
    · rfl
    · rw [isPrefixOf_inlined]
      exact List.prefix_append [64, 91] _

/-- The name of a local without the calls. -/
theorem trimInlined_text (x : Local) {file : Bytes} {inlinedAt : List DebugLoc}
    (h : x.location = some (file, inlinedAt)) (hfile : ¬ HasInlined file) (line col : UInt32) :
    trimInlined (x.text line col) =
      file ++ 58 :: (numbers line col ++ afterNumbers inlinedAt x.trimmedName) := by
  have hnumbers := @not_mem_numbers 64 (Or.inr (by decide)) line col
  have hcalls : (callsText inlinedAt ++ 124 :: valueName x.LocalName x.operand).head? ≠ some 91 := by
    cases inlinedAt with
    | nil => simp [callsText]
    | cons call calls => simp [callsText, ascii]
  rw [x.text_some h, trimInlined_append hfile (by simp), trimInlined_cons_of_ne (by decide),
    trimInlined_append (not_hasInlined hnumbers) hcalls, trimInlined_callsText]
  rfl

/-! ## Positions -/

section
variable {asserts : Bool} {path : Bytes}

theorem assert_path (hpath : asserts = true → path ≠ []) :
    assert asserts (path != []) = .ok () := by
  cases asserts with
  | false => rfl
  | true => rw [bne_iff_ne.mpr (hpath rfl), assert_true]

theorem positionAfter_of_not_mem {rest : Bytes} (hpath : asserts = true → path ≠ [])
    (h : 58 ∉ rest) : positionAfter asserts path rest = .ok none := by
  unfold positionAfter
  rw [assert_path hpath, ok_bind, if_pos h]
  rfl

theorem positionAfter_colon {LineNoStr tail : Bytes} (hpath : asserts = true → path ≠ [])
    (h : 58 ∉ LineNoStr) :
    positionAfter asserts path (LineNoStr ++ 58 :: tail) =
      if LineNoStr.head? = some 48 then .ok none else
      if 124 ∉ tail ∧ 32 ∉ tail then .ok none else
      match SimpleAtoi LineNoStr, SimpleAtoi (tail.takeWhile fun b => b != 124 && b != 32) with
      | none, _ => .error (.error [s!"Invalid line number: {showBytes LineNoStr}"])
      | _, none => .error (.error [s!"Invalid column number: {showBytes (tail.takeWhile fun b =>
          b != 124 && b != 32)}"])
      | some LineNo, some ColumnNo => .ok (some ⟨fileName path, LineNo, ColumnNo⟩) := by
  unfold positionAfter
  rw [assert_path hpath, ok_bind,
    if_neg (not_not.mpr (by simp))]
  simp only [before_append h, after_append h]
  rfl

/-- Nothing is looked up only if there is no number before a second colon or nothing ends the
number after it. -/
theorem positionAfter_eq_none_iff {LineNoStr tail : Bytes} (hpath : asserts = true → path ≠ [])
    (h : 58 ∉ LineNoStr) :
    positionAfter asserts path (LineNoStr ++ 58 :: tail) = .ok none ↔
      LineNoStr.head? = some 48 ∨ 124 ∉ tail ∧ 32 ∉ tail := by
  rw [positionAfter_colon hpath h]
  split_ifs with hzero hend
  · exact iff_of_true rfl (Or.inl hzero)
  · exact iff_of_true rfl (Or.inr hend)
  · refine iff_of_false (fun heq => ?_) (not_or.mpr ⟨hzero, hend⟩)
    split at heq <;> cases heq

/-- The line of a position is the number up to the next colon. -/
theorem line_of_positionAfter {rest : Bytes} {position : SourceLocation}
    (h : positionAfter asserts path rest = .ok (some position)) :
    SimpleAtoi (before 58 rest) = some position.line := by
  have hpath : asserts = true → path ≠ [] := by
    rintro rfl rfl
    cases h
  by_cases hcolon : 58 ∈ rest
  · obtain ⟨heq, hline⟩ := mem_iff_append hcolon
    rw [heq, positionAfter_colon hpath hline] at h
    split_ifs at h with hzero hend
    · cases h
    · cases h
    · split at h <;> cases h
      assumption
  · rw [positionAfter_of_not_mem hpath hcolon] at h
    cases h

/-- The end of a name for which the column is printed. -/
theorem positionAfter_numbers (hpath : asserts = true → path ≠ []) {line col : UInt32}
    (hline : line ≠ 0) (hcol : col ≠ 0) (inlinedAt : List DebugLoc) (trimmedName : Bytes) :
    positionAfter asserts path (numbers line col ++ afterNumbers inlinedAt trimmedName) =
      .ok (some ⟨fileName path, line.toNat, col.toNat⟩) := by
  have hcolon := @not_mem_decimal 58 (Or.inr (by decide)) line.toNat
  have hzero : (decimal line.toNat).head? ≠ some 48 := by
    rw [ne_eq, head?_decimal, ← UInt32.toNat_zero, UInt32.toNat_inj]
    exact hline
  have hcolumn : (decimal col.toNat ++ afterNumbers inlinedAt trimmedName).takeWhile
      (fun b => b != 124 && b != 32) = decimal col.toNat := by
    have hdigits : ∀ b ∈ decimal col.toNat, (b != 124 && b != 32) = true := by
      intro b hb
      rw [Bool.and_eq_true, bne_iff_ne, bne_iff_ne]
      constructor
      · rintro rfl
        exact not_mem_decimal (Or.inr (by decide)) _ hb
      · rintro rfl
        exact not_mem_decimal (Or.inl (by decide)) _ hb
    rw [List.takeWhile_append_of_pos hdigits]
    cases inlinedAt <;> simp [afterNumbers]
  have hend : ¬ (124 ∉ decimal col.toNat ++ afterNumbers inlinedAt trimmedName ∧
      32 ∉ decimal col.toNat ++ afterNumbers inlinedAt trimmedName) := by
    cases inlinedAt <;> simp [afterNumbers]
  rw [numbers, if_neg hcol, List.append_assoc, List.cons_append, positionAfter_colon hpath hcolon,
    if_neg hzero, if_neg hend, hcolumn, SimpleAtoi_decimal line.toNat_lt,
    SimpleAtoi_decimal col.toNat_lt]

/-- The end of a name for which no column is printed. -/
theorem positionAfter_decimal (hpath : asserts = true → path ≠ []) {line : UInt32}
    {inlinedAt : List DebugLoc} {trimmedName : Bytes}
    (h : inlinedAt = [] → ∀ a tail, trimmedName = a ++ 58 :: tail → 58 ∉ a →
      124 ∉ tail ∧ 32 ∉ tail) :
    positionAfter asserts path (numbers line 0 ++ afterNumbers inlinedAt trimmedName) =
      .ok none := by
  have hdecimal := @not_mem_decimal 58 (Or.inr (by decide)) line.toNat
  rw [numbers, if_pos rfl, List.append_nil]
  cases inlinedAt with
  | cons call calls =>
    apply positionAfter_of_not_mem hpath
    simpa [afterNumbers] using hdecimal
  | nil =>
    by_cases hcolon : 58 ∈ trimmedName
    · obtain ⟨a, tail, rfl, ha⟩ := List.eq_append_cons_of_mem hcolon
      have hline : 58 ∉ decimal line.toNat ++ 124 :: a := by
        simp [hdecimal, ha]
      have heq : decimal line.toNat ++ afterNumbers [] (a ++ 58 :: tail) =
          (decimal line.toNat ++ 124 :: a) ++ 58 :: tail := by
        simp [afterNumbers]
      rw [heq, positionAfter_eq_none_iff hpath hline]
      exact Or.inr (h rfl a tail rfl ha)
    · apply positionAfter_of_not_mem hpath
      simp [afterNumbers, hdecimal, hcolon]

/-- A name that is printed right after the line gives an error if it looks like a column. -/
theorem not_mem_of_positionAfter (hpath : asserts = true → path ≠ []) {a tail : Bytes} (ha : 58 ∉ a)
    (h : positionAfter asserts path (numbers 1 0 ++ afterNumbers [] (a ++ 58 :: tail)) = .ok none) :
    124 ∉ tail ∧ 32 ∉ tail := by
  have hone : numbers 1 0 = [49] := by decide
  have heq : numbers 1 0 ++ afterNumbers [] (a ++ 58 :: tail) = (49 :: 124 :: a) ++ 58 :: tail := by
    rw [hone]
    rfl
  have hline : 58 ∉ 49 :: 124 :: a := by
    simp [ha]
  rw [heq, positionAfter_eq_none_iff hpath hline] at h
  exact h.resolve_left (by simp)

end

/-! ## Lookups -/

/-- Where the calls are looked for in the path, only the path is left. -/
theorem printedPosition_of_hasInlined (asserts : Bool) (x : Local) {file : Bytes}
    {inlinedAt : List DebugLoc} (h : x.location = some (file, inlinedAt)) (hfile : HasInlined file)
    (line col : UInt32) : printedPosition asserts (x.text line col) =
      if 58 ∈ trimInlined file then
        positionAfter asserts (before 58 (trimInlined file)) (after 58 (trimInlined file))
      else .ok none := by
  have htrimmed : trimInlined (x.text line col) = trimInlined file := by
    rw [x.text_some h, trimInlined_append_of_hasInlined hfile]
  rw [printedPosition, htrimmed]
  simp only [x.bar_mem_text, true_and]

theorem printedPosition_text (asserts : Bool) (x : Local) {file : Bytes}
    {inlinedAt : List DebugLoc} (h : x.location = some (file, inlinedAt))
    (hinlined : ¬ HasInlined file) (hcolon : 58 ∉ file) (line col : UInt32) :
    printedPosition asserts (x.text line col) =
      positionAfter asserts file (numbers line col ++ afterNumbers inlinedAt x.trimmedName) := by
  have htrimmed := trimInlined_text x h hinlined line col
  rw [printedPosition, if_pos ⟨x.bar_mem_text line col, by rw [htrimmed]; simp⟩, htrimmed,
    before_append hcolon, after_append hcolon]

/-- A colon in the path: the line is looked for in the path. -/
theorem line_of_printedPosition {asserts : Bool} {x : Local} {p q : Bytes}
    {inlinedAt : List DebugLoc} (h : x.location = some (p ++ 58 :: q, inlinedAt))
    (hinlined : ¬ HasInlined (p ++ 58 :: q)) (hp : 58 ∉ p) {line col : UInt32}
    {position : SourceLocation}
    (hposition : printedPosition asserts (x.text line col) = .ok (some position)) :
    SimpleAtoi (before 58 q) = some position.line := by
  have htrimmed := trimInlined_text x h hinlined line col
  rw [List.append_assoc, List.cons_append] at htrimmed
  rw [printedPosition, if_pos ⟨x.bar_mem_text line col, by rw [htrimmed]; simp⟩, htrimmed,
    before_append hp, after_append hp] at hposition
  have hline := line_of_positionAfter hposition
  rwa [before_append_cons] at hline

namespace Local
variable {x : Local}

theorem position_some {file : Bytes} {inlinedAt : List DebugLoc}
    (h : x.location = some (file, inlinedAt)) {line col : UInt32} (hline : line ≠ 0)
    (hcol : col ≠ 0) : x.position line col = some ⟨baseName file, line.toNat, col.toNat⟩ := by
  simp [position, h, hline, hcol]

theorem position_none {line col : UInt32} (h : line = 0 ∨ col = 0) : x.position line col = none := by
  rw [position, Option.bind_eq_none_iff]
  intro location _
  exact if_pos h

/-- A local without a location. -/
theorem printedPosition_none_iff (asserts : Bool) (h : x.location = none) :
    (∀ line col, printedPosition asserts (x.text line col) = .ok (x.position line col)) ↔
      x.Unambiguous asserts := by
  have hposition : ∀ line col, x.position line col = none := by
    intro line col
    rw [position, h]
    rfl
  have htrimmed : ∀ line col, trimInlined (x.text line col) = 124 :: x.trimmedName := by
    intro line col
    rw [x.text_none h, trimInlined_cons_of_ne (by decide)]
    rfl
  have hprinted : ∀ a rest line col, x.trimmedName = a ++ 58 :: rest → 58 ∉ a →
      printedPosition asserts (x.text line col) = positionAfter asserts (124 :: a) rest := by
    intro a rest line col hname ha
    have hbar : 58 ∉ 124 :: a := by
      simp [ha]
    have heq : trimInlined (x.text line col) = (124 :: a) ++ 58 :: rest := by
      rw [htrimmed, hname, List.cons_append]
    rw [printedPosition, if_pos ⟨x.bar_mem_text line col, by rw [heq]; simp⟩, heq,
      before_append hbar, after_append hbar]
  have hpath : ∀ a : Bytes, asserts = true → 124 :: a ≠ [] := fun a _ => List.cons_ne_nil _ _
  unfold Unambiguous
  rw [h]
  constructor
  · intro hall a LineNoStr tail hname ha hline
    have hnone := hall 0 0
    rw [hposition, hprinted a _ 0 0 hname ha] at hnone
    exact (positionAfter_eq_none_iff (hpath a) hline).mp hnone
  · intro hnames line col
    rw [hposition]
    by_cases hcolon : 58 ∈ x.trimmedName
    · obtain ⟨a, rest, hname, ha⟩ := List.eq_append_cons_of_mem hcolon
      rw [hprinted a rest line col hname ha]
      by_cases hrest : 58 ∈ rest
      · obtain ⟨LineNoStr, tail, rfl, hline⟩ := List.eq_append_cons_of_mem hrest
        rw [positionAfter_eq_none_iff (hpath a) hline]
        exact hnames a LineNoStr tail hname ha hline
      · exact positionAfter_of_not_mem (hpath a) hrest
    · rw [printedPosition, if_neg]
      rw [htrimmed]
      simp [hcolon]

/-- A local with a location. -/
theorem printedPosition_some_iff (asserts : Bool) {file : Bytes} {inlinedAt : List DebugLoc}
    (h : x.location = some (file, inlinedAt)) :
    (∀ line col, printedPosition asserts (x.text line col) = .ok (x.position line col)) ↔
      x.Unambiguous asserts := by
  unfold Unambiguous
  rw [h]
  constructor
  · intro hall
    have hfirst := hall 1 1
    have hsecond := hall 2 1
    rw [position_some h (by decide) (by decide)] at hfirst hsecond
    -- The line is read from the name, so it is not read from the path.
    have hinlined : ¬ HasInlined file := by
      intro hfile
      rw [printedPosition_of_hasInlined asserts x h hfile] at hfirst hsecond
      have hsame := hfirst.symm.trans hsecond
      simp at hsame
    have hcolon : 58 ∉ file := by
      intro hmem
      obtain ⟨p, q, rfl, hp⟩ := List.eq_append_cons_of_mem hmem
      have hsame := (line_of_printedPosition h hinlined hp hfirst).symm.trans
        (line_of_printedPosition h hinlined hp hsecond)
      simp at hsame
    have hpath : asserts = true → file ≠ [] := by
      rintro rfl rfl
      rw [printedPosition_text true x h hinlined hcolon] at hfirst
      cases hfirst
    rw [printedPosition_text asserts x h hinlined hcolon,
      positionAfter_numbers hpath (by decide) (by decide)] at hfirst
    have hname : fileName file = baseName file := by
      simpa using hfirst
    refine ⟨(fileName_eq_iff file).mp hname, hcolon, hinlined, hpath, ?_⟩
    rintro rfl a tail htrimmed ha
    have hnone := hall 1 0
    rw [position_none (Or.inr rfl), printedPosition_text asserts x h hinlined hcolon,
      htrimmed] at hnone
    exact not_mem_of_positionAfter hpath ha hnone
  · rintro ⟨hnamed, hcolon, hinlined, hpath, hname⟩ line col
    rw [printedPosition_text asserts x h hinlined hcolon]
    by_cases hcol : col = 0
    · subst hcol
      rw [position_none (Or.inr rfl)]
      exact positionAfter_decimal hpath hname
    by_cases hline : line = 0
    · subst hline
      rw [position_none (Or.inl rfl), numbers, if_neg hcol, List.append_assoc, List.cons_append,
        positionAfter_eq_none_iff hpath (not_mem_decimal (Or.inr (by decide)) _)]
      exact Or.inl ((head?_decimal _).mpr rfl)
    · rw [position_some h hline hcol, positionAfter_numbers hpath hline hcol,
        (fileName_eq_iff file).mpr hnamed]

end Local

/-- A local of a file right under the root. -/
def underRoot : Local where
  location := some (ascii "/main.c", [])
  LocalName := ascii "x"
  operand := ascii "%1"
  location_nul := by
    rintro file inlinedAt ⟨⟩
    decide
  name_nul := by decide

end Bracelet.Edges.DebugLocations
