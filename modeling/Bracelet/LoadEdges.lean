import Bracelet.TargetFunctions
import Bracelet.UnitFiles
import Bracelet.Utf8

/-!
# Reading the tables in Python

`points_to/load.py` reads the directory of a function.  The tables are text files of lines of cells;
a line is stripped before it is split at its tabs (`read_tsv`), so a table has fewer cells in a line
whose last cells are blank.  Numbers are read by `int`, without the digits of other scripts.

`gunzip` decompresses a table that starts like a compressed one.  What raises an exception is
`none`.
-/
namespace Bracelet.Edges.LoadEdges

/-- Text as Python has it. -/
abbrev Text := List Char

/-! ## Numbers -/

/-- The value of a digit or letter. -/
def charValue (c : Char) : Option Nat :=
  if '0' ≤ c ∧ c ≤ '9' then some (c.toNat - 48)
  else if 'a' ≤ c ∧ c ≤ 'z' then some (c.toNat - 87)
  else if 'A' ≤ c ∧ c ≤ 'Z' then some (c.toNat - 55)
  else none

/-- Takes a digit of the base to the number that the digits before it make. -/
def addDigit (base n : Nat) (c : Char) : Option Nat :=
  match charValue c with
  | some d => if d < base then some (n * base + d) else none
  | none => none

/-- Digits, with single underscores between them. -/
def parseDigits (base : Nat) (x : Text) : Option Nat :=
  let groups := x.splitOn '_'
  if [] ∈ groups then none else groups.flatten.foldlM (addDigit base) 0

/-- Without the prefix of hexadecimal numbers, and an underscore after it. -/
def withoutPrefix (base : Nat) : Text → Text
  | '0' :: x :: rest =>
    if base = 16 ∧ (x = 'x' ∨ x = 'X') then
      if rest.head? = some '_' then rest.tail else rest
    else '0' :: x :: rest
  | x => x

/-- `int(x, base)` -/
def parseInt (base : Nat) (x : Text) : Option Int :=
  match strip x with
  | '-' :: x => (parseDigits base (withoutPrefix base x)).map fun n => -(n : Int)
  | '+' :: x => (parseDigits base (withoutPrefix base x)).map Int.ofNat
  | x => (parseDigits base (withoutPrefix base x)).map Int.ofNat

/-! ## Tables -/

/-- Line ends are read as `\n`. -/
def translateNewlines : Text → Text
  | '\r' :: '\n' :: text => '\n' :: translateNewlines text
  | '\r' :: text => '\n' :: translateNewlines text
  | c :: text => c :: translateNewlines text
  | [] => []

/-- The cells of the lines of a text. -/
def tsvRows (text : Text) : List (List Text) :=
  ((((translateNewlines text).splitOn '\n').map strip).filter (· ≠ [])).map (·.splitOn '\t')

section
variable (gunzip : Bytes → Option Bytes)

def read_tsv (file : Bytes) : Option (List (List Text)) := do
  let is_gzip := file.take 2 = [0x1f, 0x8b]
  let text ← Utf8.decode (← if is_gzip then gunzip file else some file)
  return tsvRows text

/-- `load.Node` -/
structure LoadedNode where
  symbol : Int
  local_idx : Option Int
  deriving DecidableEq, Repr

/-- `Node.parse` -/
def LoadedNode.parse (x : Text) : Option LoadedNode :=
  match x.splitOn ':' with
  | [symbol] => do return ⟨← parseInt 16 symbol, none⟩
  | [symbol, local_idx] => do return ⟨← parseInt 16 symbol, some (← parseInt 16 local_idx)⟩
  | _ => none

/-- An edge: its first field, its second and, of an edge of three fields, the third. -/
structure LoadedEdge where
  dst : LoadedNode
  src : LoadedNode
  idx : Option Int
  deriving DecidableEq, Repr

/-- `Edge.read`, of a class with the given number of fields. -/
def LoadedEdge.read (fields : Nat) (file : Bytes) : Option (List LoadedEdge) := do
  let rows ← read_tsv gunzip file
  rows.mapM fun row =>
    match fields, row with
    | 2, [dst, src] => do return ⟨← LoadedNode.parse dst, ← LoadedNode.parse src, none⟩
    | 3, [dst, src, idx] => do
      return ⟨← LoadedNode.parse dst, ← LoadedNode.parse src, some (← parseInt 10 idx)⟩
    | _, _ => none

/-- `DebugTable`: the names of nodes, row by row, which `forward` and `reverse` group. -/
abbrev DebugTable := List (LoadedNode × Text)

/-- `DebugTable.read` -/
def DebugTable.read (file : Bytes) : Option DebugTable := do
  let rows ← read_tsv gunzip file
  rows.mapM fun row =>
    match row with
    | [node_str, pretty] => do return (← LoadedNode.parse node_str, pretty)
    | _ => none

/-- The nodes of `IsAlloca.facts`, of which the first cell is read. -/
def readAllocas (file : Bytes) : Option (List LoadedNode) := do
  let rows ← read_tsv gunzip file
  rows.mapM fun row => do LoadedNode.parse (← row[0]?)

/-- `load.Edges` -/
structure LoadedEdges where
  function : LoadedNode
  debug_table : DebugTable
  is_alloca : List LoadedNode
  assign : List LoadedEdge
  load : List LoadedEdge
  store : List LoadedEdge
  call : List LoadedEdge
  ret : List LoadedEdge
  argument_definition : List LoadedEdge
  argument_supply : List LoadedEdge

/-- **`Edges.read`**, of the directory with a name. -/
def LoadedEdges.read (name : Text) (directory : String → Option Bytes) : Option LoadedEdges := do
  return {
    function := ← LoadedNode.parse name
    debug_table := ← DebugTable.read gunzip (← directory "DebugTable.facts")
    is_alloca := ← readAllocas gunzip (← directory "IsAlloca.facts")
    assign := ← LoadedEdge.read gunzip 2 (← directory "Assign.facts")
    load := ← LoadedEdge.read gunzip 2 (← directory "Load.facts")
    store := ← LoadedEdge.read gunzip 2 (← directory "Store.facts")
    call := ← LoadedEdge.read gunzip 3 (← directory "Call.facts")
    ret := ← LoadedEdge.read gunzip 2 (← directory "Return.facts")
    argument_definition := ← LoadedEdge.read gunzip 3 (← directory "ArgumentDefinition.facts")
    argument_supply := ← LoadedEdge.read gunzip 3 (← directory "ArgumentSupply.facts") }

end

/-! ## Printed numbers -/

theorem charValue_digitChar : ∀ d < 16, charValue (Nat.digitChar d) = some d := by decide

/-- Digits are printed as what a cell is made of. -/
theorem digitChar_plain : ∀ d < 16, isspace (Nat.digitChar d) = false ∧
    Nat.digitChar d ∉ ['_', ':', '-', '+'] ∧ Utf8.Ascii (Nat.digitChar d) := by decide

section
variable {base : Nat} (hbase : 1 < base)
include hbase

theorem mem_toDigits {n : Nat} : ∀ c ∈ Nat.toDigits base n, ∃ d < base, c = Nat.digitChar d := by
  induction n using Nat.strong_induction_on with
  | h n ih =>
    intro c hc
    by_cases hn : n < base
    · rw [Nat.toDigits_of_lt_base hn, List.mem_singleton] at hc
      exact ⟨n, hn, hc⟩
    · rw [Nat.toDigits_of_base_le hbase (Nat.le_of_not_lt hn), List.mem_append,
        List.mem_singleton] at hc
      rcases hc with hc | hc
      · exact ih (n / base) (Nat.div_lt_self (by omega) hbase) c hc
      · exact ⟨n % base, Nat.mod_lt _ (by omega), hc⟩

theorem foldlM_toDigits (hsixteen : base ≤ 16) (n : Nat) :
    (Nat.toDigits base n).foldlM (addDigit base) 0 = some n := by
  have hdigit : ∀ m d, d < base → addDigit base m (Nat.digitChar d) = some (m * base + d) := by
    intro m d hd
    rw [addDigit, charValue_digitChar d (by omega)]
    exact if_pos hd
  induction n using Nat.strong_induction_on with
  | h n ih =>
    by_cases hn : n < base
    · rw [Nat.toDigits_of_lt_base hn]
      simpa using hdigit 0 n hn
    · rw [Nat.toDigits_of_base_le hbase (Nat.le_of_not_lt hn), List.foldlM_append,
        ih (n / base) (Nat.div_lt_self (by omega) hbase)]
      have hlast := hdigit (n / base) (n % base) (Nat.mod_lt _ (by omega))
      rw [Nat.div_add_mod'] at hlast
      simpa using hlast

end

/-- A cell of digits, letters and colons, which is read as it stands. -/
def Solid (x : Text) : Prop := x ≠ [] ∧ ∀ c ∈ x, isspace c = false ∧ Utf8.Ascii c

theorem dropWhile_isspace {x : Text} (h : ∀ c ∈ x.head?, isspace c = false) :
    x.dropWhile isspace = x := by
  cases x with
  | nil => rfl
  | cons c x => exact List.dropWhile_cons_of_neg (by simp [h c rfl])

theorem strip_eq_self {x : Text} (hhead : ∀ c ∈ x.head?, isspace c = false)
    (hlast : ∀ c ∈ x.getLast?, isspace c = false) : strip x = x := by
  rw [strip, dropWhile_isspace hhead, dropWhile_isspace (by rwa [List.head?_reverse]),
    List.reverse_reverse]

theorem Solid.strip {x : Text} (h : Solid x) : strip x = x :=
  strip_eq_self (fun c hc => (h.2 c (List.mem_of_mem_head? hc)).1)
    fun c hc => (h.2 c (List.mem_of_mem_getLast? hc)).1

/-- Digits, without a sign or a prefix. -/
structure Digits (base : Nat) (x : Text) (n : Nat) : Prop where
  ne_nil : x ≠ []
  digit : ∀ c ∈ x, ∃ d < 16, c = Nat.digitChar d
  value : x.foldlM (addDigit base) 0 = some n

namespace Digits
variable {base : Nat} {x : Text} {n : Nat} (h : Digits base x n)
include h

theorem solid : Solid x := by
  refine ⟨h.ne_nil, fun c hc => ?_⟩
  obtain ⟨d, hd, rfl⟩ := h.digit c hc
  exact ⟨(digitChar_plain d hd).1, (digitChar_plain d hd).2.2⟩

theorem not_mem {c : Char} (hc : c ∈ ['_', ':', '-', '+']) : c ∉ x := by
  intro hmem
  obtain ⟨d, hd, rfl⟩ := h.digit c hmem
  exact (digitChar_plain d hd).2.1 hc

theorem parseDigits_eq : parseDigits base x = some n := by
  have hgroups : x.splitOn '_' = [x] := List.splitOn_eq_singleton (h.not_mem (by decide))
  have hne : [] ∉ [x] := fun hmem => h.ne_nil (List.mem_singleton.mp hmem).symm
  simp only [parseDigits, hgroups, if_neg hne, List.flatten_singleton, h.value]

end Digits

theorem digits_toDigits {base : Nat} (hbase : 1 < base) (hsixteen : base ≤ 16) (n : Nat) :
    Digits base (Nat.toDigits base n) n where
  ne_nil := Nat.toDigits_ne_nil
  digit c hc := by
    obtain ⟨d, hd, rfl⟩ := mem_toDigits hbase c hc
    exact ⟨d, by omega, rfl⟩
  value := foldlM_toDigits hbase hsixteen n

/-- Zeros in front do not change a number. -/
theorem Digits.replicate {base : Nat} (hbase : 1 < base) {x : Text} {n : Nat}
    (h : Digits base x n) (k : Nat) : Digits base (List.replicate k '0' ++ x) n where
  ne_nil := List.append_ne_nil_of_right_ne_nil _ h.ne_nil
  digit c hc := by
    rcases List.mem_append.mp hc with hc | hc
    · exact ⟨0, by decide, List.eq_of_mem_replicate hc⟩
    · exact h.digit c hc
  value := by
    have hzero : addDigit base 0 '0' = some 0 := by
      rw [addDigit, show charValue '0' = some 0 from rfl]
      simp [Nat.lt_of_lt_of_le Nat.zero_lt_one (Nat.le_of_lt hbase)]
    induction k with
    | zero => exact h.value
    | succ k ih =>
      rw [List.replicate_succ, List.cons_append, List.foldlM_cons, hzero]
      exact ih

theorem withoutPrefix_of_ne {base : Nat} (hbase : base ≠ 16) (x : Text) :
    withoutPrefix base x = x := by
  unfold withoutPrefix
  split
  · rw [if_neg fun h => hbase h.1]
  · rfl

theorem parseInt_ten {x : Text} {n : Nat} (h : Digits 10 x n) : parseInt 10 x = some (n : Int) := by
  rw [parseInt, h.solid.strip]
  have hminus := h.not_mem (show '-' ∈ ['_', ':', '-', '+'] by decide)
  have hplus := h.not_mem (show '+' ∈ ['_', ':', '-', '+'] by decide)
  split
  next => simp at hminus
  next => simp at hplus
  next =>
    rw [withoutPrefix_of_ne (by decide), h.parseDigits_eq]
    rfl

theorem parseInt_hex {x : Text} {n : Nat} (h : Digits 16 x n) :
    parseInt 16 ('0' :: 'x' :: x) = some (n : Int) := by
  have hstrip : strip ('0' :: 'x' :: x) = '0' :: 'x' :: x := by
    refine strip_eq_self (fun c hc => ?_) fun c hc => ?_
    · obtain rfl := Option.some.inj hc
      decide
    · rw [List.getLast?_cons_cons, List.getLast?_cons_of_ne_nil h.ne_nil] at hc
      exact (h.solid.2 c (List.mem_of_mem_getLast? hc)).1
  have hunderscore : x.head? ≠ some '_' := fun hhead =>
    h.not_mem (show '_' ∈ ['_', ':', '-', '+'] by decide) (List.mem_of_mem_head? hhead)
  have hstarts : withoutPrefix 16 ('0' :: 'x' :: x) = x := by
    simp [withoutPrefix, hunderscore]
  rw [parseInt, hstrip]
  show (parseDigits 16 (withoutPrefix 16 ('0' :: 'x' :: x))).map Int.ofNat = _
  rw [hstarts, h.parseDigits_eq]
  rfl

/-! ## Lines -/

theorem translateNewlines_eq_self {text : Text} (h : '\r' ∉ text) :
    translateNewlines text = text := by
  induction text using translateNewlines.induct with
  | case1 text ih => simp at h
  | case2 text hnot ih => simp at h
  | case3 c text hnot hnot' ih =>
    rw [List.mem_cons, not_or] at h
    rw [translateNewlines, ih h.2]
    · exact fun text' => hnot text'
    · exact hnot'
  | case4 => rfl

theorem splitOn_lines {lines : List Text} (h : ∀ l ∈ lines, '\n' ∉ l) :
    (lines.flatMap (· ++ ['\n'])).splitOn '\n' = lines ++ [[]] := by
  induction lines with
  | nil => rfl
  | cons l lines ih =>
    rw [List.forall_mem_cons] at h
    have hline : (l :: lines).flatMap (· ++ ['\n']) = l ++ '\n' :: lines.flatMap (· ++ ['\n']) := by
      simp
    rw [hline, List.splitOn_append_cons_self, List.splitOn_eq_singleton h.1, ih h.2]
    rfl

/-- The cells of lines: blank lines have none. -/
theorem tsvRows_lines {lines : List Text} (h : ∀ l ∈ lines, '\n' ∉ l ∧ '\r' ∉ l) :
    tsvRows (lines.flatMap (· ++ ['\n'])) =
      ((lines.map strip).filter (· ≠ [])).map (·.splitOn '\t') := by
  have hreturn : '\r' ∉ lines.flatMap (· ++ ['\n']) := by
    simp only [List.mem_flatMap, List.mem_append, List.mem_singleton, not_exists, not_and, not_or]
    exact fun l hl => ⟨(h l hl).2, by decide⟩
  rw [tsvRows, translateNewlines_eq_self hreturn, splitOn_lines fun l hl => (h l hl).1,
    List.map_append, List.filter_append]
  simp [strip]

theorem Solid.not_mem {x : Text} (h : Solid x) {c : Char} (hc : isspace c = true) : c ∉ x := by
  intro hmem
  rw [(h.2 c hmem).1] at hc
  cases hc

/-- The line of some cells. -/
def line (row : List Text) : Text := ['\t'].intercalate row

/-- A line of solid cells starts and ends with no space, and has tabs for spaces. -/
structure Ruled (l : Text) : Prop where
  ne_nil : l ≠ []
  head : ∀ c ∈ l.head?, isspace c = false
  last : ∀ c ∈ l.getLast?, isspace c = false
  tab : ∀ c ∈ l, isspace c = true → c = '\t'
  ascii : ∀ c ∈ l, Utf8.Ascii c

theorem Solid.ruled {x : Text} (h : Solid x) : Ruled x where
  ne_nil := h.1
  head c hc := (h.2 c (List.mem_of_mem_head? hc)).1
  last c hc := (h.2 c (List.mem_of_mem_getLast? hc)).1
  tab _ hc hspace := absurd hc (h.not_mem hspace)
  ascii c hc := (h.2 c hc).2

theorem Solid.ruled_cons {x l : Text} (h : Solid x) (hl : Ruled l) : Ruled (x ++ '\t' :: l) where
  ne_nil := List.append_ne_nil_of_left_ne_nil h.1 _
  head c hc := by
    rw [List.head?_append_of_ne_nil _ h.1] at hc
    exact h.ruled.head c hc
  last c hc := by
    rw [List.getLast?_append_of_ne_nil _ (List.cons_ne_nil _ _),
      List.getLast?_cons_of_ne_nil hl.ne_nil] at hc
    exact hl.last c hc
  tab c hc hspace := by
    rw [List.mem_append, List.mem_cons] at hc
    rcases hc with hc | rfl | hc
    · exact h.ruled.tab c hc hspace
    · rfl
    · exact hl.tab c hc hspace
  ascii c hc := by
    rw [List.mem_append, List.mem_cons] at hc
    rcases hc with hc | rfl | hc
    · exact (h.2 c hc).2
    · decide
    · exact hl.ascii c hc

theorem ruled_line {row : List Text} (hne : row ≠ []) (h : ∀ cell ∈ row, Solid cell) :
    Ruled (line row) := by
  induction row with
  | nil => exact absurd rfl hne
  | cons x row ih =>
    rw [List.forall_mem_cons] at h
    cases row with
    | nil =>
      rw [line, List.intercalate_singleton]
      exact h.1.ruled
    | cons y row =>
      have hrest := h.1.ruled_cons (ih (List.cons_ne_nil _ _) h.2)
      rw [line, List.intercalate_cons_cons]
      simpa [line] using hrest

theorem Ruled.not_mem {l : Text} (h : Ruled l) {c : Char} (hc : isspace c = true)
    (htab : c ≠ '\t') : c ∉ l := fun hmem => htab (h.tab c hmem hc)

/-- **A table of solid cells is read as it is.** -/
theorem tsvRows_rows {rows : List (List Text)}
    (h : ∀ row ∈ rows, row ≠ [] ∧ ∀ cell ∈ row, Solid cell) :
    tsvRows (rows.flatMap fun row => line row ++ ['\n']) = rows := by
  have hruled : ∀ row ∈ rows, Ruled (line row) := fun row hrow =>
    ruled_line (h row hrow).1 (h row hrow).2
  have hlines : (rows.flatMap fun row => line row ++ ['\n']) =
      (rows.map line).flatMap (· ++ ['\n']) := by
    rw [List.flatMap_map]
  have hstrip : (rows.map line).map strip = rows.map line := by
    rw [List.map_map]
    exact List.map_congr_left fun row hrow =>
      strip_eq_self (hruled row hrow).head (hruled row hrow).last
  have hfilter : (rows.map line).filter (· ≠ []) = rows.map line := by
    rw [List.filter_eq_self]
    intro l hl
    obtain ⟨row, hrow, rfl⟩ := List.mem_map.mp hl
    exact decide_eq_true (hruled row hrow).ne_nil
  have hcells : (rows.map line).map (·.splitOn '\t') = rows := by
    rw [List.map_map]
    conv_rhs => rw [← List.map_id rows]
    refine List.map_congr_left fun row hrow => ?_
    exact List.splitOn_intercalate '\t' (fun cell hcell =>
      ((h row hrow).2 cell hcell).not_mem (by decide)) (h row hrow).1
  rw [hlines, tsvRows_lines, hstrip, hfilter, hcells]
  intro l hl
  obtain ⟨row, hrow, rfl⟩ := List.mem_map.mp hl
  exact ⟨(hruled row hrow).not_mem (by decide) (by decide),
    (hruled row hrow).not_mem (by decide) (by decide)⟩

end Bracelet.Edges.LoadEdges
