import Bracelet.DebugLocationNames
import Bracelet.LoadEdges
import Bracelet.PrintedEdges

/-!
# Facts that Python reads back

The tables of a function as files, and what `load.Edges.read` makes of them.  A row of an edge table
is a line of cells without white space, and is read as it was printed.  A row of the `DebugTable`
ends with a name, which can be anything: it has its second cell exactly when the name is text and
not blank (`debugRow_iff`).  So the directory is read, with every edge, exactly when the names of
the symbols in it are (`read_iff`).
-/
namespace Bracelet.Edges.LoadEdges
open PrintedEdges UnitFiles DebugLocations

/-! ## The files -/

/-- The file of a kind of edges. -/
def factsName : EdgeKind → String
  | .Assign => "Assign.facts"
  | .Load => "Load.facts"
  | .Store => "Store.facts"
  | .Call => "Call.facts"
  | .Return => "Return.facts"
  | .ArgumentDefinition => "ArgumentDefinition.facts"
  | .ArgumentSupply => "ArgumentSupply.facts"
  | .DlsymPagePointer => "Dlsym.facts"

/-- The line of an edge: `printIndexedEdge` prints the index. -/
def edgeLine (PrintCallArgumentCount : Bool) (kind : EdgeKind) (e : Edge) : Bytes :=
  let ends :=
    UnitFiles.printNodePure e.to_node ++ ascii "\t" ++ UnitFiles.printNodePure e.from_node
  if kind.indexed ∧ (kind = .Call → PrintCallArgumentCount) then
    ends ++ ascii "\t" ++ decimal e.idx.toNat ++ ascii "\n"
  else ends ++ ascii "\n"

/-- The line of the `DebugTable` of a node and its name. -/
def debugLine (row : Node × Bytes) : Bytes :=
  UnitFiles.printNodePure row.1 ++ ascii "\t" ++ row.2 ++ ascii "\n"

/-- The files of a directory that `load.py` reads, and those of the other edges. -/
def directory (PrintCallArgumentCount : Bool) (tables : FactTables) (name : String) :
    Option Bytes :=
  if name = "DebugTable.facts" then some (tables.DebugTable.flatMap debugLine)
  else if name = "IsAlloca.facts" then
    some (tables.IsAlloca.flatMap fun n => UnitFiles.printNodePure n ++ ascii "\n")
  else
    (EdgeKind.all.find? (factsName · = name)).map fun kind =>
      (tables.OutputTables kind).flatMap (edgeLine PrintCallArgumentCount kind)

/-! ## Printed cells -/

def hexText (width n : Nat) : Text :=
  let digits := Nat.toDigits 16 n
  '0' :: 'x' :: (List.replicate (width - digits.length) '0' ++ digits)

def nodeText (N : Node) : Text :=
  match N.local_idx with
  | some local_idx => hexText 16 N.symbol.toNat ++ ':' :: hexText 4 local_idx.toNat
  | none => hexText 16 N.symbol.toNat

/-- The name of the directory of a function, `PathOfSymbol`. -/
def directoryName (fi : FunctionInfo) : Text := hexText 16 fi.function.symbol.toNat

/-- A node as it is read. -/
def loaded (N : Node) : LoadedNode :=
  ⟨N.symbol.toNat, N.local_idx.map fun local_idx => local_idx.toNat⟩

theorem digits_hex (width n : Nat) :
    Digits 16 (List.replicate (width - (Nat.toDigits 16 n).length) '0' ++ Nat.toDigits 16 n) n :=
  (digits_toDigits (by decide) (by decide) n).replicate (by decide) _

theorem solid_hexText (width n : Nat) : Solid (hexText width n) := by
  refine ⟨List.cons_ne_nil _ _, fun c hc => ?_⟩
  rcases List.mem_cons.mp hc with rfl | hc
  · decide
  rcases List.mem_cons.mp hc with rfl | hc
  · decide
  · exact (digits_hex width n).solid.2 c hc

theorem colon_not_mem_hexText (width n : Nat) : ':' ∉ hexText width n := by
  have hdigits := (digits_hex width n).not_mem (show ':' ∈ ['_', ':', '-', '+'] by decide)
  rw [hexText, List.mem_cons, List.mem_cons, not_or, not_or]
  exact ⟨by decide, by decide, hdigits⟩

theorem solid_nodeText (N : Node) : Solid (nodeText N) := by
  unfold nodeText
  cases N.local_idx with
  | none => exact solid_hexText _ _
  | some local_idx =>
    refine ⟨List.append_ne_nil_of_right_ne_nil _ (List.cons_ne_nil _ _), fun c hc => ?_⟩
    rw [List.mem_append, List.mem_cons] at hc
    rcases hc with hc | rfl | hc
    · exact (solid_hexText _ _).2 c hc
    · decide
    · exact (solid_hexText _ _).2 c hc

/-- **A printed node is read as the node.** -/
theorem parse_nodeText (N : Node) : LoadedNode.parse (nodeText N) = some (loaded N) := by
  have hhex : ∀ width n : Nat, parseInt 16 (hexText width n) = some (n : Int) :=
    fun width n => parseInt_hex (digits_hex width n)
  unfold nodeText loaded
  cases N.local_idx with
  | none =>
    rw [LoadedNode.parse, List.splitOn_eq_singleton (colon_not_mem_hexText _ _)]
    simp [hhex]
  | some local_idx =>
    rw [LoadedNode.parse, List.splitOn_append_cons_self,
      List.splitOn_eq_singleton (colon_not_mem_hexText _ _),
      List.splitOn_eq_singleton (colon_not_mem_hexText _ _)]
    simp [hhex]

theorem parse_directoryName (fi : FunctionInfo) :
    LoadedNode.parse (directoryName fi) = some ⟨fi.function.symbol.toNat, none⟩ := by
  rw [directoryName, LoadedNode.parse, List.splitOn_eq_singleton (colon_not_mem_hexText _ _)]
  simp [hexText, parseInt_hex (digits_hex _ _)]

/-! ## Bytes of cells -/

theorem encode_ofList {text : Text} (h : ∀ c ∈ text, Utf8.Ascii c) :
    ascii (String.ofList text) = Utf8.encode text := by
  rw [Utf8.encode_ascii h, ascii, String.toList_ofList]

theorem encode_hexText (width n : Nat) : hexPadded width n = Utf8.encode (hexText width n) := by
  have hdigits := encode_ofList fun c hc => ((digits_hex width n).solid.2 c hc).2
  have hzerox : ascii "0x" = Utf8.encode ['0', 'x'] := rfl
  rw [hexPadded, hdigits, hzerox, ← Utf8.encode_append]
  rfl

theorem encode_nodeText (N : Node) : UnitFiles.printNodePure N = Utf8.encode (nodeText N) := by
  unfold UnitFiles.printNodePure nodeText
  cases N.local_idx with
  | none => exact encode_hexText _ _
  | some local_idx =>
    have hcolon : ascii ":" = Utf8.encode [':'] := rfl
    dsimp only
    rw [UnitFiles.format_hex, encode_hexText, encode_hexText, hcolon, ← Utf8.encode_append,
      ← Utf8.encode_append, List.append_assoc, List.singleton_append]

theorem encode_decimal (n : Nat) : decimal n = Utf8.encode (Nat.toDigits 10 n) := by
  rw [Utf8.encode_ascii fun c hc =>
    ((digits_toDigits (by decide) (by decide) n).solid.2 c hc).2, decimal]

/-! ## Tables of nodes -/

/-- The cells of the line of an edge. -/
def edgeCells (kind : EdgeKind) (e : Edge) : List Text :=
  let ends := [nodeText e.to_node, nodeText e.from_node]
  if kind.indexed then ends ++ [Nat.toDigits 10 e.idx.toNat] else ends

theorem edgeLine_eq (kind : EdgeKind) (e : Edge) :
    edgeLine true kind e = Utf8.encode (line (edgeCells kind e) ++ ['\n']) := by
  have htab : ascii "\t" = Utf8.encode ['\t'] := rfl
  have hend : ascii "\n" = Utf8.encode ['\n'] := rfl
  unfold edgeLine edgeCells line
  simp only [htab, hend, encode_nodeText, encode_decimal, ← Utf8.encode_append]
  cases kind.indexed <;> simp [List.intercalate_cons_cons]

theorem solid_edgeCells (kind : EdgeKind) (e : Edge) :
    edgeCells kind e ≠ [] ∧ ∀ cell ∈ edgeCells kind e, Solid cell := by
  have hindex := (digits_toDigits (show 1 < 10 by decide) (by decide) e.idx.toNat).solid
  unfold edgeCells
  cases kind.indexed <;> simp [solid_nodeText, hindex]

section
variable (gunzip : Bytes → Option Bytes)

/-- Files that do not start like a compressed one are read as they are. -/
theorem read_tsv_eq {file : Bytes} (h : file.head? ≠ some 0x1f) :
    read_tsv gunzip file = (Utf8.decode file).map tsvRows := by
  have hplain : file.take 2 ≠ [0x1f, 0x8b] := by
    intro htake
    cases file with
    | nil => cases htake
    | cons b file => exact h (congrArg some (List.cons_eq_cons.mp htake).1)
  rw [read_tsv, if_neg hplain]
  show (do let text ← Utf8.decode file; pure (tsvRows text)) = _
  cases Utf8.decode file <;> rfl

/-- A printed node starts with a zero. -/
theorem head?_printNodePure (N : Node) (rest : Bytes) :
    (UnitFiles.printNodePure N ++ rest).head? = some 48 := by
  rw [encode_nodeText]
  unfold nodeText
  cases N.local_idx <;> rfl

theorem head?_flatMap {α : Type} {bytes : α → Bytes} (h : ∀ a, (bytes a).head? = some 48)
    (l : List α) : (l.flatMap bytes).head? ≠ some 0x1f := by
  cases l with
  | nil => simp
  | cons a l =>
    have hne : bytes a ≠ [] := fun hnil => by simpa [hnil] using h a
    rw [List.flatMap_cons, List.head?_append_of_ne_nil _ hne, h a]
    decide

/-- **A table of solid cells is read as it was printed.** -/
theorem read_tsv_table {α : Type} {bytes : α → Bytes} {cells : α → List Text}
    (hbytes : ∀ a, bytes a = Utf8.encode (line (cells a) ++ ['\n']))
    (hsolid : ∀ a, cells a ≠ [] ∧ ∀ cell ∈ cells a, Solid cell)
    (hhead : ∀ a, (bytes a).head? = some 48) (l : List α) :
    read_tsv gunzip (l.flatMap bytes) = some (l.map cells) := by
  have htext : l.flatMap bytes =
      Utf8.encode ((l.map cells).flatMap fun row => line row ++ ['\n']) := by
    rw [List.flatMap_map]
    induction l with
    | nil => rfl
    | cons a l ih => rw [List.flatMap_cons, List.flatMap_cons, Utf8.encode_append, ih, hbytes]
  rw [read_tsv_eq gunzip (head?_flatMap hhead l), htext, Utf8.decode_encode, Option.map_some,
    tsvRows_rows]
  intro row hrow
  obtain ⟨a, -, rfl⟩ := List.mem_map.mp hrow
  exact hsolid a

theorem mapM_eq_some {α β : Type} {f : α → Option β} {g : α → β} (h : ∀ a, f a = some (g a))
    (l : List α) : l.mapM f = some (l.map g) := by
  induction l with
  | nil => rfl
  | cons a l ih => rw [List.mapM_cons, h a, ih]; rfl

/-- An edge as it is read. -/
def loadedEdge (kind : EdgeKind) (e : Edge) : LoadedEdge :=
  ⟨loaded e.to_node, loaded e.from_node, if kind.indexed then some e.idx.toNat else none⟩

/-- **The edges of a kind are read as they were printed.** -/
theorem read_edges (kind : EdgeKind) (edges : List Edge) :
    LoadedEdge.read gunzip kind.NUM_COMPONENTS (edges.flatMap (edgeLine true kind)) =
      some (edges.map (loadedEdge kind)) := by
  have hhead : ∀ e, (edgeLine true kind e).head? = some 48 := by
    intro e
    unfold edgeLine
    dsimp only
    split_ifs <;> simp only [List.append_assoc, head?_printNodePure]
  have hindex : ∀ e : Edge, parseInt 10 (Nat.toDigits 10 e.idx.toNat) = some (e.idx.toNat : Int) :=
    fun e => parseInt_ten (digits_toDigits (by decide) (by decide) e.idx.toNat)
  rw [LoadedEdge.read, read_tsv_table gunzip (edgeLine_eq kind) (solid_edgeCells kind) hhead]
  simp only [Option.bind_eq_bind, Option.bind_some, List.mapM_map]
  refine mapM_eq_some (fun e => ?_) edges
  unfold EdgeKind.NUM_COMPONENTS edgeCells loadedEdge
  cases kind.indexed <;> simp [parse_nodeText, hindex]

theorem read_allocas (nodes : List Node) :
    readAllocas gunzip (nodes.flatMap fun n => UnitFiles.printNodePure n ++ ascii "\n") =
      some (nodes.map loaded) := by
  have hbytes : ∀ n, UnitFiles.printNodePure n ++ ascii "\n" =
      Utf8.encode (line [nodeText n] ++ ['\n']) := by
    intro n
    rw [encode_nodeText, line, List.intercalate_singleton, Utf8.encode_append]
    rfl
  rw [readAllocas, read_tsv_table gunzip hbytes (fun n => ⟨List.cons_ne_nil _ _, by
    simpa using solid_nodeText n⟩) fun n => head?_printNodePure n _]
  simp only [Option.bind_eq_bind, Option.bind_some, List.mapM_map]
  exact mapM_eq_some (fun n => parse_nodeText n) nodes

end

/-! ## The debug table -/

/-- Without control characters. -/
def NoControl (name : Bytes) : Prop := ∀ b ∈ name, 32 ≤ b.toNat ∧ b.toNat ≠ 127

instance (name : Bytes) : Decidable (NoControl name) :=
  List.decidableBAll _ name

/-- The name is text, and not blank. -/
def Readable (name : Bytes) : Prop :=
  ∃ text, Utf8.decode name = some text ∧ ∃ c ∈ text, isspace c = false

/-- The line of a node and its name, as text. -/
def namedLine (row : Node × Text) : Text := nodeText row.1 ++ '\t' :: row.2

theorem encode_namedLine (row : Node × Text) :
    Utf8.encode (namedLine row ++ ['\n']) = debugLine (row.1, Utf8.encode row.2) := by
  have htab : ascii "\t" = Utf8.encode ['\t'] := rfl
  have hend : ascii "\n" = Utf8.encode ['\n'] := rfl
  simp [debugLine, namedLine, encode_nodeText, htab, hend, ← Utf8.encode_append]

theorem encode_namedLines (named : List (Node × Text)) :
    Utf8.encode (named.flatMap fun row => namedLine row ++ ['\n']) =
      (named.map fun row => (row.1, Utf8.encode row.2)).flatMap debugLine := by
  induction named with
  | nil => rfl
  | cons row named ih =>
    rw [List.flatMap_cons, List.map_cons, List.flatMap_cons, Utf8.encode_append, encode_namedLine, ih]

/-- A table that is text has names that are text. -/
theorem exists_named {rows : List (Node × Bytes)} {text : Text}
    (h : Utf8.encode text = rows.flatMap debugLine) : ∃ named : List (Node × Text),
      rows = named.map (fun row => (row.1, Utf8.encode row.2)) ∧
        text = named.flatMap fun row => namedLine row ++ ['\n'] := by
  induction rows generalizing text with
  | nil =>
    refine ⟨[], rfl, ?_⟩
    exact Utf8.encode_inj h
  | cons row rows ih =>
    obtain ⟨N, name⟩ := row
    have hline : ((N, name) :: rows).flatMap debugLine =
        (Utf8.encode (nodeText N) ++ 9 :: name) ++ 10 :: rows.flatMap debugLine := by
      simp [debugLine, encode_nodeText, show ascii "\t" = [9] by rfl, show ascii "\n" = [10] by rfl]
    rw [hline] at h
    obtain ⟨x, y, rfl, hx, hy⟩ := Utf8.encode_eq_append_cons (by decide) h
    obtain ⟨x₁, t, rfl, hx₁, rfl⟩ := Utf8.encode_eq_append_cons (by decide) hx
    obtain rfl := Utf8.encode_inj hx₁
    obtain ⟨named, rfl, rfl⟩ := ih hy
    exact ⟨(N, t) :: named, rfl, by simp [namedLine]⟩

/-- A character of one byte is in the text with its byte. -/
theorem not_mem_of_noControl {text : Text} (h : NoControl (Utf8.encode text)) {c : Char}
    (hc : c.toNat < 32) : c ∉ text := by
  intro hmem
  have hbyte : UInt8.ofNat c.toNat ∈ Utf8.encode text := by
    rw [Utf8.encode, List.mem_flatMap]
    refine ⟨c, hmem, ?_⟩
    rw [Utf8.utf8EncodeChar_ascii (Nat.lt_trans hc (by decide))]
    exact List.mem_singleton.mpr rfl
  have hle := (h _ hbyte).1
  rw [UInt8.toNat_ofNat_of_lt' (Nat.lt_trans hc (by decide))] at hle
  omega

/-- A blank name goes with the tab before it. -/
theorem strip_namedLine (row : Node × Text) : strip (namedLine row) =
    if row.2.all isspace then nodeText row.1
    else nodeText row.1 ++ '\t' :: (row.2.reverse.dropWhile isspace).reverse := by
  obtain ⟨N, t⟩ := row
  have hnode := (solid_nodeText N).ruled
  have hhead : (namedLine (N, t)).dropWhile isspace = namedLine (N, t) := by
    apply dropWhile_isspace
    rw [namedLine, List.head?_append_of_ne_nil _ hnode.ne_nil]
    exact hnode.head
  have hlast : (nodeText N).reverse.dropWhile isspace = (nodeText N).reverse :=
    dropWhile_isspace (by rw [List.head?_reverse]; exact hnode.last)
  have hempty : (t.reverse.dropWhile isspace).isEmpty = true ↔ t.all isspace = true := by
    simp [List.dropWhile_eq_nil_iff]
  rw [strip, hhead, namedLine, List.reverse_append, List.reverse_cons, List.append_assoc,
    List.dropWhile_append]
  by_cases hblank : t.all isspace = true
  · rw [if_pos (hempty.mpr hblank), if_pos hblank, List.singleton_append,
      List.dropWhile_cons_of_pos (by decide), hlast, List.reverse_reverse]
  · rw [if_neg fun h => hblank (hempty.mp h), if_neg hblank]
    simp

/-- **A row of the table is read exactly when its name is not blank.** -/
theorem debugRow_iff {row : Node × Text} (htab : '\t' ∉ row.2) :
    (∃ r, (match (strip (namedLine row)).splitOn '\t' with
        | [node_str, pretty] => do return (← LoadedNode.parse node_str, pretty)
        | _ => none : Option (LoadedNode × Text)) = some r) ↔
      ∃ c ∈ row.2, isspace c = false := by
  have hnode : '\t' ∉ nodeText row.1 := (solid_nodeText row.1).not_mem (by decide)
  rw [strip_namedLine]
  split_ifs with hblank
  · rw [List.splitOn_eq_singleton hnode]
    refine iff_of_false (fun h => ?_) fun h => ?_
    · obtain ⟨r, hr⟩ := h
      cases hr
    · obtain ⟨c, hc, hspace⟩ := h
      rw [List.all_eq_true.mp hblank c hc] at hspace
      cases hspace
  · have hname : '\t' ∉ (row.2.reverse.dropWhile isspace).reverse := by
      rw [List.mem_reverse]
      exact fun hmem => htab (List.mem_reverse.mp ((List.dropWhile_sublist _).subset hmem))
    rw [List.splitOn_append_cons_self, List.splitOn_eq_singleton hnode,
      List.splitOn_eq_singleton hname]
    refine iff_of_true ⟨_, by rw [List.singleton_append]; simp only [parse_nodeText]; rfl⟩ ?_
    simpa using hblank

theorem mapM_isSome_iff {α β : Type} {f : α → Option β} {l : List α} :
    (∃ l', l.mapM f = some l') ↔ ∀ a ∈ l, ∃ b, f a = some b := by
  induction l with
  | nil => simp
  | cons a l ih =>
    rw [List.forall_mem_cons, ← ih, List.mapM_cons]
    constructor
    · intro h
      obtain ⟨l', h⟩ := h
      obtain ⟨b, hb, h⟩ := Option.bind_eq_some_iff.mp h
      obtain ⟨bs, hbs, -⟩ := Option.bind_eq_some_iff.mp h
      exact ⟨⟨b, hb⟩, bs, hbs⟩
    · rintro ⟨⟨b, hb⟩, bs, hbs⟩
      exact ⟨b :: bs, by rw [hb, hbs]; rfl⟩

/-- Readable names are text. -/
theorem exists_text {rows : List (Node × Bytes)} (h : ∀ row ∈ rows, Readable row.2) :
    ∃ text, Utf8.decode (rows.flatMap debugLine) = some text := by
  induction rows with
  | nil => exact ⟨[], Utf8.decode_encode []⟩
  | cons row rows ih =>
    rw [List.forall_mem_cons] at h
    obtain ⟨name, hname, -⟩ := h.1
    obtain ⟨text, htext⟩ := ih h.2
    refine ⟨(namedLine (row.1, name) ++ ['\n']) ++ text, ?_⟩
    rw [Utf8.decode_eq_some, Utf8.encode_append, encode_namedLine, Utf8.decode_eq_some.mp hname,
      Utf8.decode_eq_some.mp htext, List.flatMap_cons]

theorem readable_encode {text : Text} :
    Readable (Utf8.encode text) ↔ ∃ c ∈ text, isspace c = false := by
  simp [Readable, Utf8.decode_encode]

/-- The cells of the lines of names. -/
theorem tsvRows_named {named : List (Node × Text)}
    (hcontrol : ∀ row ∈ named, NoControl (Utf8.encode row.2)) :
    tsvRows (named.flatMap fun row => namedLine row ++ ['\n']) =
      named.map fun row => (strip (namedLine row)).splitOn '\t' := by
  have hlines : (named.flatMap fun row => namedLine row ++ ['\n']) =
      (named.map namedLine).flatMap (· ++ ['\n']) := by
    rw [List.flatMap_map]
  have hfilter : ((named.map namedLine).map strip).filter (· ≠ []) =
      (named.map namedLine).map strip := by
    rw [List.filter_eq_self]
    simp only [List.map_map, List.mem_map]
    rintro l ⟨row, -, rfl⟩
    have hne := (solid_nodeText row.1).1
    rw [Function.comp_apply, strip_namedLine, decide_eq_true_eq]
    split_ifs
    · exact hne
    · exact List.append_ne_nil_of_left_ne_nil hne _
  rw [hlines, tsvRows_lines, hfilter, List.map_map, List.map_map]
  · rfl
  · intro l hl
    obtain ⟨row, hrow, rfl⟩ := List.mem_map.mp hl
    have hnode := solid_nodeText row.1
    rw [namedLine, List.mem_append, List.mem_append, List.mem_cons, List.mem_cons]
    refine ⟨?_, ?_⟩ <;> simp [hnode.not_mem, not_mem_of_noControl (hcontrol row hrow), isspace]

/-- **The debug table is read exactly when its names are readable.** -/
theorem read_debugTable_iff (gunzip : Bytes → Option Bytes) {rows : List (Node × Bytes)}
    (hcontrol : ∀ row ∈ rows, NoControl row.2) :
    (∃ table, DebugTable.read gunzip (rows.flatMap debugLine) = some table) ↔
      ∀ row ∈ rows, Readable row.2 := by
  have hhead : ∀ row, (debugLine row).head? = some 48 := fun row => by
    simp only [debugLine, List.append_assoc, head?_printNodePure]
  rw [DebugTable.read, read_tsv_eq gunzip (head?_flatMap hhead rows)]
  cases htext : Utf8.decode (rows.flatMap debugLine) with
  | none =>
    refine iff_of_false (fun h => ?_) fun h => ?_
    · obtain ⟨table, htable⟩ := h
      cases htable
    · obtain ⟨text, hsome⟩ := exists_text h
      rw [htext] at hsome
      cases hsome
  | some text =>
    obtain ⟨named, rfl, rfl⟩ := exists_named (Utf8.decode_eq_some.mp htext)
    have hnamed : ∀ row ∈ named, NoControl (Utf8.encode row.2) := fun row hrow =>
      hcontrol _ (List.mem_map.mpr ⟨row, hrow, rfl⟩)
    rw [Option.map_some, tsvRows_named hnamed]
    simp only [Option.bind_eq_bind, Option.bind_some, List.mapM_map, mapM_isSome_iff,
      List.forall_mem_map, readable_encode]
    exact forall₂_congr fun row hrow =>
      debugRow_iff (not_mem_of_noControl (hnamed row hrow) (by decide))

/-! ## The directory -/

/-- The node is at an end of a row that the edges are printed as, or the symbol of one that is. -/
def MentionedBy (env : EdgeOutput) (fuel : Nat) (edges : List (EdgeKind × Edge)) (n : Node) : Prop :=
  ∃ rows, edges.mapM (printedBy env fuel) = .ok rows ∧ ∃ row ∈ rows.flatten, RowMentions row.2 n

/-- The edges of a kind, as they are read. -/
def loadedEdges (printed : List (EdgeKind × Edge)) (kind : EdgeKind) : List LoadedEdge :=
  (printed.filter (·.1 = kind)).map fun row => loadedEdge kind row.2

/-- **The rows are read back**: each kind of edges, the function and its stack slots. -/
structure ReadsBack (fi : FunctionInfo) (printed : List (EdgeKind × Edge)) (r : LoadedEdges) :
    Prop where
  function : r.function = ⟨fi.function.symbol.toNat, none⟩
  is_alloca : ∀ n, n ∈ r.is_alloca ↔
    ∃ N, (∃ row ∈ printed, RowMentions row.2 N) ∧ isAlloca fi N = true ∧ n = loaded N
  assign : r.assign = loadedEdges printed .Assign
  load : r.load = loadedEdges printed .Load
  store : r.store = loadedEdges printed .Store
  call : r.call = loadedEdges printed .Call
  ret : r.ret = loadedEdges printed .Return
  argument_definition : r.argument_definition = loadedEdges printed .ArgumentDefinition
  argument_supply : r.argument_supply = loadedEdges printed .ArgumentSupply

theorem factsName_inj : ∀ kind kind', factsName kind = factsName kind' → kind = kind' := by
  intro kind kind'
  cases kind <;> cases kind' <;> simp [factsName]

/-- The file of a kind of edges. -/
theorem directory_factsName (PrintCallArgumentCount : Bool) (tables : FactTables) (kind : EdgeKind) :
    directory PrintCallArgumentCount tables (factsName kind) =
      some ((tables.OutputTables kind).flatMap (edgeLine PrintCallArgumentCount kind)) := by
  have hfind : EdgeKind.all.find? (factsName · = factsName kind) = some kind := by
    cases hfound : EdgeKind.all.find? (factsName · = factsName kind) with
    | none => exact absurd (List.find?_eq_none.mp hfound kind kind.mem_all) (by simp)
    | some k =>
      have heq := List.find?_some hfound
      rw [factsName_inj k kind (of_decide_eq_true heq)]
  have hdebug : factsName kind ≠ "DebugTable.facts" := by cases kind <;> simp [factsName]
  have halloca : factsName kind ≠ "IsAlloca.facts" := by cases kind <;> simp [factsName]
  rw [directory, if_neg hdebug, if_neg halloca, hfind, Option.map_some]

/-- What the directory is read as, once its names are. -/
def loadedWith (fi : FunctionInfo) (tables : FactTables) (debug_table : DebugTable) :
    LoadedEdges where
  function := ⟨fi.function.symbol.toNat, none⟩
  debug_table
  is_alloca := tables.IsAlloca.map loaded
  assign := (tables.OutputTables .Assign).map (loadedEdge .Assign)
  load := (tables.OutputTables .Load).map (loadedEdge .Load)
  store := (tables.OutputTables .Store).map (loadedEdge .Store)
  call := (tables.OutputTables .Call).map (loadedEdge .Call)
  ret := (tables.OutputTables .Return).map (loadedEdge .Return)
  argument_definition :=
    (tables.OutputTables .ArgumentDefinition).map (loadedEdge .ArgumentDefinition)
  argument_supply := (tables.OutputTables .ArgumentSupply).map (loadedEdge .ArgumentSupply)

theorem read_directory (gunzip : Bytes → Option Bytes) (fi : FunctionInfo) (tables : FactTables) :
    LoadedEdges.read gunzip (directoryName fi) (directory true tables) =
      (DebugTable.read gunzip (tables.DebugTable.flatMap debugLine)).map (loadedWith fi tables) := by
  have hdebug : directory true tables "DebugTable.facts" =
      some (tables.DebugTable.flatMap debugLine) := if_pos rfl
  have halloca : directory true tables "IsAlloca.facts" =
      some (tables.IsAlloca.flatMap fun n => UnitFiles.printNodePure n ++ ascii "\n") := by
    rw [directory, if_neg (by simp), if_pos rfl]
  have hfile := directory_factsName true tables
  generalize directory true tables = dir at hdebug halloca hfile ⊢
  have hassign : dir "Assign.facts" = _ := hfile .Assign
  have hload : dir "Load.facts" = _ := hfile .Load
  have hstore : dir "Store.facts" = _ := hfile .Store
  have hcall : dir "Call.facts" = _ := hfile .Call
  have hret : dir "Return.facts" = _ := hfile .Return
  have hdefinition : dir "ArgumentDefinition.facts" = _ := hfile .ArgumentDefinition
  have hsupply : dir "ArgumentSupply.facts" = _ := hfile .ArgumentSupply
  rw [LoadedEdges.read, parse_directoryName, hdebug, halloca, hassign, hload, hstore, hcall, hret,
    hdefinition, hsupply]
  have htwo : ∀ kind, kind.indexed = false → LoadedEdge.read gunzip 2
      ((tables.OutputTables kind).flatMap (edgeLine true kind)) =
        some ((tables.OutputTables kind).map (loadedEdge kind)) := by
    intro kind hindexed
    have hread := read_edges gunzip kind (tables.OutputTables kind)
    rwa [EdgeKind.NUM_COMPONENTS, hindexed] at hread
  have hthree : ∀ kind, kind.indexed = true → LoadedEdge.read gunzip 3
      ((tables.OutputTables kind).flatMap (edgeLine true kind)) =
        some ((tables.OutputTables kind).map (loadedEdge kind)) := by
    intro kind hindexed
    have hread := read_edges gunzip kind (tables.OutputTables kind)
    rwa [EdgeKind.NUM_COMPONENTS, hindexed] at hread
  cases htable : DebugTable.read gunzip (tables.DebugTable.flatMap debugLine) with
  | none => simp only [Option.bind_eq_bind, Option.bind_some, htable, Option.bind_none, Option.map_none]
  | some debug_table =>
    simp only [Option.bind_eq_bind, Option.bind_some, htable, read_allocas, htwo .Assign rfl,
      htwo .Load rfl, htwo .Store rfl, hthree .Call rfl, htwo .Return rfl,
      hthree .ArgumentDefinition rfl, hthree .ArgumentSupply rfl]
    rfl

/-- **A directory is read back exactly when the names in it are readable.** -/
theorem read_iff {asserts : Bool} {env : EdgeOutput} {fi : FunctionInfo} {fuel : Nat}
    {edges : List (EdgeKind × Edge)} {name : Bytes} {tables : FactTables}
    (gunzip : Bytes → Option Bytes) (hcount : env.PrintCallArgumentCount = true)
    (h : visitAll asserts env fi fuel edges = .ok (name, tables))
    (hcontrol : ∀ n, MentionedBy env fuel edges n → ∀ name, printDebugNode env fi n = .ok name →
      NoControl name) :
    (∃ printed r, edges.mapM (printedBy env fuel) = .ok printed ∧
      LoadedEdges.read gunzip (directoryName fi)
        (directory env.PrintCallArgumentCount tables) = some r ∧
      ReadsBack fi printed.flatten r) ↔
    ∀ n, MentionedBy env fuel edges n → ∀ name, printDebugNode env fi n = .ok name →
      Readable name := by
  obtain ⟨⟨name', v₀⟩, henter, h⟩ := bind_ok h
  obtain ⟨v, hrun, h⟩ := bind_ok h
  obtain ⟨rfl, rfl⟩ := Prod.mk.inj (Except.ok.inj h)
  obtain ⟨hnone, hv₀, hempty⟩ := enter_function_ok henter
  obtain ⟨rows, hrows, hfold⟩ := run_printed hrun
  obtain ⟨hv, hseen⟩ := described_rows hv₀ hfold
  have hnamed : Named env fi v := named_rows (enter_function_named henter) hfold
  -- The names of the table are those of the nodes that the edges mention.
  have hmention : ∀ n, n ∈ v.SeenNodes ↔ MentionedBy env fuel edges n := by
    intro n
    rw [hseen, hnone]
    constructor
    · rintro (hn | hn)
      · exact absurd hn List.not_mem_nil
      · exact ⟨rows, hrows, hn⟩
    · rintro ⟨rows', hrows', hn⟩
      obtain rfl := Except.ok.inj (hrows.symm.trans hrows')
      exact Or.inr hn
  have hrow : ∀ P : Bytes → Prop, (∀ row ∈ v.tables.DebugTable, P row.2) ↔
      ∀ n, MentionedBy env fuel edges n → ∀ name, printDebugNode env fi n = .ok name → P name := by
    intro P
    constructor
    · intro hP n hn name hname
      exact hP (n, name) ((hnamed (n, name)).mpr ⟨(hmention n).mpr hn, hname⟩)
    · intro hP row hrow
      obtain ⟨hn, hname⟩ := (hnamed row).mp hrow
      exact hP row.1 ((hmention _).mp hn) row.2 hname
  have hedges : ∀ kind, (v.tables.OutputTables kind).map (loadedEdge kind) =
      loadedEdges rows.flatten kind := by
    intro kind
    rw [OutputTables_rows hfold, hempty, List.nil_append, List.map_map]
    rfl
  have hback : ∀ debug_table, ReadsBack fi rows.flatten (loadedWith fi v.tables debug_table) := by
    intro debug_table
    refine ⟨rfl, fun n => ?_, hedges _, hedges _, hedges _, hedges _, hedges _, hedges _, hedges _⟩
    have hallocas := hv.place.2.2
    simp only [loadedWith, List.mem_map, hallocas, List.mem_filter, List.mem_reverse, hseen, hnone,
      List.not_mem_nil, false_or, and_assoc, eq_comm (a := n)]
  rw [← hrow, ← read_debugTable_iff gunzip ((hrow NoControl).mpr hcontrol), hcount, read_directory]
  constructor
  · rintro ⟨printed, r, -, hread, -⟩
    obtain ⟨table, htable, -⟩ := Option.map_eq_some_iff.mp hread
    exact ⟨table, htable⟩
  · rintro ⟨table, htable⟩
    exact ⟨rows, _, hrows, by rw [htable]; rfl, hback table⟩

/-- Without names and debug data, a node is called one of two names. -/
theorem name_oneSlot {n : Node} {name : Bytes}
    (h : printDebugNode onePageEnv oneSlot n = .ok name) :
    name = Utf8.encode "<UnknownSymbol>".toList ∨
      name = Utf8.encode "<UnknownSymbol> -> <DebugDataMissing>".toList := by
  unfold printDebugNode at h
  cases hlocal : n.local_idx with
  | none =>
    rw [hlocal] at h
    left
    exact (Except.ok.inj h).symm
  | some local_idx =>
    rw [hlocal] at h
    right
    exact (Except.ok.inj h).symm

/-- The page of one pointer is read back, with the edge that the pointer makes. -/
theorem read_iff_oneSlot : ∃ name tables printed r,
    visitAll true onePageEnv oneSlot 2 pageEdges = .ok (name, tables) ∧
      pageEdges.mapM (printedBy onePageEnv 2) = .ok printed ∧
      LoadedEdges.read (fun _ => none) (directoryName oneSlot) (directory true tables) = some r ∧
      ReadsBack oneSlot printed.flatten r := by
  obtain ⟨name, tables, hrun⟩ : ∃ name tables,
      visitAll true onePageEnv oneSlot 2 pageEdges = .ok (name, tables) := ⟨_, _, rfl⟩
  have hread := (read_iff (fun _ => none) rfl hrun ?_).mpr ?_
  · obtain ⟨printed, r, hprinted, hr, hback⟩ := hread
    exact ⟨name, tables, printed, r, hrun, hprinted, hr, hback⟩
  · intro n _ name hname
    rcases name_oneSlot hname with rfl | rfl <;> decide
  · intro n _ name hname
    rcases name_oneSlot hname with rfl | rfl <;> exact readable_encode.mpr ⟨'<', by decide, rfl⟩

/-- A function that is called by a single blank is stored in a local of `f`. -/
def blankEnv : EdgeOutput where
  obj := onePageEnv.obj
  symbolName addr := .ok (ascii (if addr = 0x2000 then " " else "f"))
  slm := none
  PrintCallArgumentCount := true

def blankEdges : List (EdgeKind × Edge) :=
  [(.Store, ⟨Node.ofLocal 0x1000 0, Node.ofSymbol 0x2000, 0⟩)]

/-- The line of the blank name has one cell, so the directory is not read. -/
theorem blank_not_read : ∃ name tables,
    visitAll true blankEnv oneSlot 0 blankEdges = .ok (name, tables) ∧
      (∀ row ∈ tables.DebugTable, NoControl row.2) ∧
      LoadedEdges.read (fun _ => none) (directoryName oneSlot)
        (directory blankEnv.PrintCallArgumentCount tables) = none := by
  let symbolName := Utf8.encode "f".toList
  let localName := Utf8.encode "f -> <DebugDataMissing>".toList
  let blank := Utf8.encode [' ']
  obtain ⟨name, tables, hrun, hrows⟩ : ∃ name tables,
      visitAll true blankEnv oneSlot 0 blankEdges = .ok (name, tables) ∧
        tables.DebugTable = [(Node.ofSymbol 0x1000, symbolName), (Node.ofLocal 0x1000 0, localName),
          (Node.ofSymbol 0x2000, blank)] := ⟨_, _, rfl, rfl⟩
  have hcontrol : ∀ row ∈ tables.DebugTable, NoControl row.2 := by
    rw [hrows, List.forall_mem_cons, List.forall_mem_cons, List.forall_mem_singleton]
    decide
  refine ⟨name, tables, hrun, hcontrol, ?_⟩
  have hnone : DebugTable.read (fun _ => none) (tables.DebugTable.flatMap debugLine) = none := by
    rw [Option.eq_none_iff_forall_ne_some]
    intro table htable
    have hreadable := (read_debugTable_iff (fun _ => none) hcontrol).mp ⟨table, htable⟩
    rw [hrows] at hreadable
    have hblank := readable_encode.mp (hreadable (Node.ofSymbol 0x2000, blank) (by simp))
    obtain ⟨c, hc, hspace⟩ := hblank
    rw [List.mem_singleton.mp hc] at hspace
    cases hspace
  show LoadedEdges.read _ _ (directory true tables) = none
  rw [read_directory, hnone]
  rfl

end Bracelet.Edges.LoadEdges
