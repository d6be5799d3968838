import Bracelet.EdgeReader

/-!
# Dumping the embedded graph

`bracelet-edges` writes a directory of tables for each function of the graphs of an
object (`EdgeOutputVisitor`).  A line is kept here as the nodes and names on it; nodes
are printed as addresses, as they are without `--pretty-edges`.

A line of an edge table describes the nodes at its ends the first time it meets them
(`emitNodeInfo`), and that is the only place that writes to the `DebugTable`.
-/
namespace Bracelet.Edges

/-- The bytes as they stand in a message. -/
def showBytes (bytes : Bytes) : String := String.ofList (bytes.map fun b => Char.ofNat b.toNat)

/-! ## The tables -/

/-- A node behind some stars, and behind a dollar sign if it is the last in line. -/
structure StarredNode where
  last : Bool
  stars : Nat
  node : Node
  deriving DecidableEq, Repr

/-- The tables of a function's directory. -/
structure FactTables where
  DebugTable : List (Node × Bytes) := []
  SbomTable : List (Node × Bytes × Bytes) := []
  IsSymbol : List Node := []
  IsAlloca : List Node := []
  ValueName : List (Node × StarredNode) := []
  Starred : List (StarredNode × StarredNode) := []
  EnclosingFunctionForLocal : List (Node × Node) := []
  NodeInstructions : List (Address × Node) := []
  OutputTables : EdgeKind → List Edge := fun _ => []

/-- The lines of one, then those of the other. -/
instance : Append FactTables where
  append s t :=
    { DebugTable := s.DebugTable ++ t.DebugTable
      SbomTable := s.SbomTable ++ t.SbomTable
      IsSymbol := s.IsSymbol ++ t.IsSymbol
      IsAlloca := s.IsAlloca ++ t.IsAlloca
      ValueName := s.ValueName ++ t.ValueName
      Starred := s.Starred ++ t.Starred
      EnclosingFunctionForLocal := s.EnclosingFunctionForLocal ++ t.EnclosingFunctionForLocal
      NodeInstructions := s.NodeInstructions ++ t.NodeInstructions
      OutputTables := fun kind => s.OutputTables kind ++ t.OutputTables kind }

namespace FactTables

@[simp] theorem append_DebugTable (s t : FactTables) :
    (s ++ t).DebugTable = s.DebugTable ++ t.DebugTable := rfl

@[simp] theorem append_SbomTable (s t : FactTables) :
    (s ++ t).SbomTable = s.SbomTable ++ t.SbomTable := rfl

@[simp] theorem append_IsSymbol (s t : FactTables) :
    (s ++ t).IsSymbol = s.IsSymbol ++ t.IsSymbol := rfl

@[simp] theorem append_IsAlloca (s t : FactTables) :
    (s ++ t).IsAlloca = s.IsAlloca ++ t.IsAlloca := rfl

@[simp] theorem append_EnclosingFunctionForLocal (s t : FactTables) :
    (s ++ t).EnclosingFunctionForLocal =
      s.EnclosingFunctionForLocal ++ t.EnclosingFunctionForLocal := rfl

@[simp] theorem append_OutputTables (s t : FactTables) (kind : EdgeKind) :
    (s ++ t).OutputTables kind = s.OutputTables kind ++ t.OutputTables kind := rfl

end FactTables

/-! ## What is known of the program -/

structure SourceLocation where
  file : Bytes
  line : Nat
  col : Nat
  deriving DecidableEq, Repr

/-- What `bracelet-edges` works on. -/
structure EdgeOutput where
  obj : Object
  symbolName : Address → Result Bytes
  /-- The ranges of addresses of a position, of objects that have positions. -/
  slm : Option (SourceLocation → List (Address × Address))
  PrintCallArgumentCount : Bool

/-! ## Addresses of a local -/

/-- The first place of a byte, from a place on. -/
def findFrom (b : UInt8) (bytes : Bytes) (start : Nat) : Option Nat :=
  ((bytes.drop start).findIdx? (· == b)).map (· + start)

/-- The last place of a byte, up to a place. -/
def rfind (b : UInt8) (bytes : Bytes) (last : Nat) : Option Nat :=
  (List.range (min (last + 1) bytes.length)).reverse.find? fun i => bytes[i]? == some b

def substr (bytes : Bytes) (start count : Nat) : Bytes := (bytes.drop start).take count

def isSpace (b : UInt8) : Bool := (9 ≤ b ∧ b ≤ 13) ∨ b = 32

/-- Reads an unsigned number of 32 bits. -/
def SimpleAtoi (text : Bytes) : Option Nat :=
  let text := ((text.dropWhile isSpace).reverse.dropWhile isSpace).reverse
  let digits := if text.head? = some 43 then text.tail else text
  if digits = [] ∨ ¬ digits.all fun b => 48 ≤ b ∧ b ≤ 57 then none
  else
    let n := digits.foldl (fun n b => 10 * n + (b.toNat - 48)) 0
    if n < 2 ^ 32 then some n else none

/-- The addresses that the loop over a range of addresses goes through, from `Addr` on.
The counter has the width of its bound, so a loop that takes 2^64 steps never ends. -/
def expandRange (last : Address) : Nat → Address → Result (List Address)
  | 0, _ => .error .diverges
  | fuel + 1, Addr =>
    if Addr ≤ last then do
      let rest ← expandRange last fuel (Addr + 1)
      return Addr :: rest
    else return []

/-- The lines of `NodeInstructions` for the ranges of a position. -/
def expandRanges (N : Node) (ranges : List (Address × Address)) : Result (List (Address × Node)) := do
  let addresses ← ranges.mapM fun range => expandRange range.2 (2 ^ 64) range.1
  return addresses.flatten.map fun Addr => (Addr, N)

section
variable (asserts : Bool) (env : EdgeOutput) (fi : FunctionInfo)

/-- The lines of `NodeInstructions` for a local: the addresses of the position that its
debug name gives before the `|`. -/
def emitAddresses (N : Node) (local_idx : Nat) : Result (List (Address × Node)) := do
  match env.slm with
  | none => return []
  | some slm =>
    if !fi.debug_data.has_locals then return [] else
    let Name ← fi.debug_data.local_name local_idx
    match findFrom 124 Name 0 with
    | none => return []
    | some _ =>
      -- Trim the inlined from location if it was printed.
      let Name := match find (ascii "@[") Name with
        | some InlineLoc => Name.take InlineLoc
        | none => Name
      match findFrom 58 Name 0 with
      | none => return []
      | some LineNoStart =>
        let Space := (rfind 32 Name LineNoStart).getD 0
        let Slash := (rfind 47 Name LineNoStart).getD 0
        let FileNameStart := max Space Slash
        assert asserts (FileNameStart < LineNoStart)
        let skipped := if Space = 0 ∧ Slash = 0 then 0 else 1
        let FileName :=
          substr Name (FileNameStart + skipped) (LineNoStart - FileNameStart - skipped)
        match findFrom 58 Name (LineNoStart + 1) with
        | none => return []
        | some ColumnNoStart =>
          let LineNoStr := substr Name (LineNoStart + 1) (ColumnNoStart - LineNoStart - 1)
          if LineNoStr.head? = some 48 then return [] else
          match findFrom 124 Name ColumnNoStart, findFrom 32 Name ColumnNoStart with
          | none, none => return []
          | bar, space =>
            let EndOfColumnNo :=
              min (bar.getD Name.length) (space.getD Name.length)
            let ColumnNoStr :=
              substr Name (ColumnNoStart + 1) (EndOfColumnNo - ColumnNoStart - 1)
            match SimpleAtoi LineNoStr, SimpleAtoi ColumnNoStr with
            | none, _ => .error (.error [s!"Invalid line number: {showBytes LineNoStr}"])
            | _, none => .error (.error [s!"Invalid column number: {showBytes ColumnNoStr}"])
            | some LineNo, some ColumnNo =>
              expandRanges N (slm ⟨FileName, LineNo, ColumnNo⟩)

/-! ## Nodes -/

/-- The name a symbol is listed by. -/
def listedName (symbol_name : Bytes) : Bytes :=
  if symbol_name = [] then ascii "<UnknownSymbol>" else symbol_name

def printDebugNode (N : Node) : Result Bytes := do
  let symbol_name ← env.symbolName N.symbol
  match N.local_idx with
  | none => return listedName symbol_name
  | some local_idx =>
    if fi.debug_data.has_locals then
      assert true (N.symbol == fi.function.symbol)
      let name ← fi.debug_data.local_name local_idx.toNat
      return listedName symbol_name ++ ascii " -> " ++ name
    else return listedName symbol_name ++ ascii " -> " ++ ascii "<DebugDataMissing>"

def StarCount : Nat := 3

def starred (N : Node) (stars : Nat) : StarredNode := ⟨false, stars, N⟩

def finalStarred (N : Node) : StarredNode := ⟨true, StarCount, N⟩

/-- The line of the `DebugTable`.  A node without a symbol name is only logged. -/
def debugLines (N : Node) : Result (List (Node × Bytes)) :=
  match env.symbolName N.symbol with
  | .ok _ => do
    let name ← printDebugNode env fi N
    return [(N, name)]
  | .error _ => .ok []

def addressLines (N : Node) : Result (List (Address × Node)) :=
  match N.local_idx with
  | some local_idx => emitAddresses asserts env fi N local_idx.toNat
  | none => .ok []

/-- The lines that say where a node belongs. -/
def placeLines (N : Node) : FactTables :=
  match N.local_idx with
  | some local_idx =>
    { IsAlloca := if local_idx.toNat < fi.num_allocas.toNat then [N] else []
      EnclosingFunctionForLocal := [(fi.function, N)] }
  | none => { IsSymbol := [N] }

/-- The lines that describe a node. -/
def nodeInfo (N : Node) : Result FactTables := do
  let DebugTable ← debugLines env fi N
  let stars : FactTables :=
    { Starred := (List.range StarCount).map (fun I => (starred N (I + 1), starred N I)) ++
        [(finalStarred N, starred N StarCount), (finalStarred N, finalStarred N)]
      ValueName := (List.range StarCount).map (fun I => (N, starred N I)) ++ [(N, finalStarred N)] }
  let NodeInstructions ← addressLines asserts env fi N
  return placeLines fi N ++ { DebugTable } ++ stars ++ { NodeInstructions }

theorem nodeInfo_ok {N : Node} {info : FactTables} (h : nodeInfo asserts env fi N = .ok info) :
    debugLines env fi N = .ok info.DebugTable ∧ info.SbomTable = [] ∧
      ∀ kind, info.OutputTables kind = [] := by
  obtain ⟨D, hD, h⟩ := bind_ok h
  obtain ⟨A, -, h⟩ := bind_ok h
  obtain rfl := Except.ok.inj h
  unfold placeLines
  cases N.local_idx <;> exact ⟨by simpa using hD, rfl, fun _ => rfl⟩

theorem debugLines_symbol {N : Node} (h : N.local_idx = none) : debugLines env fi N =
    .ok (match env.symbolName N.symbol with
      | .ok name => [(N, listedName name)]
      | .error _ => []) := by
  unfold debugLines
  cases hname : env.symbolName N.symbol with
  | ok name => simp [printDebugNode, hname, h, pure, Except.pure]
  | error e => rfl

/-- A line of the `DebugTable` is about the node it describes. -/
theorem mem_debugLines {N : Node} {lines : List (Node × Bytes)}
    (h : debugLines env fi N = .ok lines) : ∀ line ∈ lines, line.1 = N := by
  unfold debugLines at h
  cases hname : env.symbolName N.symbol with
  | ok name =>
    rw [hname] at h
    obtain ⟨text, -, h⟩ := bind_ok h
    obtain rfl := Except.ok.inj h
    simp
  | error e =>
    rw [hname] at h
    obtain rfl := Except.ok.inj h
    simp

theorem nodeInfo_symbol {N : Node} (h : N.local_idx = none) :
    ∃ info, nodeInfo asserts env fi N = .ok info := by
  simp [nodeInfo, debugLines_symbol env fi h, addressLines, h, pure, Except.pure]

/-! ## The visitor -/

/-- The directory that is being written, and the nodes it describes. -/
structure EdgeOutputVisitor where
  SeenNodes : List Node
  tables : FactTables

namespace EdgeOutputVisitor
variable (v : EdgeOutputVisitor)

/-- Describes a node that has not been seen. -/
def emitSeen (N : Node) : Result EdgeOutputVisitor := do
  let info ← nodeInfo asserts env fi N
  return ⟨N :: v.SeenNodes, v.tables ++ info⟩

/-- Describes a node after its symbol.  The symbol of a symbol is the node itself,
which has been seen then. -/
def emitNodeInfo (N : Node) : Result EdgeOutputVisitor := do
  if N ∈ v.SeenNodes then return v else
  let symbol ← Node.mkSymbol asserts N.symbol
  if symbol = N ∨ symbol ∈ v.SeenNodes then v.emitSeen asserts env fi N
  else do
    let v ← v.emitSeen asserts env fi symbol
    v.emitSeen asserts env fi N

/-- `printSingletonEdge` and `printIndexedEdge`. -/
def printEdge (kind : EdgeKind) (e : Edge) : Result EdgeOutputVisitor := do
  let line : FactTables := { OutputTables := Function.update (fun _ => []) kind [e] }
  let v := { v with tables := v.tables ++ line }
  let v ← v.emitNodeInfo asserts env fi e.to_node
  v.emitNodeInfo asserts env fi e.from_node

end EdgeOutputVisitor

namespace EdgeOutputVisitor
variable {asserts env fi} {v v' : EdgeOutputVisitor}

theorem emitSeen_ok {N : Node} (h : v.emitSeen asserts env fi N = .ok v') :
    ∃ info, nodeInfo asserts env fi N = .ok info ∧ v' = ⟨N :: v.SeenNodes, v.tables ++ info⟩ := by
  obtain ⟨info, hinfo, h⟩ := bind_ok h
  exact ⟨info, hinfo, (Except.ok.inj h).symm⟩

/-- A node is seen already, or is described, if need be after its symbol. -/
theorem emitNodeInfo_ok {N : Node} (h : v.emitNodeInfo asserts env fi N = .ok v') :
    (N ∈ v.SeenNodes ∧ v' = v) ∨
      (N ∉ v.SeenNodes ∧ (Node.ofSymbol N.symbol = N ∨ Node.ofSymbol N.symbol ∈ v.SeenNodes) ∧
        v.emitSeen asserts env fi N = .ok v') ∨
      (N ∉ v.SeenNodes ∧ Node.ofSymbol N.symbol ≠ N ∧ Node.ofSymbol N.symbol ∉ v.SeenNodes ∧
        ∃ v₁, v.emitSeen asserts env fi (Node.ofSymbol N.symbol) = .ok v₁ ∧
          v₁.emitSeen asserts env fi N = .ok v') := by
  unfold emitNodeInfo at h
  split at h
  next hseen => exact Or.inl ⟨hseen, (Except.ok.inj h).symm⟩
  next hseen =>
    rw [Node.mkSymbol_symbol, ok_bind] at h
    split at h
    next hsym => exact Or.inr (Or.inl ⟨hseen, hsym, h⟩)
    next hsym =>
      obtain ⟨v₁, h₁, h⟩ := bind_ok h
      obtain ⟨hne, hnew⟩ := not_or.mp hsym
      exact Or.inr (Or.inr ⟨hseen, hne, hnew, v₁, h₁, h⟩)

/-- What describing one node keeps, `emitNodeInfo` keeps. -/
theorem emitNodeInfo_rule {P : EdgeOutputVisitor → Prop}
    (hP : ∀ v N v', P v → v.emitSeen asserts env fi N = .ok v' → P v') {N : Node} (hv : P v)
    (h : v.emitNodeInfo asserts env fi N = .ok v') : P v' := by
  rcases emitNodeInfo_ok h with ⟨-, rfl⟩ | ⟨-, -, h⟩ | ⟨-, -, -, v₁, h₁, h⟩
  · exact hv
  · exact hP _ _ _ hv h
  · exact hP _ _ _ (hP _ _ _ hv h₁) h

theorem emitNodeInfo_exists {N : Node} (v : EdgeOutputVisitor)
    (h : ∃ info, nodeInfo asserts env fi N = .ok info) :
    ∃ v', v.emitNodeInfo asserts env fi N = .ok v' := by
  obtain ⟨info, hinfo⟩ := h
  have hseen : ∀ w : EdgeOutputVisitor, w.emitSeen asserts env fi N =
      .ok ⟨N :: w.SeenNodes, w.tables ++ info⟩ := by
    intro w
    simp [emitSeen, hinfo, pure, Except.pure]
  obtain ⟨info', hinfo'⟩ := nodeInfo_symbol asserts env fi (Node.local_idx_ofSymbol_any N.symbol)
  unfold emitNodeInfo
  split
  · exact ⟨v, rfl⟩
  · rw [Node.mkSymbol_symbol, ok_bind]
    split
    · exact ⟨_, hseen v⟩
    · simp only [emitSeen, hinfo', ok_bind]
      exact ⟨_, hseen _⟩

theorem printEdge_OutputTables {kind : EdgeKind} {e : Edge}
    (h : v.printEdge asserts env fi kind e = .ok v') (k : EdgeKind) :
    v'.tables.OutputTables k = v.tables.OutputTables k ++ if k = kind then [e] else [] := by
  have hkeep : ∀ (lines : List Edge) (v : EdgeOutputVisitor) (N : Node) (v' : EdgeOutputVisitor),
      v.tables.OutputTables k = lines → v.emitSeen asserts env fi N = .ok v' →
        v'.tables.OutputTables k = lines := by
    intro lines v N v' hv hN
    obtain ⟨info, hinfo, rfl⟩ := emitSeen_ok hN
    simp [(nodeInfo_ok asserts env fi hinfo).2.2 k, hv]
  obtain ⟨v₁, h₁, h₂⟩ := bind_ok h
  refine emitNodeInfo_rule (hkeep _) (emitNodeInfo_rule (hkeep _) ?_ h₁) h₂
  by_cases hk : k = kind <;> simp [hk]

theorem printEdge_exists (v : EdgeOutputVisitor) (kind : EdgeKind) {e : Edge}
    (hto : ∃ info, nodeInfo asserts env fi e.to_node = .ok info)
    (hfrom : ∃ info, nodeInfo asserts env fi e.from_node = .ok info) :
    ∃ v', v.printEdge asserts env fi kind e = .ok v' := by
  simp only [printEdge]
  obtain ⟨v₁, h₁⟩ := emitNodeInfo_exists ⟨v.SeenNodes, v.tables ++
    { OutputTables := Function.update (fun _ => []) kind [e] }⟩ hto
  rw [h₁, ok_bind]
  exact emitNodeInfo_exists v₁ hfrom

end EdgeOutputVisitor

/-- The pointers of a page. -/
def DLSYM_PAGE_NUM_POINTERS : Nat := 2046

/-- The walk over the pages of resolved `dlsym` calls, from a page on; a page takes a
step. -/
def visitPages {σ : Type} (obj : Object) (visit : σ → Address → Result σ) :
    Nat → Address → σ → Result σ
  | 0, _, _ => .error .diverges
  | fuel + 1, page, s =>
    if page = 0 then .ok s else do
      let count ← tryContext (obj.copyData 8 (page + 8)) "dlsym page count"
      let pointers ← tryContext (obj.resolvePointers DLSYM_PAGE_NUM_POINTERS (page + 16))
        "dlsym page body pointers"
      let s ← (pointers.take (min (ofLE count) DLSYM_PAGE_NUM_POINTERS)).foldlM visit s
      let next ← tryContext (obj.resolvePointers 1 page) "dlsym page next pointer"
      visitPages obj visit fuel (next.headD 0) s

/-- The walk from the pointer that a symbol holds. -/
def visitPagesOf {σ : Type} (obj : Object) (visit : σ → Address → Result σ) (fuel : Nat)
    (page_ptr_node : Node) (s : σ) : Result σ := do
  ensure page_ptr_node.local_idx.isNone "page pointer should be a symbol"
  let page ← tryContext (obj.resolvePointers 1 page_ptr_node.symbol) "dlsym page initial pointer"
  visitPages obj visit fuel (page.headD 0) s

namespace EdgeOutputVisitor
variable (v : EdgeOutputVisitor)

/-- A pointer of a page becomes a value of the output node. -/
def visitPointer (dlsym_output : Node) (v : EdgeOutputVisitor) (pointer : Address) :
    Result EdgeOutputVisitor :=
  let printed := do
    let symbol ← Node.mkSymbol asserts pointer
    let e ← mkEdge asserts dlsym_output symbol 0
    v.printEdge asserts env fi .Assign e
  tryContext printed "Dlsym artifical assign edge"

def visit_edge_inner (fuel : Nat) (kind : EdgeKind) (E : Edge) : Result EdgeOutputVisitor :=
  match kind with
  | .DlsymPagePointer => do
    let v ← visitPagesOf env.obj (visitPointer asserts env fi E.to_node) fuel E.from_node v
    v.printEdge asserts env fi .DlsymPagePointer E
  | .Call => v.printEdge asserts env fi .Call
      (if env.PrintCallArgumentCount then E else { E with idx := 0 })
  | kind => v.printEdge asserts env fi kind E

def visit_edge (fuel : Nat) (function_name : Bytes) (kind : EdgeKind) (E : Edge) :
    Result EdgeOutputVisitor :=
  let digits := Nat.toDigits 16 fi.function.symbol.toNat
  let address := String.ofList (List.replicate (16 - digits.length) '0' ++ digits)
  tryContext (v.visit_edge_inner asserts env fi fuel kind E)
    s!"Processing function 0x{address}: {showBytes function_name}"

end EdgeOutputVisitor

/-- The directory before an edge is written, and the text of `function-name.txt`. -/
def enter_function : Result (Bytes × EdgeOutputVisitor) := do
  let function_name ← env.symbolName fi.function.symbol
  let sbom := match fi.sbom_info with
    | some (ComponentName, Version) => [(fi.function, ComponentName, Version)]
    | none => []
  return (function_name, ⟨[], { SbomTable := sbom }⟩)

/-- **Writes the directory of a function.** -/
def dumpFunction (fuel : Nat) : Result (Bytes × FactTables) := do
  let (function_name, v) ← enter_function env fi
  let v ← EdgeKind.all.foldlM (fun v kind =>
    fi.visitEdges asserts kind (fun v e => v.visit_edge asserts env fi fuel function_name kind e) v) v
  return (function_name, v.tables)

end

/-- A function and what its directory holds. -/
structure Dumped where
  fi : FunctionInfo
  function_name : Bytes
  tables : FactTables

/-- **Writes the directories of the functions of an object.** -/
def dumpEdges (asserts : Bool) (Z : Zstd) (V : StreamVByte) (env : EdgeOutput) (fuel : Nat) :
    Result (List Dumped) :=
  readEdges asserts Z V env.obj (fun dirs fi => do
    let (function_name, tables) ← dumpFunction asserts env fi fuel
    return dirs ++ [⟨fi, function_name, tables⟩]) []

end Bracelet.Edges
