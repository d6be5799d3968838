import Bracelet.EdgeRoundTrip
import Bracelet.ExecutedVerdicts
import Bracelet.FactFiles

/-!
# From the compiler to the facts in Python

What the pass has recorded of a program is embedded in an object; `bracelet-edges` reads the object
and writes a directory for each function, and `load.py` reads the tables of a directory.  The
edges that arrive are the facts of the program, up to the order of a table: nothing is lost on the
way and nothing is added (`RecordedProgram.dumped_facts`).

A directory holds the edges of its function kind by kind (`dumpFunction_tables`).  The one edge that
is not printed as it is, from the page of a `dlsym` call, is printed after the assignments of the
pointers on the page, and these are the facts that the page stands for.
-/
namespace Bracelet.Edges

/-! ## Collecting in order -/

theorem foldlM_collected {α β γ : Type} {f : α → Result β} {g : α → β → γ} {xs : List α}
    {acc r : List γ} (h : xs.foldlM (fun acc x => do
      let y ← f x
      return acc ++ [g x y]) acc = .ok r) :
    ∃ zs, r = acc ++ zs ∧ List.Forall₂ (fun x z => ∃ y, f x = .ok y ∧ z = g x y) xs zs := by
  induction xs generalizing acc with
  | nil =>
    obtain rfl := Except.ok.inj h
    exact ⟨[], (List.append_nil _).symm, .nil⟩
  | cons x xs ih =>
    rw [List.foldlM_cons] at h
    obtain ⟨acc', hx, h⟩ := bind_ok h
    obtain ⟨y, hy, hx⟩ := bind_ok hx
    obtain rfl := Except.ok.inj hx
    obtain ⟨zs, rfl, hzs⟩ := ih h
    exact ⟨g x y :: zs, by simp, .cons ⟨y, hy, rfl⟩ hzs⟩

theorem forall₂_comp {α β γ : Type} {R : α → β → Prop} {S : α → γ → Prop} {xs : List α}
    {ys : List β} {zs : List γ} (hR : List.Forall₂ R xs ys) (hS : List.Forall₂ S xs zs) :
    List.Forall₂ (fun y z => ∃ x ∈ xs, R x y ∧ S x z) ys zs := by
  induction hR generalizing zs with
  | nil =>
    cases hS
    exact .nil
  | cons hxy _ ih =>
    cases hS with
    | cons hxz hrest =>
      refine .cons ⟨_, List.mem_cons_self, hxy, hxz⟩ ((ih hrest).imp fun y z h => ?_)
      obtain ⟨x, hx, h⟩ := h
      exact ⟨x, List.mem_cons_of_mem _ hx, h⟩

theorem exists_of_forall₂ {α β : Type} {R : α → β → Prop} {as : List α} {bs : List β}
    (h : List.Forall₂ R as bs) {b : β} (hb : b ∈ bs) : ∃ a ∈ as, R a b := by
  induction h with
  | nil => cases hb
  | cons hr _ ih =>
    rcases List.mem_cons.mp hb with rfl | hb
    · exact ⟨_, List.mem_cons_self, hr⟩
    · obtain ⟨a, ha, hr⟩ := ih hb
      exact ⟨a, List.mem_cons_of_mem _ ha, hr⟩

/-- The functions of the graphs are described in turn. -/
theorem reads_graphs {GV : Type} [DecidableEq GV] {asserts : Bool} {Z : Zstd} {V : StreamVByte}
    {sort : EdgeSort} {address : GV → Address} {graphs : List (Graph GV)}
    {images : List (GraphImage GV)}
    (hgraphs : List.Forall₂ (Serialised asserts Z V sort address) graphs images)
    {infoss : List (List FunctionInfo)}
    (hinfoss : List.Forall₂ (ReadsGraph asserts address) graphs infoss) :
    List.Forall₂ (fun f fi => f.Fits ∧ ∃ recorded, Reads asserts recorded address f fi)
      (graphs.flatMap Graph.functions) infoss.flatten := by
  induction hgraphs generalizing infoss with
  | nil =>
    cases hinfoss
    exact .nil
  | cons hg _ ih =>
    cases hinfoss with
    | cons hinfos hrest =>
      rw [List.flatMap_cons, List.flatten_cons]
      refine List.rel_append ((List.forall₂_and_left _ _).mpr ⟨fun f hf => ?_, ?_⟩) (ih hrest)
      · exact (hg.valid f hf).toFits
      · exact hinfos.imp fun _ _ h => ⟨_, h⟩

namespace PrintedEdges
open CandidateFunctions (pointersOf)

/-! ## The rows of a table -/

/-- The assignments that are printed before the edge from a page. -/
def pageRows (env : EdgeOutput) (fuel : Nat) (e : Edge) : List Edge :=
  match pointersOf env.obj fuel e.from_node with
  | .ok pointers => pointers.map fun p => ⟨e.to_node, Node.ofSymbol p, 0⟩
  | .error _ => []

/-- The rows of one table that an edge is printed as, with the counts of the arguments of calls. -/
def rowsOf (env : EdgeOutput) (fuel : Nat) (kind : EdgeKind) (e : EdgeKind × Edge) : List Edge :=
  (if e.1 = .DlsymPagePointer ∧ kind = .Assign then pageRows env fuel e.2 else []) ++
    if e.1 = kind then [e.2] else []

/-- The edges, kind by kind. -/
def byKind (es : EdgeKind → List Edge) : List (EdgeKind × Edge) :=
  EdgeKind.all.flatMap fun kind => (es kind).map fun e => (kind, e)

section
variable {asserts : Bool} {env : EdgeOutput} {fi : FunctionInfo} {fuel : Nat}

theorem printedBy_rows (hcount : env.PrintCallArgumentCount = true) {e : EdgeKind × Edge}
    {rows : List (EdgeKind × Edge)} (h : printedBy env fuel e = .ok rows) (kind : EdgeKind) :
    (rows.filter (·.1 = kind)).map Prod.snd = rowsOf env fuel kind e := by
  obtain ⟨k, E⟩ := e
  cases k with
  | DlsymPagePointer =>
    obtain ⟨pointers, hpointers, h⟩ := bind_ok h
    obtain rfl := Except.ok.inj h
    simp only [rowsOf, pageRows, hpointers, List.filter_append, List.map_append, true_and]
    by_cases hkind : kind = .Assign
    · subst hkind
      simp [List.filter_map, Function.comp_def]
    · simp only [hkind, if_false, List.nil_append]
      by_cases hpage : EdgeKind.DlsymPagePointer = kind
      · subst hpage
        simp [List.filter_map, Function.comp_def]
      · simp [List.filter_map, Function.comp_def, hpage, Ne.symm hkind]
  | Call =>
    obtain rfl := Except.ok.inj h
    by_cases hkind : EdgeKind.Call = kind
    · subst hkind
      simp [rowsOf, hcount]
    · simp [rowsOf, hkind]
  | _ =>
    obtain rfl := Except.ok.inj h
    simp only [rowsOf, reduceCtorEq, false_and, if_false, List.nil_append, List.filter_singleton]
    split <;> simp_all

theorem mapM_printedBy (hcount : env.PrintCallArgumentCount = true)
    {edges : List (EdgeKind × Edge)} {rows : List (List (EdgeKind × Edge))}
    (h : edges.mapM (printedBy env fuel) = .ok rows) (kind : EdgeKind) :
    (rows.flatten.filter (·.1 = kind)).map Prod.snd = edges.flatMap (rowsOf env fuel kind) := by
  induction edges generalizing rows with
  | nil =>
    obtain rfl := Except.ok.inj h
    rfl
  | cons e edges ih =>
    rw [List.mapM_cons] at h
    obtain ⟨row, hrow, h⟩ := bind_ok h
    obtain ⟨rest, hrest, h⟩ := bind_ok h
    obtain rfl := Except.ok.inj h
    rw [List.flatten_cons, List.filter_append, List.map_append, ih hrest, List.flatMap_cons,
      printedBy_rows hcount hrow]

/-- The walk over the page of each edge ended well. -/
theorem pointers_of_mapM {edges : List (EdgeKind × Edge)} {rows : List (List (EdgeKind × Edge))}
    (h : edges.mapM (printedBy env fuel) = .ok rows) {e : Edge}
    (he : (.DlsymPagePointer, e) ∈ edges) :
    ∃ pointers, pointersOf env.obj fuel e.from_node = .ok pointers := by
  induction edges generalizing rows with
  | nil => cases he
  | cons e' edges ih =>
    rw [List.mapM_cons] at h
    obtain ⟨row, hrow, h⟩ := bind_ok h
    obtain ⟨rest, hrest, -⟩ := bind_ok h
    rcases List.mem_cons.mp he with rfl | he
    · obtain ⟨pointers, hpointers, -⟩ := bind_ok hrow
      exact ⟨pointers, hpointers⟩
    · exact ih hrest he

theorem flatMap_rowsOf_byKind (es : EdgeKind → List Edge) (kind : EdgeKind) :
    (byKind es).flatMap (rowsOf env fuel kind) = es kind ++
      if kind = .Assign then (es .DlsymPagePointer).flatMap (pageRows env fuel) else [] := by
  have hnone : ∀ l : List Edge, (l.flatMap fun _ => ([] : List Edge)) = [] := by simp
  cases kind <;> simp [byKind, EdgeKind.all, rowsOf, List.flatMap_map, hnone]

theorem foldlM_kinds {σ : Type} (visit : σ → EdgeKind × Edge → Result σ)
    (es : EdgeKind → List Edge) (kinds : List EdgeKind) (s : σ) :
    kinds.foldlM (fun s kind => (es kind).foldlM (fun s e => visit s (kind, e)) s) s =
      (kinds.flatMap fun kind => (es kind).map fun e => (kind, e)).foldlM visit s := by
  induction kinds generalizing s with
  | nil => rfl
  | cons kind kinds ih =>
    rw [List.foldlM_cons, List.flatMap_cons, List.foldlM_append, List.foldlM_map]
    exact bind_congr ih

/-- **The tables of a function that was written**: the edges of each kind in some order, and the
assignments for its pages. -/
theorem dumpFunction_tables {GV : Type} [DecidableEq GV] {recorded : Bool} {address : GV → Address}
    {f : FunctionGraph GV} (hr : Reads asserts recorded address f fi)
    (hcount : env.PrintCallArgumentCount = true) {name : Bytes} {tables : FactTables}
    (h : dumpFunction asserts env fi fuel = .ok (name, tables)) :
    env.symbolName fi.function.symbol = .ok name ∧ ∃ es : EdgeKind → List Edge,
      (∀ kind, (es kind).Perm ((edges f.ops kind).map (readEdge address f.function kind.indexed))) ∧
      (∀ e ∈ es .DlsymPagePointer, ∃ ps, pointersOf env.obj fuel e.from_node = .ok ps) ∧
      ∀ kind, tables.OutputTables kind = es kind ++
        if kind = .Assign then (es .DlsymPagePointer).flatMap (pageRows env fuel) else [] := by
  obtain ⟨⟨name', v₀⟩, henter, h⟩ := bind_ok h
  obtain ⟨v, hvisit, h⟩ := bind_ok h
  obtain ⟨rfl, rfl⟩ := Prod.mk.inj (Except.ok.inj h)
  choose es hperm hes using hr.edges
  simp only [hes] at hvisit
  have hrun := (foldlM_kinds (fun v e => v.visit_edge asserts env fi fuel name' e.1 e.2) es
    EdgeKind.all v₀).symm.trans hvisit
  obtain ⟨rows, hrows, hfold⟩ := run_printed hrun
  obtain ⟨-, -, hempty⟩ := enter_function_ok henter
  refine ⟨?_, es, hperm, fun e he => pointers_of_mapM hrows ?_, fun kind => ?_⟩
  · obtain ⟨_, hname, henter⟩ := bind_ok henter
    obtain ⟨rfl, -⟩ := Prod.mk.inj (Except.ok.inj henter)
    exact hname
  · exact List.mem_flatMap.mpr ⟨_, EdgeKind.mem_all _, List.mem_map.mpr ⟨e, he, rfl⟩⟩
  · rw [OutputTables_rows hfold, hempty, List.nil_append, mapM_printedBy hcount hrows]
    exact flatMap_rowsOf_byKind es kind

end
end PrintedEdges
end Bracelet.Edges

namespace Bracelet.Reachability
open Edges (Bytes EdgeKind EdgeOutput Edge End EdgeSort FactTables FunctionGraph FunctionInfo Graph
  GraphImage LaidOut Op Packable Reads Serialised StreamVByte Zstd Dumped edges readEdge showBytes)
open Edges.LoadEdges
open Edges.PrintedEdges (pageRows dumpFunction_tables)
open CandidateFunctions (pointersOf)

/-! ## Facts as they are read -/

/-- A node as `load.py` has it. -/
def loadedNode : Bracelet.Node → LoadedNode
  | .sym a => ⟨a, none⟩
  | .loc f i => ⟨f, some i⟩

/-- A fact as `load.py` has it: the columns of its declaration. -/
def loadedFact (e : Fact) : LoadedEdge :=
  ⟨loadedNode e.to_node, loadedNode e.from_node, if e.decl.kind.indexed then some e.idx else none⟩

section
variable {GV : Type} {address : GV → Edges.Address} {this : GV}

theorem loaded_ofSymbol (a : Edges.Address) :
    loaded (Edges.Node.ofSymbol a) = loadedNode (.sym (Edges.Node.ofSymbol a).symbol.toNat) := by
  rw [loaded, Edges.Node.local_idx_ofSymbol_any]
  rfl

/-- A node is the same in the tables and among the facts. -/
theorem loaded_read (hthis : Packable (address this)) {n : End GV} (hn : n.Fits)
    (hpackable : ∀ gv, n = .sym gv → Packable (address gv)) :
    loaded (n.read address this) =
      loadedNode (nodeAt (fun gv => (address gv).toNat) (address this).toNat n) := by
  cases n with
  | sym gv =>
    show loaded (Edges.Node.ofSymbol (address gv)) = _
    rw [loaded_ofSymbol, Edges.Node.symbol_ofSymbol (hpackable gv rfl)]
    rfl
  | loc i =>
    have hi : i < 65535 := hn
    have hnat : (UInt64.ofNat i).toNat = i := by
      rw [UInt64.toNat_ofNat']
      omega
    have hfits : (UInt64.ofNat i).toNat < 65535 := hnat.symm ▸ hi
    show loaded (Edges.Node.ofLocal (address this) (UInt64.ofNat i)) = _
    rw [loaded, Edges.Node.symbol_ofLocal hthis hfits, Edges.Node.local_idx_ofLocal hthis hfits]
    simp [nodeAt, loadedNode]
    omega

/-- The facts of a declaration: the edges, and the assignments for the pages. -/
theorem factsOf_decl (address : GV → Nat) (function : Nat) (pages : Nat → List Nat)
    (ops : List (Op GV)) (d : Decl) :
    (factsOf address function pages ops).filter (·.decl = d) =
      (edges ops d.kind).map (fun e =>
        ⟨d, nodeAt address function e.1, nodeAt address function e.2.1, e.2.2.toNat⟩) ++
      if d = .Assign then (edges ops .DlsymPagePointer).flatMap (pageFacts address function pages)
      else [] := by
  have hpage : ∀ e ∈ (edges ops .DlsymPagePointer).flatMap (pageFacts address function pages),
      e.decl = .Assign := by
    intro e he
    obtain ⟨⟨t, n, idx⟩, -, he⟩ := List.mem_flatMap.mp he
    cases n with
    | loc i => cases he
    | sym page =>
      obtain ⟨a, -, rfl⟩ := List.mem_map.mp he
      rfl
  have hpages : ((edges ops .DlsymPagePointer).flatMap (pageFacts address function pages)).filter
      (·.decl = d) = if d = .Assign then
        (edges ops .DlsymPagePointer).flatMap (pageFacts address function pages) else [] := by
    split
    next hd => exact List.filter_eq_self.mpr fun e he => by simp [hpage e he, hd]
    next hd => exact List.filter_eq_nil_iff.mpr fun e he => by simp [hpage e he, Ne.symm hd]
  rw [factsOf, List.filter_append, hpages]
  congr 1
  cases d <;> simp [Decl.all, List.filter_map, Function.comp_def]

end

/-! ## What is embedded -/

section
variable {GV : Type}

namespace RecordedProgram
variable (R : RecordedProgram GV)

/-- What is written of a function, or of the initializers that a pseudo-function stands for. -/
inductive Writes : FunctionGraph GV → FunctionFacts → Prop
  | function {r : RecordedFunction GV} (sbom : Option (Bytes × Bytes))
      (hsmall : r.visitor.NumAllocas < 2 ^ 32) :
      Writes ⟨r.F.symbol, sbom, r.visitor.FW.ops, UInt32.ofNat r.visitor.NumAllocas⟩
        (R.functionFacts r)
  | initializers (i : RecordedInitializers GV) (sbom : Option (Bytes × Bytes)) :
      Writes ⟨i.symbol, sbom, i.FW.ops, 0⟩ (R.initializerFacts i)

/-- **The program is embedded in an object**: its functions and initializers are the functions of
the graphs that lie there, and the object tells what symbols are called and what is on a page. -/
structure Embedded (asserts : Bool) (Z : Zstd) (V : StreamVByte) (sort : EdgeSort)
    [DecidableEq GV] (address : GV → Edges.Address) (env : EdgeOutput) (fuel : Nat)
    (graphs : List (Graph GV)) : Prop where
  addressed : ∀ gv, R.address gv = (address gv).toNat
  packable : ∀ gv, Packable (address gv)
  name : ∀ f ∈ graphs.flatMap Graph.functions, ∀ name,
    env.symbolName (address f.function) = .ok name → showBytes name = R.name f.function
  pages : ∀ gv pointers, pointersOf env.obj fuel (Edges.Node.ofSymbol (address gv)) = .ok pointers →
    R.pages (R.address gv) = pointers.map fun p => (Edges.Node.ofSymbol p).symbol.toNat
  written : ∃ images, List.Forall₂ (Serialised asserts Z V sort address) graphs images ∧
    LaidOut env.obj address env.obj.sections images
  functions : ∃ facts, List.Forall₂ R.Writes (graphs.flatMap Graph.functions) facts ∧
    facts.Perm R.program.functions

end RecordedProgram

/-! ## What is read back -/

/-- **A directory delivers the facts of a function**, as far as `load.py` reads it: the edges of
each declaration in some order, and the stack slots. -/
structure Delivers (gunzip : Bytes → Option Bytes) (d : Dumped) (F : FunctionFacts) : Prop where
  function : LoadedNode.parse (directoryName d.fi) = some (loadedNode (.sym F.symbol))
  function_name : showBytes d.function_name = F.function_name
  edges : ∀ decl : Decl, ∃ file es,
    Edges.LoadEdges.directory true d.tables (factsName decl.kind) = some file ∧
    LoadedEdge.read gunzip decl.kind.NUM_COMPONENTS file = some es ∧
    es.Perm ((F.facts.filter (·.decl = decl)).map loadedFact)
  allocas : ∃ file nodes, Edges.LoadEdges.directory true d.tables "IsAlloca.facts" = some file ∧
    readAllocas gunzip file = some nodes ∧ (∀ n, F.IsAlloca n → loadedNode n ∈ nodes) ∧
    ∀ n ∈ nodes, ∃ i < F.num_allocas, n.local_idx = some (i : Int)

namespace RecordedProgram
variable {R : RecordedProgram GV}

/-- A local that a fact is about is at an end of a row that the fact is read from. -/
theorem exists_row {tables : FactTables} {F : FunctionFacts}
    (hrows : ∀ d : Decl, ((tables.OutputTables d.kind).map (loadedEdge d.kind)).Perm
      ((F.facts.filter (·.decl = d)).map loadedFact)) {n : Bracelet.Node} (hn : n ∈ F.SeenNodes)
    (hlocal : n.isLocal = true) :
    ∃ N, Edges.PrintedEdges.InEdgeTable tables N ∧ loaded N = loadedNode n := by
  obtain ⟨m, hm, hn⟩ := List.mem_flatMap.mp (List.mem_eraseDups.mp hn)
  obtain ⟨e, he, hm⟩ := List.mem_flatMap.mp hm
  obtain rfl : n = m := by
    rcases List.mem_cons.mp hn with rfl | hn
    · cases hlocal
    · exact List.mem_singleton.mp hn
  have hmem : loadedFact e ∈ (tables.OutputTables e.decl.kind).map (loadedEdge e.decl.kind) :=
    (hrows e.decl).mem_iff.mpr (List.mem_map.mpr ⟨e, List.mem_filter.mpr ⟨he, by simp⟩, rfl⟩)
  obtain ⟨row, hrow, hread⟩ := List.mem_map.mp hmem
  have hto : loaded row.to_node = loadedNode e.to_node := congrArg LoadedEdge.dst hread
  have hfrom : loaded row.from_node = loadedNode e.from_node := congrArg LoadedEdge.src hread
  rcases List.mem_cons.mp hm with rfl | hm
  · exact ⟨row.to_node, ⟨_, row, hrow, .inl rfl⟩, hto⟩
  · obtain rfl := List.mem_singleton.mp hm
    exact ⟨row.from_node, ⟨_, row, hrow, .inr rfl⟩, hfrom⟩

/-- What a graph has of a function that was recorded. -/
theorem Writes.spec {f : FunctionGraph GV} {F : FunctionFacts} (h : R.Writes f F) :
    F.symbol = R.address f.function ∧ F.function_name = R.name f.function ∧
      F.num_allocas = f.NumAllocas.toNat ∧
      F.facts = factsOf R.address F.symbol R.pages f.ops := by
  cases h with
  | function sbom hsmall =>
    refine ⟨rfl, rfl, ?_, rfl⟩
    rw [UInt32.toNat_ofNat_of_lt' hsmall]
    rfl
  | initializers i sbom => exact ⟨rfl, rfl, rfl, rfl⟩

section
variable [DecidableEq GV] {asserts : Bool} {Z : Zstd} {V : StreamVByte} {sort : EdgeSort}
  {address : GV → Edges.Address} {env : EdgeOutput} {fuel : Nat} {graphs : List (Graph GV)}

/-- The assignments that are printed for the page of an edge. -/
theorem Embedded.loaded_pageRows (h : R.Embedded asserts Z V sort address env fuel graphs)
    {f : FunctionGraph GV} (hf : f.Fits) {e : End GV × End GV × UInt32}
    (he : e ∈ edges f.ops .DlsymPagePointer)
    (hpointers : ∃ pointers, pointersOf env.obj fuel (e.2.1.read address f.function) =
      .ok pointers) :
    (pageRows env fuel (readEdge address f.function false e)).map
        (loadedEdge .Assign) =
      (pageFacts R.address (R.address f.function) R.pages e).map loadedFact := by
  obtain ⟨pointers, hpointers⟩ := hpointers
  obtain ⟨t, n, idx⟩ := e
  obtain ⟨ht, hn⟩ := Edges.fits_of_mem_edges hf he
  have haddress : R.address = fun gv => (address gv).toNat := funext h.addressed
  have hrows : pageRows env fuel (readEdge address f.function false (t, n, idx)) =
      pointers.map fun p => ⟨t.read address f.function, Edges.Node.ofSymbol p, 0⟩ := by
    simp only [pageRows, readEdge, hpointers]
  rw [hrows]
  cases n with
  | loc i =>
    -- The walk starts at a symbol.
    have hi : (UInt64.ofNat i).toNat < 65535 := by
      rw [UInt64.toNat_ofNat']
      have : i < 65535 := hn
      omega
    obtain ⟨_, hsymbol, -⟩ := Edges.bind_ok hpointers
    simp [Edges.ensure, End.read, Edges.Node.local_idx_ofLocal (h.packable f.function) hi]
      at hsymbol
  | sym page =>
    have hto := loaded_read (h.packable f.function) ht fun gv _ => h.packable gv
    simp only [pageFacts, h.pages page pointers hpointers, List.map_map]
    refine List.map_congr_left fun p _ => ?_
    simp [loadedEdge, loadedFact, Decl.kind, EdgeKind.indexed, hto, haddress, loaded_ofSymbol]

/-- The rows of an edge table are the facts of its declaration. -/
theorem Embedded.loaded_rows (h : R.Embedded asserts Z V sort address env fuel graphs)
    {f : FunctionGraph GV} (hf : f.Fits) {F : FunctionFacts} (hw : R.Writes f F)
    {es : EdgeKind → List Edge} (hes : ∀ kind,
      (es kind).Perm ((edges f.ops kind).map (readEdge address f.function kind.indexed)))
    (hpointers : ∀ e ∈ es .DlsymPagePointer, ∃ pointers,
      pointersOf env.obj fuel e.from_node = .ok pointers) (d : Decl) :
    ((es d.kind ++ if d.kind = .Assign then (es .DlsymPagePointer).flatMap (pageRows env fuel)
        else []).map (loadedEdge d.kind)).Perm
      ((F.facts.filter (·.decl = d)).map loadedFact) := by
  obtain ⟨hsymbol, -, -, hfacts⟩ := hw.spec
  have haddress : R.address = fun gv => (address gv).toNat := funext h.addressed
  rw [hfacts, factsOf_decl, List.map_append, List.map_append, List.map_map]
  refine .append ?_ ?_
  · refine ((hes d.kind).map _).trans (.of_eq ?_)
    rw [List.map_map]
    refine List.map_congr_left fun e he => ?_
    obtain ⟨ht, hn⟩ := Edges.fits_of_mem_edges hf he
    have hto := loaded_read (h.packable f.function) ht fun gv _ => h.packable gv
    have hfrom := loaded_read (h.packable f.function) hn fun gv _ => h.packable gv
    by_cases hindexed : d.kind.indexed = true <;>
      simp [loadedEdge, loadedFact, readEdge, hto, hfrom, hindexed, hsymbol, haddress]
  · by_cases hd : d = .Assign
    · subst hd
      show (((es .DlsymPagePointer).flatMap (pageRows env fuel)).map (loadedEdge .Assign)).Perm _
      rw [if_pos rfl, List.map_flatMap, List.map_flatMap]
      refine ((hes .DlsymPagePointer).flatMap_right _).trans (.of_eq ?_)
      rw [List.flatMap_map]
      refine List.flatMap_congr fun e he => ?_
      rw [hsymbol]
      exact h.loaded_pageRows hf he (hpointers _
        ((hes .DlsymPagePointer).mem_iff.mpr (List.mem_map.mpr ⟨e, he, rfl⟩)))
    · have hkind : d.kind ≠ .Assign := by cases d <;> simp_all [Decl.kind]
      rw [if_neg hd, if_neg hkind]
      exact .refl _

/-- **What was written of a function is delivered.** -/
theorem Embedded.delivers (h : R.Embedded asserts Z V sort address env fuel graphs)
    (gunzip : Bytes → Option Bytes) (hcount : env.PrintCallArgumentCount = true)
    {f : FunctionGraph GV} (hmem : f ∈ graphs.flatMap Graph.functions) (hf : f.Fits)
    {F : FunctionFacts} (hw : R.Writes f F) {recorded : Bool} {d : Dumped}
    (hr : Reads asserts recorded address f d.fi)
    (hdump : Edges.dumpFunction asserts env d.fi fuel = .ok (d.function_name, d.tables))
    (hclosed : Edges.PrintedEdges.Closed d.fi d.tables) : Delivers gunzip d F := by
  obtain ⟨hname, es, hes, hpointers, htables⟩ := dumpFunction_tables hr hcount hdump
  obtain ⟨hsymbol, hfunction_name, hallocas, -⟩ := hw.spec
  have hfunction : d.fi.function.symbol = address f.function := by
    rw [hr.function, Edges.Node.symbol_ofSymbol (h.packable _)]
  have hrows : ∀ decl : Decl, ((d.tables.OutputTables decl.kind).map (loadedEdge decl.kind)).Perm
      ((F.facts.filter (·.decl = decl)).map loadedFact) := fun decl => by
    rw [htables]
    exact h.loaded_rows hf hw hes hpointers decl
  constructor
  case function =>
    rw [parse_directoryName, hfunction, hsymbol, h.addressed]
    rfl
  case function_name =>
    rw [hfunction_name]
    exact h.name f hmem _ (hfunction ▸ hname)
  case edges =>
    intro decl
    exact ⟨_, _, directory_factsName _ _ _, read_edges gunzip _ _, hrows decl⟩
  case allocas =>
    refine ⟨_, _, rfl, read_allocas gunzip _, fun n hn => ?_, fun n hn => ?_⟩
    · obtain ⟨hseen, i, hi, hloc⟩ := hn
      obtain ⟨N, hN, hread⟩ := exists_row hrows hseen (hloc ▸ rfl)
      rw [hloc] at hread
      obtain ⟨j, hj, hji⟩ : ∃ j, N.local_idx = some j ∧ j.toNat = i := by
        have hidx : N.local_idx.map (fun j => (j.toNat : Int)) = some (i : Int) :=
          congrArg LoadedNode.local_idx hread
        obtain ⟨j, hj, hji⟩ := Option.map_eq_some_iff.mp hidx
        exact ⟨j, hj, Int.ofNat.inj hji⟩
      rw [hloc, ← hread]
      refine List.mem_map.mpr ⟨N, (hclosed.allocas.2 N).mpr ⟨.inl hN, j, hj, ?_⟩, rfl⟩
      rw [hji, hr.num_allocas, ← hallocas]
      exact hi
    · obtain ⟨N, hN, rfl⟩ := List.mem_map.mp hn
      obtain ⟨-, i, hi, hlt⟩ := (hclosed.allocas.2 N).mp hN
      rw [hr.num_allocas, ← hallocas] at hlt
      exact ⟨i.toNat, hlt, by simp [loaded, hi]⟩

/-- **Each directory is dumped from what was written** of a function, in the order of the graphs. -/
theorem Embedded.written_from (h : R.Embedded asserts Z V sort address env fuel graphs)
    (hZ : Z.Lossless) (hV : V.Lossless) (hsort : ∀ n l, (sort n l).Perm l) {dump : List Dumped}
    (hdump : Edges.dumpEdges asserts Z V env fuel = .ok dump) :
    ∃ facts, facts.Perm R.program.functions ∧ List.Forall₂ (fun d F => ∃ f recorded,
      f ∈ graphs.flatMap Graph.functions ∧ R.Writes f F ∧ f.Fits ∧
        Reads asserts recorded address f d.fi ∧
        Edges.dumpFunction asserts env d.fi fuel = .ok (d.function_name, d.tables) ∧
        Edges.PrintedEdges.Closed d.fi d.tables) dump facts := by
  obtain ⟨images, hgraphs, hlaid⟩ := h.written
  obtain ⟨facts, hwritten, hperm⟩ := h.functions
  have hclosed := Edges.PrintedEdges.dumped_closed hdump
  obtain ⟨infoss, decoder, hinfoss, hread⟩ := Edges.foldlM_readSection hZ hV hsort hlaid hgraphs {}
  obtain ⟨⟨decoder', dirs⟩, hsections, hdirs⟩ := Edges.bind_ok hdump
  obtain rfl := Except.ok.inj hdirs
  rw [hread] at hsections
  obtain ⟨dirs', hfold, hdirs⟩ := Edges.bind_ok hsections
  obtain ⟨rfl, rfl⟩ := Prod.mk.inj (Except.ok.inj hdirs)
  obtain ⟨_, rfl, hdumped⟩ := Edges.foldlM_collected
    (f := fun fi => Edges.dumpFunction asserts env fi fuel)
    (g := fun fi (y : Bytes × FactTables) => (⟨fi, y.1, y.2⟩ : Dumped)) hfold
  have hreads := Edges.reads_graphs hgraphs hinfoss
  have hfacts := Edges.forall₂_comp hdumped (Edges.forall₂_comp hwritten hreads).flip
  refine ⟨facts, hperm, ((List.forall₂_and_left _ _).mpr ⟨hclosed, hfacts⟩).imp fun d F hd => ?_⟩
  obtain ⟨hclosed, fi, -, ⟨⟨name, tables⟩, hdump, rfl⟩, f, hmem, hw, hf, recorded, hr⟩ := hd
  exact ⟨f, recorded, hmem, hw, hf, hr, hdump, hclosed⟩

/-- **The facts of a program arrive.**  What `bracelet-edges` writes for an object in which the
program is embedded is one directory for each function and pseudo-function, in the order of the
graphs, and each delivers the facts of its function. -/
theorem dumped_facts (h : R.Embedded asserts Z V sort address env fuel graphs)
    (hZ : Z.Lossless) (hV : V.Lossless) (hsort : ∀ n l, (sort n l).Perm l)
    (hcount : env.PrintCallArgumentCount = true) {dump : List Dumped}
    (hdump : Edges.dumpEdges asserts Z V env fuel = .ok dump) (gunzip : Bytes → Option Bytes) :
    ∃ facts, facts.Perm R.program.functions ∧ List.Forall₂ (Delivers gunzip) dump facts := by
  obtain ⟨facts, hperm, hfrom⟩ := h.written_from hZ hV hsort hdump
  refine ⟨facts, hperm, hfrom.imp fun d F hd => ?_⟩
  obtain ⟨f, recorded, hmem, hw, hf, hr, hdump, hclosed⟩ := hd
  exact h.delivers gunzip hcount hmem hf hw hr hdump hclosed

end
end RecordedProgram
end

/-! ## A program that is dumped -/

namespace calledInTurn.Dump

/-- What is written of a function. -/
def graphOf (F : Function String) : FunctionGraph String :=
  ⟨F.symbol, none, (recordedFunction F).FW.ops, UInt32.ofNat (recordedFunction F).NumAllocas⟩

def graph : Graph String where
  record_debug_data := true
  functions := [graphOf (caller "main" "f"), graphOf (caller "f" "inflate"), graphOf inflate]

def writer : Edges.GraphWriter String where
  StringBlobIndices := [([], 0)]
  StringBlob := [0]
  Symbols := [("main", 0), ("f", 1), ("inflate", 2)]
  symbols_in_order := ["main", "f", "inflate"]
  local_names := [0, 0]
  function_data := [0, 0, 0, 1, 0, 0, 0, 0, 1, 0, 6, 0, 0, 0, 0, 0, 1, 0, 0, 1, 0, 0, 0, 0, 1, 0,
    10, 0, 0, 0, 0, 0, 2, 0, 0, 0, 0, 0, 0, 0, 0, 0, 0, 0, 0]
  record_debug_data := true
  num_functions := 3

def image : GraphImage String where
  header := {
    magic_number := Edges.GRAPH_MAGIC_NUMBER
    function_data_compressed_size := 66
    debug_data_compressed_size := 13
    num_symbols := 3
    string_blob_length := 1
    has_debug_locals := 1
    total_num_locals := 2
    num_functions := 3
    function_array_length := 45 }
  debug_data := [40, 181, 47, 253, 32, 4, 33, 0, 0, 0, 0, 0, 0]
  symbols := ["main", "f", "inflate"]
  function_data := [40, 181, 47, 253, 32, 57, 201, 1, 0, 0, 0, 0, 0, 0, 0, 0, 0, 0, 0, 0, 0, 0, 0,
    0, 1, 0, 0, 0, 0, 1, 0, 6, 0, 0, 0, 0, 0, 1, 0, 0, 1, 0, 0, 0, 0, 1, 0, 10, 0, 0, 0, 0, 0, 2, 0,
    0, 0, 0, 0, 0, 0, 0, 0, 0, 0, 0]

def bytes : Bytes :=
  Edges.graph_bytes image (List.replicate 8 0xff) (List.replicate 24 0xff) ++ List.replicate 4 0

def place (s : String) : Edges.Address := if s = "main" then 1 else if s = "f" then 2 else 3

/-- The graph lies at the start of its section. -/
def object : EdgeOutput where
  obj := {
    isApple := false
    sections := [⟨"GR_graph_edges", 0x1000, bytes.length⟩]
    copyData _ a := .ok (if a = 0x1000 then bytes else image.debug_data)
    resolvePointers _ a :=
      .ok (if a = 0x1028 then [0x2000] else if a = 0x1030 then [1, 2, 3] else [0]) }
  symbolName a := .ok (Edges.ascii (if a = 1 then "main" else if a = 2 then "f" else "inflate"))
  slm := none
  PrintCallArgumentCount := true

theorem place_packable (s : String) : Packable (place s) := by
  unfold place Packable
  split_ifs <;> decide

theorem valid_caller {F : Function String} {callee : String} (hops : (recordedFunction F).FW.ops =
      [.freshLocal [], .symbol callee, .addEdge .Call (.loc 0) (.sym callee) 0])
    (hallocas : (recordedFunction F).NumAllocas = 0) : (graphOf F).Valid := by
  unfold graphOf
  rw [hops, hallocas]
  refine { component := List.not_mem_nil, version := List.not_mem_nil, ops := ?_,
           num_locals := (by decide : 1 < 2 ^ 32), num_allocas := (by decide : 0 ≤ 1) }
  intro op hop
  simp only [List.mem_cons, List.not_mem_nil, or_false] at hop
  rcases hop with rfl | rfl | rfl
  · exact List.not_mem_nil
  · trivial
  · exact ⟨(by decide : 0 < 65535), trivial⟩

theorem valid : ∀ f ∈ graph.functions, f.Valid := by
  have hinflate : (graphOf inflate).Valid :=
    { component := List.not_mem_nil, version := List.not_mem_nil,
      ops := fun _ hop => absurd hop List.not_mem_nil,
      num_locals := by decide, num_allocas := by decide }
  intro f hf
  simp only [graph, List.mem_cons, List.not_mem_nil, or_false] at hf
  rcases hf with rfl | rfl | rfl
  · exact valid_caller rfl rfl
  · exact valid_caller rfl rfl
  · exact hinflate

theorem serialised :
    Serialised true Edges.zstd Edges.streamvbyte Edges.sampleSort place graph image where
  valid := valid
  written := ⟨writer, rfl, {
    symbols := (by decide : writer.symbols_in_order.length ≤ 2 ^ 31)
    string_blob := by decide
    local_names := by decide
    function_array := by decide
    function_data := by decide
    debug_data := by decide }⟩
  packable gv _ := place_packable gv

theorem laidOut : LaidOut object.obj place object.obj.sections [image] := by
  have hcopy : object.obj.copyData bytes.length 0x1000 = .ok bytes := rfl
  have hplaced : Edges.Placed object.obj place 0x1000 (0 + 0) image (List.replicate 8 0xff)
      (List.replicate 24 0xff) :=
    ⟨rfl, rfl, ⟨0x2000, by decide, rfl, rfl⟩, rfl⟩
  exact .graphs rfl hcopy (.graph hplaced (.padding _ 4)) .nil

theorem writes_graphOf {F : Function String}
    (hrun : EdgeVisitor.run sampleModule F = .ok (recordedFunction F))
    (hallocas : (recordedFunction F).NumAllocas = 0) : calledInTurn.Writes (graphOf F)
      (calledInTurn.functionFacts ⟨⟨sampleModule, F⟩, recordedFunction F, hrun⟩) := by
  have hsmall : (recordedFunction F).NumAllocas < 2 ^ 32 := hallocas ▸ Nat.two_pow_pos 32
  exact .function (r := ⟨⟨sampleModule, F⟩, recordedFunction F, hrun⟩) none hsmall

theorem embedded : calledInTurn.Embedded true Edges.zstd Edges.streamvbyte Edges.sampleSort place
    object 1 [graph] where
  addressed s := by
    simp only [calledInTurn, place]
    split_ifs <;> rfl
  packable := place_packable
  name f hf name hname := by
    obtain rfl := Except.ok.inj hname
    simp only [graph, List.flatMap_cons, List.flatMap_nil, List.append_nil, List.mem_cons,
      List.not_mem_nil, or_false] at hf
    rcases hf with rfl | rfl | rfl <;> decide
  pages s pointers hpointers := by
    have hnone : pointersOf object.obj 1 (Edges.Node.ofSymbol (place s)) = .ok [] := by
      unfold place
      split_ifs <;> rfl
    rw [hnone] at hpointers
    obtain rfl := Except.ok.inj hpointers
    rfl
  written := ⟨[image], .cons serialised .nil, laidOut⟩
  functions := by
    refine ⟨calledInTurn.program.functions, ?_, .refl _⟩
    exact .cons (writes_graphOf rfl rfl) (.cons (writes_graphOf rfl rfl)
      (.cons (writes_graphOf rfl rfl) .nil))

end calledInTurn.Dump

theorem calledInTurn.dumped : ∃ dump facts,
    Edges.dumpEdges true Edges.zstd Edges.streamvbyte Dump.object 1 = .ok dump ∧
      facts.Perm calledInTurn.program.functions ∧
      List.Forall₂ (Delivers fun _ => none) dump facts := by
  have hok : (Edges.dumpEdges true Edges.zstd Edges.streamvbyte Dump.object 1).toOption.isSome =
      true := by decide +kernel
  cases hdump : Edges.dumpEdges true Edges.zstd Edges.streamvbyte Dump.object 1 with
  | error e => simp [hdump, Except.toOption] at hok
  | ok dump =>
    obtain ⟨facts, hperm, hfacts⟩ := RecordedProgram.dumped_facts Dump.embedded Edges.zstd_lossless
      Edges.streamvbyte_lossless (fun _ l => List.perm_insertionSort _ l) rfl hdump fun _ => none
    exact ⟨dump, facts, rfl, hperm, hfacts⟩

end Bracelet.Reachability
