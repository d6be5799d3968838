import Bracelet.CallTables
import Bracelet.OverrideRenaming

/-!
# The exported call graph

`dump_callgraph` joins the rows of the call graph with the functions and the addresses of their call
sites.  The addresses are those of one of two tables, `FastNodeInstructions` if it is not empty, and
the callees that are written are chosen by what they are called.  So the edges of the call sites
that only the other table covers are lost, and so are those to functions with names that look like
those of nodes.  When no edge is lost and none is written twice is what `exported_iff` says.

What raises an exception is `none`.
-/
namespace Bracelet.CallGraphExport
open Edges (Bytes)
open Edges.LoadEdges Overrides

/-! ## The script -/

/-- The tables of one run.  The table of names is a file, since names are printed as they are. -/
structure Tables where
  callgraph : List CallTables.Row
  EnclosingFunctionForLocal : List (String × String)
  NodeInstructions : List (String × String)
  FastNodeInstructions : List (String × String)
  DebugTable : Bytes

/-- The order in which the callees of a set are enumerated: it is not known, but each comes once. -/
structure SetOrder where
  enumerate : List String → List String
  perm : ∀ callees, (enumerate callees).Perm callees

namespace Tables
variable (T : Tables)

/-- `dict(load_table(base / "DebugTable.facts"))` -/
def debug_table : Option (List (String × String)) := do
  let rows ← (← load_table T.DebugTable).mapM pairOfCells
  return Dict.ofList (rows.map fun row => (String.ofList row.1, String.ofList row.2))

/-- `CallGraph(base)` -/
def call_graph : Option CallTables.CallGraph := T.debug_table.map fun names => ⟨names, T.callgraph⟩

/-- `instruction_file` -/
def instructions : List (String × String) :=
  if T.FastNodeInstructions ≠ [] then T.FastNodeInstructions else T.NodeInstructions

def node_instructions : List (String × List String) :=
  Dict.collect (fun addrs addr => addrs ++ [addr]) (T.instructions.map Prod.swap)

def build_callsite_table : List (String × String) :=
  Dict.ofList (T.EnclosingFunctionForLocal.map Prod.swap)

end Tables

def call_graph_edges (cg : CallTables.CallGraph) : List (String × List String) :=
  Dict.collect (fun callees callee => callees.insert callee)
    (cg.table.map fun row => (row.caller, row.callee))

def normal_symbol (x : String) : Option Bool :=
  if " -> ".toList <:+: x.toList ∨ '*' ∈ x.toList then some false
  else x.toList.head?.map fun c => decide (c ≠ '.')

/-- A row of `CallGraph.csv`: the calling function, the address and the callee. -/
abbrev Exported := String × String × String

/-- The body of the loop over the call sites. -/
def siteRows (order : SetOrder) (T : Tables) (cg : CallTables.CallGraph)
    (edge : String × List String) : Option (List Exported) := do
  let (k, v) := edge
  let normal_callees ← (order.enumerate v).filterM fun callee => normal_symbol (cg.pretty callee)
  let addrs := (Dict.get? T.node_instructions k).getD []
  return normal_callees.flatMap fun c =>
    match Dict.get? T.build_callsite_table k with
    | some func => addrs.map fun addr => (func, addr, c)
    | none => []

def dump_callgraph (order : SetOrder) (T : Tables) : Option (List Exported) := do
  let cg ← T.call_graph
  let rows ← (call_graph_edges cg).mapM (siteRows order T cg)
  return rows.flatten

/-! ## Edges -/

/-- The callee is the function at some address, and neither a local node nor a starred one. -/
def FunctionSymbol (c : String) : Prop :=
  ∃ address : UInt64, c = String.ofList (addressText address)

namespace Tables
variable (T : Tables)

/-- Some row has call site `k` and callee `c`. -/
def Calls (k c : String) : Prop := ∃ row ∈ T.callgraph, row.caller = k ∧ row.callee = c

/-- The address is recorded for the call site, in one of the tables or the other. -/
def Recorded (a k : String) : Prop := (a, k) ∈ T.NodeInstructions ∨ (a, k) ∈ T.FastNodeInstructions

/-- There is an edge from `f` to `c` at `a`. -/
def Edge (f a c : String) : Prop :=
  ∃ k, T.Calls k c ∧ (f, k) ∈ T.EnclosingFunctionForLocal ∧ T.Recorded a k ∧ FunctionSymbol c

/-- The rows are the edges, each once. -/
structure LosesNoEdge (rows : List Exported) : Prop where
  edge : ∀ f a c, (f, a, c) ∈ rows ↔ T.Edge f a c
  once : rows.Nodup

/-- The call site is in `f`, which is the function of the last row about it. -/
def Within (f k : String) : Prop :=
  Dict.lastValue (T.EnclosingFunctionForLocal.map Prod.swap) k = some f

/-- What a callee is called. -/
def nameOf (names : List (String × String)) (c : String) : String :=
  (CallTables.CallGraph.mk names T.callgraph).pretty c

def Normal (names : List (String × String)) (c : String) : Prop :=
  normal_symbol (T.nameOf names c) = some true

/-- When the rows are the edges, each once: every callee has a name, and that of a function is
normal while other names are not; the table of instructions that is read covers what is recorded;
and it gives no address twice, neither to a call site nor to two of them in one function. -/
structure Exportable (names : List (String × String)) : Prop where
  named : ∀ row ∈ T.callgraph, T.nameOf names row.callee ≠ ""
  normal : ∀ f k a c, T.Calls k c → T.Within f k → (a, k) ∈ T.instructions →
    (T.Normal names c ↔ FunctionSymbol c)
  covered : ∀ f a c, T.Edge f a c → ∃ k, T.Calls k c ∧ T.Within f k ∧ (a, k) ∈ T.instructions
  single : ∀ f k c, T.Calls k c → T.Within f k → FunctionSymbol c →
    (T.instructions.filter fun row => row.2 = k).Nodup
  apart : ∀ f a c k k', FunctionSymbol c → T.Calls k c → T.Within f k → (a, k) ∈ T.instructions →
    T.Calls k' c → T.Within f k' → (a, k') ∈ T.instructions → k = k'

end Tables

/-! ## What is written -/

theorem filterAuxM_eq_some_iff {α : Type} {p : α → Option Bool} {l acc l' : List α} :
    l.filterAuxM p acc = some l' ↔
      (∀ a ∈ l, (p a).isSome) ∧ l' = (l.filter fun a => p a = some true).reverse ++ acc := by
  induction l generalizing acc with
  | nil => exact ⟨fun h => ⟨nofun, (Option.some.inj h).symm⟩, fun h => congrArg some h.2.symm⟩
  | cons a l ih =>
    rw [List.filterAuxM, List.forall_mem_cons, List.filter_cons]
    cases hp : p a with
    | none => simp
    | some b =>
      refine (@ih (cond b (a :: acc) acc)).trans ?_
      cases b <;> simp

theorem filterM_eq_some_iff {α : Type} {p : α → Option Bool} {l l' : List α} :
    l.filterM p = some l' ↔ (∀ a ∈ l, (p a).isSome) ∧ l' = l.filter fun a => p a = some true := by
  rw [List.filterM, Option.bind_eq_bind, Option.bind_eq_some_iff]
  constructor
  · rintro ⟨kept, hkept, h⟩
    obtain ⟨hall, rfl⟩ := filterAuxM_eq_some_iff.mp hkept
    exact ⟨hall, by simpa using (Option.some.inj h).symm⟩
  · rintro ⟨hall, rfl⟩
    exact ⟨_, filterAuxM_eq_some_iff.mpr ⟨hall, rfl⟩, by simp⟩

theorem mapM_eq_some_iff {α β : Type} {f : α → Option β} {P : α → Prop} {g : α → β}
    (h : ∀ a b, f a = some b ↔ P a ∧ b = g a) {l : List α} {l' : List β} :
    l.mapM f = some l' ↔ (∀ a ∈ l, P a) ∧ l' = l.map g := by
  induction l generalizing l' with
  | nil => exact ⟨fun h => ⟨nofun, (Option.some.inj h).symm⟩, fun h => congrArg some h.2.symm⟩
  | cons a l ih =>
    rw [List.mapM_cons, List.forall_mem_cons, List.map_cons]
    constructor
    · intro hmap
      obtain ⟨b, hb, hmap⟩ := Option.bind_eq_some_iff.mp hmap
      obtain ⟨bs, hbs, hmap⟩ := Option.bind_eq_some_iff.mp hmap
      obtain rfl := Option.some.inj hmap
      obtain ⟨ha, rfl⟩ := (h a b).mp hb
      obtain ⟨hall, rfl⟩ := ih.mp hbs
      exact ⟨⟨ha, hall⟩, rfl⟩
    · rintro ⟨⟨ha, hall⟩, rfl⟩
      rw [(h a _).mpr ⟨ha, rfl⟩, ih.mpr ⟨hall, rfl⟩]
      rfl

theorem normal_symbol_isSome {x : String} : (normal_symbol x).isSome ↔ x ≠ "" := by
  have hnil : x.toList = [] ↔ x = "" := by simp
  unfold normal_symbol
  split
  · rename_i h
    refine iff_of_true rfl fun hx => ?_
    subst hx
    exact absurd h (by decide)
  · rw [Option.isSome_map, List.isSome_head?]
    exact not_congr hnil

namespace Tables
variable (order : SetOrder) (T : Tables) (cg : CallTables.CallGraph)

/-- The addresses of a call site. -/
def addressesOf (k : String) : List String :=
  (T.instructions.filter fun row => row.2 = k).map Prod.fst

/-- What is called at a call site under a normal name. -/
def normalCallees (e : String × List String) : List String :=
  (order.enumerate e.2).filter fun c => normal_symbol (cg.pretty c) = some true

/-- The rows of a call site whose callees have names. -/
def written (e : String × List String) : List Exported :=
  (normalCallees order cg e).flatMap fun c =>
    match Dict.lastValue (T.EnclosingFunctionForLocal.map Prod.swap) e.1 with
    | some func => (T.addressesOf e.1).map fun addr => (func, addr, c)
    | none => []

theorem getD_node_instructions (k : String) :
    (Dict.get? T.node_instructions k).getD [] = T.addressesOf k := by
  rw [node_instructions, Dict.getD_get?_collect, Dict.foldl_append_singleton, Dict.valuesOf,
    List.filter_map, List.map_map]
  rfl

theorem siteRows_eq_some_iff {e : String × List String} {rows : List Exported} :
    siteRows order T cg e = some rows ↔
      (∀ c ∈ e.2, cg.pretty c ≠ "") ∧ rows = T.written order cg e := by
  obtain ⟨k, v⟩ := e
  have hmem : (∀ c ∈ order.enumerate v, (normal_symbol (cg.pretty c)).isSome) ↔
      ∀ c ∈ v, cg.pretty c ≠ "" := by
    simp only [(order.perm v).mem_iff, normal_symbol_isSome]
  have hwritten : ∀ callees : List String, callees.flatMap (fun c =>
      match Dict.get? T.build_callsite_table k with
      | some func => ((Dict.get? T.node_instructions k).getD []).map fun addr => (func, addr, c)
      | none => []) = callees.flatMap fun c =>
      match Dict.lastValue (T.EnclosingFunctionForLocal.map Prod.swap) k with
      | some func => (T.addressesOf k).map fun addr => (func, addr, c)
      | none => [] := by
    intro callees
    rw [getD_node_instructions, build_callsite_table, Dict.get?_ofList]
  rw [siteRows, Option.bind_eq_bind, Option.bind_eq_some_iff]
  constructor
  · rintro ⟨callees, hcallees, h⟩
    obtain ⟨hall, rfl⟩ := filterM_eq_some_iff.mp hcallees
    exact ⟨hmem.mp hall, (Option.some.inj h).symm.trans (hwritten _)⟩
  · rintro ⟨hall, rfl⟩
    exact ⟨_, filterM_eq_some_iff.mpr ⟨hmem.mpr hall, rfl⟩, congrArg some (hwritten _)⟩

theorem dump_callgraph_eq_some_iff {rows : List Exported} :
    dump_callgraph order T = some rows ↔ ∃ names, T.debug_table = some names ∧
      (∀ e ∈ call_graph_edges ⟨names, T.callgraph⟩, ∀ c ∈ e.2,
        (CallTables.CallGraph.mk names T.callgraph).pretty c ≠ "") ∧
      rows = (call_graph_edges ⟨names, T.callgraph⟩).flatMap
        (T.written order ⟨names, T.callgraph⟩) := by
  rw [dump_callgraph, call_graph]
  cases hnames : T.debug_table with
  | none => simp
  | some names =>
    rw [Option.map_some, Option.bind_eq_bind, Option.bind_some, Option.bind_eq_bind,
      Option.bind_eq_some_iff]
    have hiff := @mapM_eq_some_iff _ _ _ _ _
      (fun e _ => T.siteRows_eq_some_iff order ⟨names, T.callgraph⟩ (e := e))
    constructor
    · rintro ⟨parts, hparts, h⟩
      obtain ⟨hall, rfl⟩ := hiff.mp hparts
      exact ⟨names, rfl, hall, (Option.some.inj h).symm⟩
    · rintro ⟨names', hsome, hall, rfl⟩
      obtain rfl := Option.some.inj hsome
      exact ⟨_, hiff.mpr ⟨hall, rfl⟩, rfl⟩

end Tables

/-! ## The join -/

variable {order : SetOrder} {T : Tables} {cg : CallTables.CallGraph}

/-- The callees of a call site are those of its rows, each once. -/
theorem mem_call_graph_edges {e : String × List String} (he : e ∈ call_graph_edges cg) :
    e.2.Nodup ∧ ∀ c, c ∈ e.2 ↔ ∃ row ∈ cg.table, row.caller = e.1 ∧ row.callee = c := by
  obtain ⟨k, v⟩ := e
  obtain ⟨-, rfl⟩ := Dict.mem_collect.mp he
  refine ⟨(Dict.foldl_insert _).1, fun c => ?_⟩
  rw [(Dict.foldl_insert _).2, Dict.mem_valuesOf, List.mem_map]
  simp [Prod.ext_iff]

theorem exists_call_graph_edge {row : CallTables.Row} (hrow : row ∈ cg.table) :
    ∃ e ∈ call_graph_edges cg, e.1 = row.caller ∧ row.callee ∈ e.2 := by
  have hkey : row.caller ∈ (cg.table.map fun row => (row.caller, row.callee)).map Prod.fst :=
    List.mem_map.mpr ⟨_, List.mem_map.mpr ⟨row, hrow, rfl⟩, rfl⟩
  obtain ⟨callees, he⟩ : ∃ callees, (row.caller, callees) ∈ call_graph_edges cg :=
    ⟨_, Dict.mem_collect.mpr ⟨hkey, rfl⟩⟩
  exact ⟨_, he, rfl, ((mem_call_graph_edges he).2 _).mpr ⟨row, hrow, rfl, rfl⟩⟩

theorem mem_addressesOf {a k : String} : a ∈ T.addressesOf k ↔ (a, k) ∈ T.instructions := by
  simp [Tables.addressesOf]

theorem mem_normalCallees {e : String × List String} {c : String} :
    c ∈ Tables.normalCallees order cg e ↔
      c ∈ e.2 ∧ normal_symbol (cg.pretty c) = some true := by
  simp [Tables.normalCallees, (order.perm e.2).mem_iff]

theorem mem_written {e : String × List String} {f a c : String} :
    (f, a, c) ∈ T.written order cg e ↔ (c ∈ e.2 ∧ normal_symbol (cg.pretty c) = some true) ∧
      T.Within f e.1 ∧ (a, e.1) ∈ T.instructions := by
  rw [Tables.written, List.mem_flatMap, Tables.Within]
  cases Dict.lastValue (T.EnclosingFunctionForLocal.map Prod.swap) e.1 with
  | none => simp
  | some func =>
    constructor
    · rintro ⟨c', hc', hmem⟩
      obtain ⟨a', ha', heq⟩ := List.mem_map.mp hmem
      obtain ⟨rfl, hrest⟩ := Prod.mk.inj heq
      obtain ⟨rfl, rfl⟩ := Prod.mk.inj hrest
      exact ⟨mem_normalCallees.mp hc', rfl, mem_addressesOf.mp ha'⟩
    · rintro ⟨hc, heq, ha⟩
      obtain rfl := Option.some.inj heq
      exact ⟨c, mem_normalCallees.mpr hc, List.mem_map.mpr ⟨a, mem_addressesOf.mpr ha, rfl⟩⟩

/-- The addresses of a call site are apart when its rows in the table are. -/
theorem nodup_addressesOf {k : String} :
    (T.addressesOf k).Nodup ↔ (T.instructions.filter fun row => row.2 = k).Nodup := by
  refine ⟨List.Nodup.of_map _, fun h => h.map_on ?_⟩
  intro x hx y hy heq
  have hsite : ∀ row ∈ T.instructions.filter (fun row => row.2 = k), row.2 = k := fun row hrow => by
    simpa using List.of_mem_filter hrow
  exact Prod.ext heq ((hsite x hx).trans (hsite y hy).symm)

/-- A call site without addresses has none twice. -/
theorem nodup_addressesOf_of_mem {k : String}
    (h : ∀ a, (a, k) ∈ T.instructions → (T.addressesOf k).Nodup) : (T.addressesOf k).Nodup := by
  cases haddrs : T.addressesOf k with
  | nil => exact List.nodup_nil
  | cons a rest =>
    have ha : a ∈ T.addressesOf k := haddrs ▸ List.mem_cons_self
    exact haddrs ▸ h a (mem_addressesOf.mp ha)

/-- The rows of one call site are apart when its addresses are, if there are any rows. -/
theorem nodup_written {e : String × List String} (he : e.2.Nodup) :
    (T.written order cg e).Nodup ↔ ∀ f c, T.Within f e.1 → c ∈ e.2 →
      normal_symbol (cg.pretty c) = some true → (T.addressesOf e.1).Nodup := by
  have hcallees : (Tables.normalCallees order cg e).Nodup :=
    (((order.perm e.2).nodup_iff).mpr he).filter _
  unfold Tables.written Tables.Within
  cases Dict.lastValue (T.EnclosingFunctionForLocal.map Prod.swap) e.1 with
  | none =>
    rw [List.flatMap_eq_nil_iff.mpr fun _ _ => rfl]
    exact iff_of_true List.nodup_nil nofun
  | some func =>
    have hinj : ∀ c : String, Function.Injective fun addr : String => (func, addr, c) :=
      fun c a a' heq => (Prod.mk.inj (Prod.mk.inj heq).2).1
    rw [List.nodup_flatMap]
    constructor
    · rintro ⟨hall, -⟩ f c - hc hnormal
      exact (List.nodup_map_iff (hinj c)).mp (hall c (mem_normalCallees.mpr ⟨hc, hnormal⟩))
    · intro h
      refine ⟨fun c hc => ?_, hcallees.imp fun {c c'} hne => ?_⟩
      · obtain ⟨hmem, hnormal⟩ := mem_normalCallees.mp hc
        exact (h func c rfl hmem hnormal).map (hinj c)
      · refine List.disjoint_left.mpr fun row hrow hrow' => hne ?_
        obtain ⟨a, -, rfl⟩ := List.mem_map.mp hrow
        obtain ⟨a', -, heq⟩ := List.mem_map.mp hrow'
        exact (Prod.mk.inj (Prod.mk.inj heq).2).2.symm

section
variable (order : SetOrder) (T : Tables) (names : List (String × String))

/-- The rows that are written under given names. -/
def exportedRows : List Exported :=
  (call_graph_edges ⟨names, T.callgraph⟩).flatMap (T.written order ⟨names, T.callgraph⟩)

variable {order T names}

/-- **The rows are the join** of what is called under a normal name with the functions and with the
table of instructions that is read. -/
theorem mem_exportedRows {f a c : String} : (f, a, c) ∈ exportedRows order T names ↔
    ∃ k, T.Calls k c ∧ T.Within f k ∧ (a, k) ∈ T.instructions ∧ T.Normal names c := by
  rw [exportedRows, List.mem_flatMap]
  constructor
  · rintro ⟨e, he, hrow⟩
    obtain ⟨⟨hc, hnormal⟩, hwithin, ha⟩ := mem_written.mp hrow
    exact ⟨e.1, ((mem_call_graph_edges he).2 c).mp hc, hwithin, ha, hnormal⟩
  · rintro ⟨k, ⟨row, hrow, rfl, rfl⟩, hwithin, ha, hnormal⟩
    obtain ⟨e, he, hk, hc⟩ := @exists_call_graph_edge ⟨names, T.callgraph⟩ row hrow
    rw [← hk] at hwithin ha
    exact ⟨e, he, mem_written.mpr ⟨⟨hc, hnormal⟩, hwithin, ha⟩⟩

/-- The rows are apart when those of each call site are and no two call sites have one in common. -/
theorem nodup_exportedRows : (exportedRows order T names).Nodup ↔
    (∀ f k c, T.Calls k c → T.Within f k → T.Normal names c → (T.addressesOf k).Nodup) ∧
      ∀ f a c k k', T.Normal names c → T.Calls k c → T.Within f k → (a, k) ∈ T.instructions →
        T.Calls k' c → T.Within f k' → (a, k') ∈ T.instructions → k = k' := by
  have hcallees := fun e he => @mem_call_graph_edges ⟨names, T.callgraph⟩ e he
  have hexists := fun row hrow => @exists_call_graph_edge ⟨names, T.callgraph⟩ row hrow
  rw [exportedRows, List.nodup_flatMap]
  constructor
  · rintro ⟨hsites, hdisjoint⟩
    refine ⟨?_, ?_⟩
    · rintro f k c ⟨row, hrow, rfl, rfl⟩ hwithin hnormal
      obtain ⟨e, he, hk, hc⟩ := hexists row hrow
      rw [← hk] at hwithin ⊢
      exact (nodup_written (hcallees e he).1).mp (hsites e he) f _ hwithin hc hnormal
    · rintro f a c k k' hnormal ⟨row, hrow, rfl, rfl⟩ hwithin ha ⟨row', hrow', rfl, hcallee⟩
        hwithin' ha'
      obtain ⟨e, he, hk, hc⟩ := hexists row hrow
      obtain ⟨e', he', hk', hc'⟩ := hexists row' hrow'
      rw [hcallee] at hc'
      rw [← hk] at hwithin ha ⊢
      rw [← hk'] at hwithin' ha' ⊢
      by_contra hne
      have hsymm : Std.Symm (Function.onFun List.Disjoint
          (T.written order ⟨names, T.callgraph⟩)) := ⟨fun _ _ h => h.symm⟩
      refine hdisjoint.forall he he' (fun heq => hne (congrArg Prod.fst heq))
        (mem_written.mpr ⟨⟨hc, hnormal⟩, hwithin, ha⟩)
        (mem_written.mpr ⟨⟨hc', hnormal⟩, hwithin', ha'⟩)
  · rintro ⟨hsingle, hapart⟩
    refine ⟨fun e he => ?_, ?_⟩
    · refine (nodup_written (hcallees e he).1).mpr fun f c hwithin hc hnormal => ?_
      exact hsingle f e.1 c (((hcallees e he).2 c).mp hc) hwithin hnormal
    · have hkeys := List.pairwise_map.mp (Dict.nodup_keys_collect
        (fun callees callee => callees.insert callee)
        (T.callgraph.map fun row => (row.caller, row.callee)))
      refine hkeys.imp_of_mem fun {e e'} he he' hne => ?_
      refine List.disjoint_left.mpr fun ⟨f, a, c⟩ hrow hrow' => hne ?_
      obtain ⟨⟨hc, hnormal⟩, hwithin, ha⟩ := mem_written.mp hrow
      obtain ⟨⟨hc', -⟩, hwithin', ha'⟩ := mem_written.mp hrow'
      exact hapart f a c e.1 e'.1 hnormal (((hcallees e he).2 c).mp hc) hwithin ha
        (((hcallees e' he').2 c).mp hc') hwithin' ha'

theorem dump_callgraph_eq_exportedRows {rows : List Exported} :
    dump_callgraph order T = some rows ↔ ∃ names, T.debug_table = some names ∧
      (∀ row ∈ T.callgraph, T.nameOf names row.callee ≠ "") ∧ rows = exportedRows order T names := by
  rw [T.dump_callgraph_eq_some_iff order]
  have hnamed : ∀ names, (∀ e ∈ call_graph_edges ⟨names, T.callgraph⟩, ∀ c ∈ e.2,
      (CallTables.CallGraph.mk names T.callgraph).pretty c ≠ "") ↔
      ∀ row ∈ T.callgraph, T.nameOf names row.callee ≠ "" := by
    intro names
    constructor
    · intro h row hrow
      obtain ⟨e, he, -, hc⟩ := @exists_call_graph_edge ⟨names, T.callgraph⟩ row hrow
      exact h e he _ hc
    · intro h e he c hc
      obtain ⟨row, hrow, -, rfl⟩ := ((mem_call_graph_edges he).2 c).mp hc
      exact h row hrow
  simp only [hnamed]
  rfl

theorem mem_of_within {f k : String} (h : T.Within f k) : (f, k) ∈ T.EnclosingFunctionForLocal := by
  obtain ⟨row, hrow, heq⟩ := List.mem_map.mp (Dict.mem_of_lastValue h)
  obtain ⟨rfl, rfl⟩ := Prod.mk.inj heq
  exact hrow

theorem recorded_of_mem {a k : String} (h : (a, k) ∈ T.instructions) : T.Recorded a k := by
  unfold Tables.instructions at h
  split at h
  · exact .inr h
  · exact .inl h

/-- The rows are the edges when those of normal callees are, and the table that is read covers what
is recorded. -/
theorem losesNoEdge_iff (hnamed : ∀ row ∈ T.callgraph, T.nameOf names row.callee ≠ "") :
    T.LosesNoEdge (exportedRows order T names) ↔ T.Exportable names := by
  constructor
  · rintro ⟨hedge, honce⟩
    obtain ⟨hsingle, hapart⟩ := nodup_exportedRows.mp honce
    have hnormal : ∀ f k a c, T.Calls k c → T.Within f k → (a, k) ∈ T.instructions →
        (T.Normal names c ↔ FunctionSymbol c) := by
      intro f k a c hcalls hwithin ha
      constructor
      · intro hnormal
        obtain ⟨-, -, -, -, hsymbol⟩ :=
          (hedge f a c).mp (mem_exportedRows.mpr ⟨k, hcalls, hwithin, ha, hnormal⟩)
        exact hsymbol
      · intro hsymbol
        obtain ⟨-, -, -, -, hnormal⟩ := mem_exportedRows.mp ((hedge f a c).mpr
          ⟨k, hcalls, mem_of_within hwithin, recorded_of_mem ha, hsymbol⟩)
        exact hnormal
    refine ⟨hnamed, hnormal, ?_, ?_, ?_⟩
    · intro f a c he
      obtain ⟨k, hcalls, hwithin, ha, -⟩ := mem_exportedRows.mp ((hedge f a c).mpr he)
      exact ⟨k, hcalls, hwithin, ha⟩
    · intro f k c hcalls hwithin hsymbol
      refine nodup_addressesOf.mp (nodup_addressesOf_of_mem fun a ha => ?_)
      exact hsingle f k c hcalls hwithin ((hnormal f k a c hcalls hwithin ha).mpr hsymbol)
    · intro f a c k k' hsymbol hcalls hwithin ha hcalls' hwithin' ha'
      exact hapart f a c k k' ((hnormal f k a c hcalls hwithin ha).mpr hsymbol) hcalls hwithin ha
        hcalls' hwithin' ha'
  · intro h
    refine ⟨fun f a c => ?_, nodup_exportedRows.mpr ⟨?_, ?_⟩⟩
    · rw [mem_exportedRows]
      constructor
      · rintro ⟨k, hcalls, hwithin, ha, hnormal⟩
        exact ⟨k, hcalls, mem_of_within hwithin, recorded_of_mem ha,
          (h.normal f k a c hcalls hwithin ha).mp hnormal⟩
      · intro he
        obtain ⟨-, -, -, -, hsymbol⟩ := id he
        obtain ⟨k, hcalls, hwithin, ha⟩ := h.covered f a c he
        exact ⟨k, hcalls, hwithin, ha, (h.normal f k a c hcalls hwithin ha).mpr hsymbol⟩
    · intro f k c hcalls hwithin hnormal
      refine nodup_addressesOf_of_mem fun a ha => nodup_addressesOf.mpr ?_
      exact h.single f k c hcalls hwithin ((h.normal f k a c hcalls hwithin ha).mp hnormal)
    · intro f a c k k' hnormal hcalls hwithin ha hcalls' hwithin' ha'
      exact h.apart f a c k k' ((h.normal f k a c hcalls hwithin ha).mp hnormal) hcalls hwithin ha
        hcalls' hwithin' ha'

/-- **When no edge is lost.**  The call graph that is exported has every edge once, and nothing
else, if and only if the tables are exportable. -/
theorem exported_iff (order : SetOrder) (T : Tables) :
    (∃ rows, dump_callgraph order T = some rows ∧ T.LosesNoEdge rows) ↔
      ∃ names, T.debug_table = some names ∧ T.Exportable names := by
  constructor
  · rintro ⟨rows, hdump, h⟩
    obtain ⟨names, hnames, hnamed, rfl⟩ := dump_callgraph_eq_exportedRows.mp hdump
    exact ⟨names, hnames, (losesNoEdge_iff hnamed).mp h⟩
  · rintro ⟨names, hnames, h⟩
    exact ⟨_, dump_callgraph_eq_exportedRows.mpr ⟨names, hnames, h.named, rfl⟩,
      (losesNoEdge_iff h.named).mpr h⟩

end

/-! ## A call site that only the other table covers -/

/-- `main` and `g` call `f`.  The unit of `main` has its addresses in the fast table, that of `g`
does not. -/
def twoSites : Tables where
  callgraph := [⟨"0x0000000000001000:0x0001", "0x0000000000002000", .Direct⟩,
    ⟨"0x0000000000003000:0x0001", "0x0000000000002000", .Direct⟩]
  EnclosingFunctionForLocal := [("0x0000000000001000", "0x0000000000001000:0x0001"),
    ("0x0000000000003000", "0x0000000000003000:0x0001")]
  NodeInstructions := [("0x0000000000001010", "0x0000000000001000:0x0001"),
    ("0x0000000000003010", "0x0000000000003000:0x0001")]
  FastNodeInstructions := [("0x0000000000001010", "0x0000000000001000:0x0001")]
  DebugTable := Utf8.encode (tableText [(0x1000, "main"), (0x2000, "f"), (0x3000, "g")])

/-- The callees in the order in which they were added. -/
def insertionOrder : SetOrder := ⟨id, .refl⟩

theorem debug_table_twoSites : twoSites.debug_table = some [("0x0000000000001000", "main"),
    ("0x0000000000002000", "f"), ("0x0000000000003000", "g")] := by
  have hrows : tsvRows (tableText [(0x1000, "main"), (0x2000, "f"), (0x3000, "g")]) =
      [[addressText 0x1000, "main".toList], [addressText 0x2000, "f".toList],
        [addressText 0x3000, "g".toList]] := rfl
  have hload : load_table twoSites.DebugTable = _ := load_table_encode _
  rw [Tables.debug_table, hload, hrows]
  decide +kernel

theorem dump_twoSites : dump_callgraph insertionOrder twoSites =
    some [("0x0000000000001000", "0x0000000000001010", "0x0000000000002000")] := by
  refine dump_callgraph_eq_exportedRows.mpr ⟨_, debug_table_twoSites, ?_, ?_⟩
  · decide +kernel
  · decide +kernel

/-- Without the fast table both edges are written. -/
example : dump_callgraph insertionOrder { twoSites with FastNodeInstructions := [] } =
    some [("0x0000000000001000", "0x0000000000001010", "0x0000000000002000"),
      ("0x0000000000003000", "0x0000000000003010", "0x0000000000002000")] := by
  refine dump_callgraph_eq_exportedRows.mpr ⟨_, debug_table_twoSites, ?_, ?_⟩
  · decide +kernel
  · decide +kernel

/-- The edge from `g` is lost. -/
theorem twoSites_losesEdge :
    twoSites.Edge "0x0000000000003000" "0x0000000000003010" "0x0000000000002000" ∧
      ¬ ∃ rows, dump_callgraph insertionOrder twoSites = some rows ∧ twoSites.LosesNoEdge rows := by
  have hedge : twoSites.Edge "0x0000000000003000" "0x0000000000003010" "0x0000000000002000" := by
    refine ⟨"0x0000000000003000:0x0001", ⟨⟨_, _, .Direct⟩, ?_, rfl, rfl⟩, ?_, .inl ?_, 0x2000, ?_⟩
    all_goals decide +kernel
  refine ⟨hedge, ?_⟩
  rintro ⟨rows, hdump, hexact, -⟩
  rw [dump_twoSites] at hdump
  obtain rfl := Option.some.inj hdump
  have hmem := (hexact _ _ _).mpr hedge
  exact absurd hmem (by decide +kernel)

end Bracelet.CallGraphExport
