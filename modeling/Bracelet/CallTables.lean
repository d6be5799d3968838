import Bracelet.Dict
import Bracelet.WeightedWalks

/-!
# Call tables and weighted paths

`cg_lib.CallGraph` with all kinds of calls.  The rows of a table are about call sites; its graph
keeps the function of the call site and that of the callee, and of several rows between two
functions the kind of the last one.  `print_path_between` prints the path of least total weight
in this graph, so it is the path of least weight in the table, whatever the order of the rows,
exactly when the rows between two functions weigh the same (`least_weights_iff`).

`shortest_path` is a parameter; `NetworkxShortest` is what is assumed of it.
-/
namespace Bracelet.CallTables

/-- The kinds that have a weight. -/
inductive Kind
  | Direct | Indirect | Conservative | Unknown
  deriving DecidableEq, Repr

def KIND_WEIGHTS : Kind → Nat
  | .Direct => 1
  | .Indirect => 10
  | .Conservative => 100
  | .Unknown => 100

def KIND_ARROWS : Kind → String
  | .Direct => "--->"
  | .Indirect => "-I->"
  | .Conservative => "-?->"
  | .Unknown => "-?->"

/-- A row of the table: a call site, a callee and the kind of the call. -/
structure Row where
  caller : String
  callee : String
  kind : Kind
  deriving DecidableEq, Repr

/-- `x.split(":")[0]` -/
def function_of (x : String) : String := String.ofList (x.toList.takeWhile (· ≠ ':'))

namespace Row

def source (r : Row) : String := function_of r.caller

def target (r : Row) : String := function_of r.callee

def weight (r : Row) : Nat := KIND_WEIGHTS r.kind

end Row

/-- `networkx.shortest_path` on the graph with the given edges, with weights. -/
abbrev ShortestPath :=
  List (String × String × Kind) → (Kind → Nat) → String → String → Option (List String)

structure CallGraph where
  DebugTable : List (String × String)
  table : List Row

namespace CallGraph
variable (g : CallGraph)

/-- The edges of `G`, in the order in which they are added. -/
def edges : List (String × String × Kind) := g.table.map fun r => (r.source, r.target, r.kind)

/-- `G.nodes` -/
def nodes : List String := g.edges.flatMap fun e => [e.1, e.2.1]

/-- `G[u][v]["kind"]`: the last edge added between two nodes wins. -/
def kind? (u v : String) : Option Kind :=
  Dict.get? (Dict.ofList (g.edges.map fun e => ((e.1, e.2.1), e.2.2))) (u, v)

def Edge (u v : String) : Prop := ∃ kind, g.kind? u v = some kind

/-- `get_weight` -/
def weight (u v : String) : Nat := ((g.kind? u v).map KIND_WEIGHTS).getD 0

def pretty (x : String) : String :=
  let hidden := x.toList.takeWhile fun c => c = '*' ∨ c = '$'
  let x := String.ofList (x.toList.drop hidden.length)
  String.ofList hidden ++ (Dict.get? g.DebugTable x).getD x

section
variable (shortest_path : ShortestPath)

/-- The path `p` of `print_path_between`. -/
def path_between (x y : String) : Option (List String) :=
  if x ∉ g.nodes ∨ y ∉ g.nodes then none else shortest_path g.edges KIND_WEIGHTS x y

def print_path_between (x y : String) : Option String :=
  (g.path_between shortest_path x y).map fun p =>
    String.join <| (p.zip p.tail).map fun e =>
      " " ++ ((g.kind? e.1 e.2).map KIND_ARROWS).getD "" ++ " " ++ g.pretty e.2

/-- `networkx` finds a path of least weight, if there is a path. -/
def NetworkxShortest : Prop :=
  ∀ x ∈ g.nodes, ∀ y ∈ g.nodes,
    match shortest_path g.edges KIND_WEIGHTS x y with
    | some p => ∃ rest, p = x :: rest ∧ Walk g.Edge x rest y ∧
        ∀ rest', Walk g.Edge x rest' y → walkWeight g.weight x rest ≤ walkWeight g.weight x rest'
    | none => ∀ rest, ¬ Walk g.Edge x rest y

end

/-- The weight of a path. -/
def path_weight (p : List String) : Nat := ((p.zip p.tail).map fun e => g.weight e.1 e.2).sum

end CallGraph

/-! ## What the graph keeps of the rows -/

/-- Some row has a caller in `f` and callee `g`. -/
def Joins (table : List Row) (f g : String) (r : Row) : Prop :=
  r ∈ table ∧ r.source = f ∧ r.target = g

variable {g : CallGraph}

theorem path_weight_cons (x : String) (rest : List String) :
    g.path_weight (x :: rest) = walkWeight g.weight x rest := by
  induction rest generalizing x with
  | nil => rfl
  | cons z rest ih =>
    rw [walkWeight, ← ih z]
    rfl

/-- The pairs of which the kinds are those of the edges. -/
theorem kind?_eq (u v : String) : g.kind? u v =
    Dict.lastValue (g.table.map fun r => ((r.source, r.target), r.kind)) (u, v) := by
  rw [CallGraph.kind?, Dict.get?_ofList, CallGraph.edges, List.map_map]
  rfl

/-- The kind of an edge is that of a row. -/
theorem exists_row_of_kind? {u v : String} {kind : Kind} (h : g.kind? u v = some kind) :
    ∃ r, Joins g.table u v r ∧ r.kind = kind := by
  rw [kind?_eq] at h
  obtain ⟨r, hr, heq⟩ := List.mem_map.mp (Dict.mem_of_lastValue h)
  obtain ⟨hends, rfl⟩ := Prod.mk.inj heq
  obtain ⟨hsource, htarget⟩ := Prod.mk.inj hends
  exact ⟨r, ⟨hr, hsource, htarget⟩, rfl⟩

/-- **There is an edge where there is a row.** -/
theorem edge_iff (u v : String) : g.Edge u v ↔ ∃ r, Joins g.table u v r := by
  constructor
  · rintro ⟨kind, h⟩
    exact (exists_row_of_kind? h).imp fun _ hr => hr.1
  · rintro ⟨r, hr, rfl, rfl⟩
    unfold CallGraph.Edge
    simp only [kind?_eq]
    exact Dict.exists_lastValue_of_mem (List.mem_map.mpr ⟨r, hr, rfl⟩)

/-- The last row between two functions gives the kind. -/
theorem kind?_append_singleton (debug : List (String × String)) (table : List Row) (r : Row) :
    (CallGraph.mk debug (table ++ [r])).kind? r.source r.target = some r.kind := by
  rw [kind?_eq, List.map_append, List.map_singleton, Dict.lastValue_append_singleton, if_pos rfl]

/-! ## Least weights -/

/-- The rows between two functions weigh the same. -/
def Uniform (table : List Row) : Prop :=
  ∀ r ∈ table, ∀ s ∈ table, r.source = s.source → r.target = s.target → r.weight = s.weight

/-- **The graph keeps the most precise evidence of the table**: it has an edge where there is a
row, of the least weight among the rows, and its paths weigh what the lightest call sequences
of the table do. -/
structure MostPrecise (shortest_path : ShortestPath) (table : List Row) (g : CallGraph) : Prop where
  edge : ∀ u v, g.Edge u v ↔ ∃ r, Joins table u v r
  kind : ∀ u v kind, g.kind? u v = some kind →
    (∃ r, Joins table u v r ∧ r.kind = kind) ∧
      ∀ r, Joins table u v r → KIND_WEIGHTS kind ≤ r.weight
  path : ∀ x y p, g.path_between shortest_path x y = some p →
    IsLeast { w | ∃ rows, Labels Row.source Row.target table x rows y ∧
      (rows.map Row.weight).sum = w } (g.path_weight p)

theorem Uniform.weight_eq {table : List Row} (h : Uniform table) (hperm : table.Perm g.table)
    {r : Row} (hr : r ∈ table) : g.weight r.source r.target = r.weight := by
  obtain ⟨kind, hkind⟩ := (edge_iff r.source r.target).mpr ⟨r, hperm.mem_iff.mp hr, rfl, rfl⟩
  obtain ⟨s, ⟨hs, hsource, htarget⟩, rfl⟩ := exists_row_of_kind? hkind
  rw [CallGraph.weight, hkind]
  exact h s (hperm.mem_iff.mpr hs) r hr hsource htarget

/-- Rows that weigh the same are kept in any order. -/
theorem Uniform.mostPrecise {table : List Row} {shortest_path : ShortestPath} (h : Uniform table)
    (hperm : table.Perm g.table) (hshortest : g.NetworkxShortest shortest_path) :
    MostPrecise shortest_path table g := by
  have hedge : ∀ u v, g.Edge u v ↔ ∃ r, Joins table u v r := by
    intro u v
    rw [edge_iff]
    simp only [Joins, hperm.mem_iff]
  refine ⟨hedge, fun u v kind hkind => ?_, fun x y p hp => ?_⟩
  · obtain ⟨r, ⟨hr, hsource, htarget⟩, rfl⟩ := exists_row_of_kind? hkind
    have hr' := hperm.mem_iff.mpr hr
    refine ⟨⟨r, ⟨hr', hsource, htarget⟩, rfl⟩, fun s ⟨hs, hsource', htarget'⟩ => ?_⟩
    exact (h r hr' s hs (hsource.trans hsource'.symm) (htarget.trans htarget'.symm)).le
  · unfold CallGraph.path_between at hp
    split at hp
    · cases hp
    next hnodes =>
      rw [not_or, not_not, not_not] at hnodes
      have hp' := hshortest x hnodes.1 y hnodes.2
      rw [hp] at hp'
      obtain ⟨rest, rfl, hwalk, hleast⟩ := hp'
      have hlabels := @exists_labels_iff String Row Row.source Row.target table g.Edge g.weight
        Row.weight hedge fun r hr => h.weight_eq hperm hr
      rw [path_weight_cons]
      constructor
      · exact (hlabels x y _).mpr ⟨rest, hwalk, rfl⟩
      · intro w hw
        obtain ⟨rest', hwalk', rfl⟩ := (hlabels x y w).mp hw
        exact hleast rest' hwalk'

/-- **When the reported path follows the most precise evidence.**  For every order of the rows
the graph keeps the most precise evidence of the table, if and only if the rows between two
functions have kinds of the same weight. -/
theorem least_weights_iff (table : List Row) (DebugTable : List (String × String))
    (shortest_path : ShortestPath)
    (hshortest : ∀ rows, table.Perm rows →
      (CallGraph.mk DebugTable rows).NetworkxShortest shortest_path) :
    (∀ rows, table.Perm rows → MostPrecise shortest_path table ⟨DebugTable, rows⟩) ↔
      Uniform table := by
  constructor
  · intro h
    -- With its row last, an edge has its kind, which is then the lightest.
    have hle : ∀ r ∈ table, ∀ s ∈ table, r.source = s.source → r.target = s.target →
        r.weight ≤ s.weight := by
      intro r hr s hs hsource htarget
      have hperm : table.Perm (table.erase r ++ [r]) :=
        (List.perm_cons_erase hr).trans (List.perm_append_singleton r _).symm
      exact ((h _ hperm).kind _ _ _ (kind?_append_singleton DebugTable _ r)).2 s
        ⟨hs, hsource.symm, htarget.symm⟩
    intro r hr s hs hsource htarget
    exact (hle r hr s hs hsource htarget).antisymm (hle s hs r hr hsource.symm htarget.symm)
  · intro h rows hperm
    exact h.mostPrecise hperm (hshortest rows hperm)

/-- Two direct calls of one function. -/
def twoCalls : List Row := [⟨"0x1:0x1", "0x2", .Direct⟩, ⟨"0x1:0x2", "0x2", .Direct⟩]

/-- What `networkx` finds in the graph of these rows. -/
def searchTwoCalls : ShortestPath := fun _ _ x y =>
  if x = y then some [x] else if x = "0x1" ∧ y = "0x2" then some ["0x1", "0x2"] else none

theorem twoCalls_edge {rows : List Row} (h : twoCalls.Perm rows) {u v : String} :
    (CallGraph.mk [] rows).Edge u v ↔ u = "0x1" ∧ v = "0x2" := by
  have hends : ∀ r ∈ twoCalls, r.source = "0x1" ∧ r.target = "0x2" := by decide
  rw [edge_iff]
  constructor
  · rintro ⟨r, hr, rfl, rfl⟩
    exact hends r (h.mem_iff.mpr hr)
  · rintro ⟨rfl, rfl⟩
    have hr : ⟨"0x1:0x1", "0x2", .Direct⟩ ∈ twoCalls := by decide
    exact ⟨_, h.mem_iff.mp hr, hends _ hr⟩

theorem twoCalls_shortest {rows : List Row} (h : twoCalls.Perm rows) :
    (CallGraph.mk [] rows).NetworkxShortest searchTwoCalls := by
  intro x _ y _
  have hstep : ∀ {rest}, Walk (CallGraph.mk [] rows).Edge x rest y → x ≠ y → x = "0x1" ∧ y = "0x2" ∧
      rest = ["0x2"] := by
    intro rest hwalk hne
    cases rest with
    | nil => exact absurd hwalk hne
    | cons z rest =>
      obtain ⟨rfl, rfl⟩ := (twoCalls_edge h).mp hwalk.1
      cases rest with
      | nil =>
        obtain rfl := hwalk.2
        exact ⟨rfl, rfl, rfl⟩
      | cons z rest => exact absurd ((twoCalls_edge h).mp hwalk.2.1).1 (by decide)
  unfold searchTwoCalls
  split_ifs with heq hends
  · exact ⟨[], rfl, heq, fun _ _ => Nat.zero_le _⟩
  · obtain ⟨rfl, rfl⟩ := hends
    refine ⟨["0x2"], rfl, ⟨(twoCalls_edge h).mpr ⟨rfl, rfl⟩, rfl⟩, fun rest' hwalk => ?_⟩
    rw [(hstep hwalk heq).2.2]
  · intro rest hwalk
    obtain ⟨rfl, rfl, -⟩ := hstep hwalk heq
    exact hends ⟨rfl, rfl⟩

theorem twoCalls_mostPrecise :
    MostPrecise searchTwoCalls twoCalls ⟨[], twoCalls.reverse⟩ :=
  (least_weights_iff twoCalls [] searchTwoCalls fun _ h => twoCalls_shortest h).mpr
    (by unfold Uniform; decide) twoCalls.reverse twoCalls.reverse_perm.symm

/-- The later of two calls hides that the earlier one is direct; in the other order it does not. -/
theorem later_row_wins :
    let table := [⟨"0x1:0x1", "0x2", .Direct⟩, ⟨"0x1:0x2", "0x2", .Conservative⟩]
    let g : CallGraph := ⟨[], table⟩
    let reversed : CallGraph := ⟨[], table.reverse⟩
    g.kind? "0x1" "0x2" = some .Conservative ∧
      (∃ r ∈ table, r.source = "0x1" ∧ r.target = "0x2" ∧ r.weight < KIND_WEIGHTS .Conservative) ∧
      g.path_weight ["0x1", "0x2"] = 100 ∧ reversed.path_weight ["0x1", "0x2"] = 1 := by
  decide +kernel

end Bracelet.CallTables
