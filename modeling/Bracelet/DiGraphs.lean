import Bracelet.DepthFirst
import Bracelet.WeightedWalks

/-!
# Directed graphs

`networkx.DiGraph` with an attribute on each edge, and what cuts a part out of it: the descendants
and the ancestors of a node, the subgraph on some nodes, and other names for the nodes.  The nodes
that lie between two nodes keep every walk from the one to the other (`Walk.between`).
-/
namespace Bracelet

/-! ## Walks between two nodes -/

section
variable {V : Type} {edge : V → V → Prop} {w x y u v : V} {rest : List V}

theorem Walk.reaches (h : Walk edge x rest y) : Relation.ReflTransGen edge x y := by
  induction rest generalizing x with
  | nil =>
    obtain rfl : x = y := h
    exact .refl
  | cons z rest ih => exact .head h.1 (ih h.2)

theorem exists_walk (h : Relation.ReflTransGen edge x y) : ∃ rest, Walk edge x rest y := by
  induction h using Relation.ReflTransGen.head_induction_on with
  | refl => exact ⟨[], rfl⟩
  | head hedge _ ih =>
    obtain ⟨rest, hwalk⟩ := ih
    exact ⟨_ :: rest, hedge, hwalk⟩

theorem Walk.mono {edge' : V → V → Prop} (hedge : ∀ u v, edge u v → edge' u v)
    (h : Walk edge x rest y) : Walk edge' x rest y := by
  induction rest generalizing x with
  | nil => exact h
  | cons z rest ih => exact ⟨hedge _ _ h.1, ih h.2⟩

theorem walk_concat_iff : Walk edge x (rest ++ [y]) y ↔ List.IsChain edge (x :: (rest ++ [y])) := by
  induction rest generalizing x with
  | nil => simp [Walk]
  | cons z rest ih => rw [List.cons_append, List.isChain_cons_cons, ← ih, Walk]

/-- **Each edge of a walk lies between its ends.** -/
theorem Walk.between (hw : Relation.ReflTransGen edge w x) (h : Walk edge x rest y) :
    Walk (fun u v => edge u v ∧ Relation.ReflTransGen edge w u ∧ Relation.ReflTransGen edge v y)
      x rest y := by
  induction rest generalizing x with
  | nil => exact h
  | cons z rest ih =>
    obtain ⟨hedge, hwalk⟩ := h
    exact ⟨⟨hedge, hw, hwalk.reaches⟩, ih (hw.tail hedge) hwalk⟩

end

/-! ## Graphs -/

structure DiGraph (ν κ : Type) where
  nodes : List ν
  /-- The edges in the order in which they are added, with their attributes. -/
  edges : List (ν × ν × κ)
  closed : ∀ e ∈ edges, e.1 ∈ nodes ∧ e.2.1 ∈ nodes

namespace DiGraph
variable {ν μ κ : Type}

def Edge (G : DiGraph ν κ) (x y : ν) : Prop := ∃ attr, (x, y, attr) ∈ G.edges

theorem mem_nodes {G : DiGraph ν κ} {x y : ν} (h : G.Edge x y) : x ∈ G.nodes ∧ y ∈ G.nodes := by
  obtain ⟨attr, h⟩ := h
  exact G.closed _ h

/-! ## Other names -/

theorem closed_relabel (G : DiGraph ν κ) (f : ν → μ) :
    ∀ e ∈ G.edges.map (fun e => (f e.1, f e.2.1, e.2.2)),
      e.1 ∈ G.nodes.map f ∧ e.2.1 ∈ G.nodes.map f := by
  intro e he
  obtain ⟨edge, hedge, rfl⟩ := List.mem_map.mp he
  obtain ⟨hx, hy⟩ := G.closed edge hedge
  exact ⟨List.mem_map_of_mem hx, List.mem_map_of_mem hy⟩

/-- `nx.relabel_nodes`: nodes of one name are one node. -/
def relabel_nodes (G : DiGraph ν κ) (f : ν → μ) : DiGraph μ κ where
  nodes := G.nodes.map f
  edges := G.edges.map fun e => (f e.1, f e.2.1, e.2.2)
  closed := G.closed_relabel f

theorem edge_relabel_nodes {G : DiGraph ν κ} {f : ν → μ} {a b : μ} :
    (G.relabel_nodes f).Edge a b ↔ ∃ x y, G.Edge x y ∧ f x = a ∧ f y = b := by
  constructor
  · rintro ⟨attr, h⟩
    obtain ⟨⟨x, y, attr'⟩, he, heq⟩ := List.mem_map.mp h
    obtain ⟨rfl, hrest⟩ := Prod.mk.inj heq
    obtain ⟨rfl, rfl⟩ := Prod.mk.inj hrest
    exact ⟨x, y, ⟨attr', he⟩, rfl, rfl⟩
  · rintro ⟨x, y, ⟨attr, he⟩, rfl, rfl⟩
    exact ⟨attr, List.mem_map.mpr ⟨_, he, rfl⟩⟩

/-! ## Subgraphs -/

section
variable [DecidableEq ν]

theorem closed_subgraph (G : DiGraph ν κ) (keep : List ν) :
    ∀ e ∈ G.edges.filter (fun e => e.1 ∈ keep ∧ e.2.1 ∈ keep),
      e.1 ∈ G.nodes.filter (· ∈ keep) ∧ e.2.1 ∈ G.nodes.filter (· ∈ keep) := by
  intro e he
  obtain ⟨he, hkeep⟩ := List.mem_filter.mp he
  obtain ⟨h₁, h₂⟩ := of_decide_eq_true hkeep
  obtain ⟨hx, hy⟩ := G.closed e he
  exact ⟨List.mem_filter.mpr ⟨hx, decide_eq_true h₁⟩, List.mem_filter.mpr ⟨hy, decide_eq_true h₂⟩⟩

/-- `G.subgraph` -/
def subgraph (G : DiGraph ν κ) (keep : List ν) : DiGraph ν κ where
  nodes := G.nodes.filter (· ∈ keep)
  edges := G.edges.filter fun e => e.1 ∈ keep ∧ e.2.1 ∈ keep
  closed := G.closed_subgraph keep

theorem edge_subgraph {G : DiGraph ν κ} {keep : List ν} {x y : ν} :
    (G.subgraph keep).Edge x y ↔ G.Edge x y ∧ x ∈ keep ∧ y ∈ keep := by
  simp only [Edge, subgraph, List.mem_filter, decide_eq_true_eq, exists_and_right]

/-! ## Descendants and ancestors -/

section
variable (G : DiGraph ν κ)

def successors (x : ν) : List ν := (G.edges.filter (·.1 = x)).map (·.2.1)

def predecessors (y : ν) : List ν := (G.edges.filter (·.2.1 = y)).map (·.1)

/-- The nodes that a search finds, without the one it starts from; `none` is a `NetworkXError`. -/
def found (next : ν → List ν) (x : ν) : Option (List ν) :=
  if x ∈ G.nodes then
    (DepthFirst.search next (G.nodes.toFinset.card + 1) [x]).map fun l => l.filter (· ≠ x)
  else none

/-- `nx.descendants` -/
def descendants (x : ν) : Option (List ν) := G.found G.successors x

/-- `nx.ancestors` -/
def ancestors (y : ν) : Option (List ν) := G.found G.predecessors y

end

variable {G : DiGraph ν κ}

theorem mem_successors {x y : ν} : y ∈ G.successors x ↔ G.Edge x y := by
  simp [successors, Edge, eq_comm]

theorem mem_predecessors {x y : ν} : x ∈ G.predecessors y ↔ G.Edge x y := by
  simp [predecessors, Edge]

theorem found_spec (next : ν → List ν) (hnext : ∀ x, ∀ y ∈ next x, y ∈ G.nodes) {x : ν}
    (hx : x ∈ G.nodes) : ∃ l, G.found next x = some l ∧
      ∀ z, z ∈ l ↔ Relation.ReflTransGen (fun a b => b ∈ next a) x z ∧ z ≠ x := by
  obtain ⟨called, hsearch, -, hcalled, -⟩ := DepthFirst.search_spec
    (fun a _ b hb => List.mem_toFinset.mpr (hnext a b hb))
    (show ∀ a ∈ [x], a ∈ G.nodes.toFinset from
      fun a ha => List.mem_toFinset.mpr (List.mem_singleton.mp ha ▸ hx))
  refine ⟨called.filter (· ≠ x), by rw [found, if_pos hx, hsearch]; rfl, fun z => ?_⟩
  rw [List.mem_filter, hcalled, decide_eq_true_eq]
  simp only [List.mem_singleton, exists_eq_left]

theorem descendants_spec {x : ν} (hx : x ∈ G.nodes) : ∃ l, G.descendants x = some l ∧
    ∀ z, z ∈ l ↔ Relation.ReflTransGen G.Edge x z ∧ z ≠ x := by
  obtain ⟨l, hl, hmem⟩ :=
    found_spec G.successors (fun a b hb => (mem_nodes (mem_successors.mp hb)).2) hx
  simp only [mem_successors] at hmem
  exact ⟨l, hl, hmem⟩

theorem ancestors_spec {y : ν} (hy : y ∈ G.nodes) : ∃ l, G.ancestors y = some l ∧
    ∀ z, z ∈ l ↔ Relation.ReflTransGen G.Edge z y ∧ z ≠ y := by
  obtain ⟨l, hl, hmem⟩ :=
    found_spec G.predecessors (fun a b hb => (mem_nodes (mem_predecessors.mp hb)).1) hy
  refine ⟨l, hl, fun z => ?_⟩
  simp only [mem_predecessors] at hmem
  rw [hmem, ← Relation.reflTransGen_swap]

end
end DiGraph
end Bracelet
