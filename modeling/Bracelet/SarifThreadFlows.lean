import Bracelet.SarifExport

/-!
# The steps of a thread flow

`create_sarif_result` takes every second address of a trace for a call site.  A path of
functions names entries and call sites (`path_steps`), of which equal neighbours are one step
of the trace (`merged`), so the thread flow shows the call sites and the target for every map
of locations exactly when these steps are in turn one that is no call site and one that is
(`thread_flow_iff`).
-/
namespace Bracelet.ExportSarif

/-! ## Lists in turn -/

section
variable {α : Type}

/-- In turn an element without a mark and one with it, the last one apart. -/
def Alternates : List (Bool × α) → Prop
  | x :: y :: rest => x.1 = false ∧ y.1 = true ∧ Alternates rest
  | _ => True

/-- Every second element, and the last one. -/
def everySecond : List α → List α
  | _ :: y :: rest => y :: everySecond rest
  | l => l

def marked (l : List (Bool × α)) : List α := (l.filter Prod.fst).map Prod.snd

/-- Neighbours differ, and the last element is marked. -/
structure Steps (l : List (Bool × α)) : Prop where
  differ : l.IsChain fun x y => x.2 ≠ y.2
  last : ∀ x, l.getLast? = some x → x.1 = true

theorem Steps.tail {x : Bool × α} {l : List (Bool × α)} (h : Steps (x :: l)) : Steps l := by
  refine ⟨h.differ.tail, fun y hy => h.last y ?_⟩
  cases l with
  | nil => cases hy
  | cons z l => simpa using hy

theorem mem_of_mem_everySecond {l : List α} {a : α} (h : a ∈ everySecond l) : a ∈ l := by
  induction l using everySecond.induct with
  | case1 x y rest ih =>
    rcases List.mem_cons.mp h with rfl | h
    · simp
    · simp [ih h]
  | case2 l hl =>
    match l, hl with
    | [], _ => exact h
    | [x], _ => exact h
    | x :: y :: rest, hl => exact absurd rfl (hl x y rest)

theorem marked_cons (x : Bool × α) (l : List (Bool × α)) :
    marked (x :: l) = if x.1 then x.2 :: marked l else marked l := by
  unfold marked
  cases h : x.1 <;> simp [h]

/-- Marked elements in turn are every second one. -/
theorem Alternates.marked_eq {l : List (Bool × α)} (h : Alternates l) (hs : Steps l) :
    marked l = everySecond (l.map Prod.snd) := by
  induction l using everySecond.induct with
  | case1 x y rest ih =>
    obtain ⟨hx, hy, hrest⟩ := h
    rw [marked_cons, marked_cons, hx, hy, ih hrest hs.tail.tail]
    rfl
  | case2 l hl =>
    match l, hl with
    | [], _ => rfl
    | [x], _ =>
      rw [marked_cons, hs.last x rfl]
      rfl
    | x :: y :: rest, hl => exact absurd rfl (hl x y rest)

/-- The elements behind which the marked ones are, after one of them. -/
theorem lag_cons {x : Bool × α} {l : List (Bool × α)} {before : α} {lag E : List α}
    (h : marked (x :: l) = lag ++ before :: E) :
    (x.1 = true ∧ lag = [] ∧ before = x.2 ∧ marked l = E) ∨ ∃ lag', marked l = lag' ++ before :: E := by
  rw [marked_cons] at h
  split at h
  next hx =>
    cases lag with
    | nil =>
      obtain ⟨hhead, htail⟩ := List.cons.inj h
      exact .inl ⟨hx, rfl, hhead.symm, htail⟩
    | cons a lag => exact .inr ⟨lag, (List.cons.inj h).2⟩
  next => exact .inr ⟨lag, h⟩

/-- What is marked is never every second element behind others, the last of which comes
before. -/
theorem marked_ne_append {l : List (Bool × α)} {before : α} (hs : Steps l) (hne : l ≠ [])
    (hbefore : ∀ x, l.head? = some x → before ≠ x.2) (lag : List α) :
    marked l ≠ lag ++ before :: everySecond (l.map Prod.snd) := by
  induction l using everySecond.induct generalizing lag before with
  | case1 x y rest ih =>
    intro heq
    have heq : marked (x :: y :: rest) = lag ++ before :: y.2 :: everySecond (rest.map Prod.snd) := heq
    rcases lag_cons heq with ⟨-, -, hx, -⟩ | ⟨lag', heq⟩
    · exact hbefore x rfl hx
    -- Either way what follows is behind an element more, the last of which is `y`.
    have hrest : ∃ lag'', marked rest = lag'' ++ y.2 :: everySecond (rest.map Prod.snd) := by
      rcases lag_cons heq with ⟨-, -, -, hrest⟩ | ⟨lag'', hrest⟩
      · exact ⟨[], hrest⟩
      · exact ⟨lag'' ++ [before], by rw [hrest, List.append_assoc]; rfl⟩
    obtain ⟨lag'', hrest⟩ := hrest
    by_cases hnil : rest = []
    · rw [hnil] at hrest
      simp [marked] at hrest
    · refine ih hs.tail.tail hnil (fun z hz => ?_) lag'' hrest
      cases rest with
      | nil => exact absurd rfl hnil
      | cons w rest =>
        obtain rfl : w = z := by simpa using hz
        exact (List.isChain_cons_cons.mp hs.tail.differ).1
  | case2 l hl =>
    match l, hl with
    | [], _ => exact absurd rfl hne
    | [x], _ =>
      intro heq
      have hlen := congrArg List.length heq
      simp [hs.last x rfl, marked, everySecond] at hlen
    | x :: y :: rest, hl => exact absurd rfl (hl x y rest)

/-- **Every second element is what is marked only when they are in turn.** -/
theorem alternates_iff {l : List (Bool × α)} (hs : Steps l) :
    everySecond (l.map Prod.snd) = marked l ↔ Alternates l := by
  refine ⟨fun heq => ?_, fun h => (h.marked_eq hs).symm⟩
  induction l using everySecond.induct with
  | case1 x y rest ih =>
    have heq : y.2 :: everySecond (rest.map Prod.snd) = marked (x :: y :: rest) := heq
    have hxy : x.2 ≠ y.2 := (List.isChain_cons_cons.mp hs.differ).1
    have hx : x.1 = false := by
      by_contra hx
      rw [marked_cons, if_pos (by simpa using hx)] at heq
      exact hxy (List.cons.inj heq).1.symm
    rw [marked_cons, hx] at heq
    have heq : marked (y :: rest) = [] ++ y.2 :: everySecond (rest.map Prod.snd) := heq.symm
    have hrest : y.1 = true ∧ marked rest = everySecond (rest.map Prod.snd) := by
      by_cases hy : y.1 = true
      · rw [marked_cons, if_pos hy] at heq
        exact ⟨hy, (List.cons.inj heq).2⟩
      · exfalso
        rw [marked_cons, if_neg hy] at heq
        have hne : rest ≠ [] := by
          rintro rfl
          exact hy (hs.last y rfl)
        refine marked_ne_append hs.tail.tail hne (fun z hz => ?_) [] heq
        cases rest with
        | nil => exact absurd rfl hne
        | cons w rest =>
          obtain rfl : w = z := by simpa using hz
          exact (List.isChain_cons_cons.mp hs.tail.differ).1
    exact ⟨hx, hrest.1, ih hs.tail.tail hrest.2.symm⟩
  | case2 l hl =>
    match l, hl with
    | [], _ => trivial
    | [x], _ => trivial
    | x :: y :: rest, hl => exact absurd rfl (hl x y rest)

end
/-! ## The steps of a path -/

section
variable (target : SBTarget) (G : DiGraph)

/-- The entry and the call site of a call; the call site is marked. -/
def call_steps (call : GraphNode × GraphNode) : List (Bool × Int) :=
  (entry_addr target call.1).toList.map (false, ·) ++
    match G.call_site? call.1 call.2 with
    | some (.addr call_site) => [(true, call_site)]
    | _ => []

/-- The addresses that a path of functions names, in order: the call sites and the target are
marked, the entries of the callers and of the last function are not. -/
def path_steps (func_path : List GraphNode) (target_addr : Int) : List (Bool × Int) :=
  if func_path = [] then [(true, target_addr)]
  else
    (func_path.zip func_path.tail).flatMap (call_steps target G) ++
      (match func_path.getLast? with
        | some (.addr last_node) => [(false, last_node)]
        | _ => []) ++ [(true, target_addr)]

end

/-- Another step, or the last one once more. -/
def add_step (steps : List (Bool × Int)) (step : Bool × Int) : List (Bool × Int) :=
  match steps.getLast? with
  | some last =>
    if last.2 = step.2 then steps.dropLast ++ [(last.1 || step.1, step.2)] else steps ++ [step]
  | none => [step]

/-- The steps, with equal neighbours taken as one. -/
def merged (steps : List (Bool × Int)) : List (Bool × Int) := steps.foldl add_step []

theorem map_add_step (steps : List (Bool × Int)) (step : Bool × Int) :
    (add_step steps step).map Prod.snd = add_to_trace (steps.map Prod.snd) step.2 := by
  unfold add_step add_to_trace
  rw [List.getLast?_map]
  rcases List.eq_nil_or_concat steps with rfl | ⟨init, last, rfl⟩
  · rfl
  · rw [List.concat_eq_append, List.getLast?_concat]
    dsimp only [Option.map_some]
    simp only [Option.some.injEq]
    split_ifs with heq
    · simp [heq]
    · simp

theorem map_foldl_add_step (l : List (Bool × Int)) (steps : List (Bool × Int)) :
    (l.foldl add_step steps).map Prod.snd = (l.map Prod.snd).foldl add_to_trace (steps.map Prod.snd) := by
  induction l generalizing steps with
  | nil => rfl
  | cons x l ih => rw [List.foldl_cons, ih, map_add_step, List.map_cons, List.foldl_cons]

/-- **A trace is the steps of its path.** -/
theorem trace_of_eq (target : SBTarget) (G : DiGraph) (func_path : List GraphNode) (target_addr : Int) :
    trace_of target G func_path target_addr =
      (merged (path_steps target G func_path target_addr)).map Prod.snd := by
  have hcall : ∀ trace call, add_call target G trace call =
      ((call_steps target G call).map Prod.snd).foldl add_to_trace trace := by
    intro trace call
    unfold add_call call_steps
    cases entry_addr target call.1 <;> rcases G.call_site? call.1 call.2 with - | (- | -) <;> rfl
  have hcalls : ∀ calls trace, List.foldl (add_call target G) trace calls =
      ((calls.flatMap (call_steps target G)).map Prod.snd).foldl add_to_trace trace := by
    intro calls
    induction calls with
    | nil => intro trace; rfl
    | cons call calls ih =>
      intro trace
      rw [List.foldl_cons, ih, hcall, List.flatMap_cons, List.map_append, List.foldl_append]
  unfold trace_of path_steps merged
  split
  · rfl
  · rw [map_foldl_add_step, List.map_append, List.map_append, List.foldl_append, List.foldl_append,
      List.map_nil, hcalls]
    cases func_path.getLast? with
    | none => rfl
    | some last => cases last <;> rfl

theorem isChain_add_step {steps : List (Bool × Int)} (h : steps.IsChain fun x y => x.2 ≠ y.2)
    (step : Bool × Int) : (add_step steps step).IsChain fun x y => x.2 ≠ y.2 := by
  unfold add_step
  rcases List.eq_nil_or_concat steps with rfl | ⟨init, last, rfl⟩
  · exact List.isChain_singleton step
  · rw [List.concat_eq_append] at h ⊢
    rw [List.getLast?_concat]
    dsimp only
    split_ifs with heq
    · rw [List.dropLast_concat]
      rw [List.isChain_append] at h ⊢
      refine ⟨h.1, List.isChain_singleton _, fun x hx y hy => ?_⟩
      obtain rfl : _ = y := by simpa using hy
      rw [← heq]
      exact h.2.2 x hx last (by simp)
    · rw [List.isChain_append]
      refine ⟨h, List.isChain_singleton _, fun x hx y hy => ?_⟩
      obtain rfl : last = x := by simpa using hx
      obtain rfl : step = y := by simpa using hy
      exact heq

theorem isChain_merged (steps : List (Bool × Int)) :
    (merged steps).IsChain fun x y => x.2 ≠ y.2 := by
  induction steps using List.reverseRecOn with
  | nil => exact .nil
  | append_singleton steps x ih =>
    rw [merged, List.foldl_append, List.foldl_cons, List.foldl_nil]
    exact isChain_add_step ih x

/-- The last step is marked when what is added is. -/
theorem last_add_step (steps : List (Bool × Int)) (a : Int) (x : Bool × Int)
    (hx : (add_step steps (true, a)).getLast? = some x) : x.1 = true := by
  unfold add_step at hx
  split at hx
  · split_ifs at hx
    · obtain rfl : _ = x := by simpa using hx
      simp
    · obtain rfl : _ = x := by simpa using hx
      rfl
  · obtain rfl : _ = x := by simpa using hx
    rfl

/-- The steps of a path end with its target. -/
theorem steps_merged (target : SBTarget) (G : DiGraph) (func_path : List GraphNode) (target_addr : Int) :
    Steps (merged (path_steps target G func_path target_addr)) := by
  have hsplit : ∃ init, path_steps target G func_path target_addr = init ++ [(true, target_addr)] := by
    unfold path_steps
    split
    · exact ⟨[], rfl⟩
    · exact ⟨_, rfl⟩
  obtain ⟨init, hsplit⟩ := hsplit
  refine ⟨isChain_merged _, fun x hx => ?_⟩
  rw [merged, hsplit, List.foldl_append, List.foldl_cons, List.foldl_nil] at hx
  exact last_add_step _ target_addr x hx

/-! ## The thread flow -/

section
variable (path_addresses : List Int) (locs_map : LocsMap)

/-- The address has a location. -/
def located (addr : Int) : Bool := (Dict.get? locs_map addr).isSome

/-- The addresses that a result shows, in order. -/
def shown (result : Option Result) : List Int :=
  match result with
  | none => []
  | some result => result.thread_flow.map fun l => l.location.message.addr

/-- What a step of the loop shows. -/
def place (step : Int × Nat) : Option Location :=
  if step.2 % 2 = 0 ∧ step.2 ≠ path_addresses.length - 1 then none
  else location_obj path_addresses locs_map step.2 step.1

variable {path_addresses locs_map}

theorem Flow.add_locations (target_idx : Option Nat) (flow : Flow) (step : Int × Nat) :
    (flow.add path_addresses locs_map target_idx step).thread_flow_locations.map
        ThreadFlowLocation.location =
      flow.thread_flow_locations.map ThreadFlowLocation.location ++
        (place path_addresses locs_map step).toList := by
  unfold Flow.add place
  dsimp only
  by_cases hskip : step.2 % 2 = 0 ∧ step.2 ≠ path_addresses.length - 1
  · rw [if_pos hskip, if_pos hskip]
    simp
  · rw [if_neg hskip, if_neg hskip]
    cases location_obj path_addresses locs_map step.2 step.1 <;> simp

theorem foldl_add_locations (target_idx : Option Nat) (steps : List (Int × Nat)) (flow : Flow) :
    (steps.foldl (Flow.add path_addresses locs_map target_idx) flow).thread_flow_locations.map
        ThreadFlowLocation.location =
      flow.thread_flow_locations.map ThreadFlowLocation.location ++
        steps.filterMap (place path_addresses locs_map) := by
  induction steps generalizing flow with
  | nil => simp
  | cons step steps ih =>
    rw [List.foldl_cons, ih, Flow.add_locations, List.append_assoc, List.filterMap_cons]
    cases place path_addresses locs_map step <;> rfl

theorem addr_of_location {idx : Nat} {addr : Int} {l : Location}
    (h : location_obj path_addresses locs_map idx addr = some l) : l.message.addr = addr := by
  obtain ⟨⟨fn_name, loc⟩, -, rfl⟩ := Option.map_eq_some_iff.mp h
  dsimp only
  split <;> rfl

/-- The loop takes every second address and the last one. -/
theorem filterMap_place (path : List Int) (k : Nat) (hk : k % 2 = 0)
    (hlen : path_addresses.length = k + path.length) :
    ((path.zipIdx k).filterMap (place path_addresses locs_map)).map (fun l => l.message.addr) =
      (everySecond path).filter (located locs_map) := by
  have hplace : ∀ idx addr rest, (idx % 2 = 0 → idx = path_addresses.length - 1) →
      (((addr, idx) :: rest).filterMap (place path_addresses locs_map)).map
          (fun l => l.message.addr) =
        [addr].filter (located locs_map) ++
          (rest.filterMap (place path_addresses locs_map)).map fun l => l.message.addr := by
    intro idx addr rest hidx
    have hcond : ¬ (idx % 2 = 0 ∧ idx ≠ path_addresses.length - 1) := fun h => h.2 (hidx h.1)
    rw [List.filterMap_cons, place, if_neg hcond]
    cases hl : location_obj path_addresses locs_map idx addr with
    | none =>
      have hnone : located locs_map addr = false := by
        simpa [location_obj, located] using hl
      simp [hnone]
    | some l =>
      have hsome : located locs_map addr = true := by
        obtain ⟨p, hp, -⟩ := Option.map_eq_some_iff.mp hl
        simp [located, hp]
      simp [hsome, addr_of_location hl]
  induction path using everySecond.induct generalizing k with
  | case1 x y rest ih =>
    have hskip : k % 2 = 0 ∧ k ≠ path_addresses.length - 1 := by
      refine ⟨hk, ?_⟩
      rw [hlen, List.length_cons, List.length_cons]
      omega
    rw [List.zipIdx_cons, List.zipIdx_cons, List.filterMap_cons, place, if_pos hskip]
    dsimp only
    rw [hplace (k + 1) y _ (by omega), ih (k + 1 + 1) (by omega) (by
      rw [hlen, List.length_cons, List.length_cons]
      omega)]
    rw [everySecond, ← List.filter_append]
    rfl
  | case2 l hl =>
    cases l with
    | nil => rfl
    | cons x rest =>
      cases rest with
      | nil =>
        rw [List.zipIdx_cons, hplace k x _ (fun _ => by rw [hlen]; simp)]
        simp [everySecond]
      | cons y rest => exact absurd rfl (hl x y rest)

/-- **What a result shows.** -/
theorem shown_eq (upper : String → String) (cve_id classification justification : String)
    (source_target : Option String) :
    shown (create_sarif_result path_addresses locs_map upper cve_id classification justification
      source_target) = (everySecond path_addresses).filter (located locs_map) := by
  have hflow := @foldl_add_locations path_addresses locs_map
    (target_idx path_addresses locs_map source_target) path_addresses.zipIdx {}
  have hplace := @filterMap_place path_addresses locs_map path_addresses 0 rfl (Nat.zero_add _).symm
  rw [← hplace]
  have hshown : shown (create_sarif_result path_addresses locs_map upper cve_id classification
      justification source_target) =
        ((flow path_addresses locs_map source_target).thread_flow_locations.map
          ThreadFlowLocation.location).map fun l => l.message.addr := by
    unfold create_sarif_result
    dsimp only
    split
    next hnil =>
      rw [hnil]
      rfl
    next => simp [shown]
  rw [hshown, flow, hflow]
  rfl

end

/-- **When the thread flow shows every call.**  Take equal neighbours among the addresses that
the path of functions names as one step: for every map of locations, the thread flow shows the
located call sites of the path and the target, in order, and nothing else, if and only if the
steps are in turn one that is no call site and one that is, up to the target. -/
theorem thread_flow_iff (nx : Networkx) (target : SBTarget) (G : DiGraph) (target_addr : Int)
    (upper : String → String) (cve_id classification justification : String)
    (source_target : Option String) :
    (∀ locs_map, shown (create_sarif_result (find_path_to_target nx target G target_addr) locs_map
        upper cve_id classification justification source_target) =
      (marked (merged (path_steps target G (func_path nx target G target_addr) target_addr))).filter
        (located locs_map)) ↔
    Alternates (merged (path_steps target G (func_path nx target G target_addr) target_addr)) := by
  rw [← alternates_iff (steps_merged target G _ target_addr)]
  simp only [shown_eq, find_path_to_target, trace_of_eq]
  constructor
  · intro h
    set steps := merged (path_steps target G (func_path nx target G target_addr) target_addr)
    -- A map that has a location for every step.
    have hall : ∀ a ∈ steps.map Prod.snd,
        located (steps.map fun x => (x.2, "", ⟨"", 0, 0, 0, 0⟩)) a = true := by
      intro a ha
      obtain ⟨x, hx, rfl⟩ := List.mem_map.mp ha
      unfold located Dict.get?
      rw [Option.isSome_map, List.find?_isSome]
      exact ⟨_, List.mem_map_of_mem hx, by simp⟩
    have hmarked : ∀ a ∈ marked steps, a ∈ steps.map Prod.snd := fun a ha =>
      List.map_subset _ (List.filter_sublist.subset) ha
    have h := h (steps.map fun x => (x.2, "", ⟨"", 0, 0, 0, 0⟩))
    rwa [List.filter_eq_self.mpr fun a ha => hall a (mem_of_mem_everySecond ha),
      List.filter_eq_self.mpr fun a ha => hall a (hmarked a ha)] at h
  · intro h locs_map
    rw [h]

/-- A program with `main` at 0x1000, `f` at 0x5000 and `g` at 0x6000. -/
def threeFunctions : SBTarget where
  ResolveLoadAddress addr :=
    { function := some (if addr < 0x5000 then ⟨"main", 0x1000⟩ else if addr < 0x6000 then ⟨"f", 0x5000⟩
        else ⟨"g", 0x6000⟩) }
  FindFunctions name := [{ function := some (if name = "main" then ⟨"main", 0x1000⟩
    else if name = "f" then ⟨"f", 0x5000⟩ else ⟨"g", 0x6000⟩) }]

/-- `main` calls `f`, which calls `g` under another of its addresses. -/
def threeCalls : DiGraph :=
  build_callgraph threeFunctions
    [(.addr 0x1000, .addr 0x1010, .addr 0x5000), (.addr 0x5004, .addr 0x5010, .addr 0x6000)]

/-- What `networkx` finds in this graph. -/
def threeCallsSearch : Networkx where
  ancestors _ _ :=
    [.addr 0x1000, .addr 0x5000, .addr 0x5004, .name "main", .name "f", .name "g"]
  shortest_path _ _ _ := some [.addr 0x1000, .addr 0x5000, .addr 0x5004, .addr 0x6000]

/-- The alias edge from 0x5000 to 0x5004 shifts the rest: the thread flow shows the entry 0x5004
and misses two call sites. -/
theorem alias_shifts_flow :
    let path := find_path_to_target threeCallsSearch threeFunctions threeCalls 0x6000
    let locs_map : LocsMap := path.map fun addr => (addr, "fn", ⟨"a.c", addr.toNat, 1, addr.toNat, 1⟩)
    shown (create_sarif_result path locs_map id "CVE" "reachable" "text" none) =
        [0x1010, 0x5004, 0x6000] ∧
      (marked (merged (path_steps threeFunctions threeCalls
        (func_path threeCallsSearch threeFunctions threeCalls 0x6000) 0x6000))).filter
          (located locs_map) = [0x1010, 0x5000, 0x5010, 0x6000] := by
  decide +kernel

end Bracelet.ExportSarif
