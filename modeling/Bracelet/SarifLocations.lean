import Bracelet.SarifExport

/-!
# Where the two reports point

Both reports look for the last step of the path whose location will do, but the SARIF result
has a top-level location only when its loop comes to that step, and the loop skips every second
one.  So a result points at the step of the issue exactly when that is one of the others, or the
last one (`same_location_iff`).
-/
namespace Bracelet.ExportSarif

variable {path_addresses : List Int} {locs_map : LocsMap}

/-! ## The last step that will do -/

/-- The address of the step has a location that will do. -/
def StepOk (path_addresses : List Int) (locs_map : LocsMap) (ok : LineLoc → Bool) (idx : Nat) : Prop :=
  ∃ addr fn_name loc, path_addresses[idx]? = some addr ∧
    Dict.get? locs_map addr = some (fn_name, loc) ∧ ok loc = true

/-- The step is the last one with a location that will do. -/
structure LastOk (path_addresses : List Int) (locs_map : LocsMap) (ok : LineLoc → Bool) (idx : Nat) :
    Prop where
  here : StepOk path_addresses locs_map ok idx
  later : ∀ j, idx < j → ¬ StepOk path_addresses locs_map ok j

theorem StepOk.lt {ok : LineLoc → Bool} {idx : Nat} (h : StepOk path_addresses locs_map ok idx) :
    idx < path_addresses.length := by
  obtain ⟨addr, -, -, haddr, -⟩ := h
  exact (List.getElem?_eq_some_iff.mp haddr).1

theorem stepOk_iff {ok : LineLoc → Bool} {idx : Nat} :
    (match path_addresses[idx]?.bind (Dict.get? locs_map) with
      | some (_, loc) => ok loc
      | none => false) = true ↔ StepOk path_addresses locs_map ok idx := by
  unfold StepOk
  cases path_addresses[idx]? with
  | none => simp
  | some addr =>
    rw [Option.bind_some]
    cases hloc : Dict.get? locs_map addr with
    | none => simp [hloc]
    | some p =>
      obtain ⟨fn_name, loc⟩ := p
      simp [hloc]

theorem find?_reverse_range {p : Nat → Bool} {n idx : Nat} :
    (List.range n).reverse.find? p = some idx ↔
      idx < n ∧ p idx = true ∧ ∀ j, idx < j → j < n → p j = false := by
  induction n with
  | zero => simp
  | succ n ih =>
    rw [List.range_succ, List.reverse_append, List.reverse_singleton, List.singleton_append,
      List.find?_cons]
    cases hn : p n with
    | true =>
      simp only [Option.some.injEq]
      constructor
      · rintro rfl
        exact ⟨n.lt_succ_self, hn, fun j h h' => by omega⟩
      · rintro ⟨hlt, -, hlater⟩
        by_contra hne
        rw [hlater n (by omega) n.lt_succ_self] at hn
        cases hn
    | false =>
      dsimp only
      rw [ih]
      constructor
      · rintro ⟨hlt, hp, hlater⟩
        refine ⟨by omega, hp, fun j h h' => ?_⟩
        rcases Nat.lt_succ_iff_lt_or_eq.mp h' with h' | rfl
        · exact hlater j h h'
        · exact hn
      · rintro ⟨hlt, hp, hlater⟩
        refine ⟨?_, hp, fun j h h' => hlater j h (by omega)⟩
        rcases Nat.lt_succ_iff_lt_or_eq.mp hlt with hlt | rfl
        · exact hlt
        · rw [hn] at hp
          cases hp

/-- **What the loops from the last step back find.** -/
theorem last_step_iff {ok : LineLoc → Bool} {idx : Nat} :
    last_step path_addresses locs_map ok = some idx ↔ LastOk path_addresses locs_map ok idx := by
  rw [last_step, find?_reverse_range]
  constructor
  · rintro ⟨-, hok, hlater⟩
    refine ⟨stepOk_iff.mp hok, fun j hj hstep => ?_⟩
    exact Bool.eq_false_iff.mp (hlater j hj hstep.lt) (stepOk_iff.mpr hstep)
  · rintro ⟨hok, hlater⟩
    refine ⟨hok.lt, stepOk_iff.mpr hok, fun j hj _ => Bool.eq_false_iff.mpr fun hstep => ?_⟩
    exact hlater j hj (stepOk_iff.mp hstep)

/-! ## The top-level location -/

/-- The loop comes to the step. -/
def Visited (path_addresses : List Int) (idx : Nat) : Prop :=
  idx % 2 = 1 ∨ idx = path_addresses.length - 1

theorem top_level_of_ne {target : Nat} {steps : List (Int × Nat)} (h : ∀ s ∈ steps, s.2 ≠ target)
    (flow : Flow) :
    (steps.foldl (Flow.add path_addresses locs_map (some target)) flow).top_level_location =
      flow.top_level_location := by
  induction steps generalizing flow with
  | nil => rfl
  | cons s steps ih =>
    rw [List.foldl_cons, ih fun s hs => h s (List.mem_cons_of_mem _ hs)]
    have hne : ¬ some target = some s.2 := fun heq => h s List.mem_cons_self (Option.some.inj heq).symm
    unfold Flow.add
    dsimp only
    split
    · rfl
    · split
      · rfl
      · rfl

theorem thread_flow_grows (target_idx : Option Nat) (steps : List (Int × Nat)) (flow : Flow) :
    ∃ more, (steps.foldl (Flow.add path_addresses locs_map target_idx) flow).thread_flow_locations =
      flow.thread_flow_locations ++ more := by
  induction steps generalizing flow with
  | nil => exact ⟨[], (List.append_nil _).symm⟩
  | cons s steps ih =>
    obtain ⟨more, hmore⟩ := ih (flow.add path_addresses locs_map target_idx s)
    rw [List.foldl_cons, hmore]
    unfold Flow.add
    dsimp only
    split
    · exact ⟨more, rfl⟩
    · split
      · exact ⟨more, rfl⟩
      · exact ⟨_ :: more, List.append_assoc ..⟩

/-- **The top-level location** is that of the target step, when the loop comes to it. -/
theorem flow_top_level {source_target : Option String} {idx : Nat} {addr : Int} {location : Location}
    (htarget : target_idx path_addresses locs_map source_target = some idx)
    (haddr : path_addresses[idx]? = some addr)
    (hlocation : location_obj path_addresses locs_map idx addr = some location) :
    (Visited path_addresses idx →
      (flow path_addresses locs_map source_target).top_level_location = some location ∧
        (flow path_addresses locs_map source_target).thread_flow_locations ≠ []) ∧
    (¬ Visited path_addresses idx →
      (flow path_addresses locs_map source_target).top_level_location = none) := by
  obtain ⟨hlt, hget⟩ := List.getElem?_eq_some_iff.mp haddr
  have hsplit : path_addresses.zipIdx = (path_addresses.take idx).zipIdx ++
      (addr, idx) :: (path_addresses.drop (idx + 1)).zipIdx (idx + 1) := by
    conv_lhs => rw [← List.take_append_drop idx path_addresses]
    rw [List.zipIdx_append, List.drop_eq_getElem_cons hlt, List.zipIdx_cons, hget]
    simp [List.length_take, Nat.min_eq_left hlt.le]
  have hbefore : ∀ s ∈ (path_addresses.take idx).zipIdx, s.2 ≠ idx := by
    intro s hs
    have := List.snd_lt_of_mem_zipIdx hs
    simp only [List.length_take] at this
    omega
  have hafter : ∀ s ∈ (path_addresses.drop (idx + 1)).zipIdx (idx + 1), s.2 ≠ idx := by
    intro s hs
    have := List.le_snd_of_mem_zipIdx hs
    omega
  set init := (path_addresses.take idx).zipIdx.foldl
    (Flow.add path_addresses locs_map (some idx)) {} with hinit
  have hflow : flow path_addresses locs_map source_target =
      ((path_addresses.drop (idx + 1)).zipIdx (idx + 1)).foldl
        (Flow.add path_addresses locs_map (some idx))
          (init.add path_addresses locs_map (some idx) (addr, idx)) := by
    rw [flow, htarget, hsplit, List.foldl_append, List.foldl_cons]
  have htop : (flow path_addresses locs_map source_target).top_level_location =
      (init.add path_addresses locs_map (some idx) (addr, idx)).top_level_location := by
    rw [hflow, top_level_of_ne hafter]
  have hinit_top : init.top_level_location = none := top_level_of_ne hbefore {}
  unfold Visited
  constructor
  · intro hvisited
    have hcond : ¬ (idx % 2 = 0 ∧ idx ≠ path_addresses.length - 1) := by omega
    have hadd : init.add path_addresses locs_map (some idx) (addr, idx) =
        { level := init.level + 1
          top_level_location := some location
          thread_flow_locations := init.thread_flow_locations ++ [⟨location, init.level⟩] } := by
      simp only [Flow.add, if_neg hcond, hlocation, if_true]
    refine ⟨by rw [htop, hadd], ?_⟩
    obtain ⟨more, hmore⟩ := @thread_flow_grows path_addresses
      locs_map (some idx) ((path_addresses.drop (idx + 1)).zipIdx (idx + 1))
      (init.add path_addresses locs_map (some idx) (addr, idx))
    rw [hflow, hmore, hadd]
    simp
  · intro hskipped
    have hcond : idx % 2 = 0 ∧ idx ≠ path_addresses.length - 1 := by omega
    rw [htop, Flow.add, if_pos hcond, hinit_top]

/-! ## The two reports -/

/-- The result points at the step: its top-level location is that of the step's address. -/
def PointsAt (path_addresses : List Int) (locs_map : LocsMap) (result : Option Result) (idx : Nat) :
    Prop :=
  ∃ r addr location, result = some r ∧ path_addresses[idx]? = some addr ∧
    location_obj path_addresses locs_map idx addr = some location ∧ r.locations = some [location]

/-- **When the two reports point at the same place.**  The SARIF result points at the step of
every Code Quality issue if and only if the last step with a location, which is not absolute
when there is a source target, is at an odd place or the last step of all. -/
theorem same_location_iff (path_addresses : List Int) (locs_map : LocsMap) (upper md5 : String → String)
    (cve_id classification target justification : String) (source_target : Option String) :
    (∀ idx issue, codequality_issue path_addresses locs_map upper md5 cve_id classification target
        justification source_target = some (idx, issue) →
      PointsAt path_addresses locs_map (create_sarif_result path_addresses locs_map upper cve_id
        classification justification source_target) idx) ↔
    ∀ idx, LastOk path_addresses locs_map (in_target source_target) idx →
      idx % 2 = 1 ∨ idx = path_addresses.length - 1 := by
  constructor
  · intro h idx hlast
    obtain ⟨addr, fn_name, loc, haddr, hloc, -⟩ := hlast.here
    have hstep := last_step_iff.mpr hlast
    have htarget : target_idx path_addresses locs_map source_target = some idx := by
      simp [target_idx, hstep]
    obtain ⟨r, addr', location, hr, haddr', hlocation, hpoints⟩ := h idx _ (by
      simp [codequality_issue, hstep, haddr, hloc]
      rfl)
    by_contra hskipped
    have htop := (flow_top_level htarget haddr' hlocation).2 hskipped
    unfold create_sarif_result at hr
    dsimp only at hr
    split at hr
    · cases hr
    · obtain rfl := Option.some.inj hr
      rw [htop] at hpoints
      cases hpoints
  · intro h idx issue hissue
    cases hstep : last_step path_addresses locs_map (in_target source_target) with
    | none => simp [codequality_issue, hstep] at hissue
    | some i =>
      have hlast := last_step_iff.mp hstep
      obtain ⟨addr, fn_name, loc, haddr, hloc, -⟩ := hlast.here
      obtain rfl : i = idx := by
        simp [codequality_issue, hstep, haddr, hloc] at hissue
        exact hissue.1
      have htarget : target_idx path_addresses locs_map source_target = some i := by
        simp [target_idx, hstep]
      have hlocation : ∃ location, location_obj path_addresses locs_map i addr = some location :=
        ⟨_, by rw [location_obj, hloc]; rfl⟩
      obtain ⟨location, hlocation⟩ := hlocation
      obtain ⟨htop, hflow⟩ := (flow_top_level htarget haddr hlocation).1 (h i hlast)
      refine ⟨_, addr, location, if_neg hflow, haddr, hlocation, ?_⟩
      dsimp only
      rw [htop]
      rfl

/-- The call sites of a path of two calls, of which one is in a header of the system, and the
entry of the second caller. -/
def twoCallLocations : LocsMap :=
  [(0x1010, "main", ⟨"/usr/include/a.h", 3, 1, 3, 1⟩), (0x2000, "f", ⟨"b.c", 7, 1, 7, 1⟩)]

/-- The issue is about the entry of a caller, which the result does not point at. -/
theorem issue_at_entry :
    let path := [0x1000, 0x1010, 0x2000, 0x2010, 0x3000]
    (codequality_issue path twoCallLocations id id "CVE" "reachable" "g" "text" (some "/src")).map
        (fun p => (p.1, p.2.path, p.2.linesBegin)) = some (2, "b.c", 7) ∧
      (create_sarif_result path twoCallLocations id "CVE" "reachable" "text" (some "/src")).map
        (fun r => (r.locations, r.thread_flow.map fun l => l.location.message.addr)) =
          some (none, [0x1010]) := by
  decide +kernel

end Bracelet.ExportSarif
