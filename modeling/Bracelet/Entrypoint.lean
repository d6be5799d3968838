import Bracelet.CallGraph
import Bracelet.TargetFunctions

/-!
# Classifying vulnerabilities

`entrypoint.py`, from the function filters to the results `main` prints.

A filter answers for an entry of the vulnerability list and a function found for it,
with a comment or with a classification.  `merge_vulns` assumes that no filter
classifies as anything but unreachable; here this is part of what a filter is.
-/
namespace Bracelet

inductive VulnClassification
  | reachable | unreachable | potentially_reachable | unable_to_assess
  deriving DecidableEq, Repr

structure ReachabilityVuln where
  cve_id : String
  classification : VulnClassification
  justification : String
  address : Option Nat := none
  deriving DecidableEq, Repr

structure ReachabilityComment where
  message : String

/-- A filter, which rejects a function as unreachable or comments on it. -/
structure FunctionFilter where
  reclassify : VulnSpec → TargetFunction → ReachabilityVuln ⊕ ReachabilityComment
  rejects : ∀ v t r, reclassify v t = .inl r → r.classification = .unreachable

/-- The filter does not reject the function. -/
def FunctionFilter.Passes (fltr : FunctionFilter) (v : VulnSpec) (t : TargetFunction) : Prop :=
  (fltr.reclassify v t).isRight

/-! ## The filters -/

/-- An address as `bracelet-edges` prints it. -/
def format_hex (addr : Nat) : String := printNodePure (.sym addr)

def is_present (t : TargetFunction) : String :=
  "Target function " ++ t.name ++ " is present at version " ++ t.version_str ++ " at addr " ++
    format_hex t.addr

def unreachableVuln (v : VulnSpec) (justification : String) : ReachabilityVuln :=
  { cve_id := v.cve_id, classification := .unreachable, justification }

/-- `str` of a list of symbol names. -/
def listStr (l : List String) : String :=
  "[" ++ ", ".intercalate (l.map fun s => "'" ++ s ++ "'") ++ "]"

def printed (path : Option String) : String := path.getD "None"

namespace AddressSetFFilter
variable (shortest_path : ShortestPath) (aset : Finset Nat) (cg : CallGraph)
  (symbol_to_addr : List (String × Nat))

/-- The loop over the waypoints: their addresses, or the first one without. -/
def waypoint_addrs : List String → String ⊕ List Node
  | [] => .inr []
  | waypoint :: waypoint_syms =>
    match Dict.get? symbol_to_addr waypoint with
    | none => .inl waypoint
    | some addr => (waypoint_addrs waypoint_syms).map id (.sym addr :: ·)

def reclassify (v : VulnSpec) (t : TargetFunction) : ReachabilityVuln ⊕ ReachabilityComment :=
  if t.addr ∉ aset then
    .inl <| unreachableVuln v (is_present t ++ ", however the function is not in the callgraph produced by pointer analysis")
  else
    match waypoint_addrs symbol_to_addr v.waypoint_syms with
    | .inl waypoint =>
      .inl <| unreachableVuln v (is_present t ++ ", however the required waypoint " ++ waypoint ++ " is not.")
    | .inr waypoints =>
      match cg.print_path_from_main shortest_path (.sym t.addr) waypoints with
      | some cg_path => .inr ⟨"Reachable on callgraph path: " ++ cg_path⟩
      | none =>
        let cg_path := cg.print_path_from_main shortest_path (.sym t.addr) []
        .inl <| unreachableVuln v (is_present t ++ ", however the function is not reachable following the required waypoints: " ++ listStr v.waypoint_syms ++ ". An alternative callgraph path not following the waypoints is: " ++ printed cg_path ++ ".")

end AddressSetFFilter

def AddressSetFFilter (shortest_path : ShortestPath) (aset : Finset Nat) (cg : CallGraph)
    (symbol_to_addr : List (String × Nat)) : FunctionFilter where
  reclassify := AddressSetFFilter.reclassify shortest_path aset cg symbol_to_addr
  rejects v t r h := by
    unfold AddressSetFFilter.reclassify at h
    split at h
    · cases h; rfl
    · split at h
      · cases h; rfl
      · split at h
        · cases h
        · cases h; rfl

namespace AdditionalFuncsFiliter
variable (aset : Finset Nat) (symbol_to_addr : List (String × Nat))

def allowed_symbols : List String := (symbol_to_addr.filter fun e => e.2 ∈ aset).map Prod.fst

def reclassify (v : VulnSpec) (t : TargetFunction) : ReachabilityVuln ⊕ ReachabilityComment :=
  match v.additional_required_syms.find? (· ∉ allowed_symbols aset symbol_to_addr) with
  | some req_sym =>
    .inl <| unreachableVuln v (is_present t ++ ", however an additional required function is not reachable " ++ req_sym)
  | none =>
    if v.additional_required_syms = [] then
      .inr ⟨"No additional symbols were required to be reachable."⟩
    else
      .inr ⟨"Additional symbols also deemed reachable: " ++ ", ".intercalate v.additional_required_syms⟩

end AdditionalFuncsFiliter

def AdditionalFuncsFiliter (aset : Finset Nat) (symbol_to_addr : List (String × Nat)) :
    FunctionFilter where
  reclassify := AdditionalFuncsFiliter.reclassify aset symbol_to_addr
  rejects v t r h := by
    unfold AdditionalFuncsFiliter.reclassify at h
    split at h
    · cases h; rfl
    · split at h <;> cases h

namespace ManyFilters

/-- The loop of `reclassify`, with the comments so far. -/
def loop (v : VulnSpec) (t : TargetFunction) (comment_buffer : String) :
    List FunctionFilter → ReachabilityVuln ⊕ ReachabilityComment
  | [] => .inr ⟨comment_buffer⟩
  | fltr :: lst =>
    match fltr.reclassify v t with
    | .inl res => .inl res
    | .inr res => loop v t (comment_buffer ++ res.message ++ "\n") lst

variable {v : VulnSpec} {t : TargetFunction}

theorem rejects_loop {comment_buffer : String} {lst : List FunctionFilter} {r : ReachabilityVuln}
    (h : loop v t comment_buffer lst = .inl r) : r.classification = .unreachable := by
  induction lst generalizing comment_buffer with
  | nil => cases h
  | cons fltr lst ih =>
    unfold loop at h
    split at h
    · rename_i res hres
      cases h
      exact fltr.rejects v t _ hres
    · exact ih h

theorem isRight_loop (comment_buffer : String) (lst : List FunctionFilter) :
    (loop v t comment_buffer lst).isRight = true ↔ ∀ fltr ∈ lst, fltr.Passes v t := by
  induction lst generalizing comment_buffer with
  | nil => simp [loop]
  | cons fltr lst ih =>
    unfold loop
    rw [List.forall_mem_cons, FunctionFilter.Passes]
    cases fltr.reclassify v t with
    | inl res => simp
    | inr res => simp [ih]

end ManyFilters

def ManyFilters (lst : List FunctionFilter) : FunctionFilter where
  reclassify v t := ManyFilters.loop v t "" lst
  rejects _ _ _ h := ManyFilters.rejects_loop h

@[simp] theorem ManyFilters.passes_iff {lst : List FunctionFilter} {v : VulnSpec}
    {t : TargetFunction} : (ManyFilters lst).Passes v t ↔ ∀ fltr ∈ lst, fltr.Passes v t :=
  ManyFilters.isRight_loop "" lst

/-! ## The verdict of an entry -/

def merge_vulns (curr : Option ReachabilityVuln) (candidate : ReachabilityVuln) :
    ReachabilityVuln :=
  match curr with
  | none => candidate
  | some curr =>
    if curr.classification = candidate.classification then
      { curr with justification := curr.justification ++ "\n Additional justification from separate analyzed function: " ++ candidate.justification }
    else if candidate.classification = .potentially_reachable then candidate
    else curr

section
variable (run_cg_filter : Bool) (vfilter : FunctionFilter)

def candidate (vuln : VulnSpec) (func : TargetFunction) : ReachabilityVuln :=
  match vfilter.reclassify vuln func with
  | .inl reclassified => reclassified
  | .inr reclassified =>
    { cve_id := vuln.cve_id
      classification := .potentially_reachable
      justification := is_present func ++ "." ++
        if run_cg_filter then "\n" ++ reclassified.message else ""
      address := some func.addr }

/-- The loop over the functions of an entry. -/
def max_vuln_result (vuln : VulnSpec) (funcs : List TargetFunction) : Option ReachabilityVuln :=
  funcs.foldl (fun curr func => some (merge_vulns curr (candidate run_cg_filter vfilter vuln func))) none

/-- `funcs_by_cve_id` -/
def funcs_by_cve_id (funcs : List TargetFunction) : List (String × List TargetFunction) :=
  funcs.foldl (fun d func => Dict.set d func.cve_id ((Dict.get? d func.cve_id).getD [] ++ [func])) []

def classify (groups : List (String × List TargetFunction)) (vuln : VulnSpec) :
    Option ReachabilityVuln :=
  match Dict.get? groups vuln.cve_id with
  | some funcs => max_vuln_result run_cg_filter vfilter vuln funcs
  | none => some <| unreachableVuln vuln ("The function " ++ vuln.affected_function ++ " is not present at the right version in the target")

/-- The results for the functions found, in the order in which they are merged. -/
def report (vulns : List VulnSpec) (funcs : List TargetFunction) :
    Option (List ReachabilityVuln) :=
  vulns.mapM (classify run_cg_filter vfilter (funcs_by_cve_id funcs))

end

/-- What `main` prints. -/
def main (S : Semver) (demangle : String → Option String) (run_cg_filter : Bool)
    (flist : List FunctionFilter) (dirs : List FunctionDirectory) (vulns : List VulnSpec) :
    Option (List ReachabilityVuln) := do
  let funcs ← find_vulns S demangle dirs vulns
  report run_cg_filter (ManyFilters flist) vulns funcs

/-! ## What is merged -/

section
variable (run_cg_filter : Bool) {vfilter : FunctionFilter} {vuln : VulnSpec}

theorem candidate_of_passes {func : TargetFunction} (h : vfilter.Passes vuln func) :
    (candidate run_cg_filter vfilter vuln func).classification = .potentially_reachable ∧
      (candidate run_cg_filter vfilter vuln func).address = some func.addr := by
  obtain ⟨comment, hc⟩ := Sum.isRight_iff.mp h
  simp [candidate, hc]

theorem candidate_of_not_passes {func : TargetFunction} (h : ¬ vfilter.Passes vuln func) :
    (candidate run_cg_filter vfilter vuln func).classification = .unreachable := by
  rw [FunctionFilter.Passes, Bool.not_eq_true, Sum.isRight_eq_false] at h
  obtain ⟨r, hr⟩ := Sum.isLeft_iff.mp h
  have := vfilter.rejects vuln func r hr
  simpa [candidate, hr] using this

instance (v : VulnSpec) (t : TargetFunction) : Decidable (vfilter.Passes v t) :=
  inferInstanceAs (Decidable (_ = true))

/-- The result for an entry whose functions are `funcs`: that of the first one that
passes, if there is one. -/
def Merged (vfilter : FunctionFilter) (vuln : VulnSpec) (funcs : List TargetFunction)
    (r : ReachabilityVuln) : Prop :=
  match funcs.find? fun f => vfilter.Passes vuln f with
  | some func => r.classification = .potentially_reachable ∧ r.address = some func.addr
  | none => r.classification = .unreachable

theorem merged_singleton (func : TargetFunction) :
    Merged vfilter vuln [func] (candidate run_cg_filter vfilter vuln func) := by
  by_cases h : vfilter.Passes vuln func
  · simpa [Merged, h] using candidate_of_passes run_cg_filter h
  · simpa [Merged, h] using candidate_of_not_passes run_cg_filter h

/-- Merging one more function. -/
theorem merged_merge_vulns {funcs : List TargetFunction} {r : ReachabilityVuln}
    (hr : Merged vfilter vuln funcs r) (func : TargetFunction) :
    Merged vfilter vuln (funcs ++ [func])
      (merge_vulns (some r) (candidate run_cg_filter vfilter vuln func)) := by
  unfold Merged at hr ⊢
  rw [List.find?_append]
  by_cases h : vfilter.Passes vuln func
  · obtain ⟨hclass, haddr⟩ := candidate_of_passes run_cg_filter h
    cases hfind : funcs.find? fun f => vfilter.Passes vuln f with
    | none =>
      rw [hfind] at hr
      simp [merge_vulns, hr, hclass, h, haddr]
    | some f =>
      rw [hfind] at hr
      simp [merge_vulns, hr, hclass]
  · have hclass := candidate_of_not_passes run_cg_filter h
    cases hfind : funcs.find? fun f => vfilter.Passes vuln f with
    | none =>
      rw [hfind] at hr
      simp [merge_vulns, hr, hclass, h]
    | some f =>
      rw [hfind] at hr
      simp [merge_vulns, hr, hclass]

theorem max_vuln_result_merged {funcs : List TargetFunction} (hne : funcs ≠ []) :
    ∃ r, max_vuln_result run_cg_filter vfilter vuln funcs = some r ∧
      Merged vfilter vuln funcs r := by
  induction funcs using List.reverseRecOn with
  | nil => exact absurd rfl hne
  | append_singleton funcs func ih =>
    unfold max_vuln_result at ih ⊢
    rw [List.foldl_append]
    rcases List.eq_nil_or_concat funcs with rfl | ⟨init, last, rfl⟩
    · exact ⟨_, rfl, merged_singleton run_cg_filter func⟩
    · obtain ⟨r, hr, hm⟩ := ih (by simp)
      rw [hr]
      exact ⟨_, rfl, merged_merge_vulns run_cg_filter hm func⟩

/-- The functions of a group, in the order in which they were found. -/
theorem get?_funcs_by_cve_id (funcs : List TargetFunction) (cve_id : String) :
    Dict.get? (funcs_by_cve_id funcs) cve_id =
      if ∃ f ∈ funcs, f.cve_id = cve_id then some (funcs.filter fun f => f.cve_id = cve_id)
      else none := by
  induction funcs using List.reverseRecOn with
  | nil => simp [funcs_by_cve_id, Dict.get?]
  | append_singleton funcs func ih =>
    unfold funcs_by_cve_id at ih ⊢
    rw [List.foldl_append, List.foldl_cons, List.foldl_nil, Dict.get?_set, List.filter_append]
    by_cases h : func.cve_id = cve_id
    · subst h
      rw [if_pos rfl, if_pos ⟨func, by simp, rfl⟩, ih]
      split
      · simp
      · rename_i hno
        have hnil : funcs.filter (fun f => f.cve_id = func.cve_id) = [] := by
          simpa using fun f hf => not_exists.mp hno f |> fun hn heq => hn ⟨hf, heq⟩
        simp [hnil]
    · rw [if_neg h, ih]
      simp [h]

/-- **The result of an entry is that of the first of its functions that passes.** -/
theorem classify_merged (vfilter : FunctionFilter) (vuln : VulnSpec)
    (funcs : List TargetFunction) :
    ∃ r, classify run_cg_filter vfilter (funcs_by_cve_id funcs) vuln = some r ∧
      Merged vfilter vuln (funcs.filter fun f => f.cve_id = vuln.cve_id) r := by
  unfold classify
  rw [get?_funcs_by_cve_id]
  by_cases h : ∃ f ∈ funcs, f.cve_id = vuln.cve_id
  · rw [if_pos h]
    refine max_vuln_result_merged run_cg_filter ?_
    obtain ⟨f, hf, hcve⟩ := h
    exact List.ne_nil_of_mem (List.mem_filter.mpr ⟨hf, by simpa using hcve⟩)
  · rw [if_neg h]
    have hnil : funcs.filter (fun f => f.cve_id = vuln.cve_id) = [] := by
      simpa using fun f hf heq => h ⟨f, hf, heq⟩
    rw [hnil]
    exact ⟨_, rfl, rfl⟩

/-- One of the functions passes. -/
def FunctionFilter.PassesAny (vfilter : FunctionFilter) (v : VulnSpec)
    (funcs : List TargetFunction) : Prop := ∃ t ∈ funcs, vfilter.Passes v t

instance (v : VulnSpec) (funcs : List TargetFunction) : Decidable (vfilter.PassesAny v funcs) :=
  inferInstanceAs (Decidable (∃ t ∈ funcs, vfilter.Passes v t))

theorem classification_of_merged {funcs : List TargetFunction} {r : ReachabilityVuln}
    (h : Merged vfilter vuln funcs r) :
    r.classification = if vfilter.PassesAny vuln funcs then .potentially_reachable
      else .unreachable := by
  unfold Merged at h
  split at h
  · rename_i func hfind
    rw [if_pos ⟨func, List.mem_of_find?_eq_some hfind, by simpa using List.find?_some hfind⟩]
    exact h.1
  · rename_i hnone
    rw [if_neg]
    · exact h
    · rintro ⟨t, ht, hpass⟩
      exact List.find?_eq_none.mp hnone t ht (by simpa using hpass)

/-- **An entry is potentially reachable when a function of its group passes.** -/
theorem report_classification (vfilter : FunctionFilter) (vulns : List VulnSpec)
    (funcs : List TargetFunction) :
    (report run_cg_filter vfilter vulns funcs).map (·.map ReachabilityVuln.classification) =
      some (vulns.map fun v =>
        if vfilter.PassesAny v (funcs.filter fun f => f.cve_id = v.cve_id) then
          .potentially_reachable
        else .unreachable) := by
  unfold report
  induction vulns with
  | nil => rfl
  | cons v vulns ih =>
    obtain ⟨r, hr, hm⟩ := classify_merged run_cg_filter vfilter v funcs
    obtain ⟨results, hres, hmap⟩ := Option.map_eq_some_iff.mp ih
    rw [List.mapM_cons, hr, hres, List.map_cons, ← hmap, ← classification_of_merged hm]
    rfl

end
end Bracelet
