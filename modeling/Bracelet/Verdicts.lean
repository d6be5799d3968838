import Bracelet.Entrypoint

/-!
# Whose functions a vulnerability is judged on

`main` groups the functions it found by the `cve_id` of the entry they were found for,
so an entry is judged on the functions of every entry with its `cve_id`.  `JudgesOwn`
is the specification: each entry is judged on its own functions, whatever the order in
which they are merged.  `judgesOwn_iff` says when `main` meets it.
-/
namespace Bracelet

section
variable (S : Semver) (demangle : String → Option String)

/-- **The verdict of an entry on its own functions.** -/
structure Judged (flist : List FunctionFilter) (dirs : List FunctionDirectory) (vuln : VulnSpec)
    (r : ReachabilityVuln) : Prop where
  potentially : r.classification = .potentially_reachable ↔
    ∃ t, vuln.Finds S demangle dirs t ∧ ∀ fltr ∈ flist, fltr.Passes vuln t
  address : r.classification = .potentially_reachable →
    ∃ t, vuln.Finds S demangle dirs t ∧ (∀ fltr ∈ flist, fltr.Passes vuln t) ∧
      r.address = some t.addr
  otherwise : r.classification ≠ .potentially_reachable → r.classification = .unreachable

/-- `main` finds functions and, in whatever order they are merged, reports one result for
each entry, in input order, that judges the entry on its own functions. -/
def JudgesOwn (run_cg_filter : Bool) (flist : List FunctionFilter)
    (dirs : List FunctionDirectory) (vulns : List VulnSpec) : Prop :=
  ∃ funcs, find_vulns S demangle dirs vulns = some funcs ∧
    ∀ merged, merged.Perm funcs →
      ∃ results, report run_cg_filter (ManyFilters flist) vulns merged = some results ∧
        List.Forall₂ (Judged S demangle flist dirs) vulns results

/-- What passes among the functions of entries that share a `cve_id` is at addresses
where each of them finds functions that pass. -/
def SharedFound (flist : List FunctionFilter) (dirs : List FunctionDirectory)
    (vulns : List VulnSpec) : Prop :=
  ∀ v ∈ vulns, ∀ w ∈ vulns, w.cve_id = v.cve_id → ∀ t, w.Finds S demangle dirs t →
    (∀ fltr ∈ flist, fltr.Passes v t) →
    ∃ t', v.Finds S demangle dirs t' ∧ (∀ fltr ∈ flist, fltr.Passes v t') ∧ t'.addr = t.addr

end

section
variable {S : Semver} {demangle : String → Option String} {run_cg_filter : Bool}
  {flist : List FunctionFilter} {dirs : List FunctionDirectory} {vulns : List VulnSpec}

/-- The functions an entry is judged on are those of all entries with its `cve_id`. -/
theorem mem_group {funcs merged : List TargetFunction}
    (h : find_vulns S demangle dirs vulns = some funcs) (hm : merged.Perm funcs) (cve_id : String)
    (t : TargetFunction) : t ∈ merged.filter (fun f => f.cve_id = cve_id) ↔
      ∃ w ∈ vulns, w.cve_id = cve_id ∧ w.Finds S demangle dirs t := by
  rw [List.mem_filter, hm.mem_iff, mem_find_vulns h]
  constructor
  · rintro ⟨⟨w, hw, hfind⟩, hcve⟩
    exact ⟨w, hw, (cve_id_of_finds hfind).symm.trans (by simpa using hcve), hfind⟩
  · rintro ⟨w, hw, hcve, hfind⟩
    exact ⟨⟨w, hw, hfind⟩, by simpa [cve_id_of_finds hfind] using hcve⟩

/-- A result merged of the functions of the group judges the entry on its own. -/
theorem Judged.of_merged {group : List TargetFunction} {vuln : VulnSpec}
    {r : ReachabilityVuln} (hr : Merged (ManyFilters flist) vuln group r)
    (hown : ∀ t, vuln.Finds S demangle dirs t → t ∈ group)
    (hshared : ∀ t ∈ group, (∀ fltr ∈ flist, fltr.Passes vuln t) →
      ∃ t', vuln.Finds S demangle dirs t' ∧ (∀ fltr ∈ flist, fltr.Passes vuln t') ∧
        t'.addr = t.addr) :
    Judged S demangle flist dirs vuln r := by
  unfold Merged at hr
  split at hr
  · rename_i func hfind
    obtain ⟨t, ht, hpass, haddr⟩ := hshared func (List.mem_of_find?_eq_some hfind)
      (by simpa using List.find?_some hfind)
    exact ⟨⟨fun _ => ⟨t, ht, hpass⟩, fun _ => hr.1⟩, fun _ => ⟨t, ht, hpass, haddr ▸ hr.2⟩,
      fun hne => absurd hr.1 hne⟩
  · rename_i hnone
    have hno : ∀ t, vuln.Finds S demangle dirs t → ¬ ∀ fltr ∈ flist, fltr.Passes vuln t := by
      intro t ht hpass
      exact List.find?_eq_none.mp hnone t (hown t ht) (by simpa using hpass)
    have hne : r.classification ≠ .potentially_reachable := by simp [hr]
    exact ⟨⟨fun h => absurd h hne, fun ⟨t, ht, hpass⟩ => absurd hpass (hno t ht)⟩,
      fun h => absurd h hne, fun _ => hr⟩

/-- One result for each entry, in order. -/
theorem report_forall₂ {vfilter : FunctionFilter} {merged : List TargetFunction}
    {p : VulnSpec → ReachabilityVuln → Prop}
    (h : ∀ v ∈ vulns, ∃ r, classify run_cg_filter vfilter (funcs_by_cve_id merged) v = some r ∧
      p v r) :
    ∃ results, report run_cg_filter vfilter vulns merged = some results ∧
      List.Forall₂ p vulns results := by
  unfold report
  induction vulns with
  | nil => exact ⟨[], rfl, .nil⟩
  | cons v vulns ih =>
    obtain ⟨r, hr, hp⟩ := h v (by simp)
    obtain ⟨results, hres, hall⟩ := ih fun v hv => h v (List.mem_cons_of_mem _ hv)
    exact ⟨r :: results, by simp [List.mapM_cons, hr, hres], .cons hp hall⟩

/-- The result at an entry of the list. -/
theorem classify_of_report {vfilter : FunctionFilter} {merged : List TargetFunction}
    {p : VulnSpec → ReachabilityVuln → Prop} {results : List ReachabilityVuln}
    (h : report run_cg_filter vfilter vulns merged = some results)
    (hall : List.Forall₂ p vulns results) {v : VulnSpec} (hv : v ∈ vulns) :
    ∃ r, classify run_cg_filter vfilter (funcs_by_cve_id merged) v = some r ∧ p v r := by
  unfold report at h
  induction hall with
  | nil => cases hv
  | cons hp _ ih =>
    rw [List.mapM_cons] at h
    obtain ⟨r', hr, h⟩ := Option.bind_eq_some_iff.mp h
    obtain ⟨rest, hrest, h⟩ := Option.bind_eq_some_iff.mp h
    cases h
    rcases List.mem_cons.mp hv with rfl | hv
    · exact ⟨_, hr, hp⟩
    · exact ih hrest hv

/-- **When each entry is judged on its own functions.** -/
theorem judgesOwn_iff (S : Semver) (demangle : String → Option String) (run_cg_filter : Bool)
    (flist : List FunctionFilter) (dirs : List FunctionDirectory) (vulns : List VulnSpec) :
    JudgesOwn S demangle run_cg_filter flist dirs vulns ↔
      (∀ v ∈ vulns, v.Parses S) ∧ SharedFound S demangle flist dirs vulns := by
  constructor
  · rintro ⟨funcs, hfuncs, hjudged⟩
    refine ⟨find_vulns_eq_some.mp ⟨funcs, hfuncs⟩, fun v hv w hw hcve t ht hpass => ?_⟩
    -- merge the function first: its address is then the one reported
    have hmem : t ∈ funcs := (mem_find_vulns hfuncs t).mpr ⟨w, hw, ht⟩
    have hperm : (t :: funcs.erase t).Perm funcs := (List.perm_cons_erase hmem).symm
    obtain ⟨results, hres, hall⟩ := hjudged _ hperm
    obtain ⟨r, hr, hj⟩ := classify_of_report hres hall hv
    obtain ⟨r', hr', hm⟩ := classify_merged run_cg_filter (ManyFilters flist) v
      (t :: funcs.erase t)
    obtain rfl : r = r' := Option.some.inj (hr.symm.trans hr')
    have htcve : t.cve_id = v.cve_id := (cve_id_of_finds ht).trans hcve
    obtain ⟨hclass, haddr⟩ : r.classification = .potentially_reachable ∧
        r.address = some t.addr := by
      unfold Merged at hm
      rwa [List.filter_cons_of_pos (by simpa using htcve),
        List.find?_cons_of_pos (by simpa using hpass)] at hm
    obtain ⟨t', ht', hpass', haddr'⟩ := hj.address hclass
    exact ⟨t', ht', hpass', (Option.some.inj (haddr.symm.trans haddr')).symm⟩
  · rintro ⟨hparses, hshared⟩
    obtain ⟨funcs, hfuncs⟩ := find_vulns_eq_some.mpr hparses
    refine ⟨funcs, hfuncs, fun merged hm => report_forall₂ fun v hv => ?_⟩
    obtain ⟨r, hr, hmerged⟩ := classify_merged run_cg_filter (ManyFilters flist) v merged
    refine ⟨r, hr, .of_merged hmerged ?_ ?_⟩
    · intro t ht
      exact (mem_group hfuncs hm _ t).mpr ⟨v, hv, rfl, ht⟩
    · intro t ht hpass
      obtain ⟨w, hw, hcve, hfind⟩ := (mem_group hfuncs hm _ t).mp ht
      exact hshared v hv w hw hcve t hfind hpass

/-! ## Two entries with one `cve_id` -/

end

/-- Full versions in digits, compared by their components. -/
def plainSemver : Semver where
  VersionInfo := List Nat
  parse s := (s.toList.splitOn '.').mapM fun part =>
    if part ≠ [] ∧ part.all Char.isDigit then
      some (part.foldl (fun n c => 10 * n + (c.toNat - '0'.toNat)) 0)
    else none
  compare a b := compareOfLessAndEq a b

/-- One function, `png_read` of `libpng` 1.6.0. -/
def libpngOnly : List FunctionDirectory :=
  [{ addr := 0x1000
     function_name := "png_read"
     SbomTable := [(0x1000, "libpng", "1.6.0")]
     DebugTable := [(.sym 0x1000, "png_read")]
     InlineFunctions := none }]

def libpngEntry : VulnSpec := ⟨"CVE-1", "libpng", "<=1.6.0", "png_read", [], []⟩

def zlibEntry : VulnSpec := ⟨"CVE-1", "zlib", "<=1.2.0", "inflate", [], []⟩

/-- No function of `zlib` is present, but its entry is judged on that of `libpng`. -/
theorem sharedCve_not_judgesOwn :
    ¬ JudgesOwn plainSemver some false [] libpngOnly [libpngEntry, zlibEntry] := by
  rintro ⟨funcs, hfuncs, hjudged⟩
  have hfound : find_vulns plainSemver some libpngOnly [libpngEntry, zlibEntry] =
      some [⟨"png_read", 0x1000, "CVE-1", "1.6.0"⟩] := by decide
  obtain rfl := Option.some.inj (hfuncs.symm.trans hfound)
  obtain ⟨results, hres, hall⟩ := hjudged _ (.refl _)
  obtain ⟨r, hr, hj⟩ := classify_of_report hres hall
    (show zlibEntry ∈ [libpngEntry, zlibEntry] by simp)
  have hclass : (classify false (ManyFilters [])
      (funcs_by_cve_id [⟨"png_read", 0x1000, "CVE-1", "1.6.0"⟩]) zlibEntry).map
        ReachabilityVuln.classification = some .potentially_reachable := by decide
  rw [hr] at hclass
  obtain ⟨t, ⟨constraint, hc, func, hfunc, ht⟩, -⟩ := hj.potentially.mp (Option.some.inj hclass)
  have hnone : (parse_purl_cons plainSemver zlibEntry.package_version).map (fun constraint =>
      libpngOnly.flatMap (targets plainSemver some zlibEntry constraint)) = some [] := by decide
  rw [hc] at hnone
  have hempty : libpngOnly.flatMap (targets plainSemver some zlibEntry constraint) = [] :=
    Option.some.inj hnone
  exact List.not_mem_nil (hempty ▸ List.mem_flatMap.mpr ⟨func, hfunc, ht⟩)

end Bracelet
