import Bracelet.CallGraphAgreement
import Bracelet.Verdicts

/-!
# The order of the function directories

`build_sym_to_address` enumerates the function directories in the order of
`Path.glob`, which is any order, and keeps for each name the address of the last
directory with it.  Functions of one name, as static functions may be, are told apart
by nothing else.  `OrderIndependent` is the specification: classifications do not
depend on the order, and a symbol counts as reachable when some function of its name
is.  `orderIndependent_iff` says when `main` meets it.
-/
namespace Bracelet

section
variable (shortest_path : ShortestPath) (aset : Finset Nat) (cg : CallGraph)

/-- The filters of `main`, for directories enumerated in this order. -/
def cg_filters (order : List FunctionDirectory) : List FunctionFilter :=
  [AddressSetFFilter shortest_path aset cg (build_sym_to_address order),
    AdditionalFuncsFiliter aset (build_sym_to_address order)]

/-- The classifications `main` prints. -/
def classifications (S : Semver) (demangle : String → Option String)
    (order : List FunctionDirectory) (vulns : List VulnSpec) :
    Option (List VulnClassification) :=
  (main S demangle true (cg_filters shortest_path aset cg order) order vulns).map
    (·.map ReachabilityVuln.classification)

/-- The address looked up for the symbol is reachable. -/
def CountsAsReachable (order : List FunctionDirectory) (symbol : String) : Prop :=
  ∃ addr, Dict.get? (build_sym_to_address order) symbol = some addr ∧ addr ∈ aset

/-- Some function of that name has a reachable address. -/
def SomeReachable (dirs : List FunctionDirectory) (symbol : String) : Prop :=
  ∃ func ∈ dirs, func.function_name = symbol ∧ func.addr ∈ aset

/-- The symbols an entry requires to be reachable, and its waypoints. -/
def VulnSpec.symbols (v : VulnSpec) : List String := v.additional_required_syms ++ v.waypoint_syms

/-- **The verdicts do not depend on the order of the directories.** -/
structure OrderIndependent (S : Semver) (demangle : String → Option String)
    (dirs : List FunctionDirectory) (vulns : List VulnSpec) : Prop where
  same : ∀ o o', o.Perm dirs → o'.Perm dirs →
    classifications shortest_path aset cg S demangle o vulns =
      classifications shortest_path aset cg S demangle o' vulns
  counts : ∀ o, o.Perm dirs → ∀ v ∈ vulns, ∀ symbol ∈ v.symbols,
    (CountsAsReachable aset o symbol ↔ SomeReachable aset dirs symbol)

/-! ## The condition -/

/-- `pick` is a function of its name for each waypoint. -/
def Picks (dirs : List FunctionDirectory) (v : VulnSpec) (pick : String → Nat) : Prop :=
  ∀ w ∈ v.waypoint_syms, w ≠ "" ∧ ∃ func ∈ dirs, func.function_name = w ∧ func.addr = pick w

/-- A path from `main` leads through the picked functions to a reachable function that
the entry is judged on. -/
def Leads (S : Semver) (demangle : String → Option String) (dirs : List FunctionDirectory)
    (vulns : List VulnSpec) (v : VulnSpec) (pick : String → Nat) : Prop :=
  ∃ m, cg.main_addr = some m ∧ ∃ w ∈ vulns, w.cve_id = v.cve_id ∧
    ∃ t, w.Finds S demangle dirs t ∧ t.addr ∈ aset ∧
      cg.PathThrough m (v.waypoint_syms.map (fun s => .sym (pick s)) ++ [.sym t.addr])

/-- Functions of one name make no difference. -/
structure NamesAlike (S : Semver) (demangle : String → Option String)
    (dirs : List FunctionDirectory) (vulns : List VulnSpec) : Prop where
  /-- If one function of a name is reachable, all are, and it is a name. -/
  reachable : ∀ v ∈ vulns, ∀ symbol ∈ v.symbols, SomeReachable aset dirs symbol →
    symbol ≠ "" ∧ ∀ func ∈ dirs, func.function_name = symbol → func.addr ∈ aset
  /-- Whichever functions are picked for the waypoints, paths lead through them alike. -/
  waypoints : (∀ v ∈ vulns, v.Parses S) → ∀ v ∈ vulns,
    (∀ symbol ∈ v.additional_required_syms, SomeReachable aset dirs symbol) →
    ∀ pick pick', Picks dirs v pick → Picks dirs v pick' →
      Leads aset cg S demangle dirs vulns v pick → Leads aset cg S demangle dirs vulns v pick'

end

/-! ## Looking up a name -/

section
variable {order dirs : List FunctionDirectory} {symbol : String}

theorem get?_build_sym_to_address (order : List FunctionDirectory) (symbol : String) :
    Dict.get? (build_sym_to_address order) symbol =
      Dict.lastValue (symbol_pairs order) symbol :=
  Dict.get?_ofList _ _

theorem mem_symbol_pairs {addr : Nat} : (symbol, addr) ∈ symbol_pairs order ↔
    symbol ≠ "" ∧ ∃ func ∈ order, func.function_name = symbol ∧ func.addr = addr := by
  unfold symbol_pairs
  simp only [List.mem_map, List.mem_filter, Prod.mk.injEq]
  constructor
  · rintro ⟨func, ⟨hf, hlen⟩, rfl, rfl⟩
    refine ⟨?_, func, hf, rfl, rfl⟩
    rintro hnil
    simp [hnil] at hlen
  · rintro ⟨hne, func, hf, rfl, rfl⟩
    refine ⟨func, ⟨hf, ?_⟩, rfl, rfl⟩
    simpa [Nat.pos_iff_ne_zero, String.length_eq_zero_iff] using hne

/-- What is found for a name is a function of that name. -/
theorem exists_of_get? {addr : Nat}
    (h : Dict.get? (build_sym_to_address order) symbol = some addr) :
    symbol ≠ "" ∧ ∃ func ∈ order, func.function_name = symbol ∧ func.addr = addr := by
  rw [get?_build_sym_to_address] at h
  exact mem_symbol_pairs.mp (Dict.mem_of_lastValue h)

/-- Whatever functions are picked for names, some order of the directories has them found. -/
theorem exists_order {names : List String} {pick : String → Nat}
    (h : ∀ w ∈ names, w ≠ "" ∧ ∃ func ∈ dirs, func.function_name = w ∧ func.addr = pick w) :
    ∃ order : List FunctionDirectory, order.Perm dirs ∧
      ∀ w ∈ names, Dict.get? (build_sym_to_address order) w = some (pick w) := by
  -- the picked functions come last
  let picked (func : FunctionDirectory) : Bool := func.addr = pick func.function_name
  refine ⟨dirs.filter (fun func => !picked func) ++ dirs.filter picked,
    (List.perm_append_comm).trans (List.filter_append_perm picked dirs), fun w hw => ?_⟩
  obtain ⟨hne, func, hf, hname, haddr⟩ := h w hw
  have hmem : (w, pick w) ∈ symbol_pairs (dirs.filter picked) :=
    mem_symbol_pairs.mpr ⟨hne, func, by simp [picked, hf, hname, haddr], hname, haddr⟩
  obtain ⟨addr, hlast⟩ := Dict.exists_lastValue_of_mem hmem
  obtain ⟨-, func', hf', hname', haddr'⟩ := mem_symbol_pairs.mp (Dict.mem_of_lastValue hlast)
  obtain rfl : addr = pick w := by
    have hpicked : func'.addr = pick func'.function_name := by
      simpa [picked] using (List.mem_filter.mp hf').2
    rw [← haddr', hpicked, hname']
  rw [get?_build_sym_to_address]
  have happ : symbol_pairs (dirs.filter (fun func => !picked func) ++ dirs.filter picked) =
      symbol_pairs (dirs.filter fun func => !picked func) ++ symbol_pairs (dirs.filter picked) := by
    simp [symbol_pairs]
  rw [happ]
  exact Dict.lastValue_append hlast

/-- Every function with a name has something found for it. -/
theorem exists_get? (hne : symbol ≠ "") {func : FunctionDirectory} (hf : func ∈ order)
    (hname : func.function_name = symbol) :
    ∃ addr, Dict.get? (build_sym_to_address order) symbol = some addr := by
  rw [get?_build_sym_to_address]
  exact Dict.exists_lastValue_of_mem (mem_symbol_pairs.mpr ⟨hne, func, hf, hname, rfl⟩)

/-- **A symbol counts as reachable, in every order, when some function of its name is**,
just if all functions of its name are. -/
theorem counts_iff {aset : Finset Nat} :
    (∀ o, o.Perm dirs → (CountsAsReachable aset o symbol ↔ SomeReachable aset dirs symbol)) ↔
      (SomeReachable aset dirs symbol →
        symbol ≠ "" ∧ ∀ func ∈ dirs, func.function_name = symbol → func.addr ∈ aset) := by
  constructor
  · intro h hsome
    obtain ⟨addr, hget, -⟩ := (h dirs (.refl _)).mpr hsome
    have hne := (exists_of_get? hget).1
    refine ⟨hne, fun func hf hname => ?_⟩
    -- enumerate this function last
    have hpick : ∀ w ∈ [symbol], w ≠ "" ∧ ∃ f ∈ dirs, f.function_name = w ∧
        f.addr = (fun _ => func.addr : String → Nat) w := by
      simpa [hne] using ⟨func, hf, hname, rfl⟩
    obtain ⟨o, ho, hfound⟩ := exists_order hpick
    obtain ⟨addr', hget', hreach⟩ := (h o ho).mpr hsome
    obtain rfl : func.addr = addr' :=
      Option.some.inj ((hfound symbol (by simp)).symm.trans hget')
    exact hreach
  · intro h o ho
    constructor
    · rintro ⟨addr, hget, hreach⟩
      obtain ⟨-, func, hf, hname, rfl⟩ := exists_of_get? hget
      exact ⟨func, ho.mem_iff.mp hf, hname, hreach⟩
    · intro hsome
      obtain ⟨hne, hall⟩ := h hsome
      obtain ⟨func, hf, hname, -⟩ := hsome
      obtain ⟨addr, hget⟩ := exists_get? hne (ho.mem_iff.mpr hf) hname
      obtain ⟨-, func', hf', hname', rfl⟩ := exists_of_get? hget
      exact ⟨_, hget, hall func' (ho.mem_iff.mp hf') hname'⟩

end

/-! ## The verdicts of an order -/

section
variable {shortest_path : ShortestPath} {aset : Finset Nat} {cg : CallGraph}
  {order dirs : List FunctionDirectory} {v : VulnSpec} {t : TargetFunction}

theorem waypoint_addrs_eq {symbol_to_addr : List (String × Nat)} {syms : List String}
    {ws : List Node} :
    AddressSetFFilter.waypoint_addrs symbol_to_addr syms = .inr ws ↔
      ∃ pick : String → Nat, (∀ w ∈ syms, Dict.get? symbol_to_addr w = some (pick w)) ∧
        ws = syms.map fun s => .sym (pick s) := by
  induction syms generalizing ws with
  | nil => simp [AddressSetFFilter.waypoint_addrs, eq_comm]
  | cons waypoint syms ih =>
    unfold AddressSetFFilter.waypoint_addrs
    constructor
    · intro h
      split at h
      · cases h
      · rename_i addr haddr
        cases hrest : AddressSetFFilter.waypoint_addrs symbol_to_addr syms with
        | inl w => simp [hrest] at h
        | inr rest =>
          obtain ⟨pick, hpick, rfl⟩ := ih.mp hrest
          obtain rfl : .sym addr :: syms.map (fun s => Node.sym (pick s)) = ws := by
            simpa [hrest] using h
          refine ⟨fun w => (Dict.get? symbol_to_addr w).getD 0, fun w hw => ?_, ?_⟩
          · rcases List.mem_cons.mp hw with rfl | hw
            · simp [haddr]
            · simp [hpick w hw]
          · simp only [List.map_cons, haddr, Option.getD_some, List.cons.injEq, true_and]
            exact List.map_congr_left fun w hw => by rw [hpick w hw, Option.getD_some]
    · rintro ⟨pick, hpick, rfl⟩
      rw [List.forall_mem_cons] at hpick
      have hrest := ih.mpr ⟨pick, hpick.2, rfl⟩
      simp [hpick.1, hrest]

theorem addressSet_passes_iff (hexact : cg.NetworkxExact shortest_path) :
    (AddressSetFFilter shortest_path aset cg (build_sym_to_address order)).Passes v t ↔
      t.addr ∈ aset ∧ ∃ pick : String → Nat,
        (∀ w ∈ v.waypoint_syms, Dict.get? (build_sym_to_address order) w = some (pick w)) ∧
        ∃ m, cg.main_addr = some m ∧
          cg.PathThrough m (v.waypoint_syms.map (fun s => .sym (pick s)) ++ [.sym t.addr]) := by
  unfold FunctionFilter.Passes AddressSetFFilter AddressSetFFilter.reclassify
  by_cases ht : t.addr ∈ aset
  · simp only [ht, not_true_eq_false, if_false, true_and]
    cases hw : AddressSetFFilter.waypoint_addrs (build_sym_to_address order) v.waypoint_syms with
    | inl w =>
      simp only [Sum.isRight_inl, Bool.false_eq_true, false_iff]
      rintro ⟨pick, hpick, -⟩
      simp [waypoint_addrs_eq.mpr ⟨pick, hpick, rfl⟩] at hw
    | inr ws =>
      have hpath := CallGraph.print_path_from_main_isSome hexact (.sym t.addr) ws
      cases hp : cg.print_path_from_main shortest_path (.sym t.addr) ws with
      | some cg_path =>
        obtain ⟨pick, hpick, rfl⟩ := waypoint_addrs_eq.mp hw
        exact iff_of_true (by simp [hp]) ⟨pick, hpick, hpath.mp (by rw [hp]; rfl)⟩
      | none =>
        refine iff_of_false (by simp [hp]) ?_
        rintro ⟨pick, hpick, hthrough⟩
        obtain rfl := Sum.inr.inj (hw.symm.trans (waypoint_addrs_eq.mpr ⟨pick, hpick, rfl⟩))
        have hsome := hpath.mpr hthrough
        rw [hp] at hsome
        cases hsome
  · simp [ht]

theorem mem_allowed_symbols {symbol : String} :
    symbol ∈ AdditionalFuncsFiliter.allowed_symbols aset (build_sym_to_address order) ↔
      CountsAsReachable aset order symbol := by
  unfold AdditionalFuncsFiliter.allowed_symbols CountsAsReachable
  simp only [List.mem_map, List.mem_filter, decide_eq_true_eq, Prod.exists,
    exists_and_right, exists_eq_right]
  refine exists_congr fun addr => and_congr_left' ?_
  rw [build_sym_to_address, Dict.mem_ofList, Dict.get?_ofList]

theorem additionalFuncs_passes_iff :
    (AdditionalFuncsFiliter aset (build_sym_to_address order)).Passes v t ↔
      ∀ symbol ∈ v.additional_required_syms, CountsAsReachable aset order symbol := by
  unfold FunctionFilter.Passes AdditionalFuncsFiliter AdditionalFuncsFiliter.reclassify
  simp only [← mem_allowed_symbols]
  cases hfind : v.additional_required_syms.find? fun s =>
      s ∉ AdditionalFuncsFiliter.allowed_symbols aset (build_sym_to_address order) with
  | some req_sym =>
    have hnot := List.find?_some hfind
    have hmem := List.mem_of_find?_eq_some hfind
    simp only [Sum.isRight_inl, Bool.false_eq_true, false_iff, not_forall]
    exact ⟨req_sym, hmem, by simpa using hnot⟩
  | none =>
    have hall := List.find?_eq_none.mp hfind
    have : ∀ symbol ∈ v.additional_required_syms,
        symbol ∈ AdditionalFuncsFiliter.allowed_symbols aset (build_sym_to_address order) :=
      fun s hs => by simpa using hall s hs
    refine iff_of_true ?_ this
    dsimp only
    split <;> rfl

/-- A function that some entry with the `cve_id` of `v` finds passes the filters. -/
def PassesSome (shortest_path : ShortestPath) (aset : Finset Nat) (cg : CallGraph) (S : Semver)
    (demangle : String → Option String) (order : List FunctionDirectory) (vulns : List VulnSpec)
    (v : VulnSpec) : Prop :=
  ∃ w ∈ vulns, w.cve_id = v.cve_id ∧ ∃ t, w.Finds S demangle order t ∧
    ∀ fltr ∈ cg_filters shortest_path aset cg order, fltr.Passes v t

end

section
variable (shortest_path : ShortestPath) (aset : Finset Nat) (cg : CallGraph) (S : Semver)
  (demangle : String → Option String) (order dirs : List FunctionDirectory)
  (vulns : List VulnSpec)

open Classical in
/-- **The classifications of an order of the directories.** -/
theorem classifications_eq : classifications shortest_path aset cg S demangle order vulns =
    if ∀ v ∈ vulns, v.Parses S then
      some (vulns.map fun v =>
        if PassesSome shortest_path aset cg S demangle order vulns v then .potentially_reachable
        else .unreachable)
    else none := by
  unfold classifications main
  cases hfuncs : find_vulns S demangle order vulns with
  | none =>
    have hno : ¬ ∀ v ∈ vulns, v.Parses S := fun h => by
      obtain ⟨funcs, hsome⟩ : ∃ tfuncs, find_vulns S demangle order vulns = some tfuncs :=
        find_vulns_eq_some.mpr h
      rw [hfuncs] at hsome
      cases hsome
    rw [if_neg hno]
    rfl
  | some funcs =>
    rw [if_pos (find_vulns_eq_some.mp ⟨funcs, hfuncs⟩)]
    refine (report_classification true _ vulns funcs).trans (congrArg some ?_)
    refine List.map_congr_left fun v _ => if_congr ?_ rfl rfl
    simp only [FunctionFilter.PassesAny, mem_group hfuncs (.refl _), ManyFilters.passes_iff,
      PassesSome]
    constructor
    · rintro ⟨t, ⟨w, hw, hcve, ht⟩, hpass⟩
      exact ⟨w, hw, hcve, t, ht, hpass⟩
    · rintro ⟨w, hw, hcve, t, ht, hpass⟩
      exact ⟨t, ⟨w, hw, hcve, ht⟩, hpass⟩

end

section
variable {shortest_path : ShortestPath} {aset : Finset Nat} {cg : CallGraph} {S : Semver}
  {demangle : String → Option String} {o dirs : List FunctionDirectory} {vulns : List VulnSpec}
  {v : VulnSpec}

theorem finds_perm (ho : o.Perm dirs) {w : VulnSpec} {t : TargetFunction} :
    w.Finds S demangle o t ↔ w.Finds S demangle dirs t := by
  simp only [VulnSpec.Finds, ho.mem_iff]

/-- The functions found for the waypoints are picked. -/
def Found (o : List FunctionDirectory) (v : VulnSpec) (pick : String → Nat) : Prop :=
  ∀ w ∈ v.waypoint_syms, Dict.get? (build_sym_to_address o) w = some (pick w)

theorem Found.picks (ho : o.Perm dirs) {pick : String → Nat} (h : Found o v pick) :
    Picks dirs v pick := by
  intro w hw
  obtain ⟨hne, func, hf, hname, haddr⟩ := exists_of_get? (h w hw)
  exact ⟨hne, func, ho.mem_iff.mp hf, hname, haddr⟩

/-- If functions can be picked for the waypoints, some are found in every order. -/
theorem exists_found (ho : o.Perm dirs) {pick : String → Nat} (h : Picks dirs v pick) :
    ∃ pick', Found o v pick' := by
  refine ⟨fun w => (Dict.get? (build_sym_to_address o) w).getD 0, fun w hw => ?_⟩
  obtain ⟨hne, func, hf, hname, -⟩ := h w hw
  obtain ⟨addr, haddr⟩ := exists_get? hne (ho.mem_iff.mpr hf) hname
  simp [haddr]

theorem Leads.congr {pick pick' : String → Nat} (h : ∀ w ∈ v.waypoint_syms, pick w = pick' w)
    (hl : Leads aset cg S demangle dirs vulns v pick) :
    Leads aset cg S demangle dirs vulns v pick' := by
  obtain ⟨m, hm, w, hw, hcve, t, ht, hset, hpath⟩ := hl
  refine ⟨m, hm, w, hw, hcve, t, ht, hset, ?_⟩
  rwa [← List.map_congr_left fun s hs => congrArg Node.sym (h s hs)]

/-- What passes the filters in an order of the directories. -/
theorem passesSome_iff (hexact : cg.NetworkxExact shortest_path) (ho : o.Perm dirs)
    (hcounts : ∀ symbol ∈ v.symbols,
      (CountsAsReachable aset o symbol ↔ SomeReachable aset dirs symbol)) :
    PassesSome shortest_path aset cg S demangle o vulns v ↔
      (∀ symbol ∈ v.additional_required_syms, SomeReachable aset dirs symbol) ∧
        ∃ pick, Found o v pick ∧ Leads aset cg S demangle dirs vulns v pick := by
  have hreq : (∀ symbol ∈ v.additional_required_syms, CountsAsReachable aset o symbol) ↔
      ∀ symbol ∈ v.additional_required_syms, SomeReachable aset dirs symbol :=
    forall₂_congr fun symbol hs => hcounts symbol (List.mem_append_left _ hs)
  simp only [PassesSome, cg_filters, List.forall_mem_cons, List.not_mem_nil, false_imp_iff,
    implies_true, and_true, addressSet_passes_iff hexact, additionalFuncs_passes_iff, hreq,
    finds_perm ho]
  constructor
  · rintro ⟨w, hw, hcve, t, ht, ⟨hset, pick, hfound, m, hm, hpath⟩, hall⟩
    exact ⟨hall, pick, hfound, m, hm, w, hw, hcve, t, ht, hset, hpath⟩
  · rintro ⟨hall, pick, hfound, m, hm, w, hw, hcve, t, ht, hset, hpath⟩
    exact ⟨w, hw, hcve, t, ht, ⟨hset, pick, hfound, m, hm, hpath⟩, hall⟩

/-- **When the order of the directories makes no difference.** -/
theorem orderIndependent_iff (shortest_path : ShortestPath) (aset : Finset Nat) (cg : CallGraph)
    (S : Semver) (demangle : String → Option String) (dirs : List FunctionDirectory)
    (vulns : List VulnSpec) (hexact : cg.NetworkxExact shortest_path) :
    OrderIndependent shortest_path aset cg S demangle dirs vulns ↔
      NamesAlike aset cg S demangle dirs vulns := by
  classical
  constructor
  · rintro ⟨hsame, hcounts⟩
    refine ⟨fun v hv symbol hs => counts_iff.mp fun o ho => hcounts o ho v hv symbol hs, ?_⟩
    intro hparses v hv hreq pick pick' hpick hpick' hleads
    obtain ⟨o, ho, hfound⟩ := exists_order hpick
    obtain ⟨o', ho', hfound'⟩ := exists_order hpick'
    have hpass : PassesSome shortest_path aset cg S demangle o vulns v :=
      (passesSome_iff hexact ho (hcounts o ho v hv)).mpr ⟨hreq, pick, hfound, hleads⟩
    have hmap := hsame o o' ho ho'
    rw [classifications_eq, classifications_eq, if_pos hparses, if_pos hparses,
      Option.some.injEq, List.map_inj_left] at hmap
    have hpass' : PassesSome shortest_path aset cg S demangle o' vulns v := by
      by_contra hno
      simpa [hpass, hno] using hmap v hv
    obtain ⟨-, found, hf, hl⟩ := (passesSome_iff hexact ho' (hcounts o' ho' v hv)).mp hpass'
    exact hl.congr fun w hw => Option.some.inj ((hf w hw).symm.trans (hfound' w hw))
  · rintro ⟨hreachable, hwaypoints⟩
    have hcounts : ∀ o, o.Perm dirs → ∀ v ∈ vulns, ∀ symbol ∈ v.symbols,
        (CountsAsReachable aset o symbol ↔ SomeReachable aset dirs symbol) :=
      fun o ho v hv symbol hs => counts_iff.mpr (hreachable v hv symbol hs) o ho
    refine ⟨fun o o' ho ho' => ?_, hcounts⟩
    have hpass : (∀ v ∈ vulns, v.Parses S) → ∀ o o', o.Perm dirs → o'.Perm dirs → ∀ v ∈ vulns,
        PassesSome shortest_path aset cg S demangle o vulns v →
        PassesSome shortest_path aset cg S demangle o' vulns v := by
      intro hparses o o' ho ho' v hv h
      obtain ⟨hreq, pick, hfound, hleads⟩ := (passesSome_iff hexact ho (hcounts o ho v hv)).mp h
      obtain ⟨pick', hfound'⟩ := exists_found ho' (hfound.picks ho)
      exact (passesSome_iff hexact ho' (hcounts o' ho' v hv)).mpr ⟨hreq, pick', hfound',
        hwaypoints hparses v hv hreq _ _ (hfound.picks ho) (hfound'.picks ho') hleads⟩
    rw [classifications_eq, classifications_eq]
    by_cases hparses : ∀ v ∈ vulns, v.Parses S
    · rw [if_pos hparses, if_pos hparses, Option.some.injEq, List.map_inj_left]
      exact fun v hv => if_congr ⟨hpass hparses o o' ho ho' v hv, hpass hparses o' o ho' ho v hv⟩
        rfl rfl
    · rw [if_neg hparses, if_neg hparses]

end

/-! ## Two functions of one name -/

/-- A function directory without bill of materials. -/
def directory (addr : Nat) (function_name : String) : FunctionDirectory :=
  ⟨addr, function_name, [], [(.sym addr, function_name)], none⟩

/-- `main`, and the function `g` of `libg` that it calls. -/
def mainAndG : List FunctionDirectory :=
  [directory 1 "main", ⟨3, "g", [(3, "libg", "1.0.0")], [(.sym 3, "g")], none⟩]

/-- An entry for `g` that requires `check` to be reachable. -/
def requiresCheck : VulnSpec := ⟨"CVE-1", "libg", "<=1.0.0", "g", ["check"], []⟩

/-- Of two functions named `check` one is reachable; the verdict is that of the last. -/
theorem twoChecks_not_orderIndependent :
    ¬ OrderIndependent oneMain.shortest_path {1, 3, 5}
      (oneMain.binary.callGraph oneMain.directTable) plainSemver some
      (mainAndG ++ [directory 5 "check", directory 6 "check"]) [requiresCheck] := by
  intro h
  have hswap : (mainAndG ++ [directory 6 "check", directory 5 "check"]).Perm
      (mainAndG ++ [directory 5 "check", directory 6 "check"]) :=
    List.Perm.append_left _ (.swap _ _ _)
  have hsame := h.same _ _ (.refl _) hswap
  revert hsame
  decide +kernel

/-- With one function named `check` the order makes no difference. -/
theorem oneCheck_orderIndependent :
    OrderIndependent oneMain.shortest_path {1, 3, 5}
      (oneMain.binary.callGraph oneMain.directTable) plainSemver some
      (mainAndG ++ [directory 5 "check"]) [requiresCheck] := by
  refine (orderIndependent_iff _ _ _ _ _ _ _ oneMain.networkxExact).mpr ⟨?_, ?_⟩
  · simp [requiresCheck, VulnSpec.symbols, mainAndG, directory]
  · intro _ v hv _ pick pick' _ _ hleads
    refine hleads.congr fun w hw => ?_
    simp only [List.mem_singleton] at hv
    simp [hv, requiresCheck] at hw

end Bracelet
