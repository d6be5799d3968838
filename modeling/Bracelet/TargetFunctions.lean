import Bracelet.Dict
import Bracelet.FunctionFacts

/-!
# Finding the affected functions

`get_target_address.py`.  An entry of a vulnerability list names a package, a range of
versions and a function; `find_vulns` looks for the function, under its name or its
demangled name, on its own or inlined, in the directories whose software bill of
materials has the package at a version in the range.

Version numbers and demangling are those of `semver` and `cxxfilt`, parameters here.
What raises an exception is `none`.
-/
namespace Bracelet

/-! ## Strings -/

/-- The characters `str.strip` drops. -/
def isspace (c : Char) : Bool :=
  let n := c.toNat
  (9 ≤ n ∧ n ≤ 13) ∨ (28 ≤ n ∧ n ≤ 32) ∨ (0x2000 ≤ n ∧ n ≤ 0x200a) ∨
    n ∈ [0x85, 0xa0, 0x1680, 0x2028, 0x2029, 0x202f, 0x205f, 0x3000]

def strip (s : List Char) : List Char :=
  ((s.dropWhile isspace).reverse.dropWhile isspace).reverse

/-- `s.split("::")[-1]` -/
def last_component : List Char → List Char → List Char
  | _, ':' :: ':' :: rest => last_component [] rest
  | current, c :: rest => last_component (current ++ [c]) rest
  | current, [] => current

/-! ## Version constraints -/

/-- What is used of `semver.VersionInfo`. -/
structure Semver where
  VersionInfo : Type
  /-- `parse`, with minor and patch optional. -/
  parse : String → Option VersionInfo
  compare : VersionInfo → VersionInfo → Ordering

inductive VSpecOp
  | GEQ | LEQ | EQ | LT | GT
  deriving DecidableEq, Repr

namespace VSpecOp

def is_lower_bound (op : VSpecOp) : Bool := op == .GT || op == .GEQ

def is_upper_bound (op : VSpecOp) : Bool := op == .LEQ || op == .LT

/-- Whether the operator holds of two versions that compare so. -/
def operator : VSpecOp → Ordering → Bool
  | GEQ, o => o != .lt
  | LEQ, o => o != .gt
  | EQ, o => o == .eq
  | LT, o => o == .lt
  | GT, o => o == .gt

end VSpecOp

def parse_op : List Char → VSpecOp × List Char
  | '>' :: '=' :: rest => (.GEQ, rest)
  | '<' :: '=' :: rest => (.LEQ, rest)
  | '=' :: rest => (.EQ, rest)
  | '<' :: rest => (.LT, rest)
  | '>' :: rest => (.GT, rest)
  | constraint => (.EQ, constraint)

section
variable (S : Semver)

structure SingleConstraint where
  op : VSpecOp
  ver : S.VersionInfo

variable {S} in
def SingleConstraint.holds (c : SingleConstraint S) (other : S.VersionInfo) : Bool :=
  c.op.operator (S.compare other c.ver)

/-- `ManyConstraints` -/
abbrev VersionConstraint := List (SingleConstraint S)

variable {S} in
def version_satisfies_range (ver : S.VersionInfo) (vrange : List (VersionConstraint S)) : Bool :=
  vrange.any fun cons => cons.all fun c => c.holds ver

def parse_semver (ver : List Char) : Option S.VersionInfo :=
  let ver := if ver.head? = some 'v' then ver.tail else ver
  S.parse (String.ofList (ver.takeWhile (· ≠ '#')))

def parse_version_constraint (constraint : List Char) : Option (SingleConstraint S) :=
  let (cons_op, verstr) := parse_op constraint
  (parse_semver S verstr).map fun version => ⟨cons_op, version⟩

variable {S} in
/-- One constraint of a range: an upper bound closes the group, everything else starts
a new one. -/
def add_constraint (groups : VersionConstraint S × List (VersionConstraint S))
    (cons : SingleConstraint S) : VersionConstraint S × List (VersionConstraint S) :=
  let (curr_group, total) := groups
  if cons.op.is_upper_bound then ([], total ++ [curr_group ++ [cons]])
  else
    let total := if 0 < curr_group.length then total ++ [curr_group] else total
    if cons.op.is_lower_bound then ([cons], total) else ([], total ++ [[cons]])

def parse_purl_cons (constraint_non_stripped : String) : Option (List (VersionConstraint S)) := do
  let constraint := (strip constraint_non_stripped.toList).filter (· ≠ ' ')
  let constraints ← (constraint.splitOn '|').mapM (parse_version_constraint S)
  let (curr_group, total) := constraints.foldl add_constraint ([], [])
  return if 0 < curr_group.length then total ++ [curr_group] else total

end

/-! ## Entries and directories -/

/-- An entry of the vulnerability list. -/
structure VulnSpec where
  cve_id : String
  package_name : String
  package_version : String
  affected_function : String
  additional_required_syms : List String
  waypoint_syms : List String

/-- The files of a function directory that are read here. -/
structure FunctionDirectory where
  /-- The name of the directory, `0x…`. -/
  addr : Nat
  function_name : String
  SbomTable : List (Nat × String × String)
  DebugTable : List (Node × String)
  /-- Functions without inlined callees have no such file. -/
  InlineFunctions : Option (List (Node × String))

structure TargetFunction where
  name : String
  addr : Nat
  cve_id : String
  version_str : String
  deriving DecidableEq, Repr

/-- The pairs `build_sym_to_address` sets, in order. -/
def symbol_pairs (funcs : List FunctionDirectory) : List (String × Nat) :=
  (funcs.filter fun func => 0 < func.function_name.length).map fun func =>
    (func.function_name, func.addr)

def build_sym_to_address (funcs : List FunctionDirectory) : List (String × Nat) :=
  Dict.ofList (symbol_pairs funcs)

section
variable (S : Semver) (demangle : String → Option String)

def extract_fname (tname : String) : Option String :=
  (demangle tname).map fun dem =>
    String.ofList (last_component [] (dem.toList.takeWhile (· ≠ '(')))

/-- `target_func in [name, extract_fname(name)]` -/
def names_function (target_func name : String) : Bool :=
  target_func == name || extract_fname demangle name == some target_func

/-- The addresses of the directory with the package at a version in the range. -/
def valid_addrs (vuln : VulnSpec) (constraint : List (VersionConstraint S))
    (func : FunctionDirectory) : List (Nat × String) :=
  Dict.ofList <| func.SbomTable.filterMap fun row =>
    match parse_semver S row.2.2.toList with
    | some v =>
      if row.2.1 = vuln.package_name ∧ version_satisfies_range v constraint then
        some (row.1, row.2.2)
      else none
    | none => none

/-- What a line of the `DebugTable` adds: the function itself, and the function inlined
into it. -/
def row_targets (vuln : VulnSpec) (func : FunctionDirectory) (addrs : List (Nat × String))
    (row : Node × String) : List TargetFunction :=
  match row.1 with
  | .loc _ _ => []
  | .sym addr =>
    match Dict.get? addrs addr with
    | none => []
    | some version =>
      (if names_function demangle vuln.affected_function row.2 then
        [⟨vuln.affected_function, addr, vuln.cve_id, version⟩]
      else []) ++
      match func.InlineFunctions with
      | none => []
      | some inlined =>
        if inlined.any fun entry => names_function demangle vuln.affected_function entry.2 then
          [⟨vuln.affected_function ++ " (inlined into " ++ row.2 ++ ")", addr, vuln.cve_id, version⟩]
        else []

def targets (vuln : VulnSpec) (constraint : List (VersionConstraint S))
    (func : FunctionDirectory) : List TargetFunction :=
  func.DebugTable.flatMap (row_targets demangle vuln func (valid_addrs S vuln constraint func))

def find_vulns (funcs : List FunctionDirectory) (vulns : List VulnSpec) :
    Option (List TargetFunction) := do
  let tfuncs ← vulns.mapM fun vuln => do
    let constraint ← parse_purl_cons S vuln.package_version
    return funcs.flatMap (targets S demangle vuln constraint)
  return tfuncs.flatten

/-! ## What is found for an entry -/

/-- The range of versions of the entry is well formed. -/
def VulnSpec.Parses (vuln : VulnSpec) : Prop := (parse_purl_cons S vuln.package_version).isSome

/-- The function is found for the entry itself. -/
def VulnSpec.Finds (funcs : List FunctionDirectory) (vuln : VulnSpec) (t : TargetFunction) : Prop :=
  ∃ constraint, parse_purl_cons S vuln.package_version = some constraint ∧
    ∃ func ∈ funcs, t ∈ targets S demangle vuln constraint func

variable {S demangle}

theorem cve_id_of_finds {funcs : List FunctionDirectory} {vuln : VulnSpec} {t : TargetFunction}
    (h : vuln.Finds S demangle funcs t) : t.cve_id = vuln.cve_id := by
  obtain ⟨constraint, -, func, -, ht⟩ := h
  obtain ⟨row, -, ht⟩ := List.mem_flatMap.mp ht
  unfold row_targets at ht
  split at ht
  · cases ht
  · split at ht
    · cases ht
    · rw [List.mem_append] at ht
      rcases ht with ht | ht
      · split at ht <;> simp_all
      · split at ht
        · cases ht
        · split at ht <;> simp_all

theorem find_vulns_cons (funcs : List FunctionDirectory) (vuln : VulnSpec) (vulns : List VulnSpec) :
    find_vulns S demangle funcs (vuln :: vulns) =
      (parse_purl_cons S vuln.package_version).bind fun constraint =>
        (find_vulns S demangle funcs vulns).map
          (funcs.flatMap (targets S demangle vuln constraint) ++ ·) := by
  unfold find_vulns
  rw [List.mapM_cons]
  cases parse_purl_cons S vuln.package_version with
  | none => rfl
  | some constraint =>
    simp only [Option.bind_eq_bind, Option.bind_some, Option.pure_def, Option.bind_assoc,
      List.flatten_cons, Option.map_eq_bind, Function.comp_def]

/-- **`find_vulns` finds, for every entry, its functions**, unless a range of versions
does not parse. -/
theorem find_vulns_eq_some {funcs : List FunctionDirectory} {vulns : List VulnSpec} :
    (∃ tfuncs, find_vulns S demangle funcs vulns = some tfuncs) ↔ ∀ v ∈ vulns, v.Parses S := by
  induction vulns with
  | nil => simp [find_vulns]
  | cons vuln vulns ih =>
    rw [find_vulns_cons, List.forall_mem_cons, ← ih, VulnSpec.Parses]
    cases parse_purl_cons S vuln.package_version <;> simp

theorem mem_find_vulns {funcs : List FunctionDirectory} {vulns : List VulnSpec}
    {tfuncs : List TargetFunction} (h : find_vulns S demangle funcs vulns = some tfuncs)
    (t : TargetFunction) : t ∈ tfuncs ↔ ∃ v ∈ vulns, v.Finds S demangle funcs t := by
  induction vulns generalizing tfuncs with
  | nil =>
    obtain rfl : tfuncs = [] := by simpa [find_vulns] using h.symm
    simp
  | cons vuln vulns ih =>
    rw [find_vulns_cons] at h
    obtain ⟨constraint, hc, h⟩ := Option.bind_eq_some_iff.mp h
    obtain ⟨rest, hrest, rfl⟩ := Option.map_eq_some_iff.mp h
    have hown : t ∈ funcs.flatMap (targets S demangle vuln constraint) ↔
        vuln.Finds S demangle funcs t := by
      simp [VulnSpec.Finds, hc, List.mem_flatMap]
    rw [List.mem_append, hown, ih hrest]
    simp

end
end Bracelet
