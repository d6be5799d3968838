import Bracelet.EdgeOutput
import Mathlib.Data.List.TakeWhile

/-!
# Files of a function from many compilation units

After the tables of the edges, `bracelet-edges` visits the compilation units of the object, once
for the labels of their call sites and once for what is inlined in them.  A unit hands over a
multimap by the addresses of functions, and the entries of a function that has a directory go to a
file there: `FastNodeInstructions` or `InlineFunctions`.  The file is opened anew for each unit,
which drops what the units before have written, so a file holds the entries of the last unit that
knows its function (`UnitOutput.union_iff_last`).

A file is the list of its lines.
-/
namespace Bracelet.Edges.UnitFiles

/-! ## Multimaps -/

/-- The keys at which a loop stops that goes from one to its `upper_bound`. -/
def keysOf {α : Type} : List (Address × α) → List Address
  | [] => []
  | (key, _) :: rest => key :: keysOf (rest.dropWhile fun e => e.1 ≤ key)
termination_by entries => entries.length
decreasing_by exact Nat.lt_succ_of_le (List.dropWhile_sublist _).length_le

/-- `std::multimap` by address. -/
structure Multimap (α : Type) where
  entries : List (Address × α)
  sorted : entries.Pairwise fun e e' => e.1 ≤ e'.1

namespace Multimap
variable {α : Type} (m : Multimap α)

def keys : List Address := keysOf m.entries

def equal_range (key : Address) : List α := (m.entries.filter (·.1 == key)).map Prod.snd

variable {m}

theorem mem_equal_range {key : Address} {a : α} : a ∈ m.equal_range key ↔ (key, a) ∈ m.entries := by
  simp only [equal_range, List.mem_map, List.mem_filter, beq_iff_eq]
  constructor
  · rintro ⟨⟨_, _⟩, ⟨he, rfl⟩, rfl⟩
    exact he
  · intro he
    exact ⟨(key, a), ⟨he, rfl⟩, rfl⟩

end Multimap

/-- The loop stops at every key. -/
theorem mem_keysOf {α : Type} {entries : List (Address × α)}
    (hsorted : entries.Pairwise fun e e' => e.1 ≤ e'.1) {key : Address} :
    key ∈ keysOf entries ↔ ∃ a, (key, a) ∈ entries := by
  induction entries using keysOf.induct with
  | case1 => simp [keysOf]
  | case2 first a rest ih =>
    obtain ⟨hfirst, hrest⟩ := List.pairwise_cons.mp hsorted
    rw [keysOf, List.mem_cons, ih (hrest.sublist (List.dropWhile_sublist _))]
    constructor
    · rintro (rfl | ⟨b, hb⟩)
      · exact ⟨a, List.mem_cons_self⟩
      · exact ⟨b, List.mem_cons_of_mem _ ((List.dropWhile_sublist _).subset hb)⟩
    · rintro ⟨b, hb⟩
      rcases List.mem_cons.mp hb with heq | hb
      · exact Or.inl (Prod.mk.inj heq).1
      -- What the loop passes over has the key it has just seen.
      let passed : Address × α → Bool := fun e => e.1 ≤ first
      rw [← @List.takeWhile_append_dropWhile _ passed rest, List.mem_append] at hb
      rcases hb with hb | hb
      · have hle := List.mem_takeWhile_imp hb
        have hge := hfirst _ ((List.takeWhile_sublist _).subset hb)
        exact Or.inl (UInt64.le_antisymm (of_decide_eq_true hle) hge)
      · exact Or.inr ⟨b, hb⟩

theorem Multimap.mem_keys {α : Type} {m : Multimap α} {key : Address} :
    key ∈ m.keys ↔ ∃ a, a ∈ m.equal_range key := by
  simp only [Multimap.mem_equal_range]
  exact mem_keysOf m.sorted

/-! ## Writing the files -/

abbrev Line := Bytes

/-- The files of one name, by the address of the function, where there is one. -/
abbrev Files := Address → Option (List Line)

/-- The lines of a file. -/
def contents (files : Files) (symbol : Address) : List Line := (files symbol).getD []

/-- A kind of files: the functions with a directory, and the line of an entry. -/
structure UnitOutput (α : Type) where
  hasDirectory : Address → Bool
  line : α → Result Line

namespace UnitOutput
variable {α : Type} (out : UnitOutput α)

/-- The file of a function is opened, so that it is empty, and gets the entries of the unit. -/
def visitKey (m : Multimap α) (files : Files) (symbol : Address) : Result Files :=
  if out.hasDirectory symbol then do
    let lines ← (m.equal_range symbol).mapM out.line
    return Function.update files symbol (some lines)
  else return files

/-- The callback for a unit. -/
def visitUnit (files : Files) (m : Multimap α) : Result Files :=
  m.keys.foldlM (out.visitKey m) files

/-- The files after all units. -/
def visitUnits (units : List (Multimap α)) : Result Files :=
  units.foldlM out.visitUnit fun _ => none

end UnitOutput

/-! ## The two kinds of files -/

structure CallsiteEdge where
  callsiteAddr : Address
  nodeID : Node
  deriving DecidableEq, Repr

structure InlineEdge where
  inlinerID : Node
  inlinedName : Bytes
  deriving DecidableEq, Repr

def hexPadded (width n : Nat) : Bytes :=
  let digits := Nat.toDigits 16 n
  ascii "0x" ++ ascii (String.ofList (List.replicate (width - digits.length) '0' ++ digits))

def format_hex (num : UInt64) : Bytes := hexPadded 16 num.toNat

def printNodePure (N : Node) : Bytes :=
  match N.local_idx with
  | some Local => format_hex N.symbol ++ ascii ":" ++ hexPadded 4 Local.toNat
  | none => format_hex N.symbol

/-- What the units are printed with: `fi` is the function that was visited last. -/
structure NodePrinter where
  PrettyEdges : Bool
  env : EdgeOutput
  fi : FunctionInfo

def NodePrinter.printNode (p : NodePrinter) (N : Node) : Result Bytes :=
  if p.PrettyEdges then printDebugNode p.env p.fi N else .ok (printNodePure N)

section
variable (hasDirectory : Address → Bool) (eov : NodePrinter)

def FastNodeInstructions : UnitOutput CallsiteEdge where
  hasDirectory
  line edge := do
    let node ← eov.printNode edge.nodeID
    return format_hex edge.callsiteAddr ++ ascii "\t" ++ node

def InlineFunctions : UnitOutput InlineEdge where
  hasDirectory
  line edge := do
    let node ← eov.printNode edge.inlinerID
    return node ++ ascii "\t" ++ edge.inlinedName

/-- The end of `mainResult`: the files `FastNodeInstructions` and those `InlineFunctions`. -/
def visitCompileUnits (callsites : List (Multimap CallsiteEdge))
    (inline_edges : List (Multimap InlineEdge)) : Result (Files × Files) := do
  let fast ← (FastNodeInstructions hasDirectory eov).visitUnits callsites
  let inlined ← (InlineFunctions hasDirectory eov).visitUnits inline_edges
  return (fast, inlined)

end

/-! ## What the files hold -/

/-- The text is the line of an entry of the unit for the function. -/
def UnitOutput.Wrote {α : Type} (out : UnitOutput α) (m : Multimap α) (symbol : Address)
    (text : Line) : Prop :=
  ∃ a ∈ m.equal_range symbol, out.line a = .ok text

/-- **The files of functions with a directory hold the entries of all units**, and no others. -/
def UnitOutput.HoldsUnion {α : Type} (out : UnitOutput α) (units : List (Multimap α))
    (files : Files) : Prop :=
  ∀ symbol, out.hasDirectory symbol = true → ∀ text,
    text ∈ contents files symbol ↔ ∃ m ∈ units, out.Wrote m symbol text

/-- Every entry that is written can be printed. -/
def UnitOutput.Printable {α : Type} (out : UnitOutput α) (units : List (Multimap α)) : Prop :=
  ∀ m ∈ units, ∀ symbol, out.hasDirectory symbol = true → ∀ a ∈ m.equal_range symbol,
    ∃ text, out.line a = .ok text

/-- Units that know a function have the same lines for it. -/
def UnitOutput.Agree {α : Type} (out : UnitOutput α) (units : List (Multimap α)) : Prop :=
  ∀ symbol, out.hasDirectory symbol = true → ∀ m ∈ units, ∀ m' ∈ units, symbol ∈ m.keys →
    ∀ text, out.Wrote m' symbol text → out.Wrote m symbol text

namespace UnitOutput
variable {α : Type} {out : UnitOutput α} {m : Multimap α} {files files' : Files} {symbol : Address}

/-- The file of a function holds the entries of the unit. -/
def Filled (out : UnitOutput α) (m : Multimap α) (symbol : Address) (file : Option (List Line)) :
    Prop :=
  ∃ lines, (m.equal_range symbol).mapM out.line = .ok lines ∧ file = some lines

theorem visitKey_filled (h : out.visitKey m files symbol = .ok files')
    (hdir : out.hasDirectory symbol = true) : out.Filled m symbol (files' symbol) := by
  unfold visitKey at h
  rw [if_pos hdir] at h
  obtain ⟨lines, hlines, h⟩ := bind_ok h
  obtain rfl := Except.ok.inj h
  exact ⟨lines, hlines, Function.update_self ..⟩

theorem visitKey_frame (h : out.visitKey m files symbol = .ok files') {other : Address}
    (hne : other ≠ symbol) : files' other = files other := by
  unfold visitKey at h
  split at h
  · obtain ⟨lines, -, h⟩ := bind_ok h
    obtain rfl := Except.ok.inj h
    exact Function.update_of_ne hne ..
  · rw [Except.ok.inj h]

theorem visitKeys_spec {keys : List Address} (h : keys.foldlM (out.visitKey m) files = .ok files')
    (hdir : out.hasDirectory symbol = true) :
    if symbol ∈ keys then out.Filled m symbol (files' symbol) else files' symbol = files symbol := by
  induction keys generalizing files with
  | nil => exact congrFun (Except.ok.inj h).symm symbol
  | cons key keys ih =>
    rw [List.foldlM_cons] at h
    obtain ⟨files₁, h₁, h⟩ := bind_ok h
    have htail := ih h
    by_cases hmem : symbol ∈ keys
    · rw [if_pos hmem] at htail
      rw [if_pos (List.mem_cons_of_mem _ hmem)]
      exact htail
    · rw [if_neg hmem] at htail
      by_cases hkey : symbol = key
      · subst hkey
        rw [if_pos List.mem_cons_self, htail]
        exact visitKey_filled h₁ hdir
      · rw [if_neg (by simp [hkey, hmem]), htail]
        exact visitKey_frame h₁ hkey

/-- A unit gives the file of each function that it knows its entries. -/
theorem visitUnit_spec (h : out.visitUnit files m = .ok files')
    (hdir : out.hasDirectory symbol = true) :
    if symbol ∈ m.keys then out.Filled m symbol (files' symbol)
    else files' symbol = files symbol :=
  visitKeys_spec h hdir

theorem visitKeys_isOk_iff {keys : List Address} :
    (∃ files', keys.foldlM (out.visitKey m) files = .ok files') ↔
      ∀ key ∈ keys, out.hasDirectory key = true →
        ∀ a ∈ m.equal_range key, ∃ text, out.line a = .ok text := by
  induction keys generalizing files with
  | nil => simp [pure, Except.pure]
  | cons key keys ih =>
    have hkey : (∃ files₁, out.visitKey m files key = .ok files₁) ↔
        (out.hasDirectory key = true → ∀ a ∈ m.equal_range key, ∃ text, out.line a = .ok text) := by
      rw [← mapM_isOk_iff, visitKey]
      split_ifs with hdir
      · constructor
        · rintro ⟨files₁, h⟩ -
          obtain ⟨lines, hlines, -⟩ := bind_ok h
          exact ⟨lines, hlines⟩
        · intro h
          obtain ⟨lines, hlines⟩ := h hdir
          exact ⟨_, by rw [hlines]; rfl⟩
      · exact ⟨fun _ h => absurd h hdir, fun _ => ⟨files, rfl⟩⟩
    rw [List.forall_mem_cons, ← hkey, List.foldlM_cons]
    constructor
    · rintro ⟨files', h⟩
      obtain ⟨files₁, h₁, h⟩ := bind_ok h
      exact ⟨⟨files₁, h₁⟩, ih.mp ⟨files', h⟩⟩
    · rintro ⟨⟨files₁, h₁⟩, h⟩
      rw [h₁]
      exact ih.mpr h

/-- The units are written if every entry can be printed. -/
theorem visitUnits_isOk_iff (units : List (Multimap α)) :
    (∃ files, out.visitUnits units = .ok files) ↔ out.Printable units := by
  suffices h : ∀ start, (∃ files, units.foldlM out.visitUnit start = .ok files) ↔
      out.Printable units from h _
  induction units with
  | nil => simp [Printable, pure, Except.pure]
  | cons m units ih =>
    intro start
    have hunit : (∃ files₁, out.visitUnit start m = .ok files₁) ↔ ∀ symbol,
        out.hasDirectory symbol = true → ∀ a ∈ m.equal_range symbol, ∃ text, out.line a = .ok text := by
      rw [visitUnit, visitKeys_isOk_iff]
      exact ⟨fun h symbol hdir a ha => h symbol (Multimap.mem_keys.mpr ⟨a, ha⟩) hdir a ha,
        fun h symbol _ => h symbol⟩
    rw [Printable, List.forall_mem_cons, ← hunit, List.foldlM_cons]
    constructor
    · rintro ⟨files, h⟩
      obtain ⟨files₁, h₁, h⟩ := bind_ok h
      exact ⟨⟨files₁, h₁⟩, (ih files₁).mp ⟨files, h⟩⟩
    · rintro ⟨⟨files₁, h₁⟩, h⟩
      rw [h₁]
      exact (ih files₁).mpr h

/-! ## The last unit -/

/-- The last unit that knows the function. -/
def lastUnit (units : List (Multimap α)) (symbol : Address) : Option (Multimap α) :=
  (units.filter fun m => symbol ∈ m.keys).getLast?

theorem lastUnit_append_singleton (units : List (Multimap α)) (m : Multimap α) (symbol : Address) :
    lastUnit (units ++ [m]) symbol = if symbol ∈ m.keys then some m else lastUnit units symbol := by
  unfold lastUnit
  split_ifs with hm <;> simp [List.filter_append, hm]

theorem lastUnit_mem {units : List (Multimap α)} (h : lastUnit units symbol = some m) :
    m ∈ units ∧ symbol ∈ m.keys := by
  have hmem := List.mem_of_getLast? h
  rw [List.mem_filter, decide_eq_true_iff] at hmem
  exact hmem

theorem lastUnit_eq_none {units : List (Multimap α)} (h : lastUnit units symbol = none) :
    ∀ m ∈ units, symbol ∉ m.keys := by
  rw [lastUnit, List.getLast?_eq_none_iff, List.filter_eq_nil_iff] at h
  intro m hm
  simpa using h m hm

/-- **A file holds the entries of the last unit that knows its function.** -/
theorem visitUnits_last {units : List (Multimap α)} (h : out.visitUnits units = .ok files)
    (hdir : out.hasDirectory symbol = true) :
    match lastUnit units symbol with
    | some m => out.Filled m symbol (files symbol)
    | none => files symbol = none := by
  induction units using List.reverseRecOn generalizing files with
  | nil => exact congrFun (Except.ok.inj h).symm symbol
  | append_singleton units m ih =>
    rw [visitUnits, List.foldlM_append] at h
    obtain ⟨files₁, h₁, h⟩ := bind_ok h
    rw [List.foldlM_cons] at h
    obtain ⟨files₂, h₂, h⟩ := bind_ok h
    obtain rfl := Except.ok.inj h
    have hunit := visitUnit_spec h₂ hdir
    rw [lastUnit_append_singleton]
    by_cases hm : symbol ∈ m.keys
    · rw [if_pos hm] at hunit ⊢
      exact hunit
    · rw [if_neg hm] at hunit ⊢
      rw [hunit]
      exact ih h₁

theorem Wrote.mem_keys {text : Line} (h : out.Wrote m symbol text) : symbol ∈ m.keys := by
  obtain ⟨a, ha, -⟩ := h
  exact Multimap.mem_keys.mpr ⟨a, ha⟩

theorem Filled.mem_iff {file : Option (List Line)} (h : out.Filled m symbol file) {text : Line} :
    text ∈ file.getD [] ↔ out.Wrote m symbol text := by
  obtain ⟨lines, hlines, rfl⟩ := h
  exact mem_of_mapM hlines

/-- A sequence of units leaves the entries of all of them in the files if and only if the last
unit that knows a function has the entries of all. -/
theorem union_iff_last {units : List (Multimap α)} (h : out.visitUnits units = .ok files) :
    out.HoldsUnion units files ↔ ∀ symbol, out.hasDirectory symbol = true →
      ∀ m, lastUnit units symbol = some m → ∀ m' ∈ units, ∀ text,
        out.Wrote m' symbol text → out.Wrote m symbol text := by
  refine forall₂_congr fun symbol hdir => ?_
  have hlast := visitUnits_last h hdir
  cases hm : lastUnit units symbol with
  | none =>
    rw [hm] at hlast
    refine iff_of_true (fun text => ?_) (fun m h => nomatch h)
    rw [contents, hlast]
    refine iff_of_false (List.not_mem_nil (a := text)) ?_
    rintro ⟨m, hmem, hwrote⟩
    exact lastUnit_eq_none hm m hmem hwrote.mem_keys
  | some m =>
    rw [hm] at hlast
    have hmem := (lastUnit_mem hm).1
    simp only [contents, hlast.mem_iff, Option.some.injEq, forall_eq']
    constructor
    · intro h m' hm' text hwrote
      exact (h text).mpr ⟨m', hm', hwrote⟩
    · intro h text
      exact ⟨fun hwrote => ⟨m, hmem, hwrote⟩, fun ⟨m', hm', hwrote⟩ => h m' hm' text hwrote⟩

/-- For every order of the units. -/
theorem union_iff_agree (units : List (Multimap α)) :
    (∀ units', units.Perm units' →
      ∃ files, out.visitUnits units' = .ok files ∧ out.HoldsUnion units files) ↔
      out.Printable units ∧ out.Agree units := by
  have hunion : ∀ {units' files}, units.Perm units' →
      (out.HoldsUnion units files ↔ out.HoldsUnion units' files) := by
    intro units' files hperm
    simp only [HoldsUnion, hperm.mem_iff]
  constructor
  · intro h
    obtain ⟨files, hfiles, -⟩ := h units (List.Perm.refl _)
    refine ⟨(visitUnits_isOk_iff units).mp ⟨files, hfiles⟩, ?_⟩
    intro symbol hdir m hm m' hm' hkey text hwrote
    -- In an order that ends with the unit, it is the last one that knows the function.
    obtain ⟨before, after, rfl⟩ := List.append_of_mem hm
    have hperm : (before ++ m :: after).Perm (before ++ after ++ [m]) := by
      refine List.perm_middle.trans ?_
      exact (List.perm_append_singleton m _).symm
    obtain ⟨files', hfiles', h'⟩ := h _ hperm
    have hlast := (union_iff_last hfiles').mp ((hunion hperm).mp h') symbol hdir m
    rw [lastUnit_append_singleton, if_pos hkey] at hlast
    exact hlast rfl m' (hperm.mem_iff.mp hm') text hwrote
  · rintro ⟨hprint, hagree⟩ units' hperm
    have hprint' : out.Printable units' := fun m hm => hprint m (hperm.mem_iff.mpr hm)
    obtain ⟨files, hfiles⟩ := (visitUnits_isOk_iff units').mpr hprint'
    refine ⟨files, hfiles, (hunion hperm).mpr ((union_iff_last hfiles).mpr ?_)⟩
    intro symbol hdir m hm m' hm' text hwrote
    obtain ⟨hmem, hkey⟩ := lastUnit_mem hm
    exact hagree symbol hdir m (hperm.mem_iff.mpr hmem) m' (hperm.mem_iff.mpr hm') hkey text hwrote

end UnitOutput

/-! ## The files of both kinds -/

section
variable (hasDirectory : Address → Bool) (eov : NodePrinter)

/-- As addresses, nodes can always be printed. -/
theorem printable_of_addresses (h : eov.PrettyEdges = false) (callsites : List (Multimap CallsiteEdge))
    (inline_edges : List (Multimap InlineEdge)) :
    (FastNodeInstructions hasDirectory eov).Printable callsites ∧
      (InlineFunctions hasDirectory eov).Printable inline_edges := by
  have hnode : ∀ N, eov.printNode N = .ok (printNodePure N) := by
    intro N
    simp [NodePrinter.printNode, h]
  constructor
  · intro m _ symbol _ edge _
    exact ⟨_, by simp only [FastNodeInstructions, hnode]; rfl⟩
  · intro m _ symbol _ edge _
    exact ⟨_, by simp only [InlineFunctions, hnode]; rfl⟩

end

/-! ## A function in two units -/

def Multimap.single {α : Type} (key : Address) (a : α) : Multimap α :=
  ⟨[(key, a)], List.pairwise_singleton ..⟩

@[simp] theorem Multimap.keys_single {α : Type} (key : Address) (a : α) :
    (Multimap.single key a).keys = [key] := by
  simp [Multimap.keys, Multimap.single, keysOf]

/-- The `n`th call site of the function at `0x1000`, in a unit of its own. -/
def callsiteUnit (n : UInt64) : Multimap CallsiteEdge :=
  .single 0x1000 ⟨0x1010 + n, Node.ofLocal 0x1000 n⟩

def addressPrinter : NodePrinter where
  PrettyEdges := false
  env := ⟨⟨false, 8, [], fun _ _ => .ok [], fun _ _ => .ok []⟩, fun _ => .ok [], none, false⟩
  fi := ⟨Node.ofSymbol 0x1000, 0, 2, ⟨[], none, []⟩, none, fun _ => [], []⟩

end Bracelet.Edges.UnitFiles
