import Bracelet.DepthFirst

/-!
# The order of the declarations

`visit_all_types` goes through the types of `runtime_format.py` and everything they depend on, and
`generate` declares them in the order of its callbacks.  A struct depends on the types of its
fields, which it contains by value; a pointer depends on what it points to, which it does not.  The
search does not tell the two apart, so a type that it comes back to through a pointer is declared
too late: it is in order exactly where no type lies on the first path to one that contains it
(`visit_all_types_iff`).
-/
namespace Bracelet.TypeDeclarations

open DepthFirst

/-- A type.  A struct is named; its fields are those of its class. -/
inductive Ty where
  | int (bits : Nat) (signed : Bool)
  | enum (name : String) (underlying_int : Nat)
  | array (of : Ty) (count : Nat)
  | struct (name : String)
  | pointer (of : Ty) (const : Bool)
  | void_pointer (const : Bool)
  | atomic (of : Ty)
  deriving DecidableEq, Repr

structure RuntimeFunction where
  args : List Ty
  return_type : Option Ty

section
variable (fields : String → List Ty)

def type_dependencies : Ty → List Ty
  | .int _ _ => []
  | .enum _ bits => [.int bits false]
  | .array of _ => [of]
  | .struct name => fields name
  | .pointer of _ => [of]
  | .void_pointer _ => []
  | .atomic of => [of]

/-- What a struct, an array or an atomic type contains. -/
def by_value : Ty → List Ty
  | .array of _ => [of]
  | .struct name => fields name
  | .atomic of => [of]
  | _ => []

theorem by_value_subset (ty : Ty) : by_value fields ty ⊆ type_dependencies fields ty := by
  cases ty <;> simp [by_value, type_dependencies]

end

/-- **A finite set of types** that contains what it depends on, and those that are asked for. -/
structure Types where
  fields : String → List Ty
  types : Finset Ty
  ALL_STRUCTS : List String
  RUNTIME_FUNCTIONS : List RuntimeFunction
  closed : ∀ ty ∈ types, ∀ child ∈ type_dependencies fields ty, child ∈ types
  structs : ∀ name ∈ ALL_STRUCTS, Ty.struct name ∈ types
  functions : ∀ f ∈ RUNTIME_FUNCTIONS, ∀ ty ∈ f.return_type.toList ++ f.args, ty ∈ types

namespace Types
variable (T : Types)

/-- The types that `visit_all_types` starts from. -/
def roots : List Ty :=
  T.ALL_STRUCTS.map Ty.struct ++
    T.RUNTIME_FUNCTIONS.flatMap fun f => f.return_type.toList ++ f.args

theorem mem_types_of_mem_roots : ∀ ty ∈ T.roots, ty ∈ T.types := by
  intro ty h
  rcases List.mem_append.mp h with h | h
  · obtain ⟨name, hname, rfl⟩ := List.mem_map.mp h
    exact T.structs name hname
  · obtain ⟨f, hf, hty⟩ := List.mem_flatMap.mp h
    exact T.functions f hf ty hty

/-- The types in the order of the callbacks.  No path has more types than there are. -/
def visit_all_types : Option (List Ty) :=
  search (type_dependencies T.fields) (T.types.card + 1) T.roots

/-- A type that is asked for or that such a type depends on. -/
def Reachable (ty : Ty) : Prop :=
  ∃ root ∈ T.roots,
    Relation.ReflTransGen (fun ty child => child ∈ type_dependencies T.fields ty) root ty

/-- The first path on which the search comes to a type. -/
abbrev FirstPath (ty : Ty) (path : List Ty) : Prop :=
  DepthFirst.FirstPath (type_dependencies T.fields) [] T.roots ty path

/-- **The order compiles**: every type is declared once, after the types that it contains. -/
structure Compiles (called : List Ty) : Prop where
  nodup : called.Nodup
  mem_iff : ∀ ty, ty ∈ called ↔ T.Reachable ty
  complete : ∀ ty ∈ called, ∀ part ∈ by_value T.fields ty, Before called part ty

/-- The callbacks are made, once for every type, whatever contains what. -/
theorem visit_all_types_spec : ∃ called, T.visit_all_types = some called ∧ called.Nodup ∧
    (∀ ty, ty ∈ called ↔ T.Reachable ty) ∧
    ∀ ty ∈ called, ∃ path, T.FirstPath ty path ∧
      ∀ part ∈ by_value T.fields ty, Before called part ty ↔ part ∉ path := by
  obtain ⟨called, hsearch, hnodup, hmem, hfirst⟩ := search_spec T.closed T.mem_types_of_mem_roots
  refine ⟨called, hsearch, hnodup, hmem, fun ty hty => ?_⟩
  obtain ⟨path, hpath, hbefore⟩ := hfirst ty hty
  exact ⟨path, hpath, fun part hpart => hbefore part (by_value_subset T.fields ty hpart)⟩

end Types

/-- **When the declarations come in a compilable order.**  The callbacks are made once for every
type, and after those of the types that it contains by value, if and only if no type lies on the
first path to a type that contains it. -/
theorem visit_all_types_iff (T : Types) :
    (∃ called, T.visit_all_types = some called ∧ T.Compiles called) ↔
      ∀ ty path, T.FirstPath ty path → ∀ part ∈ by_value T.fields ty, part ∉ path := by
  obtain ⟨called, hvisit, hnodup, hmem, hfirst⟩ := T.visit_all_types_spec
  constructor
  · rintro ⟨called', hvisit', hcompiles⟩ ty path hpath part hpart
    obtain rfl : called = called' := Option.some_inj.mp (hvisit.symm.trans hvisit')
    obtain ⟨root, hroot, -, hreach⟩ := hpath.exists_reaches
    have hty : ty ∈ called := (hmem ty).mpr
      ⟨root, hroot, Relation.ReflTransGen.mono (fun _ _ h => h.1) _ _ hreach⟩
    obtain ⟨path', hpath', hbefore⟩ := hfirst ty hty
    rw [hpath.unique hpath']
    exact (hbefore part hpart).mp (hcompiles.complete ty hty part hpart)
  · intro h
    refine ⟨called, hvisit, hnodup, hmem, fun ty hty part hpart => ?_⟩
    obtain ⟨path, hpath, hbefore⟩ := hfirst ty hty
    exact (hbefore part hpart).mpr (h ty path hpath part hpart)

/-! ## A type behind a pointer -/

/-- `A` has a pointer to `B`, which contains an `A`. -/
def linked : Types where
  fields name := if name = "A" then [.pointer (.struct "B") false] else
    if name = "B" then [.struct "A"] else []
  types := {.struct "A", .pointer (.struct "B") false, .struct "B"}
  ALL_STRUCTS := ["A", "B"]
  RUNTIME_FUNCTIONS := []
  closed := by decide
  structs := by decide
  functions := by decide

/-- `B` is declared before the `A` that it contains, though nothing contains itself. -/
theorem member_declared_late :
    linked.visit_all_types =
      some [.struct "B", .pointer (.struct "B") false, .struct "A"] ∧
    .struct "A" ∈ by_value linked.fields (.struct "B") ∧
    (∃ rank : Ty → Nat, ∀ ty ∈ linked.types, ∀ part ∈ by_value linked.fields ty,
      rank part < rank ty) ∧
    ¬ ∃ called, linked.visit_all_types = some called ∧ linked.Compiles called := by
  have hvisit : linked.visit_all_types =
      some [.struct "B", .pointer (.struct "B") false, .struct "A"] := by
    decide
  have hpart : .struct "A" ∈ by_value linked.fields (.struct "B") := by decide
  refine ⟨hvisit, hpart, ⟨fun ty => if ty = .struct "B" then 2 else if ty = .struct "A" then 1 else 0,
    by decide⟩, ?_⟩
  rintro ⟨called, hvisit', hcompiles⟩
  rw [hvisit] at hvisit'
  obtain rfl := Option.some_inj.mp hvisit'
  obtain ⟨before, after, heq, hmem⟩ := hcompiles.complete _ (by decide) _ hpart
  have hfirst := @before_unique _ _ [] _ before after _ hcompiles.nodup heq
  rw [← hfirst] at hmem
  exact List.not_mem_nil hmem

end Bracelet.TypeDeclarations
