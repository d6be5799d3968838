import Bracelet.VisitorEdges

/-!
# The constructor of the visitor

Before a function is visited, its `alloca`s get the first locals, a variadic function gets
the locals that model its list of arguments, and every argument is defined.  Nothing of
this can fail.
-/
namespace Bracelet.Reachability
open Edges (Bytes EdgeKind End Op edges)

namespace EdgeVisitor

section
variable {GV : Type} {M : Module GV} {F : Function GV}

/-! ## The first pass -/

/-- After the pass over some of the instructions, only `alloca`s have locals. -/
structure Allocated (before : List (Instruction GV)) (v : EdgeVisitor GV) : Prop where
  numbered : v.Numbered
  length : v.Locals.length = v.FW.num_locals
  keys : ∀ V i, Dict.get? v.Locals V = some i → ∃ I ∈ before, V = .Instruction I.id
  VarArgs : v.VarArgs = none
  edges : ∀ kind, edges v.FW.ops kind = []

theorem allocated_step {before : List (Instruction GV)} {v : EdgeVisitor GV}
    (hv : Allocated before v) {I : Instruction GV} (hI : I.id ∉ before.map Instruction.id) :
    ∃ v', v.preprocessVisitAllocaInst I = .ok v' ∧ Allocated (before ++ [I]) v' := by
  have hkeys : ∀ V i, Dict.get? v.Locals V = some i →
      ∃ J ∈ before ++ [I], V = .Instruction J.id := fun V i hi => by
    obtain ⟨J, hJ, rfl⟩ := hv.keys V i hi
    exact ⟨J, List.mem_append_left _ hJ, rfl⟩
  have hget : Dict.get? v.Locals (.Instruction I.id) = none := by
    by_contra hsome
    obtain ⟨i, hi⟩ := Option.ne_none_iff_exists'.mp hsome
    obtain ⟨J, hJ, hid⟩ := hv.keys _ i hi
    exact hI (LocalValue.Instruction.inj hid ▸ List.mem_map_of_mem hJ)
  unfold preprocessVisitAllocaInst
  split
  · refine ⟨v.withLocal (.Instruction I.id) (Edges.ascii "ALLOCA_" ++ I.name), ?_, ?_, ?_, ?_,
      hv.VarArgs, ?_⟩
    · simp [freshLocal, Writer.freshLocal, hv.length, withLocal]
    · exact (extends_withLocal hget _ : v.Extends ∅ _).numbered hv.numbered
    · rw [withLocal, Dict.set_of_get?_none hget, List.length_append, hv.length]
      rfl
    · intro V i hi
      rw [withLocal, Dict.get?_set] at hi
      split at hi
      next h => exact ⟨I, by simp, h.symm⟩
      next => exact hkeys V i hi
    · intro kind
      have hsame := (extends_withLocal hget (Edges.ascii "ALLOCA_" ++ I.name) : v.Extends ∅ _).FW.edges
        kind (Set.notMem_empty kind)
      rw [hsame, hv.edges]
  · exact ⟨v, rfl, hv.numbered, hv.length, hkeys, hv.VarArgs, hv.edges⟩

theorem allocated_fold (before after : List (Instruction GV)) {v : EdgeVisitor GV}
    (hv : Allocated before v) (hids : ((before ++ after).map Instruction.id).Nodup) :
    ∃ v', after.foldlM preprocessVisitAllocaInst v = .ok v' ∧ Allocated (before ++ after) v' := by
  induction after generalizing before v with
  | nil => exact ⟨v, rfl, by simpa using hv⟩
  | cons I after ih =>
    have hI : I.id ∉ before.map Instruction.id := by
      intro hmem
      rw [List.map_append, List.nodup_append] at hids
      exact hids.2.2 _ hmem _ (by simp) rfl
    obtain ⟨v₁, hstep, hv₁⟩ := allocated_step hv hI
    obtain ⟨v', hrest, hv'⟩ := ih (before ++ [I]) hv₁ (by simpa using hids)
    refine ⟨v', ?_, by simpa using hv'⟩
    rw [List.foldlM_cons, hstep]
    exact hrest

/-! ## Arguments -/

/-- The slots that the definitions of arguments have. -/
def definitions (v : EdgeVisitor GV) : List UInt32 :=
  (edges v.FW.ops .ArgumentDefinition).map fun e => e.2.2

theorem defineVarArgs_spec {v : EdgeVisitor GV} (hv : v.Numbered) : ∃ v',
    v.defineVarArgs F = .ok v' ∧ v'.Numbered ∧ v'.VarArgs.isSome = true ∧
      v'.definitions = v.definitions ++ [UInt32.ofNat F.args.length] ∧
      ∀ kind ∉ ({.ArgumentDefinition, .Store} : Set EdgeKind),
        edges v'.FW.ops kind = edges v.FW.ops kind := by
  refine ⟨_, rfl, ⟨fun V i hi => ?_, hv.injective⟩, rfl, ?_, fun kind hkind => ?_⟩
  · exact (hv.lt V i hi).trans (by show v.FW.num_locals < v.FW.num_locals + 1 + 1 + 1; omega)
  · simp [definitions, edges]
  · simp only [Set.mem_insert_iff, Set.mem_singleton_iff, not_or] at hkind
    simp [edges, Ne.symm hkind.1, Ne.symm hkind.2]

theorem defineArgument_spec (v : EdgeVisitor GV) (no : Nat) : ∃ v',
    v.defineArgument M F no = .ok v' ∧ v.Extends {.Assign, .ArgumentDefinition} v' ∧
      v'.definitions = v.definitions ++ [UInt32.ofNat no] := by
  obtain ⟨n, v₁, hn, hext₁, -⟩ := v.node_some (M := M) (F := F) (.Local (.Argument no)) (shape_local _)
  have hext₂ : v₁.Extends {.ArgumentDefinition} _ :=
    v₁.extends_addEdge (Set.mem_singleton _) n (.sym F.symbol) (UInt32.ofNat no)
  refine ⟨_, ?_, (hext₁.mono (by simp)).trans (hext₂.mono (by simp)), ?_⟩
  · unfold defineArgument
    rw [hn, ok_bind]
    exact v₁.addEdge_some .ArgumentDefinition n (.sym F.symbol) (UInt32.ofNat no)
  · have hsame := hext₁.FW.edges .ArgumentDefinition (by simp)
    unfold definitions
    rw [Edges.edges_append, List.map_append, hsame]
    rfl

theorem defineArguments_spec (nos : List Nat) (v : EdgeVisitor GV) : ∃ v',
    nos.foldlM (fun v no => v.defineArgument M F no) v = .ok v' ∧
      v.Extends {.Assign, .ArgumentDefinition} v' ∧
      v'.definitions = v.definitions ++ nos.map UInt32.ofNat := by
  induction nos generalizing v with
  | nil => exact ⟨v, rfl, .refl v, by simp⟩
  | cons no nos ih =>
    obtain ⟨v₁, hstep, hext₁, hdef₁⟩ := v.defineArgument_spec (M := M) (F := F) no
    obtain ⟨v', hrest, hext₂, hdef₂⟩ := ih v₁
    refine ⟨v', ?_, hext₁.trans hext₂, by simp [hdef₂, hdef₁]⟩
    rw [List.foldlM_cons, hstep]
    exact hrest

/-! ## The constructor -/

/-- A visitor that has been constructed. -/
structure Constructed (F : Function GV) (v : EdgeVisitor GV) : Prop where
  numbered : v.Numbered
  VarArgs : v.VarArgs.isSome = F.type.isVarArg
  definitions : v.definitions = (if F.type.isVarArg then [UInt32.ofNat F.args.length] else []) ++
    (List.range F.args.length).map UInt32.ofNat
  edges : ∀ kind ∉ ({.Assign, .ArgumentDefinition, .Store} : Set EdgeKind), edges v.FW.ops kind = []

variable (M F)

/-- **The constructor succeeds.** -/
theorem new_spec : ∃ v, new M F = .ok v ∧ Constructed F v := by
  have hempty : Allocated ([] : List (Instruction GV)) {} :=
    ⟨⟨fun _ _ h => (nomatch h), fun _ _ _ h => (nomatch h)⟩, rfl, fun _ _ h => (nomatch h), rfl,
      fun _ => rfl⟩
  obtain ⟨v₁, hallocas, hv₁⟩ := allocated_fold [] F.body hempty F.distinct
  obtain ⟨v₂, hvar, hnum, hVarArgs, hdef, hedges⟩ : ∃ v₂ : EdgeVisitor GV,
      (if F.type.isVarArg then defineVarArgs F { v₁ with NumAllocas := v₁.Locals.length }
        else pure { v₁ with NumAllocas := v₁.Locals.length } : Visited (EdgeVisitor GV)) = .ok v₂ ∧
      v₂.Numbered ∧ v₂.VarArgs.isSome = F.type.isVarArg ∧
      v₂.definitions = (if F.type.isVarArg then [UInt32.ofNat F.args.length] else []) ∧
      ∀ kind ∉ ({.ArgumentDefinition, .Store} : Set EdgeKind), edges v₂.FW.ops kind = [] := by
    have hnum : Numbered { v₁ with NumAllocas := v₁.Locals.length } :=
      ⟨hv₁.numbered.lt, hv₁.numbered.injective⟩
    have hnone : definitions { v₁ with NumAllocas := v₁.Locals.length } = [] := by
      simp [definitions, hv₁.edges]
    cases hvariadic : F.type.isVarArg with
    | true =>
      obtain ⟨v₂, hvar, hnum₂, hsome, hdef, hsame⟩ := defineVarArgs_spec (F := F) hnum
      refine ⟨v₂, hvar, hnum₂, hsome, by simp [hdef, hnone], fun kind hkind => ?_⟩
      rw [hsame kind hkind]
      exact hv₁.edges kind
    | false =>
      exact ⟨_, rfl, hnum, by simp [hv₁.VarArgs], hnone, fun kind _ => hv₁.edges kind⟩
  obtain ⟨v, hargs, hext, hdefs⟩ :=
    defineArguments_spec (M := M) (F := F) (List.range F.args.length) v₂
  refine ⟨v, ?_, hext.numbered hnum, by rw [hext.VarArgs, hVarArgs], by rw [hdefs, hdef], ?_⟩
  · unfold new
    rw [hallocas, ok_bind]
    split
    next h =>
      rw [if_pos h] at hvar
      simp only [hvar, ok_bind]
      exact hargs
    next h =>
      rw [if_neg h] at hvar
      simp only [hvar, ok_bind]
      exact hargs
  · intro kind hkind
    simp only [Set.mem_insert_iff, Set.mem_singleton_iff, not_or] at hkind
    rw [hext.FW.edges kind (by simp [hkind]), hedges kind (by simp [hkind])]

end
end EdgeVisitor
end Bracelet.Reachability
