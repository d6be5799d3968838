import Bracelet.FlatOrders
import Bracelet.PointsTo

/-!
# What the first pass records

The node states form a flat order, and the state of a node is the join of what the edges say
about it (`Evidence`): the calls and the stores, the function's own definition, the mentions
by other functions, and the override of its name.  The pass is a sequence of updates, each of
which joins one piece of evidence, so nothing depends on their order.
-/
namespace Bracelet.Edges.PointsTo

/-! ## The lattice -/

/-- "undefined" at the bottom, and the other node states above that. -/
instance : FlatOrder NodeState where
  le a b := a = .Undefined ∨ a = b
  le_refl a := .inr rfl
  le_trans a b c := by
    rintro (rfl | rfl) h
    · exact .inl rfl
    · exact h
  le_antisymm a b := by
    rintro (rfl | rfl) (h | h)
    · exact h.symm
    · exact h.symm
    · rfl
    · rfl
  bot := .Undefined
  bot_le a := .inl rfl
  eq_of_le a b h := h

theorem NodeState.bot_eq : (⊥ : NodeState) = .Undefined := rfl

/-! ## Updates -/

/-- What the pass does to its state. -/
inductive Update
  | state (n : Node) (s : NodeState)
  | override (n : Node)
  deriving DecidableEq

def Update.node : Update → Node
  | state n _ => n
  | override n => n

section
variable (asserts : Bool) (symbolName : Address → Result String)
  (override_nargs : List (String × UInt16))

def EmitC.apply (st : EmitC) : Update → Result EmitC
  | .state n s => st.setNargs asserts symbolName n s
  | .override n => st.checkOverride asserts symbolName override_nargs n

/-- The override of a node, by its name. -/
def overrideOf (n : Node) : Result (Option (String × UInt16)) := do
  let full_name ← symbolName n.symbol
  let name := unversioned full_name
  return (Dict.get? override_nargs name).map (name, ·)

/-- The evidence in a sequence of updates. -/
def evidence (updates : List Update) (n : Node) : Set NodeState :=
  { s | .state n s ∈ updates ∨ .override n ∈ updates ∧
    ∃ name nargs, overrideOf symbolName override_nargs n = .ok (some (name, nargs)) ∧
      s = .Function nargs }

end

/-- The states are the joins of the evidence. -/
structure Joined (E : Node → Set NodeState) (node_states : List (Node × NodeState)) : Prop where
  isLUB : ∀ n, IsLUB (E n) ((Dict.get? node_states n).getD ⊥)
  present : ∀ n, (Dict.get? node_states n).isSome ↔ (E n).Nonempty

/-- A node has a state when there is evidence, and it is its join. -/
theorem Joined.get?_iff {E : Node → Set NodeState} {node_states : List (Node × NodeState)}
    (h : Joined E node_states) {n : Node} {s : NodeState} :
    Dict.get? node_states n = some s ↔ (E n).Nonempty ∧ IsLUB (E n) s := by
  constructor
  · intro hs
    have hlub := h.isLUB n
    rw [hs] at hlub
    exact ⟨(h.present n).mp (by rw [hs]; rfl), hlub⟩
  · rintro ⟨hne, hlub⟩
    obtain ⟨t, ht⟩ := Option.isSome_iff_exists.mp ((h.present n).mpr hne)
    have hlub' := h.isLUB n
    rw [ht] at hlub' ⊢
    exact congrArg some (hlub'.unique hlub)

section
variable {asserts : Bool} {symbolName : Address → Result String}
  {override_nargs : List (String × UInt16)}

namespace EmitC

/-! ## Setting a state -/

/-- The state that is set is the join of the old and the new. -/
theorem setNargs_ok {st st' : EmitC} {n : Node} {s : NodeState}
    (h : st.setNargs asserts symbolName n s = .ok st') :
    st'.node_checked_for_override = st.node_checked_for_override ∧
      st'.override_nodes = st.override_nodes ∧
      ∃ t, FlatOrder.merge ((Dict.get? st.node_states n).getD ⊥) s = some t ∧
        ∀ m, Dict.get? st'.node_states m = if m = n then some t else Dict.get? st.node_states m := by
  unfold setNargs at h
  have h := assert_bind h
  split at h
  next hget =>
    obtain rfl := Except.ok.inj h
    refine ⟨rfl, rfl, s, ?_, fun m => ?_⟩
    · simp [hget, FlatOrder.merge]
    · rw [Dict.get?_set]
      simp only [eq_comm]
  next hget =>
    obtain rfl := Except.ok.inj h
    refine ⟨rfl, rfl, s, ?_, fun m => ?_⟩
    · simp [hget, FlatOrder.merge, NodeState.bot_eq]
    · rw [Dict.get?_set]
      simp only [eq_comm]
  next current hne hget =>
    have hcurrent : current ≠ .Undefined := by
      rintro rfl
      exact hne rfl
    -- The state stays, and it is the join.
    have hkeep : s = .Undefined ∨ current = s →
        ∃ t, FlatOrder.merge ((Dict.get? st.node_states n).getD ⊥) s = some t ∧
          ∀ m, Dict.get? st.node_states m = if m = n then some t else Dict.get? st.node_states m := by
      intro hs
      refine ⟨current, ?_, fun m => ?_⟩
      · simp [hget, FlatOrder.merge, NodeState.bot_eq, hcurrent, hs]
      · split
        next hm => rw [hm, hget]
        next => rfl
    split at h
    next hs =>
      obtain rfl := Except.ok.inj h
      exact ⟨rfl, rfl, hkeep (.inl hs)⟩
    next hs =>
      obtain ⟨u, hensure, h⟩ := bind_ok h
      obtain rfl := Except.ok.inj h
      have heq : current = s := by
        by_contra hmis
        simp [ensure, hmis] at hensure
      exact ⟨rfl, rfl, hkeep (.inr heq)⟩

/-- It is set when there is a join. -/
theorem setNargs_isOk {st : EmitC} {n : Node} {s : NodeState} (hn : n.local_idx = none)
    (h : (FlatOrder.merge ((Dict.get? st.node_states n).getD ⊥) s).isSome) :
    ∃ st', st.setNargs asserts symbolName n s = .ok st' := by
  unfold setNargs
  rw [hn, Option.isNone_none, assert_true, ok_bind]
  split
  next => exact ⟨_, rfl⟩
  next => exact ⟨_, rfl⟩
  next current hne hget =>
    have hcurrent : current ≠ .Undefined := by
      rintro rfl
      exact hne rfl
    split
    next => exact ⟨_, rfl⟩
    next hs =>
      have heq : current = s := by
        by_contra hmis
        simp [hget, FlatOrder.merge, NodeState.bot_eq, hcurrent, hs, hmis] at h
      exact ⟨st, by simp [heq]⟩

end EmitC

/-- To set a state is to add evidence. -/
theorem Joined.setNargs {E : Node → Set NodeState} {st st' : EmitC} {n : Node} {s : NodeState}
    (hE : Joined E st.node_states) (h : st.setNargs asserts symbolName n s = .ok st') :
    Joined (Function.update E n (insert s (E n))) st'.node_states := by
  obtain ⟨-, -, t, ht, hget⟩ := EmitC.setNargs_ok h
  constructor
  · intro m
    rw [hget m]
    by_cases hm : m = n
    · subst hm
      rw [Function.update_self, if_pos rfl, Option.getD_some]
      exact (FlatOrder.isLUB_insert_iff (hE.isLUB m)).mpr ht
    · rw [Function.update_of_ne hm, if_neg hm]
      exact hE.isLUB m
  · intro m
    rw [hget m]
    by_cases hm : m = n
    · subst hm
      simp
    · rw [Function.update_of_ne hm, if_neg hm]
      exact hE.present m

/-- It can be set when the evidence has a join. -/
theorem Joined.exists_setNargs {E : Node → Set NodeState} {st : EmitC} {n : Node} {s : NodeState}
    (hE : Joined E st.node_states) (hn : n.local_idx = none) (h : ∃ t, IsLUB (insert s (E n)) t) :
    ∃ st', st.setNargs asserts symbolName n s = .ok st' := by
  obtain ⟨t, ht⟩ := h
  have hmerge := (FlatOrder.isLUB_insert_iff (hE.isLUB n)).mp ht
  exact EmitC.setNargs_isOk hn (by rw [hmerge]; rfl)

/-! ## Sequences of updates -/

/-- What a sequence of updates leaves behind. -/
structure Recorded (symbolName : Address → Result String) (override_nargs : List (String × UInt16))
    (updates : List Update) (st : EmitC) : Prop where
  joined : Joined (evidence symbolName override_nargs updates) st.node_states
  checked : ∀ n, n ∈ st.node_checked_for_override ↔ .override n ∈ updates
  named : ∀ n, .override n ∈ updates → ∃ name, symbolName n.symbol = .ok name
  overrides : ∀ n name, Dict.get? st.override_nodes n = some name ↔
    .override n ∈ updates ∧ ∃ nargs, overrideOf symbolName override_nargs n = .ok (some (name, nargs))

theorem evidence_mono {us vs : List Update} (h : us ⊆ vs) (n : Node) :
    evidence symbolName override_nargs us n ⊆ evidence symbolName override_nargs vs n := by
  rintro s (hs | ⟨hn, hover⟩)
  · exact .inl (h hs)
  · exact .inr ⟨h hn, hover⟩

theorem evidence_snoc_state (us : List Update) (n : Node) (s : NodeState) :
    evidence symbolName override_nargs (us ++ [.state n s]) =
      Function.update (evidence symbolName override_nargs us) n
        (insert s (evidence symbolName override_nargs us n)) := by
  funext m
  ext t
  by_cases hm : m = n
  · subst hm
    rw [Function.update_self]
    simp [evidence, or_assoc, or_comm]
  · rw [Function.update_of_ne hm]
    simp [evidence, hm]

/-- A look-up that finds no override says nothing. -/
theorem evidence_snoc_none (us : List Update) {n : Node}
    (h : overrideOf symbolName override_nargs n = .ok none) :
    evidence symbolName override_nargs (us ++ [.override n]) =
      evidence symbolName override_nargs us := by
  funext m
  ext t
  by_cases hm : m = n
  · subst hm
    simp [evidence, h]
  · simp [evidence, hm]

/-- One that finds one says how many arguments the node has. -/
theorem evidence_snoc_some (us : List Update) {n : Node} {name : String} {nargs : UInt16}
    (h : overrideOf symbolName override_nargs n = .ok (some (name, nargs))) :
    evidence symbolName override_nargs (us ++ [.override n]) =
      Function.update (evidence symbolName override_nargs us) n
        (insert (.Function nargs) (evidence symbolName override_nargs us n)) := by
  funext m
  ext t
  by_cases hm : m = n
  · subst hm
    rw [Function.update_self]
    simp only [evidence, h, List.mem_append, List.mem_singleton, Set.mem_ofPred_eq,
      Set.mem_insert_iff, reduceCtorEq, or_false, or_true, true_and, Except.ok.injEq,
      Option.some.injEq, Prod.mk.injEq]
    constructor
    · rintro (ht | ⟨_, _, ⟨rfl, rfl⟩, rfl⟩)
      · exact .inr (.inl ht)
      · exact .inl rfl
    · rintro (rfl | ht | ⟨-, _, _, ⟨rfl, rfl⟩, rfl⟩)
      · exact .inr ⟨name, nargs, ⟨rfl, rfl⟩, rfl⟩
      · exact .inl ht
      · exact .inr ⟨name, nargs, ⟨rfl, rfl⟩, rfl⟩
  · rw [Function.update_of_ne hm]
    simp [evidence, hm]

theorem Recorded.congr {us vs : List Update} {st : EmitC} (h : Recorded symbolName override_nargs us st)
    (hsub : us ⊆ vs) (hsup : vs ⊆ us) : Recorded symbolName override_nargs vs st := by
  have hmem : ∀ u, u ∈ us ↔ u ∈ vs := fun u => ⟨fun hu => hsub hu, fun hu => hsup hu⟩
  have hevidence : evidence symbolName override_nargs us = evidence symbolName override_nargs vs :=
    funext fun n => (evidence_mono hsub n).antisymm (evidence_mono hsup n)
  constructor
  · rw [← hevidence]
    exact h.joined
  · simpa only [hmem] using h.checked
  · simpa only [hmem] using h.named
  · simpa only [hmem] using h.overrides

/-- Nothing is recorded at first. -/
theorem recorded_nil : Recorded symbolName override_nargs [] {} := by
  have hempty : ∀ n, evidence symbolName override_nargs [] n = ∅ := by
    intro n
    ext s
    simp [evidence]
  constructor
  · constructor
    · intro n
      rw [hempty]
      exact isLUB_empty
    · intro n
      rw [hempty]
      simp [Dict.get?]
  · simp
  · simp
  · simp [Dict.get?]

/-- An update is recorded. -/
theorem Recorded.apply {us : List Update} {st st' : EmitC} {u : Update}
    (h : Recorded symbolName override_nargs us st)
    (hu : st.apply asserts symbolName override_nargs u = .ok st') :
    Recorded symbolName override_nargs (us ++ [u]) st' := by
  cases u with
  | state n s =>
    obtain ⟨hchecked, hover, -⟩ := EmitC.setNargs_ok hu
    constructor
    · rw [evidence_snoc_state]
      exact h.joined.setNargs hu
    · simpa [hchecked] using h.checked
    · simpa using h.named
    · simpa [hover] using h.overrides
  | override n =>
    change st.checkOverride asserts symbolName override_nargs n = .ok st' at hu
    unfold EmitC.checkOverride at hu
    split at hu
    next hmem =>
      obtain rfl := Except.ok.inj hu
      refine h.congr (List.subset_append_left ..) (List.append_subset.mpr ⟨List.Subset.refl us, ?_⟩)
      simpa using (h.checked n).mp hmem
    next hnot =>
      obtain ⟨full_name, hname, hu⟩ := bind_ok hu
      have hnamed : ∀ m, .override m ∈ us ++ [.override n] → ∃ name, symbolName m.symbol = .ok name := by
        intro m hm
        rcases List.mem_append.mp hm with hm | hm
        · exact h.named m hm
        · obtain rfl : m = n := by simpa using hm
          exact ⟨full_name, hname⟩
      dsimp only at hu
      split at hu
      next hget =>
        obtain rfl := Except.ok.inj hu
        have hover : overrideOf symbolName override_nargs n = .ok none := by
          simp [overrideOf, hname, hget]
        constructor
        · rw [evidence_snoc_none us hover]
          exact h.joined
        · intro m
          simp [h.checked m, or_comm]
        · exact hnamed
        · intro m name
          by_cases hm : m = n
          · subst hm
            simp [h.overrides, hover]
          · simp [h.overrides, hm]
      next nargs hget =>
        have hover : overrideOf symbolName override_nargs n =
            .ok (some (unversioned full_name, nargs)) := by
          simp [overrideOf, hname, hget]
        obtain ⟨hchecked, hoverrides, -⟩ := EmitC.setNargs_ok hu
        constructor
        · rw [evidence_snoc_some us hover]
          exact Joined.setNargs (by exact h.joined) hu
        · intro m
          simp [hchecked, h.checked m, or_comm]
        · exact hnamed
        · intro m name
          rw [hoverrides, Dict.get?_set]
          by_cases hm : m = n
          · subst hm
            simp [hover]
          · rw [if_neg (Ne.symm hm), h.overrides]
            simp [hm]

/-- It can be made when the evidence has a join and the symbol a name. -/
theorem Recorded.exists_apply {us : List Update} {st : EmitC} {u : Update}
    (h : Recorded symbolName override_nargs us st) (hn : u.node.local_idx = none)
    (hjoin : ∀ n, ∃ t, IsLUB (evidence symbolName override_nargs (us ++ [u]) n) t)
    (hname : ∀ n, u = .override n → ∃ name, symbolName n.symbol = .ok name) :
    ∃ st', st.apply asserts symbolName override_nargs u = .ok st' := by
  cases u with
  | state n s =>
    have hlub := hjoin n
    rw [evidence_snoc_state, Function.update_self] at hlub
    exact h.joined.exists_setNargs hn hlub
  | override n =>
    show ∃ st', st.checkOverride asserts symbolName override_nargs n = .ok st'
    unfold EmitC.checkOverride
    split
    next => exact ⟨st, rfl⟩
    next =>
      obtain ⟨full_name, hname⟩ := hname n rfl
      rw [hname, ok_bind]
      dsimp only
      split
      next => exact ⟨_, rfl⟩
      next nargs hget =>
        have hover : overrideOf symbolName override_nargs n =
            .ok (some (unversioned full_name, nargs)) := by
          simp [overrideOf, hname, hget]
        have hlub := hjoin n
        rw [evidence_snoc_some us hover, Function.update_self] at hlub
        exact Joined.exists_setNargs (by exact h.joined) hn hlub

/-- **What a run of updates records.** -/
theorem recorded_foldlM {us : List Update} {st : EmitC}
    (h : us.foldlM (EmitC.apply asserts symbolName override_nargs) {} = .ok st) :
    Recorded symbolName override_nargs us st := by
  induction us using List.reverseRecOn generalizing st with
  | nil => exact Except.ok.inj h ▸ recorded_nil
  | append_singleton us u ih =>
    rw [List.foldlM_append] at h
    obtain ⟨st₁, hus, h⟩ := bind_ok h
    obtain ⟨st₂, hu, h⟩ := bind_ok h
    obtain rfl := Except.ok.inj h
    exact (ih hus).apply hu

/-- **A run of updates succeeds when all evidence has a join and the symbols names.** -/
theorem foldlM_isOk_iff {us : List Update} (hsymbols : ∀ u ∈ us, u.node.local_idx = none) :
    (∃ st, us.foldlM (EmitC.apply asserts symbolName override_nargs) {} = .ok st) ↔
      (∀ n, ∃ t, IsLUB (evidence symbolName override_nargs us n) t) ∧
        ∀ n, .override n ∈ us → ∃ name, symbolName n.symbol = .ok name := by
  constructor
  · rintro ⟨st, h⟩
    have hrec := recorded_foldlM h
    exact ⟨fun n => ⟨_, hrec.joined.isLUB n⟩, hrec.named⟩
  · rintro ⟨hjoin, hname⟩
    induction us using List.reverseRecOn with
    | nil => exact ⟨{}, rfl⟩
    | append_singleton us u ih =>
      have hsub : us ⊆ us ++ [u] := List.subset_append_left us [u]
      obtain ⟨st, hus⟩ := ih (fun v hv => hsymbols v (hsub hv))
        (fun n => FlatOrder.exists_isLUB_mono (evidence_mono hsub n) (hjoin n))
        (fun n hn => hname n (hsub hn))
      obtain ⟨st', hu⟩ := (recorded_foldlM hus).exists_apply (hsymbols u (by simp)) hjoin
        (fun n hn => hname n (by simp [hn]))
      refine ⟨st', ?_⟩
      rw [List.foldlM_append, hus, ok_bind, List.foldlM_cons, hu]
      rfl

end
end Bracelet.Edges.PointsTo
