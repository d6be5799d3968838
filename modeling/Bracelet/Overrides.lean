import Bracelet.FactFiles
import Bracelet.Substitution

/-!
# Overrides

`apply_overrides.py` adds the facts of functions of its own to those of a program.  A function is
known in the tables of the program by another address than in its own, so in its files the addresses
of all overrides are replaced, one after the other in the order in which the program's tables list
the new ones (`rename`).  A new address that is another override's own is then replaced again, and an
override that is not in the list keeps its own address.  The files are those of a substitution at
once, and no two overrides become one, exactly when neither happens (`renamedAtOnce_iff`).

What raises an exception is `none`.
-/
namespace Bracelet.Overrides
open Edges (Bytes)
open Edges.LoadEdges Substitution

/-! ## The script -/

/-- The directory of an override: `bracelet-edges` names it by the address of the function. -/
structure OverrideDirectory where
  address : UInt64
  files : List (String × Bytes)

def OverrideDirectory.name (f : OverrideDirectory) : Text := hexText 16 f.address.toNat

def load_table (file : Bytes) : Option (List (List Text)) := (Utf8.decode file).map tsvRows

def pairOfCells : List Text → Option (Text × Text)
  | [first, second] => some (first, second)
  | _ => none

/-- `dict(load_table(f / "DebugTable.facts"))[f.name]`: what an override is called. -/
def OverrideDirectory.pretty (f : OverrideDirectory) : Option Text := do
  let rows ← load_table (← Dict.get? f.files "DebugTable.facts")
  Dict.get? (Dict.ofList (← rows.mapM pairOfCells)) f.name

/-- The overrides by what they are called. -/
def readOverrides (fs : List OverrideDirectory) : Option (List (Text × OverrideDirectory)) := do
  let named ← fs.mapM fun f => f.pretty.map fun name => (name, f)
  return Dict.ofList named

/-- The rows of the debug tables of the program. -/
def targetRows (tables : List Bytes) : Option (List (Text × Text)) := do
  let rows ← tables.mapM fun table => do (← load_table table).mapM pairOfCells
  return rows.flatten

structure Mapping where
  override_mapping : List (Text × Text) := []
  override_reverse_mapping : List (Text × Text) := []

/-- The body of the loop over the rows. -/
def Mapping.add (overrides : List (Text × OverrideDirectory)) (s : Mapping) (row : Text × Text) :
    Option Mapping :=
  let (addr, name) := row
  if (Dict.get? overrides name).isSome then
    if ¬ ["memcmp".toList, "bcmp".toList].contains name ∧
        ¬ [none, some name].contains (Dict.get? s.override_mapping addr) then none
    else if ¬ [none, some addr].contains (Dict.get? s.override_reverse_mapping name) then none
    else some {
      override_mapping := Dict.set s.override_mapping addr name
      override_reverse_mapping := Dict.set s.override_reverse_mapping name addr }
  else some s

/-- An entry of `override_replacements`: `overrides[name]`, `addr` and `name`. -/
structure Replacement where
  directory : OverrideDirectory
  addr : Text
  name : Text

def override_replacements (overrides : List (Text × OverrideDirectory))
    (override_mapping : List (Text × Text)) : Option (List Replacement) :=
  override_mapping.mapM fun (addr, name) =>
    (Dict.get? overrides name).map fun directory => ⟨directory, addr, name⟩

/-- The replacements for overrides and the debug tables of a program. -/
def readReplacements (fs : List OverrideDirectory) (tables : List Bytes) :
    Option (List Replacement) := do
  let overrides ← readOverrides fs
  let rows ← targetRows tables
  let mapping ← rows.foldlM (Mapping.add overrides) {}
  override_replacements overrides mapping.override_mapping

/-- `txt.replace(orig, new)` for all replacements. -/
def rename (replacements : List Replacement) (txt : Text) : Text :=
  replacements.foldl (fun txt r => replace r.directory.name r.addr txt) txt

def read_text (file : Bytes) : Option Text := (Utf8.decode file).map translateNewlines

def renameFile (replacements : List Replacement) (file : String × Bytes) :
    Option (String × Bytes) :=
  (read_text file.2).map fun txt => (file.1, Utf8.encode (rename replacements txt))

/-- The files of the directory that is made for a replacement.  If it exists, the function is defined
already. -/
def writeOverride (existing : Text → Bool) (replacements : List Replacement) (r : Replacement) :
    Option (Replacement × List (String × Bytes)) :=
  if existing r.addr then none
  else (r.directory.files.mapM (renameFile replacements)).map fun files => (r, files)

/-- **`apply_overrides`** -/
def apply_overrides (fs : List OverrideDirectory) (tables : List Bytes) (existing : Text → Bool) :
    Option (List (Replacement × List (String × Bytes))) := do
  let replacements ← readReplacements fs tables
  replacements.mapM (writeOverride existing replacements)

/-! ## Lists of results -/

theorem forall₂_of_mapM {α β : Type} {f : α → Option β} {l : List α} {l' : List β}
    (h : l.mapM f = some l') : List.Forall₂ (fun a b => f a = some b) l l' := by
  induction l generalizing l' with
  | nil =>
    obtain rfl := Option.some.inj h
    exact .nil
  | cons a l ih =>
    rw [List.mapM_cons] at h
    obtain ⟨b, hb, h⟩ := Option.bind_eq_some_iff.mp h
    obtain ⟨bs, hbs, h⟩ := Option.bind_eq_some_iff.mp h
    obtain rfl := Option.some.inj h
    exact .cons hb (ih hbs)

theorem forall₂_iff_of_mapM {α β : Type} {f : α → Option β} {P : α → β → Prop} {l : List α}
    {l' : List β} (h : l.mapM f = some l') :
    List.Forall₂ P l l' ↔ ∀ a ∈ l, ∀ b, f a = some b → P a b := by
  have hall := forall₂_of_mapM h
  clear h
  induction hall with
  | nil => simp
  | cons hab hall ih => simp [hab, ih]

theorem mem_mapM_iff {α β : Type} {f : α → Option β} {l : List α} {l' : List β}
    (h : l.mapM f = some l') {b : β} : b ∈ l' ↔ ∃ a ∈ l, f a = some b := by
  have hall := forall₂_of_mapM h
  clear h
  induction hall with
  | nil => simp
  | cons hab hall ih =>
    simp only [List.mem_cons, exists_eq_or_imp, hab, Option.some_inj]
    exact or_congr eq_comm ih

theorem map_mapM {α β γ : Type} {f : α → Option β} {key : α → γ} {key' : β → γ}
    (hkey : ∀ a b, f a = some b → key' b = key a) {l : List α} {l' : List β}
    (h : l.mapM f = some l') : l'.map key' = l.map key := by
  have hall := forall₂_of_mapM h
  clear h
  induction hall with
  | nil => rfl
  | cons hab hall ih => rw [List.map_cons, List.map_cons, ih, hkey _ _ hab]

/-! ## What the program's tables give -/

/-- The address that the rows give a name. -/
def given (rows : List (Text × Text)) (name : Text) : Option Text :=
  (rows.find? fun row => row.2 = name).map Prod.fst

/-- What the loop over the rows has found. -/
structure Mapped (overrides : List (Text × OverrideDirectory)) (rows : List (Text × Text))
    (s : Mapping) : Prop where
  keys : (s.override_mapping.map Prod.fst).Nodup
  reverse : ∀ name addr, Dict.get? s.override_reverse_mapping name = some addr ↔
    (Dict.get? overrides name).isSome ∧ (addr, name) ∈ rows
  mapping : ∀ addr name, Dict.get? s.override_mapping addr = some name →
    Dict.get? s.override_reverse_mapping name = some addr

/-- One row. -/
theorem Mapped.add {overrides : List (Text × OverrideDirectory)} {rows : List (Text × Text)}
    {s s' : Mapping} (h : Mapped overrides rows s) {row : Text × Text}
    (hadd : s.add overrides row = some s') : Mapped overrides (rows ++ [row]) s' := by
  obtain ⟨addr, name⟩ := row
  unfold Mapping.add at hadd
  dsimp only at hadd
  split_ifs at hadd with hname hshared hsame
  · -- The name has this address or none.
    obtain rfl := Option.some.inj hadd
    have hold : ∀ addr', Dict.get? s.override_reverse_mapping name = some addr' → addr' = addr := by
      intro addr' hget
      rw [hget] at hsame
      simpa using hsame
    refine ⟨Dict.nodup_keys_set h.keys _ _, fun name' addr' => ?_, fun addr' name' hget => ?_⟩
    · rw [Dict.get?_set, List.mem_append, List.mem_singleton, Prod.mk.injEq]
      by_cases hn : name = name'
      · subst hn
        rw [if_pos rfl]
        constructor
        · rintro heq
          exact ⟨hname, .inr ⟨(Option.some.inj heq).symm, rfl⟩⟩
        · rintro ⟨-, hmem | ⟨rfl, -⟩⟩
          · rw [hold _ ((h.reverse _ _).mpr ⟨hname, hmem⟩)]
          · rfl
      · rw [if_neg hn, h.reverse]
        simp [Ne.symm hn]
    · rw [Dict.get?_set] at hget ⊢
      by_cases ha : addr = addr'
      · subst ha
        rw [if_pos rfl] at hget
        obtain rfl := Option.some.inj hget
        exact if_pos rfl
      · rw [if_neg ha] at hget
        have hreverse := h.mapping _ _ hget
        rw [if_neg, hreverse]
        rintro rfl
        exact ha (hold _ hreverse).symm
  · obtain rfl := Option.some.inj hadd
    refine ⟨h.keys, fun name' addr' => ?_, h.mapping⟩
    rw [h.reverse, List.mem_append, List.mem_singleton, Prod.mk.injEq]
    refine and_congr_right fun hsome => ⟨.inl, ?_⟩
    rintro (hmem | ⟨-, rfl⟩)
    · exact hmem
    · exact absurd hsome hname

/-- **The loop over the rows.** -/
theorem mapped_of_foldlM {overrides : List (Text × OverrideDirectory)} {rows : List (Text × Text)}
    {s : Mapping} (h : rows.foldlM (Mapping.add overrides) {} = some s) :
    Mapped overrides rows s := by
  induction rows using List.reverseRecOn generalizing s with
  | nil =>
    obtain rfl := Option.some.inj h
    exact ⟨List.nodup_nil, fun _ _ => by simp [Dict.get?], fun _ _ hget => by cases hget⟩
  | append_singleton rows row ih =>
    rw [List.foldlM_append] at h
    obtain ⟨s₁, hs₁, h⟩ := Option.bind_eq_some_iff.mp h
    obtain ⟨s₂, hs₂, h⟩ := Option.bind_eq_some_iff.mp h
    obtain rfl := Option.some.inj h
    exact (ih hs₁).add hs₂

/-! ## The list of replacements -/

/-- An override has a name, and the last one with a name is found by it. -/
theorem readOverrides_spec {fs : List OverrideDirectory} {overrides : List (Text × OverrideDirectory)}
    (h : readOverrides fs = some overrides) :
    (∀ f ∈ fs, ∃ name, f.pretty = some name ∧ (Dict.get? overrides name).isSome) ∧
      ∀ name f, Dict.get? overrides name = some f → f ∈ fs ∧ f.pretty = some name := by
  obtain ⟨named, hnamed, h⟩ := Option.bind_eq_some_iff.mp h
  obtain rfl := Option.some.inj h
  have hmem : ∀ name f, (name, f) ∈ named ↔ f ∈ fs ∧ f.pretty = some name := by
    intro name f
    rw [mem_mapM_iff hnamed]
    simp only [Option.map_eq_some_iff, Prod.mk.injEq]
    constructor
    · rintro ⟨f, hf, name, hname, rfl, rfl⟩
      exact ⟨hf, hname⟩
    · rintro ⟨hf, hname⟩
      exact ⟨f, hf, name, hname, rfl, rfl⟩
  constructor
  · intro f hf
    obtain ⟨pair, hpair⟩ := mapM_isSome_iff.mp ⟨named, hnamed⟩ f hf
    obtain ⟨name, hname, -⟩ := Option.map_eq_some_iff.mp hpair
    obtain ⟨f', hf'⟩ := Dict.exists_lastValue_of_mem ((hmem name f).mpr ⟨hf, hname⟩)
    exact ⟨name, hname, by rw [Dict.get?_ofList, hf']; rfl⟩
  · intro name f hget
    rw [Dict.get?_ofList] at hget
    exact (hmem name f).mp (Dict.mem_of_lastValue hget)

/-- The rows give a name of an override one address at most. -/
theorem Mapped.given_eq_some_iff {overrides : List (Text × OverrideDirectory)}
    {rows : List (Text × Text)} {s : Mapping} (h : Mapped overrides rows s) {name addr : Text}
    (hname : (Dict.get? overrides name).isSome) :
    given rows name = some addr ↔ (addr, name) ∈ rows := by
  constructor
  · intro hgiven
    obtain ⟨⟨addr', name'⟩, hrow, rfl⟩ := Option.map_eq_some_iff.mp hgiven
    have heq := List.find?_some hrow
    rw [decide_eq_true_eq] at heq
    subst heq
    exact List.mem_of_find?_eq_some hrow
  · intro hmem
    have hsome : (rows.find? fun row => row.2 = name).isSome := by
      rw [List.find?_isSome]
      exact ⟨_, hmem, by simp⟩
    obtain ⟨⟨addr', name'⟩, hrow⟩ := Option.isSome_iff_exists.mp hsome
    have heq := List.find?_some hrow
    rw [decide_eq_true_eq] at heq
    subst heq
    have hone := (h.reverse _ _).mpr ⟨hname, hmem⟩
    rw [(h.reverse _ _).mpr ⟨hname, List.mem_of_find?_eq_some hrow⟩] at hone
    rw [given, hrow, ← hone]
    rfl

/-- **What the replacements are**: overrides, with the addresses that the rows give their names. -/
structure Replaces (fs : List OverrideDirectory) (rows : List (Text × Text))
    (rs : List Replacement) : Prop where
  pretty : ∀ f ∈ fs, ∃ name, f.pretty = some name
  directory : ∀ r ∈ rs, r.directory ∈ fs ∧ r.directory.pretty = some r.name
  given : ∀ r ∈ rs, given rows r.name = some r.addr
  addr : (rs.map Replacement.addr).Nodup

theorem replaces_of_read {fs : List OverrideDirectory} {tables : List Bytes}
    {rows : List (Text × Text)} {rs : List Replacement} (hrows : targetRows tables = some rows)
    (h : readReplacements fs tables = some rs) : Replaces fs rows rs := by
  obtain ⟨overrides, hoverrides, h⟩ := Option.bind_eq_some_iff.mp h
  obtain ⟨rows', hrows', h⟩ := Option.bind_eq_some_iff.mp h
  obtain rfl := Option.some.inj (hrows.symm.trans hrows')
  obtain ⟨s, hs, h⟩ := Option.bind_eq_some_iff.mp h
  have hmapped := mapped_of_foldlM hs
  obtain ⟨hpretty, hget⟩ := readOverrides_spec hoverrides
  have haddr : rs.map Replacement.addr = s.override_mapping.map Prod.fst := by
    refine map_mapM (fun pair r hr => ?_) h
    obtain ⟨f, -, rfl⟩ := Option.map_eq_some_iff.mp hr
    rfl
  have hmem : ∀ r ∈ rs, Dict.get? overrides r.name = some r.directory ∧
      (r.addr, r.name) ∈ s.override_mapping := by
    intro r hr
    obtain ⟨pair, hpair, heq⟩ := (mem_mapM_iff h).mp hr
    obtain ⟨f, hf, rfl⟩ := Option.map_eq_some_iff.mp heq
    exact ⟨hf, hpair⟩
  refine ⟨fun f hf => ?_, fun r hr => hget _ _ (hmem r hr).1, fun r hr => ?_, ?_⟩
  · obtain ⟨name, hname, -⟩ := hpretty f hf
    exact ⟨name, hname⟩
  · obtain ⟨hdirectory, hpair⟩ := hmem r hr
    have hname : (Dict.get? overrides r.name).isSome := by
      rw [hdirectory]
      rfl
    rw [hmapped.given_eq_some_iff hname]
    have hreverse := hmapped.mapping _ _ ((Dict.mem_iff_get? hmapped.keys).mp hpair)
    exact ((hmapped.reverse _ _).mp hreverse).2
  · rw [haddr]
    exact hmapped.keys

end Bracelet.Overrides
