import Bracelet.Overrides

/-!
# Overrides that are renamed at once

The addresses in the files of overrides are words that cannot overlap.  So what the replacements make
of a file is what they make of the addresses in it, and that is the new address of each exactly when
no later replacement is of the new address (`Kept`).
-/
namespace Bracelet.Overrides
open Edges (Bytes)
open Edges.LoadEdges Substitution

/-! ## Addresses -/

/-- An address, as `bracelet-edges` prints it. -/
def addressText (address : UInt64) : Text := hexText 16 address.toNat

theorem x_not_mem_digits {base : Nat} {x : Text} {n : Nat} (h : Digits base x n) : 'x' ∉ x := by
  intro hmem
  obtain ⟨d, hd, heq⟩ := h.digit _ hmem
  have hplain : ∀ d < 16, 'x' ≠ Nat.digitChar d := by decide
  exact hplain d hd heq

theorem marked_addressText : Marked addressText '0' 'x' 16 where
  ne := by decide
  shape address := by
    have hdigits := digits_hex 16 address.toNat
    have hlen : (Nat.toDigits 16 address.toNat).length ≤ 16 :=
      (Nat.length_toDigits_le_iff (by decide) (by decide)).mpr address.toNat_lt
    refine ⟨_, rfl, ?_, fun hmem => ?_⟩
    · rw [List.length_append, List.length_replicate]
      omega
    · exact x_not_mem_digits hdigits hmem
  inj a b h := by
    have ha := parseInt_hex (digits_hex 16 a.toNat)
    have hb := parseInt_hex (digits_hex 16 b.toNat)
    have heq := ha.symm.trans ((congrArg (parseInt 16) h).trans hb)
    exact UInt64.toNat_inj.mp (Int.ofNat.inj (Option.some.inj heq))

/-- The address that a text is of. -/
noncomputable def addressOf (text : Text) : UInt64 := Function.invFun addressText text

theorem addressText_addressOf {text : Text} (h : ∃ address, text = addressText address) :
    addressText (addressOf text) = text := by
  obtain ⟨address, rfl⟩ := h
  rw [addressOf, Function.leftInverse_invFun marked_addressText.inj]

theorem return_not_mem_addressText (address : UInt64) : '\r' ∉ addressText address :=
  (solid_hexText _ _).not_mem (by decide)

/-- Where a list is cut. -/
theorem dropWhile_cases {α : Type} (p : α → Bool) (l : List α) :
    (l.dropWhile p = [] ∧ ∀ a ∈ l, p a = true) ∨ ∃ before a after, l = before ++ a :: after ∧
      l.dropWhile p = a :: after ∧ p a = false ∧ ∀ b ∈ before, p b = true := by
  induction l with
  | nil => exact .inl ⟨rfl, fun _ ha => absurd ha List.not_mem_nil⟩
  | cons c l ih =>
    cases hc : p c with
    | false => exact .inr ⟨[], c, l, rfl, List.dropWhile_cons_of_neg (by simp [hc]), hc, by simp⟩
    | true =>
      rw [List.dropWhile_cons_of_pos hc]
      rcases ih with ⟨hnil, hall⟩ | ⟨before, a, after, rfl, hdrop, ha, hall⟩
      · exact .inl ⟨hnil, List.forall_mem_cons.mpr ⟨hc, hall⟩⟩
      · exact .inr ⟨c :: before, a, after, rfl, hdrop, ha, List.forall_mem_cons.mpr ⟨hc, hall⟩⟩

/-! ## Printed tables -/

/-- A text with one mark is delimited. -/
theorem delimited_of_count {text : Text} (h : text.count 'x' ≤ 1) :
    Delimited addressText 'x' text := by
  rintro before address after rfl hafter
  obtain ⟨rest, hword, -, -⟩ := marked_addressText.shape address
  obtain ⟨after, rfl⟩ : ∃ after', after = 'x' :: after' := by
    cases after with
    | nil => cases hafter
    | cons c after => exact ⟨after, by rw [Option.some.inj hafter]⟩
  rw [hword, List.count_append, List.count_append, List.count_cons_of_ne (by decide),
    List.count_cons_self, List.count_cons_self] at h
  omega

theorem delimited_append_separator {c : Char} (hc : c ∈ ['\t', '\n', ':']) {u v : Text}
    (hu : Delimited addressText 'x' u) (hv : Delimited addressText 'x' v) :
    Delimited addressText 'x' (u ++ c :: v) := by
  refine delimited_append_cons (fun address => ?_) ?_ hu hv
  · fin_cases hc
    · exact (solid_hexText _ _).not_mem (by decide)
    · exact (solid_hexText _ _).not_mem (by decide)
    · exact colon_not_mem_hexText _ _
  · fin_cases hc <;> decide

/-- The addresses of a table are delimited if those of each cell are. -/
theorem delimited_table {rows : List (List Text)} (hne : ∀ row ∈ rows, row ≠ [])
    (h : ∀ row ∈ rows, ∀ cell ∈ row, Delimited addressText 'x' cell) :
    Delimited addressText 'x' (rows.flatMap fun row => line row ++ ['\n']) := by
  have hline : ∀ row : List Text, row ≠ [] → (∀ cell ∈ row, Delimited addressText 'x' cell) →
      Delimited addressText 'x' (line row) := by
    intro row
    induction row with
    | nil => exact fun hnil => absurd rfl hnil
    | cons cell row ih =>
      intro _ hrow
      rw [List.forall_mem_cons] at hrow
      cases row with
      | nil =>
        rw [line, List.intercalate_singleton]
        exact hrow.1
      | cons cell' row =>
        have hrest := delimited_append_separator (show '\t' ∈ _ by decide) hrow.1
          (ih (List.cons_ne_nil _ _) hrow.2)
        rw [line, List.intercalate_cons_cons]
        simpa [line] using hrest
  induction rows with
  | nil => exact delimited_of_count (by decide)
  | cons row rows ih =>
    rw [List.forall_mem_cons] at hne h
    rw [List.flatMap_cons, List.append_assoc]
    exact delimited_append_separator (by decide) (hline row hne.1 h.1) (ih hne.2 h.2)

theorem delimited_nodeText (N : Edges.Node) : Delimited addressText 'x' (nodeText N) := by
  have hcount : ∀ width n : Nat, (hexText width n).count 'x' ≤ 1 := by
    intro width n
    rw [hexText, List.count_cons_of_ne (by decide), List.count_cons_self,
      List.count_eq_zero_of_not_mem (x_not_mem_digits (digits_hex width n))]
  unfold nodeText
  cases N.local_idx with
  | none => exact delimited_of_count (hcount _ _)
  | some local_idx =>
    exact delimited_append_separator (by decide) (delimited_of_count (hcount _ _))
      (delimited_of_count (hcount _ _))

/-- **The tables of edges are delimited.** -/
theorem delimited_edges (kind : Edges.EdgeKind) (edges : List Edges.Edge) :
    Delimited addressText 'x' (edges.flatMap fun e => line (edgeCells kind e) ++ ['\n']) := by
  have hindex : ∀ n, Delimited addressText 'x' (Nat.toDigits 10 n) := by
    intro n
    refine delimited_of_count ?_
    rw [List.count_eq_zero_of_not_mem
      (x_not_mem_digits (digits_toDigits (by decide) (by decide) n))]
    exact Nat.zero_le _
  have htable := @delimited_table (edges.map (edgeCells kind))
  rw [List.flatMap_map] at htable
  refine htable ?_ ?_
  · exact List.forall_mem_map.mpr fun e _ => (solid_edgeCells kind e).1
  · refine List.forall_mem_map.mpr fun e _ cell hcell => ?_
    unfold edgeCells at hcell
    cases hkind : kind.indexed <;> simp [hkind] at hcell
    · rcases hcell with rfl | rfl <;> exact delimited_nodeText _
    · rcases hcell with rfl | rfl | rfl
      · exact delimited_nodeText _
      · exact delimited_nodeText _
      · exact hindex _

/-- **The debug table is delimited as its names are.** -/
theorem delimited_debugTable {named : List (Edges.Node × Text)}
    (h : ∀ row ∈ named, Delimited addressText 'x' row.2) :
    Delimited addressText 'x' (named.flatMap fun row => namedLine row ++ ['\n']) := by
  have hline : ∀ row : Edges.Node × Text, line [nodeText row.1, row.2] = namedLine row := fun row => by
    simp [line, namedLine, List.intercalate_cons_cons]
  have htable := @delimited_table (named.map fun row => [nodeText row.1, row.2])
  simp only [List.flatMap_map, hline] at htable
  refine htable ?_ ?_
  · exact List.forall_mem_map.mpr fun _ _ => List.cons_ne_nil _ _
  · refine List.forall_mem_map.mpr fun row hrow cell hcell => ?_
    rcases List.mem_cons.mp hcell with rfl | hcell
    · exact delimited_nodeText _
    · rw [List.mem_singleton.mp hcell]
      exact h row hrow

/-! ## What is claimed of the files -/

/-- The address that the program's tables give an override. -/
def newAddress (rows : List (Text × Text)) (f : OverrideDirectory) : Option Text :=
  f.pretty.bind (given rows)

/-- The addresses of overrides and those that the program gives them. -/
def addressPairs (fs : List OverrideDirectory) (rows : List (Text × Text)) : List (Text × Text) :=
  fs.filterMap fun f => (newAddress rows f).map fun addr => (f.name, addr)

/-- An address is in a file that is read. -/
def Occurs (rs : List Replacement) (address : UInt64) : Prop :=
  ∃ r ∈ rs, ∃ file ∈ r.directory.files, ∃ text, Utf8.decode file.2 = some text ∧
    addressText address <:+: text

/-- **The files are those of a substitution at once**: each has the text of its original with the new
addresses of overrides for their own. -/
def RenamedAtOnce (fs : List OverrideDirectory) (rows : List (Text × Text))
    (written : List (Replacement × List (String × Bytes))) : Prop :=
  ∀ w ∈ written, List.Forall₂ (fun file out => out.1 = file.1 ∧ ∃ text,
    Utf8.decode file.2 = some text ∧ out.2 = Utf8.encode (substitute (addressPairs fs rows) text))
    w.1.directory.files w.2

/-- No two overrides have become one. -/
def Apart (fs : List OverrideDirectory) (rs : List Replacement) : Prop :=
  ∀ f ∈ fs, ∀ f' ∈ fs, f.address ≠ f'.address → Occurs rs f.address → Occurs rs f'.address →
    rename rs f.name ≠ rename rs f'.name

/-- The replacements leave an override its new address: none of those after its own is of it.  An
override that has none, as another one with the same address or the same name has taken its place,
has the new address from the start. -/
def Kept (rs : List Replacement) (f : OverrideDirectory) (addr : Text) : Prop :=
  match rs.dropWhile fun r => r.directory.address ≠ f.address with
  | [] => f.name = addr
  | _ :: after => ∀ r ∈ after, r.directory.name ≠ addr

/-- **When the replacements do not interfere.** -/
structure Unambiguous (fs : List OverrideDirectory) (rows : List (Text × Text))
    (rs : List Replacement) : Prop where
  /-- Reading a file would change its line ends. -/
  newlines : ∀ r ∈ rs, ∀ file ∈ r.directory.files, ∀ text, Utf8.decode file.2 = some text →
    '\r' ∉ text
  kept : ∀ f ∈ fs, Occurs rs f.address → ∀ addr, newAddress rows f = some addr → Kept rs f addr
  apart : ∀ f ∈ fs, ∀ f' ∈ fs, f.address ≠ f'.address → Occurs rs f.address → Occurs rs f'.address →
    (newAddress rows f).getD f.name ≠ (newAddress rows f').getD f'.name

/-! ## Replacements of addresses -/

/-- The replacements, by addresses. -/
noncomputable def addresses (rs : List Replacement) : List (UInt64 × UInt64) :=
  rs.map fun r => (r.directory.address, addressOf r.addr)

noncomputable def newAddresses (fs : List OverrideDirectory) (rows : List (Text × Text)) :
    List (UInt64 × UInt64) :=
  fs.filterMap fun f => (newAddress rows f).map fun addr => (f.address, addressOf addr)

section
variable {fs : List OverrideDirectory} {rows : List (Text × Text)} {rs : List Replacement}
  (hnodup : (fs.map OverrideDirectory.address).Nodup) (h : Replaces fs rows rs)
  (haddress : ∀ f ∈ fs, ∀ addr, newAddress rows f = some addr → ∃ address, addr = addressText address)

include haddress in
theorem addressPairs_eq : addressPairs fs rows = wordPairs addressText (newAddresses fs rows) := by
  rw [wordPairs, newAddresses, List.map_filterMap]
  refine List.filterMap_congr fun f hf => ?_
  cases hnew : newAddress rows f with
  | none => rfl
  | some addr =>
    rw [Option.map_some, Option.map_some, Option.map_some, addressText_addressOf (haddress f hf _ hnew)]
    rfl

include h in
theorem newAddress_directory {r : Replacement} (hr : r ∈ rs) :
    newAddress rows r.directory = some r.addr := by
  rw [newAddress, (h.directory r hr).2, Option.bind_some, h.given r hr]

include h haddress in
theorem addr_eq {r : Replacement} (hr : r ∈ rs) : addressText (addressOf r.addr) = r.addr :=
  addressText_addressOf (haddress _ (h.directory r hr).1 _ (newAddress_directory h hr))

include h haddress in
theorem rename_eq (text : Text) : rename rs text =
    (addresses rs).foldl (fun text pair => replace (addressText pair.1) (addressText pair.2) text)
      text := by
  rw [rename, addresses, List.foldl_map]
  refine List.foldl_ext _ _ _ fun text r hr => ?_
  rw [addr_eq h haddress hr]
  rfl

/-- What the substitution makes of an address that is no override's. -/
theorem image_of_not_mem {k : UInt64} (hk : k ∉ fs.map OverrideDirectory.address) :
    image (newAddresses fs rows) k = k := by
  have hnone : ((newAddresses fs rows).find? fun pair => pair.1 = k) = none := by
    rw [List.find?_eq_none]
    intro pair hpair
    obtain ⟨f, hf, heq⟩ := List.mem_filterMap.mp hpair
    obtain ⟨addr, -, rfl⟩ := Option.map_eq_some_iff.mp heq
    rw [decide_eq_true_eq]
    exact fun hfk => hk (List.mem_map.mpr ⟨f, hf, hfk⟩)
  rw [image, hnone]
  rfl

include hnodup in
/-- **What the substitution makes of an override's address.** -/
theorem image_address {f : OverrideDirectory} (hf : f ∈ fs) :
    image (newAddresses fs rows) f.address =
      ((newAddress rows f).map addressOf).getD f.address := by
  induction fs with
  | nil => cases hf
  | cons g fs ih =>
    rw [List.map_cons, List.nodup_cons] at hnodup
    rw [newAddresses, List.filterMap_cons]
    rcases List.mem_cons.mp hf with rfl | hf
    · cases hnew : newAddress rows f with
      | none => exact image_of_not_mem hnodup.1
      | some addr => simp [image]
    · have hne : g.address ≠ f.address := fun heq =>
        hnodup.1 (heq ▸ List.mem_map_of_mem hf)
      rw [← ih hnodup.2 hf]
      cases hnew : newAddress rows g with
      | none => rfl
      | some addr => simp [image, hne, newAddresses]

include hnodup h in
/-- The replacement of an override's address is its own. -/
theorem directory_eq {r : Replacement} (hr : r ∈ rs) {f : OverrideDirectory} (hf : f ∈ fs)
    (heq : r.directory.address = f.address) : r.directory = f :=
  List.inj_on_of_nodup_map hnodup (h.directory r hr).1 hf heq

include hnodup h in
/-- An override without a new address is not replaced. -/
theorem successive_none {f : OverrideDirectory} (hf : f ∈ fs) (hnew : newAddress rows f = none) :
    successive (addresses rs) f.address = f.address := by
  refine successive_of_not_mem fun hmem => ?_
  rw [addresses, List.map_map] at hmem
  obtain ⟨r, hr, heq⟩ := List.mem_map.mp hmem
  have hsome := newAddress_directory h hr
  rw [directory_eq hnodup h hr hf heq, hnew] at hsome
  cases hsome

include hnodup h haddress in
/-- **An override gets its new address exactly when the replacements leave it.** -/
theorem successive_iff_kept {f : OverrideDirectory} (hf : f ∈ fs) {addr : Text}
    (hnew : newAddress rows f = some addr) :
    successive (addresses rs) f.address = addressOf addr ↔ Kept rs f addr := by
  have haddr : addressText (addressOf addr) = addr := addressText_addressOf (haddress f hf _ hnew)
  have hname : ∀ g : OverrideDirectory, g.address = addressOf addr ↔ g.name = addr := by
    intro g
    rw [← marked_addressText.inj.eq_iff, haddr]
    rfl
  unfold Kept
  rcases dropWhile_cases (fun r : Replacement => decide (r.directory.address ≠ f.address)) rs with
    ⟨hdrop, hall⟩ | ⟨before, r, after, hsplit, hdrop, hown, hbefore⟩
  · rw [hdrop, successive_of_not_mem, hname]
    rw [addresses, List.map_map]
    intro hmem
    obtain ⟨r, hr, heq⟩ := List.mem_map.mp hmem
    exact of_decide_eq_true (hall r hr) heq
  · rw [hdrop]
    have hr : r ∈ rs := by
      rw [hsplit]
      exact List.mem_append_right _ List.mem_cons_self
    have hown : r.directory.address = f.address := by simpa using hown
    have hr_addr : r.addr = addr := by
      have hsome := newAddress_directory h hr
      rw [directory_eq hnodup h hr hf hown, hnew] at hsome
      exact (Option.some.inj hsome).symm
    have hpairs : addresses rs = addresses before ++ (f.address, addressOf addr) :: addresses after := by
      rw [hsplit, addresses, List.map_append, List.map_cons, hown, hr_addr]
      rfl
    have hkeys : f.address ∉ (addresses before).map Prod.fst := by
      rw [addresses, List.map_map]
      intro hmem
      obtain ⟨r', hr', heq⟩ := List.mem_map.mp hmem
      exact of_decide_eq_true (hbefore r' hr') heq
    have hvalues : addressOf addr ∉ (addresses after).map Prod.snd := by
      rw [addresses, List.map_map]
      intro hmem
      obtain ⟨r', hr', heq⟩ := List.mem_map.mp hmem
      have hr'_mem : r' ∈ rs := by
        rw [hsplit]
        exact List.mem_append_right _ (List.mem_cons_of_mem _ hr')
      have hsame : r'.addr = r.addr := by
        rw [← addr_eq h haddress hr'_mem, hr_addr, ← haddr]
        exact congrArg addressText heq
      have hunique := h.addr
      rw [hsplit, List.map_append, List.map_cons, List.nodup_append] at hunique
      exact (List.nodup_cons.mp hunique.2.1).1 (hsame ▸ List.mem_map_of_mem hr')
    rw [hpairs, successive_eq_iff hkeys hvalues, addresses, List.forall_mem_map]
    exact forall₂_congr fun r' _ => not_congr (hname r'.directory)

/-! ## Files -/

theorem return_not_mem_translateNewlines (text : Text) : '\r' ∉ translateNewlines text := by
  induction text using translateNewlines.induct with
  | case1 text ih => simpa [translateNewlines] using ih
  | case2 text hnot ih =>
    rw [translateNewlines]
    · simpa using ih
    · exact hnot
  | case3 c text hnot hnot' ih =>
    rw [translateNewlines]
    · rw [List.mem_cons, not_or]
      exact ⟨fun hc => hnot' hc.symm, ih⟩
    · exact hnot
    · exact hnot'
  | case4 => exact List.not_mem_nil

include h haddress in
theorem return_not_mem_rename {text : Text} (htext : '\r' ∉ text) : '\r' ∉ rename rs text := by
  rw [rename_eq h haddress]
  induction addresses rs generalizing text with
  | nil => exact htext
  | cons pair pairs ih =>
    refine ih fun hmem => ?_
    rcases mem_substituteFrom hmem with hmem | ⟨pair', hpair', hmem⟩
    · exact htext hmem
    · obtain rfl := List.mem_singleton.mp hpair'
      exact return_not_mem_addressText _ hmem

include h haddress in
theorem rename_name (f : OverrideDirectory) :
    rename rs f.name = addressText (successive (addresses rs) f.address) := by
  have hsparse : Sparse addressText 'x' [.inr f.address] := .word .nil (by simp)
  have hrender := marked_addressText.replacements_render (addresses rs) hsparse
  rw [rename_eq h haddress]
  simpa [OverrideDirectory.name, addressText] using hrender

include h haddress in
/-- **A file is written as it is claimed** when it has no line ends to translate and the addresses in
it become the new ones. -/
theorem renameFile_iff {text : Text} (hdelimited : Delimited addressText 'x' text) :
    Utf8.encode (rename rs (translateNewlines text)) =
        Utf8.encode (substitute (addressPairs fs rows) text) ↔
      '\r' ∉ text ∧ ∀ k, addressText k <:+: text →
        successive (addresses rs) k = image (newAddresses fs rows) k := by
  rw [addressPairs_eq haddress]
  constructor
  · intro heq
    have heq := Utf8.encode_inj heq
    have hreturn : '\r' ∉ text := by
      rw [← marked_addressText.mem_substitute_iff (newAddresses fs rows) hdelimited
        return_not_mem_addressText, ← heq]
      exact return_not_mem_rename h haddress (return_not_mem_translateNewlines text)
    rw [translateNewlines_eq_self hreturn, rename_eq h haddress,
      marked_addressText.successive_iff _ _ hdelimited] at heq
    exact ⟨hreturn, heq⟩
  · rintro ⟨hreturn, hall⟩
    rw [translateNewlines_eq_self hreturn, rename_eq h haddress,
      (marked_addressText.successive_iff _ _ hdelimited).mpr hall]

include hnodup h haddress in
/-- **The addresses become the new ones** when the replacements leave each override its own. -/
theorem successive_image_iff :
    (∀ k, Occurs rs k → successive (addresses rs) k = image (newAddresses fs rows) k) ↔
      ∀ f ∈ fs, Occurs rs f.address → ∀ addr, newAddress rows f = some addr → Kept rs f addr := by
  have hsome : ∀ f ∈ fs, ∀ addr, newAddress rows f = some addr →
      (successive (addresses rs) f.address = image (newAddresses fs rows) f.address ↔
        Kept rs f addr) := by
    intro f hf addr hnew
    rw [image_address hnodup hf, hnew, ← successive_iff_kept hnodup h haddress hf hnew]
    rfl
  constructor
  · intro hall f hf hocc addr hnew
    exact (hsome f hf addr hnew).mp (hall _ hocc)
  · intro hall k hocc
    by_cases hk : k ∈ fs.map OverrideDirectory.address
    · obtain ⟨f, hf, rfl⟩ := List.mem_map.mp hk
      cases hnew : newAddress rows f with
      | none =>
        rw [image_address hnodup hf, hnew, successive_none hnodup h hf hnew]
        rfl
      | some addr => exact (hsome f hf addr hnew).mpr (hall f hf hocc addr hnew)
    · rw [image_of_not_mem hk]
      refine successive_of_not_mem fun hmem => hk ?_
      rw [addresses, List.map_map] at hmem
      obtain ⟨r, hr, rfl⟩ := List.mem_map.mp hmem
      exact List.mem_map_of_mem (h.directory r hr).1

/-! ## Runs -/

/-- The files of a run are as claimed when each file is. -/
theorem renamedAtOnce_iff_files {tables : List Bytes} {existing : Text → Bool}
    {written : List (Replacement × List (String × Bytes))}
    (hrs : readReplacements fs tables = some rs)
    (hrun : apply_overrides fs tables existing = some written) :
    RenamedAtOnce fs rows written ↔
      ∀ r ∈ rs, ∀ file ∈ r.directory.files, ∀ text, Utf8.decode file.2 = some text →
        Utf8.encode (rename rs (translateNewlines text)) =
          Utf8.encode (substitute (addressPairs fs rows) text) := by
  obtain ⟨rs', hrs', hrun⟩ := Option.bind_eq_some_iff.mp hrun
  obtain rfl := Option.some.inj (hrs.symm.trans hrs')
  have hone : ∀ r w, writeOverride existing rs r = some w → ∃ files,
      r.directory.files.mapM (renameFile rs) = some files ∧ w = (r, files) := by
    intro r w hw
    unfold writeOverride at hw
    split_ifs at hw
    obtain ⟨files, hfiles, rfl⟩ := Option.map_eq_some_iff.mp hw
    exact ⟨files, hfiles, rfl⟩
  have hfile : ∀ (file out : String × Bytes), renameFile rs file = some out →
      ((out.1 = file.1 ∧ ∃ text, Utf8.decode file.2 = some text ∧
          out.2 = Utf8.encode (substitute (addressPairs fs rows) text)) ↔
        ∀ text, Utf8.decode file.2 = some text →
          Utf8.encode (rename rs (translateNewlines text)) =
            Utf8.encode (substitute (addressPairs fs rows) text)) := by
    intro file out hout
    obtain ⟨txt, htxt, rfl⟩ := Option.map_eq_some_iff.mp hout
    obtain ⟨text, htext, rfl⟩ := Option.map_eq_some_iff.mp htxt
    simp [htext]
  have hdirectory : ∀ (r : Replacement) (files : List (String × Bytes)),
      r.directory.files.mapM (renameFile rs) = some files →
      (List.Forall₂ (fun file out => out.1 = file.1 ∧ ∃ text, Utf8.decode file.2 = some text ∧
          out.2 = Utf8.encode (substitute (addressPairs fs rows) text)) r.directory.files files ↔
        ∀ file ∈ r.directory.files, ∀ text, Utf8.decode file.2 = some text →
          Utf8.encode (rename rs (translateNewlines text)) =
            Utf8.encode (substitute (addressPairs fs rows) text)) := by
    intro r files hfiles
    rw [forall₂_iff_of_mapM hfiles]
    refine forall₂_congr fun file hmem => ?_
    obtain ⟨out, hout⟩ := mapM_isSome_iff.mp ⟨files, hfiles⟩ file hmem
    rw [← hfile file out hout]
    exact ⟨fun hall => hall out hout, fun hP out' hout' => Option.some.inj (hout.symm.trans hout') ▸ hP⟩
  constructor
  · intro hall r hr
    obtain ⟨w, hw⟩ := mapM_isSome_iff.mp ⟨written, hrun⟩ r hr
    obtain ⟨files, hfiles, rfl⟩ := hone r w hw
    exact (hdirectory r files hfiles).mp (hall _ ((mem_mapM_iff hrun).mpr ⟨r, hr, hw⟩))
  · intro hall w hw
    obtain ⟨r, hr, hw⟩ := (mem_mapM_iff hrun).mp hw
    obtain ⟨files, hfiles, rfl⟩ := hone r w hw
    exact (hdirectory r files hfiles).mpr (hall r hr)

/-- **The files are those of a substitution at once, and no overrides become one**, exactly when the
replacements do not interfere. -/
theorem renamedAtOnce_iff {fs : List OverrideDirectory} {tables : List Bytes}
    {existing : Text → Bool} {rows : List (Text × Text)} {rs : List Replacement}
    {written : List (Replacement × List (String × Bytes))}
    (hnodup : (fs.map OverrideDirectory.address).Nodup)
    (hrows : targetRows tables = some rows) (hrs : readReplacements fs tables = some rs)
    (hrun : apply_overrides fs tables existing = some written)
    (haddress : ∀ f ∈ fs, ∀ addr, newAddress rows f = some addr →
      ∃ address, addr = addressText address)
    (hdelimited : ∀ f ∈ fs, ∀ file ∈ f.files, ∀ text, Utf8.decode file.2 = some text →
      Delimited addressText 'x' text) :
    RenamedAtOnce fs rows written ∧ Apart fs rs ↔ Unambiguous fs rows rs := by
  have h := replaces_of_read hrows hrs
  have hfiles : RenamedAtOnce fs rows written ↔
      (∀ r ∈ rs, ∀ file ∈ r.directory.files, ∀ text, Utf8.decode file.2 = some text → '\r' ∉ text) ∧
        ∀ k, Occurs rs k → successive (addresses rs) k = image (newAddresses fs rows) k := by
    rw [renamedAtOnce_iff_files hrs hrun]
    have hfile : ∀ r ∈ rs, ∀ file ∈ r.directory.files, ∀ text, Utf8.decode file.2 = some text →
        (Utf8.encode (rename rs (translateNewlines text)) =
          Utf8.encode (substitute (addressPairs fs rows) text) ↔ '\r' ∉ text ∧
            ∀ k, addressText k <:+: text →
              successive (addresses rs) k = image (newAddresses fs rows) k) :=
      fun r hr file hmem text htext => renameFile_iff h haddress
        (hdelimited _ (h.directory r hr).1 file hmem text htext)
    constructor
    · intro hall
      refine ⟨fun r hr file hmem text htext => ?_, ?_⟩
      · exact ((hfile r hr file hmem text htext).mp (hall r hr file hmem text htext)).1
      · rintro k ⟨r, hr, file, hmem, text, htext, hocc⟩
        exact ((hfile r hr file hmem text htext).mp (hall r hr file hmem text htext)).2 k hocc
    · rintro ⟨hreturn, hall⟩ r hr file hmem text htext
      refine (hfile r hr file hmem text htext).mpr ⟨hreturn r hr file hmem text htext, ?_⟩
      exact fun k hocc => hall k ⟨r, hr, file, hmem, text, htext, hocc⟩
  have hname : (∀ k, Occurs rs k → successive (addresses rs) k = image (newAddresses fs rows) k) →
      ∀ f ∈ fs, Occurs rs f.address → rename rs f.name = (newAddress rows f).getD f.name := by
    intro hall f hf hocc
    rw [rename_name h haddress, hall f.address hocc, image_address hnodup hf]
    cases hnew : newAddress rows f with
    | none => rfl
    | some addr => exact addressText_addressOf (haddress f hf addr hnew)
  rw [hfiles]
  constructor
  · rintro ⟨⟨hreturn, hall⟩, hapart⟩
    refine ⟨hreturn, (successive_image_iff hnodup h haddress).mp hall, ?_⟩
    intro f hf f' hf' hne hocc hocc'
    rw [← hname hall f hf hocc, ← hname hall f' hf' hocc']
    exact hapart f hf f' hf' hne hocc hocc'
  · intro hunambiguous
    have hall := (successive_image_iff hnodup h haddress).mpr hunambiguous.kept
    refine ⟨⟨hunambiguous.newlines, hall⟩, ?_⟩
    intro f hf f' hf' hne hocc hocc'
    rw [hname hall f hf hocc, hname hall f' hf' hocc']
    exact hunambiguous.apart f hf f' hf' hne hocc hocc'

end

/-! ## One and two overrides -/

/-- The debug table of some functions. -/
def tableText (rows : List (UInt64 × String)) : Text :=
  rows.flatMap fun row => addressText row.1 ++ '\t' :: row.2.toList ++ ['\n']

/-- An override with a table that has its own name only. -/
def overrideOf (address : UInt64) (name : String) : OverrideDirectory :=
  ⟨address, [("DebugTable.facts", Utf8.encode (tableText [(address, name)]))]⟩

theorem load_table_encode (text : Text) : load_table (Utf8.encode text) = some (tsvRows text) := by
  rw [load_table, Utf8.decode_encode, Option.map_some]

theorem pretty_overrideOf {address : UInt64} {name : String}
    (h : tsvRows (tableText [(address, name)]) = [[addressText address, name.toList]]) :
    (overrideOf address name).pretty = some name.toList := by
  have hget : Dict.get? (overrideOf address name).files "DebugTable.facts" =
      some (Utf8.encode (tableText [(address, name)])) := rfl
  rw [OverrideDirectory.pretty, hget]
  simp [load_table_encode, h, pairOfCells, Dict.ofList, Dict.set, Dict.get?, OverrideDirectory.name,
    overrideOf, addressText]

theorem targetRows_tableText {rows : List (UInt64 × String)} (h : tsvRows (tableText rows) =
      rows.map fun row => [addressText row.1, row.2.toList]) :
    targetRows [Utf8.encode (tableText rows)] =
      some (rows.map fun row => (addressText row.1, row.2.toList)) := by
  have hpairs : ∀ row : UInt64 × String, pairOfCells [addressText row.1, row.2.toList] =
      some (addressText row.1, row.2.toList) := fun _ => rfl
  have hall := mapM_eq_some hpairs rows
  simp [targetRows, load_table_encode, h, List.mapM_map, Function.comp_def, hall]

/-- `f` is at another address in the program. -/
theorem renamedAtOnce_f :
    ∃ rows rs written, targetRows [Utf8.encode (tableText [(0x2000, "f")])] = some rows ∧
      readReplacements [overrideOf 0x1000 "f"] [Utf8.encode (tableText [(0x2000, "f")])] = some rs ∧
      apply_overrides [overrideOf 0x1000 "f"] [Utf8.encode (tableText [(0x2000, "f")])]
        (fun _ => false) = some written ∧
      RenamedAtOnce [overrideOf 0x1000 "f"] rows written ∧ Apart [overrideOf 0x1000 "f"] rs := by
  have hpretty := @pretty_overrideOf 0x1000 "f" rfl
  have hrows := @targetRows_tableText [(0x2000, "f")] rfl
  have hoverrides : readOverrides [overrideOf 0x1000 "f"] =
      some [("f".toList, overrideOf 0x1000 "f")] := by
    simp [readOverrides, hpretty, Dict.ofList, Dict.set]
  have hrs : readReplacements [overrideOf 0x1000 "f"] [Utf8.encode (tableText [(0x2000, "f")])] =
      some [⟨overrideOf 0x1000 "f", addressText 0x2000, "f".toList⟩] := by
    rw [readReplacements, hoverrides, hrows]
    rfl
  have htext : ∀ file ∈ (overrideOf 0x1000 "f").files, ∀ text, Utf8.decode file.2 = some text →
      text = tableText [(0x1000, "f")] := by
    intro file hfile text htext
    rw [List.mem_singleton.mp hfile, Utf8.decode_encode] at htext
    exact (Option.some.inj htext).symm
  obtain ⟨written, hrun⟩ : ∃ written, apply_overrides [overrideOf 0x1000 "f"]
      [Utf8.encode (tableText [(0x2000, "f")])] (fun _ => false) = some written := by
    rw [apply_overrides, hrs]
    simp [writeOverride, overrideOf, renameFile, read_text, Utf8.decode_encode]
  have hnew : newAddress [(addressText 0x2000, "f".toList)] (overrideOf 0x1000 "f") =
      some (addressText 0x2000) := by
    rw [newAddress, hpretty]
    rfl
  refine ⟨_, _, written, hrows, hrs, hrun,
    (renamedAtOnce_iff (by simp) hrows hrs hrun ?_ ?_).mpr ⟨?_, ?_, ?_⟩⟩
  · intro f hf addr haddr
    rw [List.mem_singleton.mp hf] at haddr
    exact ⟨0x2000, (Option.some.inj (hnew.symm.trans haddr)).symm⟩
  · intro f hf file hfile text hdecode
    rw [List.mem_singleton.mp hf] at hfile
    rw [htext file hfile text hdecode]
    exact delimited_of_count (by decide)
  · intro r hr file hfile text hdecode
    rw [List.mem_singleton.mp hr] at hfile
    rw [htext file hfile text hdecode]
    decide
  · intro f hf _ addr _
    rw [List.mem_singleton.mp hf]
    intro r hr
    cases hr
  · intro f hf f' hf' hne
    rw [List.mem_singleton.mp hf, List.mem_singleton.mp hf'] at hne
    exact absurd rfl hne

theorem occurs_overrideOf {rs : List Replacement} {r : Replacement} (hr : r ∈ rs) {address : UInt64}
    {name : String} (h : r.directory = overrideOf address name) : Occurs rs address := by
  refine ⟨r, hr, _, by rw [h]; exact List.mem_cons_self, _, Utf8.decode_encode _, ?_⟩
  rw [tableText, List.flatMap_singleton, List.append_assoc]
  exact (List.prefix_append _ _).isInfix

/-- Two overrides, and a program in which `f` has the address that `g` has of its own. -/
def twoOverrides : List OverrideDirectory := [overrideOf 0x1000 "f", overrideOf 0x2000 "g"]

def twoNames : List (UInt64 × String) := [(0x2000, "f"), (0x3000, "g")]

def twoReplacements : List Replacement :=
  [⟨overrideOf 0x1000 "f", addressText 0x2000, "f".toList⟩,
    ⟨overrideOf 0x2000 "g", addressText 0x3000, "g".toList⟩]

/-- The new address of `f` is replaced by that of `g`. -/
theorem two_not_renamedAtOnce :
    ∃ rows written, targetRows [Utf8.encode (tableText twoNames)] = some rows ∧
      readReplacements twoOverrides [Utf8.encode (tableText twoNames)] = some twoReplacements ∧
      apply_overrides twoOverrides [Utf8.encode (tableText twoNames)] (fun _ => false) =
        some written ∧
      ¬ RenamedAtOnce twoOverrides rows written ∧ ¬ Apart twoOverrides twoReplacements := by
  have hf := @pretty_overrideOf 0x1000 "f" rfl
  have hg := @pretty_overrideOf 0x2000 "g" rfl
  have hrows := @targetRows_tableText twoNames rfl
  have hoverrides : readOverrides twoOverrides =
      some [("f".toList, overrideOf 0x1000 "f"), ("g".toList, overrideOf 0x2000 "g")] := by
    simp [readOverrides, twoOverrides, hf, hg, Dict.ofList, Dict.set]
  have hrs : readReplacements twoOverrides [Utf8.encode (tableText twoNames)] =
      some twoReplacements := by
    rw [readReplacements, hoverrides, hrows]
    rfl
  obtain ⟨written, hrun⟩ : ∃ written, apply_overrides twoOverrides
      [Utf8.encode (tableText twoNames)] (fun _ => false) = some written := by
    rw [apply_overrides, hrs]
    simp [twoReplacements, writeOverride, overrideOf, renameFile, read_text, Utf8.decode_encode]
  have hpairs : addressPairs twoOverrides (twoNames.map fun row => (addressText row.1, row.2.toList)) =
      [(addressText 0x1000, addressText 0x2000), (addressText 0x2000, addressText 0x3000)] := by
    rw [addressPairs, twoOverrides, List.filterMap_cons, List.filterMap_cons, newAddress, newAddress,
      hf, hg]
    rfl
  have hmerged : rename twoReplacements (addressText 0x1000) =
      rename twoReplacements (addressText 0x2000) := by decide
  refine ⟨_, written, hrows, hrs, hrun, fun hall => ?_, fun hapart => ?_⟩
  · have hfirst := (renamedAtOnce_iff_files hrs hrun).mp hall _ List.mem_cons_self _
      List.mem_cons_self _ (Utf8.decode_encode _)
    rw [hpairs] at hfirst
    exact absurd (Utf8.encode_inj hfirst) (by decide)
  · have hne : (overrideOf 0x1000 "f").address ≠ (overrideOf 0x2000 "g").address := by decide
    exact hapart _ List.mem_cons_self _ (List.mem_cons_of_mem _ List.mem_cons_self) hne
      (occurs_overrideOf List.mem_cons_self rfl)
      (occurs_overrideOf (List.mem_cons_of_mem _ List.mem_cons_self) rfl) hmerged

end Bracelet.Overrides
