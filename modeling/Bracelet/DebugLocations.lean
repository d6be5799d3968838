import Bracelet.EdgeOutput
import Mathlib.Data.List.TakeWhile

/-!
# Debug locations in the names of locals

The name of a local starts with the debug location of its instruction, followed by a `|` and the
name of the value (`nameWithLocation`).  `bracelet-edges` takes the location apart again to look up
its addresses (`emitAddresses`): here by places in the name, in `printedPosition` by what stands
before and after its separators.

A location is the position of an instruction and, if it was inlined, those of the calls that it was
inlined at.  Names are bytes: `:` is 58, `|` 124, a space 32, `/` 47, `@` 64, `[` 91 and `0` 48.
-/
namespace Bracelet.Edges.DebugLocations

/-! ## Printing -/

structure DebugLoc where
  file : Bytes
  line : UInt32
  col : UInt32

def decimal (n : Nat) : Bytes := (Nat.toDigits 10 n).map fun c => UInt8.ofNat c.toNat

/-- `<file>:<line>[:<col>]` -/
def DebugLoc.position (l : DebugLoc) : Bytes :=
  l.file ++ 58 :: decimal l.line.toNat ++ if l.col = 0 then [] else 58 :: decimal l.col.toNat

/-- `DebugLoc::print` -/
def print : DebugLoc → List DebugLoc → Bytes
  | l, [] => l.position
  | l, inlinedAt :: calls => l.position ++ ascii " @[ " ++ print inlinedAt calls ++ ascii " ]"

/-- The name that is given to an instruction, which prints as `operand` if it has none. -/
def valueName (LocalName operand : Bytes) : Bytes := if LocalName = [] then operand else LocalName

def nameWithLocation (NoIncludeDebugData : Bool) (DL : Option (DebugLoc × List DebugLoc))
    (LocalName operand : Bytes) : Bytes :=
  if NoIncludeDebugData then []
  else (match DL with
    | none => []
    | some (l, inlinedAt) => print l inlinedAt) ++ 124 :: valueName LocalName operand

/-! ## Separators -/

/-- What stands before the first place of a byte. -/
def before (b : UInt8) (bytes : Bytes) : Bytes := bytes.takeWhile (· != b)

/-- What stands after it. -/
def after (b : UInt8) (bytes : Bytes) : Bytes := (bytes.dropWhile (· != b)).tail

theorem bne_of_not_mem {b : UInt8} {a : Bytes} (h : b ∉ a) : ∀ c ∈ a, (c != b) = true := by
  intro c hc
  rw [bne_iff_ne]
  rintro rfl
  exact h hc

theorem before_append {b : UInt8} {a : Bytes} (h : b ∉ a) (rest : Bytes) :
    before b (a ++ b :: rest) = a := by
  unfold before
  rw [List.takeWhile_append_of_pos (bne_of_not_mem h)]
  simp

theorem after_append {b : UInt8} {a : Bytes} (h : b ∉ a) (rest : Bytes) :
    after b (a ++ b :: rest) = rest := by
  unfold after
  rw [List.dropWhile_append_of_pos (bne_of_not_mem h)]
  simp

theorem before_of_not_mem {b : UInt8} {a : Bytes} (h : b ∉ a) : before b a = a := by
  exact List.takeWhile_eq_self_iff.mpr (bne_of_not_mem h)

/-- Only what stands before the first place counts. -/
theorem before_append_cons (b : UInt8) (a rest : Bytes) :
    before b (a ++ b :: rest) = before b a := by
  by_cases h : b ∈ a
  · obtain ⟨x, y, rfl, hx⟩ := List.eq_append_cons_of_mem h
    rw [List.append_assoc, List.cons_append, before_append hx, before_append hx]
  · rw [before_append h, before_of_not_mem h]

/-- Without the calls that an instruction was inlined at. -/
def trimInlined (Name : Bytes) : Bytes :=
  match find (ascii "@[") Name with
  | some InlineLoc => Name.take InlineLoc
  | none => Name

theorem trimInlined_nil : trimInlined [] = [] := rfl

theorem trimInlined_cons (b : UInt8) (bytes : Bytes) : trimInlined (b :: bytes) =
    if (ascii "@[").isPrefixOf (b :: bytes) then [] else b :: trimInlined bytes := by
  unfold trimInlined
  rw [find]
  split_ifs with h
  · rfl
  · cases find (ascii "@[") bytes <;> rfl

/-- The two bytes that the calls start with are in the text. -/
def HasInlined (text : Bytes) : Prop := [64, 91] <:+: text

theorem isPrefixOf_inlined {text : Bytes} :
    (ascii "@[").isPrefixOf text = true ↔ [64, 91] <+: text := by
  rw [List.isPrefixOf_iff_prefix]
  rfl

theorem trimInlined_append {a rest : Bytes} (h : ¬ HasInlined a) (hrest : rest.head? ≠ some 91) :
    trimInlined (a ++ rest) = a ++ trimInlined rest := by
  induction a with
  | nil => rfl
  | cons b a ih =>
    have htail : ¬ HasInlined a := by
      intro hmem
      exact h (hmem.trans (List.infix_cons_iff.mpr (Or.inr List.infix_rfl)))
    have hprefix : ¬ (ascii "@[").isPrefixOf (b :: (a ++ rest)) = true := by
      rw [isPrefixOf_inlined, List.cons_prefix_cons]
      rintro ⟨rfl, hnext⟩
      cases a with
      | nil =>
        obtain ⟨more, rfl⟩ := hnext
        exact hrest rfl
      | cons c a =>
        obtain ⟨rfl, -⟩ := List.cons_prefix_cons.mp hnext
        exact h ⟨[], a, rfl⟩
    rw [List.cons_append, trimInlined_cons, if_neg hprefix, ih htail, List.cons_append]

theorem trimInlined_append_of_hasInlined {a : Bytes} (h : HasInlined a) (rest : Bytes) :
    trimInlined (a ++ rest) = trimInlined a := by
  induction a with
  | nil => exact absurd (List.infix_nil.mp h) (List.cons_ne_nil _ _)
  | cons b a ih =>
    rw [List.cons_append, trimInlined_cons, trimInlined_cons]
    by_cases hprefix : [64, 91] <+: b :: a
    · have hlonger : [64, 91] <+: b :: (a ++ rest) :=
        hprefix.trans (List.prefix_append (b :: a) rest)
      rw [if_pos (isPrefixOf_inlined.mpr hprefix), if_pos (isPrefixOf_inlined.mpr hlonger)]
    · have htail : HasInlined a := (List.infix_cons_iff.mp h).resolve_left hprefix
      have hlonger : ¬ [64, 91] <+: b :: (a ++ rest) := by
        intro hlong
        apply hprefix
        have hlength : ([64, 91] : Bytes).length ≤ (b :: a).length := h.length_le
        exact List.prefix_of_prefix_length_le hlong (List.prefix_append (b :: a) rest) hlength
      rw [if_neg (fun hp => hprefix (isPrefixOf_inlined.mp hp)),
        if_neg (fun hp => hlonger (isPrefixOf_inlined.mp hp)), ih htail]

/-! ## Places in a name -/

theorem mem_iff_append {b : UInt8} {bytes : Bytes} (h : b ∈ bytes) :
    bytes = before b bytes ++ b :: after b bytes ∧ b ∉ before b bytes := by
  obtain ⟨a, rest, rfl, ha⟩ := List.eq_append_cons_of_mem h
  rw [before_append ha, after_append ha]
  exact ⟨rfl, ha⟩

theorem findFrom_append {b : UInt8} {a rest : Bytes} {start : Nat} (hstart : start ≤ a.length)
    (ha : b ∉ a.drop start) :
    findFrom b (a ++ rest) start = (findFrom b rest 0).map (· + a.length) := by
  have hnone : (a.drop start).findIdx? (· == b) = none := by
    rw [List.findIdx?_eq_none_iff]
    intro c hc
    rw [beq_eq_false_iff_ne]
    rintro rfl
    exact ha hc
  unfold findFrom
  rw [List.drop_append_of_le_length hstart, List.findIdx?_append, hnone, List.drop_zero,
    Option.none_or, List.length_drop, Option.map_map, Option.map_map]
  congr 1
  funext i
  simp only [Function.comp_apply]
  omega

theorem findFrom_self (b : UInt8) (rest : Bytes) : findFrom b (b :: rest) 0 = some 0 := by
  simp [findFrom, List.findIdx?_cons]

theorem findFrom_zero_eq_none {b : UInt8} {bytes : Bytes} :
    findFrom b bytes 0 = none ↔ b ∉ bytes := by
  simp only [findFrom, List.drop_zero, Option.map_eq_none_iff, List.findIdx?_eq_none_iff,
    beq_eq_false_iff_ne]
  exact ⟨fun h hb => h b hb rfl, fun h c hc heq => h (heq ▸ hc)⟩

/-- The first place of a byte. -/
theorem findFrom_zero (b : UInt8) (bytes : Bytes) :
    findFrom b bytes 0 = if b ∈ bytes then some (before b bytes).length else none := by
  split_ifs with h
  · obtain ⟨heq, hnot⟩ := mem_iff_append h
    conv_lhs => rw [heq]
    rw [findFrom_append (Nat.zero_le _) (by simpa using hnot), findFrom_self]
    simp
  · exact findFrom_zero_eq_none.mpr h

/-- The last place of a byte in a text. -/
theorem rfind_append {b c : UInt8} (hne : c ≠ b) (a rest : Bytes) :
    rfind b (a ++ c :: rest) a.length = rfind b a a.length := by
  have hleft : min (a.length + 1) (a ++ c :: rest).length = a.length + 1 := by
    rw [List.length_append, List.length_cons]
    omega
  have hright : min (a.length + 1) a.length = a.length := by omega
  unfold rfind
  rw [hleft, hright, List.range_succ, List.reverse_append, List.reverse_singleton,
    List.singleton_append, List.find?_cons]
  have hlast : ((a ++ c :: rest)[a.length]? == some b) = false := by
    rw [List.getElem?_append_right le_rfl, Nat.sub_self, List.getElem?_cons_zero]
    simpa using hne
  rw [hlast]
  apply List.find?_congr
  intro i hi
  rw [List.mem_reverse, List.mem_range] at hi
  rw [List.getElem?_append_left hi]

theorem rfind_eq_none {b : UInt8} {a : Bytes} (h : b ∉ a) : rfind b a a.length = none := by
  unfold rfind
  rw [List.find?_eq_none]
  intro i _ heq
  rw [beq_iff_eq] at heq
  exact h (List.mem_of_getElem? heq)

theorem rfind_last {b : UInt8} {a rest : Bytes} (h : b ∉ rest) :
    rfind b (a ++ b :: rest) (a ++ b :: rest).length = some a.length := by
  -- The last byte of a text is at its length but one.
  have hlast : ∀ (text : Bytes) (c : UInt8),
      rfind b (text ++ [c]) (text ++ [c]).length = rfind b (text ++ [c]) text.length := by
    intro text c
    unfold rfind
    rw [List.length_append, List.length_singleton, Nat.min_eq_right (Nat.le_succ _), Nat.min_self]
  induction rest using List.reverseRecOn with
  | nil =>
    rw [hlast, rfind, List.length_append, List.length_singleton, Nat.min_self, List.range_succ,
      List.reverse_append, List.reverse_singleton, List.singleton_append, List.find?_cons]
    simp
  | append_singleton rest c ih =>
    rw [List.mem_append, List.mem_singleton, not_or] at h
    rw [← List.cons_append, ← List.append_assoc, hlast, rfind_append (Ne.symm h.2), ih h.1]

theorem rfind_lt {b : UInt8} {a : Bytes} {i : Nat} (h : rfind b a a.length = some i) :
    i < a.length := by
  have hmem := List.mem_of_find?_eq_some h
  rw [List.mem_reverse, List.mem_range] at hmem
  omega

/-! ## What is looked up -/

/-- The name of the file: what follows the last slash or space of the text before the line. -/
def fileName (path : Bytes) : Bytes :=
  let Space := (rfind 32 path path.length).getD 0
  let Slash := (rfind 47 path path.length).getD 0
  path.drop (max Space Slash + if Space = 0 ∧ Slash = 0 then 0 else 1)

/-- The position that is looked up, by the text before the first colon and what follows it. -/
def positionAfter (asserts : Bool) (path rest : Bytes) : Result (Option SourceLocation) := do
  assert asserts (path != [])
  if 58 ∉ rest then return none else
  let LineNoStr := before 58 rest
  let tail := after 58 rest
  if LineNoStr.head? = some 48 then return none else
  if 124 ∉ tail ∧ 32 ∉ tail then return none else
  let ColumnNoStr := tail.takeWhile fun b => b != 124 && b != 32
  match SimpleAtoi LineNoStr, SimpleAtoi ColumnNoStr with
  | none, _ => .error (.error [s!"Invalid line number: {showBytes LineNoStr}"])
  | _, none => .error (.error [s!"Invalid column number: {showBytes ColumnNoStr}"])
  | some LineNo, some ColumnNo => return some ⟨fileName path, LineNo, ColumnNo⟩

/-- **The position that the name of a local is looked up by**, if any. -/
def printedPosition (asserts : Bool) (Name : Bytes) : Result (Option SourceLocation) :=
  if 124 ∈ Name ∧ 58 ∈ trimInlined Name then
    positionAfter asserts (before 58 (trimInlined Name)) (after 58 (trimInlined Name))
  else .ok none

/-- The lines of `NodeInstructions` for the addresses of a position. -/
def addressesOf (slm : SourceLocation → List (Address × Address)) (N : Node) :
    Option SourceLocation → Result (List (Address × Node))
  | none => .ok []
  | some position => expandRanges N (slm position)

/-- `emitAddresses` once the calls are trimmed off the name. -/
def emitTrimmed (asserts : Bool) (slm : SourceLocation → List (Address × Address)) (N : Node)
    (Name : Bytes) : Result (List (Address × Node)) :=
  match findFrom 58 Name 0 with
  | none => return []
  | some LineNoStart => do
    let Space := (rfind 32 Name LineNoStart).getD 0
    let Slash := (rfind 47 Name LineNoStart).getD 0
    let FileNameStart := max Space Slash
    assert asserts (FileNameStart < LineNoStart)
    let skipped := if Space = 0 ∧ Slash = 0 then 0 else 1
    let FileName :=
      substr Name (FileNameStart + skipped) (LineNoStart - FileNameStart - skipped)
    match findFrom 58 Name (LineNoStart + 1) with
    | none => return []
    | some ColumnNoStart =>
      let LineNoStr := substr Name (LineNoStart + 1) (ColumnNoStart - LineNoStart - 1)
      if LineNoStr.head? = some 48 then return [] else
      match findFrom 124 Name ColumnNoStart, findFrom 32 Name ColumnNoStart with
      | none, none => return []
      | bar, space =>
        let EndOfColumnNo := min (bar.getD Name.length) (space.getD Name.length)
        let ColumnNoStr := substr Name (ColumnNoStart + 1) (EndOfColumnNo - ColumnNoStart - 1)
        match SimpleAtoi LineNoStr, SimpleAtoi ColumnNoStr with
        | none, _ => .error (.error [s!"Invalid line number: {showBytes LineNoStr}"])
        | _, none => .error (.error [s!"Invalid column number: {showBytes ColumnNoStr}"])
        | some LineNo, some ColumnNo =>
          addressesOf slm N (some ⟨FileName, LineNo, ColumnNo⟩)

theorem emitAddresses_trimmed {asserts : Bool} {env : EdgeOutput} {fi : FunctionInfo} {N : Node}
    {local_idx : Nat} {slm : SourceLocation → List (Address × Address)} {Name : Bytes}
    (hslm : env.slm = some slm) (hlocals : fi.debug_data.has_locals = true)
    (hName : fi.debug_data.local_name local_idx = .ok Name) :
    emitAddresses asserts env fi N local_idx =
      if 124 ∈ Name then emitTrimmed asserts slm N (trimInlined Name) else .ok [] := by
  unfold emitAddresses trimInlined
  rw [hslm]
  simp only [hlocals, hName, Bool.not_true, Bool.false_eq_true, if_false, ok_bind]
  rw [findFrom_zero]
  split_ifs
  · cases find (ascii "@[") Name <;> rfl
  · rfl

/-- The end of the column: the first `|` or space. -/
theorem takeWhile_eq_take (tail : Bytes) :
    (tail.takeWhile fun b => b != 124 && b != 32) =
      tail.take (min ((findFrom 124 tail 0).getD tail.length)
        ((findFrom 32 tail 0).getD tail.length)) := by
  induction tail with
  | nil => rfl
  | cons b tail ih =>
    by_cases hbar : b = 124
    · subst hbar
      simp [findFrom_self]
    by_cases hspace : b = 32
    · subst hspace
      simp [findFrom_self]
    have hnext : ∀ c, c ≠ b →
        (findFrom c (b :: tail) 0).getD (b :: tail).length =
          (findFrom c tail 0).getD tail.length + 1 := by
      intro c hc
      have h := @findFrom_append c [b] tail 0 (Nat.zero_le _) (by simpa using hc)
      rw [List.singleton_append] at h
      rw [h]
      cases findFrom c tail 0 <;> rfl
    rw [hnext 124 (Ne.symm hbar), hnext 32 (Ne.symm hspace), Nat.add_min_add_right,
      List.take_succ_cons, ← ih]
    simp [hbar, hspace]

/-- The file name starts inside of the text before the line. -/
theorem fileNameStart_lt (path : Bytes) :
    max ((rfind 32 path path.length).getD 0) ((rfind 47 path path.length).getD 0) < path.length ↔
      path ≠ [] := by
  have hlt : ∀ b, path ≠ [] → (rfind b path path.length).getD 0 < path.length := by
    intro b hne
    cases h : rfind b path path.length with
    | none => exact List.length_pos_iff.mpr hne
    | some i => exact rfind_lt h
  constructor
  · rintro h rfl
    exact Nat.not_lt_zero _ h
  · intro hne
    exact max_lt (hlt 32 hne) (hlt 47 hne)

theorem substr_eq_fileName (path rest : Bytes) :
    let Space := (rfind 32 path path.length).getD 0
    let Slash := (rfind 47 path path.length).getD 0
    let skipped := if Space = 0 ∧ Slash = 0 then 0 else 1
    substr (path ++ rest) (max Space Slash + skipped) (path.length - max Space Slash - skipped) =
      fileName path := by
  intro Space Slash skipped
  have hle : max Space Slash + skipped ≤ path.length := by
    by_cases hne : path = []
    · subst hne
      rfl
    · have hlt := (fileNameStart_lt path).mpr hne
      have hone : skipped ≤ 1 := by
        unfold skipped
        split_ifs <;> omega
      exact le_trans (Nat.add_le_add_left hone _) hlt
  rw [substr, List.drop_append_of_le_length hle]
  exact List.take_left' (by rw [List.length_drop, Nat.sub_sub])

theorem substr_append (a rest : Bytes) (count : Nat) :
    substr (a ++ rest) a.length count = rest.take count := by
  rw [substr, List.drop_left]

theorem emitTrimmed_eq (asserts : Bool) (slm : SourceLocation → List (Address × Address)) (N : Node)
    {path rest : Bytes} (hpath : 58 ∉ path) :
    emitTrimmed asserts slm N (path ++ 58 :: rest) =
      positionAfter asserts path rest >>= addressesOf slm N := by
  have hcolon : findFrom 58 (path ++ 58 :: rest) 0 = some path.length := by
    rw [findFrom_append (Nat.zero_le _) hpath, findFrom_self]
    simp
  have hnext : findFrom 58 (path ++ 58 :: rest) (path.length + 1) =
      (findFrom 58 rest 0).map (· + (path.length + 1)) := by
    have h := @findFrom_append 58 (path ++ [58]) rest (path.length + 1) (by simp) (by simp)
    simpa using h
  have hassert : decide (max ((rfind 32 path path.length).getD 0)
      ((rfind 47 path path.length).getD 0) < path.length) = (path != []) := by
    by_cases hne : path = []
    · subst hne
      rfl
    · rw [decide_eq_true ((fileNameStart_lt path).mpr hne)]
      exact (bne_iff_ne.mpr hne).symm
  unfold emitTrimmed positionAfter
  rw [hcolon]
  simp only [rfind_append (show (58 : UInt8) ≠ 32 by decide),
    rfind_append (show (58 : UInt8) ≠ 47 by decide), hnext, substr_eq_fileName, hassert]
  cases assert asserts (path != []) with
  | error e => rfl
  | ok u =>
    simp only [ok_bind]
    by_cases hrest : 58 ∈ rest
    · obtain ⟨heq, hline⟩ := mem_iff_append hrest
      rw [findFrom_zero, if_pos hrest, if_neg (not_not.mpr hrest)]
      generalize before 58 rest = LineNoStr at *
      generalize after 58 rest = tail at *
      subst heq
      -- The text up to the column, with its colon.
      obtain ⟨start, hstart⟩ : ∃ start, start = path ++ 58 :: LineNoStr ++ [58] := ⟨_, rfl⟩
      have hlength : start.length = LineNoStr.length + (path.length + 1) + 1 := by
        rw [hstart]
        simp only [List.length_append, List.length_cons, List.length_nil]
        omega
      have hName : path ++ 58 :: (LineNoStr ++ 58 :: tail) = start ++ tail := by
        rw [hstart]
        simp
      have hLineNo : substr (start ++ tail) (path.length + 1)
          (LineNoStr.length + (path.length + 1) - path.length - 1) = LineNoStr := by
        have h := substr_append (path ++ [58]) (LineNoStr ++ 58 :: tail) LineNoStr.length
        have hcount : LineNoStr.length + (path.length + 1) - path.length - 1 = LineNoStr.length := by
          omega
        rw [List.length_append, List.length_singleton, List.append_assoc, List.singleton_append,
          hName, List.take_left] at h
        rw [hcount, h]
      have hEnd : ∀ c, c ≠ 58 → findFrom c (start ++ tail) (LineNoStr.length + (path.length + 1)) =
          (findFrom c tail 0).map (· + start.length) := by
        intro c hc
        apply findFrom_append (by omega)
        rw [hstart, List.drop_left' (by simp; omega)]
        simpa using hc
      have hColumnNo : ∀ bar space : Option Nat,
          substr (start ++ tail) (LineNoStr.length + (path.length + 1) + 1)
            (min ((bar.map (· + start.length)).getD (start ++ tail).length)
              ((space.map (· + start.length)).getD (start ++ tail).length) -
              (LineNoStr.length + (path.length + 1)) - 1) =
          tail.take (min (bar.getD tail.length) (space.getD tail.length)) := by
        intro bar space
        have hplace : ∀ o : Option Nat, (o.map (· + start.length)).getD (start ++ tail).length =
            o.getD tail.length + start.length := by
          intro o
          cases o with
          | none => rw [Option.map_none, Option.getD_none, Option.getD_none, List.length_append,
              Nat.add_comm]
          | some i => rfl
        rw [hplace, hplace, Nat.add_min_add_right, ← hlength, substr_append]
        congr 1
        omega
      rw [hName]
      simp only [Option.map_some, hLineNo, hEnd 124 (by decide), hEnd 32 (by decide)]
      by_cases hhead : LineNoStr.head? = some 48
      · rw [if_pos hhead, if_pos hhead]
        rfl
      rw [if_neg hhead, if_neg hhead, takeWhile_eq_take]
      have hColumn := hColumnNo (findFrom 124 tail 0) (findFrom 32 tail 0)
      by_cases hend : 124 ∉ tail ∧ 32 ∉ tail
      · rw [if_pos hend, findFrom_zero_eq_none.mpr hend.1, findFrom_zero_eq_none.mpr hend.2]
        rfl
      rw [if_neg hend]
      cases hbar : findFrom 124 tail 0 with
      | none =>
        cases hspace : findFrom 32 tail 0 with
        | none => exact absurd ⟨findFrom_zero_eq_none.mp hbar, findFrom_zero_eq_none.mp hspace⟩ hend
        | some space =>
          rw [hbar, hspace, Option.map_none, Option.map_some] at hColumn
          simp only [Option.map_none, Option.map_some, hColumn]
          cases SimpleAtoi LineNoStr <;> [rfl; cases SimpleAtoi _ <;> rfl]
      | some bar =>
        rw [hbar, Option.map_some] at hColumn
        simp only [Option.map_some, hColumn]
        cases SimpleAtoi LineNoStr <;> [rfl; cases SimpleAtoi _ <;> rfl]
    · rw [findFrom_zero, if_neg hrest, if_pos hrest]
      rfl

/-- **`emitAddresses` writes the addresses of the printed position.** -/
theorem emitAddresses_eq {asserts : Bool} {env : EdgeOutput} {fi : FunctionInfo} {N : Node}
    {local_idx : Nat} {slm : SourceLocation → List (Address × Address)} {Name : Bytes}
    (hslm : env.slm = some slm) (hlocals : fi.debug_data.has_locals = true)
    (hName : fi.debug_data.local_name local_idx = .ok Name) :
    emitAddresses asserts env fi N local_idx =
      printedPosition asserts Name >>= addressesOf slm N := by
  rw [emitAddresses_trimmed hslm hlocals hName, printedPosition]
  by_cases hbar : 124 ∈ Name
  · by_cases hcolon : 58 ∈ trimInlined Name
    · rw [if_pos hbar, if_pos ⟨hbar, hcolon⟩]
      obtain ⟨heq, hpath⟩ := mem_iff_append hcolon
      conv_lhs => rw [heq]
      exact emitTrimmed_eq asserts slm N hpath
    · rw [if_pos hbar, if_neg fun h => hcolon h.2, emitTrimmed, findFrom_zero, if_neg hcolon]
      rfl
  · rw [if_neg hbar, if_neg fun h => hbar h.1]
    rfl

end Bracelet.Edges.DebugLocations
