import Bracelet.Signatures
import Mathlib.Data.List.TakeWhile

/-!
# Base names of signatures

`extract_fname` cuts a signature at its first opening parenthesis and takes what follows the last
`::`.  This gives the name of the function if the first parenthesis is that of the parameters and
the last separator is that of the name (`extract_fname_iff`): not for template functions, which
have a returned type and template arguments, nor where a parenthesis comes before.
-/
namespace Bracelet.Signatures

/-! ## Components -/

def separator : List Char := [':', ':']

theorem last_component_nil (current : List Char) : last_component current [] = current := by
  rw [last_component]

theorem last_component_separator (current rest : List Char) :
    last_component current (':' :: ':' :: rest) = last_component [] rest := by
  rw [last_component]

theorem last_component_cons {c : Char} {text : List Char} (current : List Char)
    (h : c = ':' → text.head? ≠ some ':') :
    last_component current (c :: text) = last_component (current ++ [c]) text := by
  rw [last_component]
  rintro rest rfl rfl
  exact h rfl rfl

/-- A text is gone through from separator to separator. -/
theorem separator_induction {motive : List Char → Prop} (nil : motive [])
    (separator : ∀ rest, motive rest → motive (':' :: ':' :: rest))
    (cons : ∀ c text, (c = ':' → text.head? ≠ some ':') → motive text → motive (c :: text))
    (text : List Char) : motive text := by
  induction hn : text.length using Nat.strong_induction_on generalizing text with
  | _ n ih =>
    subst hn
    cases text with
    | nil => exact nil
    | cons c text =>
      by_cases h : c = ':' → text.head? ≠ some ':'
      · exact cons c text h (ih text.length (Nat.lt_succ_self _) text rfl)
      · rw [Classical.not_imp, not_not, List.head?_eq_some_iff] at h
        obtain ⟨rfl, rest, rfl⟩ := h
        exact separator rest (ih rest.length (by simp) rest rfl)

/-- Two texts are gone through in order, unless a separator begins in the one and ends in the
other. -/
theorem last_component_append {a b : List Char}
    (h : a.getLast? = some ':' → b.head? ≠ some ':') (current : List Char) :
    last_component current (a ++ b) = last_component (last_component current a) b := by
  induction a using separator_induction generalizing current with
  | nil => rw [List.nil_append, last_component_nil]
  | separator rest ih =>
    rw [List.cons_append, List.cons_append, last_component_separator, last_component_separator]
    apply ih
    intro hlast
    apply h
    rw [List.getLast?_cons_cons, List.getLast?_cons, hlast]
    rfl
  | cons c text hc ih =>
    have hnext : c = ':' → (text ++ b).head? ≠ some ':' := by
      rintro rfl
      cases text with
      | nil => exact h rfl
      | cons d text => exact hc rfl
    rw [List.cons_append, last_component_cons current hnext, last_component_cons current hc]
    apply ih
    intro hlast
    apply h
    rw [List.getLast?_cons, hlast]
    rfl

theorem prefix_separator_iff {c : Char} {text : List Char} :
    separator <+: c :: text ↔ c = ':' ∧ text.head? = some ':' := by
  rw [separator, List.cons_prefix_cons, List.head?_eq_some_iff]
  constructor
  · rintro ⟨rfl, rest, rfl⟩
    exact ⟨rfl, rest, rfl⟩
  · rintro ⟨rfl, rest, rfl⟩
    exact ⟨rfl, rest, rfl⟩

theorem infix_separator_cons {c : Char} {text : List Char} (h : c = ':' → text.head? ≠ some ':') :
    separator <:+: c :: text ↔ separator <:+: text := by
  rw [List.infix_cons_iff, prefix_separator_iff]
  exact or_iff_right fun hc => h hc.1 hc.2

theorem last_component_eq_append {text : List Char} (h : ¬ separator <:+: text)
    (current : List Char) : last_component current text = current ++ text := by
  induction text using separator_induction generalizing current with
  | nil => rw [last_component_nil, List.append_nil]
  | separator rest => exact absurd ⟨[], rest, rfl⟩ h
  | cons c text hc ih =>
    rw [infix_separator_cons hc] at h
    rw [last_component_cons current hc, ih h, List.append_assoc, List.singleton_append]

theorem last_component_of_separated {text : List Char} (h : separator <:+: text)
    (current : List Char) : last_component current text = last_component [] text := by
  induction text using separator_induction generalizing current with
  | nil => exact absurd (List.infix_nil.mp h) (List.cons_ne_nil _ _)
  | separator rest => rw [last_component_separator, last_component_separator]
  | cons c text hc ih =>
    rw [infix_separator_cons hc] at h
    rw [last_component_cons current hc, last_component_cons [] hc, ih h, ← ih h ([] ++ [c])]

/-- The last component is what follows a separator, or everything. -/
theorem last_component_cases (current text : List Char) :
    last_component current text = current ++ text ∨
      ∃ a, text = a ++ (separator ++ last_component current text) := by
  induction text using separator_induction generalizing current with
  | nil => exact Or.inl (by rw [last_component_nil, List.append_nil])
  | separator rest ih =>
    rw [last_component_separator]
    rcases ih [] with heq | ⟨a, heq⟩
    · exact Or.inr ⟨[], by rw [heq]; rfl⟩
    · exact Or.inr ⟨':' :: ':' :: a, by rw [List.cons_append, List.cons_append, ← heq]⟩
  | cons c text hc ih =>
    rw [last_component_cons current hc]
    rcases ih (current ++ [c]) with heq | ⟨a, heq⟩
    · exact Or.inl (by rw [heq, List.append_assoc, List.singleton_append])
    · exact Or.inr ⟨c :: a, by rw [List.cons_append, ← heq]⟩

/-- A component ends where the text does. -/
theorem mem_getLast?_of_last_component {text : List Char} {x : Char}
    (h : x ∈ (last_component [] text).getLast?) : x ∈ text.getLast? := by
  rcases last_component_cases [] text with heq | ⟨a, heq⟩
  · rwa [heq] at h
  · rw [heq, ← List.append_assoc]
    exact List.mem_getLast?_append_of_mem_getLast? h

/-- A component has no separators. -/
theorem not_infix_last_component {current text : List Char} (hcurrent : ¬ separator <:+: current)
    (h : current.getLast? = some ':' → text.head? ≠ some ':') :
    ¬ separator <:+: last_component current text := by
  induction text using separator_induction generalizing current with
  | nil => rwa [last_component_nil]
  | separator rest ih =>
    rw [last_component_separator]
    exact ih (by decide) (by simp)
  | cons c text hc ih =>
    rw [last_component_cons current hc]
    apply ih
    · rw [List.infix_concat_iff, not_or]
      refine ⟨?_, hcurrent⟩
      rintro ⟨a, ha⟩
      have heq : (a ++ [':']) ++ [':'] = current ++ [c] := by
        rw [← ha, separator, List.append_assoc]
        rfl
      obtain ⟨rfl, hc⟩ := List.append_inj' heq rfl
      obtain rfl := List.head_eq_of_cons_eq hc
      exact h (List.getLast?_concat ..) rfl
    · rw [List.getLast?_concat]
      exact fun hlast => hc (Option.some.inj hlast)

/-! ## Names -/

/-- A text that begins with the keyword. -/
def StartsOperator (text : List Char) : Prop :=
  ∃ rest, text = operatorKeyword ++ rest ∧ ∀ y ∈ rest.head?, isWordChar y = false

/-- A component of a quiet text, up to its end or a parenthesis, is no operator. -/
theorem Quiet.component_not_operator {a rest : List Char} (h : Quiet (a ++ rest))
    (hrest : ∀ y ∈ rest.head?, isWordChar y = false) :
    ¬ StartsOperator (last_component [] a) := by
  rintro ⟨name, hname, hend⟩
  have hbefore : ∃ p, a = p ++ last_component [] a ∧ ∀ x ∈ p.getLast?, isWordChar x = false := by
    rcases last_component_cases [] a with heq | ⟨p, heq⟩
    · exact ⟨[], heq.symm, by simp⟩
    · refine ⟨p ++ separator, by rw [List.append_assoc]; exact heq, ?_⟩
      rw [List.getLast?_append_of_ne_nil _ (by decide)]
      decide
  obtain ⟨p, heq, hp⟩ := hbefore
  have hkeyword : a ++ rest = p ++ (operatorKeyword ++ (name ++ rest)) := by
    rw [heq, hname]
    simp only [List.append_assoc]
  rcases h.keyword p (name ++ rest) hkeyword with ⟨x, hx, hword⟩ | ⟨y, hy, hword⟩
  · rw [hp x hx] at hword
    cases hword
  · have hfalse : isWordChar y = false := by
      cases name with
      | nil => exact hrest y hy
      | cons c name => exact hend y hy
    rw [hfalse] at hword
    cases hword

/-- A component of a quiet text, up to a parenthesis, ends like no name. -/
theorem Quiet.component_end {a rest : List Char} (h : Quiet (a ++ '(' :: rest)) :
    ∀ x ∈ (last_component [] a).getLast?, endsName x = false := by
  intro x hx
  have hchain := (List.isChain_append.mp h.parens).2.2 x (mem_getLast?_of_last_component hx) '(' rfl
  by_contra hends
  exact hchain (Bool.eq_true_of_not_eq_false hends) rfl

/-- **What a function can be called**: an operator or something that ends like a name. -/
def Named (text : List Char) : Prop :=
  StartsOperator text ∨ ∃ x ∈ text.getLast?, endsName x = true

theorem Named.ne_nil {text : List Char} (h : Named text) : text ≠ [] := by
  rintro rfl
  rcases h with ⟨rest, heq, -⟩ | ⟨x, hx, -⟩
  · exact absurd heq.symm (List.append_ne_nil_of_left_ne_nil (by decide) rest)
  · cases hx

theorem takeWhile_eq_self {a : List Char} (h : '(' ∉ a) : a.takeWhile (· ≠ '(') = a := by
  rw [List.takeWhile_eq_self_iff]
  intro c hc
  rw [decide_eq_true_iff]
  rintro rfl
  exact h hc

/-- Only what stands before the first parenthesis counts. -/
theorem takeWhile_paren (a b : List Char) :
    (a ++ '(' :: b).takeWhile (· ≠ '(') = a.takeWhile (· ≠ '(') := by
  induction a with
  | nil => rfl
  | cons c a ih => rw [List.cons_append, List.takeWhile_cons, List.takeWhile_cons, ih]

theorem not_mem_takeWhile (text : List Char) : '(' ∉ text.takeWhile (· ≠ '(') := by
  intro h
  exact absurd (List.mem_takeWhile_imp h) (by decide)

/-- A quiet text that is cut at a parenthesis names no function. -/
theorem Quiet.component_ne {text name : List Char} (h : Quiet text) (hparen : '(' ∈ text)
    (hname : Named name) : last_component [] (text.takeWhile (· ≠ '(')) ≠ name := by
  obtain ⟨a, b, rfl, ha⟩ := List.eq_append_cons_of_mem hparen
  rw [takeWhile_paren, takeWhile_eq_self ha]
  rintro rfl
  rcases hname with hoperator | ⟨x, hx, hends⟩
  · refine h.component_not_operator (fun y hy => ?_) hoperator
    obtain rfl := Option.some.inj hy
    decide
  · rw [h.component_end x hx] at hends
    cases hends

theorem getLast?_word (word : Word) : ∃ x ∈ word.text.getLast?, isWordChar x = true :=
  ⟨word.text.getLast word.nonempty, List.getLast?_eq_getLast_of_ne_nil word.nonempty,
    word.chars _ (List.getLast_mem word.nonempty)⟩

namespace BaseName

theorem named (name : BaseName) :
    StartsOperator name.print ∨ ∃ x ∈ name.print.getLast?, isWordChar x = true := by
  cases name with
  | plain name => exact Or.inr (getLast?_word name)
  | destructor cls =>
    obtain ⟨x, hx, hword⟩ := getLast?_word cls
    exact Or.inr ⟨x, by
      rw [print, ← List.singleton_append]
      exact List.mem_getLast?_append_of_mem_getLast? hx, hword⟩
  | operator symbol h =>
    have hsymbols : ∀ symbol ∈ operatorSymbols, ∀ y ∈ symbol.head?, isWordChar y = false := by
      decide
    exact Or.inl ⟨symbol, rfl, hsymbols symbol h⟩
  | literal suffix =>
    refine Or.inl ⟨'"' :: '"' :: ' ' :: suffix.text, rfl, fun y hy => ?_⟩
    obtain rfl := Option.some.inj hy
    decide
  | conversion type =>
    refine Or.inl ⟨' ' :: type.print, rfl, fun y hy => ?_⟩
    obtain rfl := Option.some.inj hy
    decide

theorem print_named (name : BaseName) : Named name.print := by
  refine name.named.imp_right ?_
  rintro ⟨x, hx, hword⟩
  exact ⟨x, hx, endsName_of_isWordChar hword⟩

/-- A name does not start with a colon. -/
theorem head_print (name : BaseName) : name.print.head? ≠ some ':' := by
  cases name with
  | plain name =>
    intro hhead
    exact absurd (name.chars ':' (List.mem_of_head? hhead)) (by decide)
  | destructor cls => exact fun hhead => absurd (Option.some.inj hhead) (by decide)
  | operator symbol h => exact fun hhead => absurd (Option.some.inj hhead) (by decide)
  | literal suffix => exact fun hhead => absurd (Option.some.inj hhead) (by decide)
  | conversion type => exact fun hhead => absurd (Option.some.inj hhead) (by decide)

end BaseName

namespace Signature
variable (sig : Signature)

/-- The name of the function with its template arguments. -/
def unqualified : List Char := sig.name.print ++ sig.argsText

/-- **The first parenthesis is that of the parameters, and the last separator before it that of
the name**, if there is one. -/
def Plain : Prop :=
  '(' ∉ sig.returnedText ++ sig.scopes.print ++ sig.unqualified ∧
    ¬ separator <:+: sig.unqualified ∧ (sig.scopes ≠ .nil ∨ sig.returned = none)

/-- What `extract_fname` takes. -/
def component : List Char := last_component [] (sig.print.takeWhile (· ≠ '('))

theorem component_eq : sig.component =
    last_component [] ((sig.returnedText ++ sig.scopes.print ++ sig.unqualified).takeWhile
      (· ≠ '(')) := by
  unfold component print
  rw [List.append_assoc, List.append_assoc, List.cons_append, takeWhile_paren, unqualified,
    List.append_assoc _ sig.name.print]

theorem argsText_eq_nil_iff : sig.argsText = [] ↔ sig.args = .absent := by
  unfold argsText
  cases sig.args with
  | absent => simp [TemplateArgs.print]
  | present args =>
    have hne : (TemplateArgs.present args).print ≠ [] := by
      simp [TemplateArgs.print]
    split_ifs <;> simp [hne]

/-- Template arguments start with a bracket, perhaps after a space. -/
theorem argsText_start (h : sig.argsText ≠ []) :
    ∃ c text, sig.argsText = c :: text ∧ c ≠ ':' ∧ c ≠ '(' := by
  unfold argsText at h ⊢
  split_ifs at h ⊢
  · exact ⟨' ', _, rfl, by decide, by decide⟩
  · cases hargs : sig.args with
    | absent =>
      rw [hargs] at h
      exact absurd rfl h
    | present args =>
      rw [TemplateArgs.print]
      exact ⟨'<', _, rfl, by decide, by decide⟩

theorem argsText_end (h : sig.argsText ≠ []) : sig.argsText.getLast? = some '>' := by
  unfold argsText at h ⊢
  cases hargs : sig.args with
  | absent =>
    rw [hargs] at h
    simp [TemplateArgs.print] at h
  | present args =>
    split_ifs
    · rw [List.getLast?_cons, args.getLast?_print]
      rfl
    · exact args.getLast?_print

theorem named_unqualified : Named sig.unqualified := by
  by_cases h : sig.argsText = []
  · rw [unqualified, h, List.append_nil]
    exact sig.name.print_named
  · refine Or.inr ⟨'>', ?_, by decide⟩
    rw [unqualified, List.getLast?_append_of_ne_nil _ h]
    exact sig.argsText_end h

theorem head_unqualified : sig.unqualified.head? ≠ some ':' := by
  rw [unqualified, List.head?_append_of_ne_nil _ sig.name.print_named.ne_nil]
  exact sig.name.head_print

theorem not_infix_component : ¬ separator <:+: sig.component :=
  not_infix_last_component (by decide) (by simp)

theorem not_mem_component : '(' ∉ sig.component := by
  intro h
  apply not_mem_takeWhile sig.print
  rcases last_component_cases [] (sig.print.takeWhile (· ≠ '(')) with heq | ⟨a, heq⟩
  · rw [component, heq] at h
    exact h
  · rw [heq]
    exact List.mem_append_right _ (List.mem_append_right _ h)

/-- Where a parenthesis comes before the name, something else is taken. -/
theorem component_ne_of_mem (h : '(' ∈ sig.returnedText ++ sig.scopes.print) {name : List Char}
    (hname : Named name) : sig.component ≠ name := by
  have hcomponent := sig.quiet_scopes.component_ne h hname
  obtain ⟨a, b, heq, -⟩ := List.eq_append_cons_of_mem h
  rw [heq, takeWhile_paren] at hcomponent
  rwa [component_eq, heq, List.append_assoc, List.cons_append, takeWhile_paren]

/-- Nothing is left of scopes, nor of a returned type that is missing. -/
theorem last_component_before :
    last_component [] (sig.returnedText ++ sig.scopes.print) = [] ↔
      sig.scopes ≠ .nil ∨ sig.returned = none := by
  by_cases hscopes : sig.scopes = .nil
  · rw [hscopes, Scopes.print, List.append_nil, or_iff_right (not_not.mpr rfl)]
    unfold returnedText
    cases sig.returned with
    | none => exact iff_of_true (last_component_nil []) rfl
    | some type =>
      refine iff_of_false (fun heq => ?_) (by simp)
      rcases last_component_cases [] (type.left ++ type.gap) with hall | ⟨a, hall⟩
      · exact type.left_gap_ne_nil (hall.symm.trans heq)
      · have hlast := type.left_gap_ends ':'
        rw [hall, heq, List.append_nil, List.getLast?_append_of_ne_nil _ (by decide)] at hlast
        exact absurd (hlast rfl) (by decide)
  · obtain ⟨a, x, heq, hx⟩ := sig.scopes.print_separator hscopes
    refine iff_of_true ?_ (Or.inl hscopes)
    rw [heq, ← List.append_assoc, last_component_append]
    · exact last_component_separator _ []
    · rw [← List.append_assoc, List.getLast?_concat]
      exact fun hlast => absurd (Option.some.inj hlast) hx

/-- The component is the name with its template arguments exactly for the plain signatures. -/
theorem component_eq_unqualified_iff : sig.component = sig.unqualified ↔ sig.Plain := by
  unfold Plain
  by_cases hbefore : '(' ∈ sig.returnedText ++ sig.scopes.print
  · refine iff_of_false (sig.component_ne_of_mem hbefore sig.named_unqualified) fun hplain => ?_
    exact hplain.1 (List.mem_append_left _ hbefore)
  by_cases hparen : '(' ∈ sig.unqualified
  · refine iff_of_false (fun heq => ?_) fun hplain => hplain.1 (List.mem_append_right _ hparen)
    exact sig.not_mem_component (heq ▸ hparen)
  by_cases hseparator : separator <:+: sig.unqualified
  · refine iff_of_false (fun heq => ?_) fun hplain => hplain.2.1 hseparator
    exact sig.not_infix_component (heq ▸ hseparator)
  have hnone : '(' ∉ sig.returnedText ++ sig.scopes.print ++ sig.unqualified := by
    rw [List.mem_append, not_or]
    exact ⟨hbefore, hparen⟩
  rw [component_eq, takeWhile_eq_self hnone, last_component_append fun _ => sig.head_unqualified,
    last_component_eq_append hseparator, List.append_left_eq_self,
    sig.last_component_before]
  exact ⟨fun h => ⟨hnone, hseparator, h⟩, fun h => h.2.2⟩

/-- No component of the template arguments, up to a parenthesis, is the name. -/
theorem component_argsText_ne_name (h : sig.argsText ≠ []) :
    last_component [] (sig.argsText.takeWhile (· ≠ '(')) ≠ sig.name.print := by
  by_cases hparen : '(' ∈ sig.argsText
  · exact sig.quiet_argsText.component_ne hparen sig.name.print_named
  rw [takeWhile_eq_self hparen]
  intro heq
  rcases sig.name.named with hoperator | ⟨x, hx, hword⟩
  · have hquiet : Quiet (sig.argsText ++ []) := by
      rw [List.append_nil]
      exact sig.quiet_argsText
    rw [← heq] at hoperator
    exact hquiet.component_not_operator (by simp) hoperator
  · rw [← heq] at hx
    have hlast := mem_getLast?_of_last_component hx
    rw [sig.argsText_end h] at hlast
    obtain rfl := Option.some.inj hlast
    exact absurd hword (by decide)

/-- Template arguments are never dropped. -/
theorem component_ne_name (h : sig.argsText ≠ []) : sig.component ≠ sig.name.print := by
  by_cases hbefore : '(' ∈ sig.returnedText ++ sig.scopes.print
  · exact sig.component_ne_of_mem hbefore sig.name.print_named
  by_cases hparen : '(' ∈ sig.name.print
  · exact fun heq => sig.not_mem_component (heq ▸ hparen)
  by_cases hseparator : separator <:+: sig.name.print
  · exact fun heq => sig.not_infix_component (heq ▸ hseparator)
  obtain ⟨c, text, hstart, hcolon, hc⟩ := sig.argsText_start h
  have hcut : (sig.returnedText ++ sig.scopes.print ++ sig.unqualified).takeWhile (· ≠ '(') =
      sig.returnedText ++ sig.scopes.print ++ sig.name.print ++
        sig.argsText.takeWhile (· ≠ '(') := by
    rw [unqualified, ← List.append_assoc, List.takeWhile_append_of_pos]
    intro b hb
    rw [decide_eq_true_iff]
    rintro rfl
    exact (List.mem_append.mp hb).elim hbefore hparen
  have hargs : sig.argsText.takeWhile (· ≠ '(') = c :: text.takeWhile (· ≠ '(') := by
    rw [hstart, List.takeWhile_cons, if_pos (decide_eq_true hc)]
  rw [component_eq, hcut, last_component_append, last_component_append fun _ => sig.name.head_print,
    last_component_eq_append hseparator]
  · by_cases hseparated : separator <:+: sig.argsText.takeWhile (· ≠ '(')
    · rw [last_component_of_separated hseparated]
      exact sig.component_argsText_ne_name h
    · -- The name with something after it is longer.
      rw [last_component_eq_append hseparated, hargs]
      intro heq
      have hlength := congrArg List.length heq
      simp only [List.length_append, List.length_cons] at hlength
      omega
  · rw [hargs]
    exact fun _ hhead => hcolon (Option.some.inj hhead)

end Signature

/-- **Which names are extracted**: those of plain signatures without template arguments; those of
plain signatures, if the template arguments are taken to belong to the name. -/
theorem extract_fname_iff {demangle : String → Option String} {tname : String} {sig : Signature}
    (h : demangle tname = some (String.ofList sig.print)) :
    (extract_fname demangle tname = some (String.ofList sig.name.print) ↔
      sig.args = .absent ∧ sig.Plain) ∧
    (extract_fname demangle tname = some (String.ofList sig.unqualified) ↔ sig.Plain) := by
  have hextract : extract_fname demangle tname = some (String.ofList sig.component) := by
    rw [extract_fname, h, Option.map_some, String.toList_ofList]
    rfl
  rw [hextract, Option.some_inj, String.ofList_inj, Option.some_inj, String.ofList_inj,
    sig.component_eq_unqualified_iff, ← sig.argsText_eq_nil_iff]
  refine ⟨?_, Iff.rfl⟩
  by_cases hargs : sig.argsText = []
  · rw [← sig.component_eq_unqualified_iff, Signature.unqualified, hargs, List.append_nil]
    exact (and_iff_right rfl).symm
  · exact iff_of_false (sig.component_ne_name hargs) fun hplain => hargs hplain.1

/-- `Stack<int>::push(int)` -/
def push : Signature :=
  let int : Word := ⟨['i', 'n', 't'], by decide, by decide, by decide⟩
  let Stack : Word := ⟨['S', 't', 'a', 'c', 'k'], by decide, by decide, by decide⟩
  { returned := none
    scopes := .named Stack (.present (.type (.builtin int []) .nil)) .nil
    name := .plain ⟨['p', 'u', 's', 'h'], by decide, by decide, by decide⟩
    args := .absent
    parameters := .cons (.builtin int []) .nil
    qualifiers := [] }

theorem push_extracted :
    push.print = "Stack<int>::push(int)".toList ∧
      extract_fname (fun _ => some (String.ofList push.print)) "_ZN5StackIiE4pushEi" =
        some "push" := by
  refine ⟨by decide, ?_⟩
  have hplain : push.Plain := ⟨by decide, by decide, Or.inl (by simp [push])⟩
  exact (extract_fname_iff rfl).1.mpr ⟨rfl, hplain⟩

/-- `(anonymous namespace)::helper(int)` -/
def helper : Signature :=
  { returned := none
    scopes := .anonymous .nil
    name := .plain ⟨['h', 'e', 'l', 'p', 'e', 'r'], by decide, by decide, by decide⟩
    args := .absent
    parameters := .cons (.builtin ⟨['i', 'n', 't'], by decide, by decide, by decide⟩ []) .nil
    qualifiers := [] }

/-- Nothing is left of a function in an anonymous namespace. -/
theorem helper_not_extracted :
    helper.print = "(anonymous namespace)::helper(int)".toList ∧
      extract_fname (fun _ => some (String.ofList helper.print)) "_ZN12_GLOBAL__N_16helperEi" =
        some "" ∧
      ¬ ∀ (demangle : String → Option String) tname (sig : Signature),
        demangle tname = some (String.ofList sig.print) →
        extract_fname demangle tname = some (String.ofList sig.name.print) := by
  have hempty : extract_fname (fun _ => some (String.ofList helper.print))
      "_ZN12_GLOBAL__N_16helperEi" = some "" := by
    decide
  refine ⟨by decide, hempty, fun h => ?_⟩
  have hname := h (fun _ => some (String.ofList helper.print)) "_ZN12_GLOBAL__N_16helperEi" helper
    rfl
  rw [hempty] at hname
  exact absurd hname (by decide)

end Bracelet.Signatures
