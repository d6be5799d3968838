import Bracelet.TargetFunctions
import Mathlib.Data.List.Infix

/-!
# Demangled signatures

The signatures of C++ functions, as they are printed when their names are demangled: scopes,
template arguments, operators and the types of what a function takes and returns.  A type is
printed in two parts, with what it declares in between: `void (*` and `)(int)`.

What stands before the parameter list is quiet: no word of it is `operator`, but for the name of
the function itself, and no opening parenthesis follows a name.
-/
namespace Bracelet.Signatures

/-! ## Characters -/

/-- What holds of a text is decided by its own characters. -/
scoped instance decidableText (text : List Char) (p : Char → Prop) [DecidablePred p] :
    Decidable (∀ c ∈ text, p c) := List.decidableBAll p text

scoped instance decidableEnd (c? : Option Char) (p : Char → Prop) [DecidablePred p] :
    Decidable (∀ c ∈ c?, p c) := Option.decidableForallMem c?

/-- The characters of identifiers and numbers. -/
def isWordChar (c : Char) : Bool := c.isAlphanum || c == '_' || c == '$' || decide (127 < c.toNat)

def operatorKeyword : List Char := ['o', 'p', 'e', 'r', 'a', 't', 'o', 'r']

/-! ## The grammar -/

/-- An identifier, a number or a keyword other than `operator`. -/
structure Word where
  text : List Char
  nonempty : text ≠ []
  chars : ∀ c ∈ text, isWordChar c = true
  not_operator : text ≠ operatorKeyword

inductive Reference
  | pointer | lvalue | rvalue

def Reference.text : Reference → List Char
  | pointer => ['*']
  | lvalue => ['&']
  | rvalue => ['&', '&']

mutual

inductive Ty
  /-- `unsigned int` -/
  | builtin (first : Word) (more : List Word)
  | named (scopes : Scopes) (name : Word) (args : TemplateArgs)
  /-- `const`, `volatile` -/
  | qualified (type : Ty) (qualifier : Word)
  | reference (type : Ty) (symbol : Reference)
  /-- `int [2][3]` -/
  | array (element : Ty) (sizes : List Word)
  | function (returned : Ty) (parameters : Types)

inductive Types
  | nil
  | cons (type : Ty) (more : Types)

/-- The namespaces and classes that something is in, from the outermost. -/
inductive Scopes
  | nil
  | anonymous (more : Scopes)
  | named (name : Word) (args : TemplateArgs) (more : Scopes)

inductive TemplateArgs
  | absent
  | present (args : Args)

inductive Args
  | nil
  | type (type : Ty) (more : Args)
  /-- `-1` -/
  | value (negative : Bool) (number : Word) (more : Args)
  /-- `(Color)2` -/
  | cast (type : Ty) (negative : Bool) (number : Word) (more : Args)

end

/-- The symbols of the operators that have no name of their own. -/
def operatorSymbols : List (List Char) :=
  ["+", "-", "*", "/", "%", "^", "&", "|", "~", "!", "=", "<", ">", "+=", "-=", "*=", "/=", "%=",
    "^=", "&=", "|=", "<<", ">>", "<<=", ">>=", "==", "!=", "<=", ">=", "<=>", "&&", "||", "++",
    "--", ",", "->*", "->", "()", "[]", " new", " new[]", " delete", " delete[]",
    " co_await"].map String.toList

/-- The name of a function in its scope. -/
inductive BaseName
  | plain (name : Word)
  | destructor (cls : Word)
  | operator (symbol : List Char) (h : symbol ∈ operatorSymbols)
  /-- `operator"" _km` -/
  | literal (suffix : Word)
  /-- `operator bool` -/
  | conversion (type : Ty)

inductive Qualifier
  | const | volatile | lvalue | rvalue

structure Signature where
  /-- Only of templates. -/
  returned : Option Ty
  scopes : Scopes
  name : BaseName
  args : TemplateArgs
  parameters : Types
  qualifiers : List Qualifier

/-! ## Printing -/

def commas (texts : List (List Char)) : List Char := [',', ' '].intercalate texts

def sign (negative : Bool) : List Char := if negative then ['-'] else []

/-- A closing bracket does not follow another one. -/
def closing (text : List Char) : List Char :=
  if text.getLast? = some '>' then [' ', '>'] else ['>']

namespace Ty

def isFunction : Ty → Bool
  | qualified type _ => type.isFunction
  | function _ _ => true
  | _ => false

/-- What a reference to the type starts with, if it is enclosed. -/
def opening : Ty → Option (List Char)
  | qualified type _ => type.opening
  | array _ _ => some [' ', '(']
  | function _ _ => some ['(']
  | _ => none

/-- What the type declares is enclosed. -/
def encloses : Ty → Bool
  | qualified type _ => type.encloses
  | reference type _ => type.encloses
  | array _ _ => true
  | function _ _ => true
  | _ => false

/-- What stands between a returned type and what returns it. -/
def gap : Ty → List Char
  | reference type _ => if type.encloses then [] else [' ']
  | _ => [' ']

end Ty

def anonymousNamespace : List Char :=
  ['(', 'a', 'n', 'o', 'n', 'y', 'm', 'o', 'u', 's', ' ', 'n', 'a', 'm', 'e', 's', 'p', 'a',
    'c', 'e', ')', ':', ':']

mutual

/-- What is printed before what a type declares. -/
def Ty.left : Ty → List Char
  | .builtin first more => first.text ++ more.flatMap fun word => ' ' :: word.text
  | .named scopes name args => scopes.print ++ name.text ++ args.print
  | .qualified type qualifier =>
    if type.isFunction then type.left else type.left ++ ' ' :: qualifier.text
  | .reference type symbol => type.left ++ type.opening.getD [] ++ symbol.text
  | .array element _ => element.left
  | .function returned _ => returned.left ++ returned.gap

/-- What is printed after it. -/
def Ty.right : Ty → List Char
  | .builtin _ _ => []
  | .named _ _ _ => []
  | .qualified type qualifier =>
    if type.isFunction then type.right ++ ' ' :: qualifier.text else type.right
  | .reference type _ => if type.opening.isSome then ')' :: type.right else type.right
  | .array element sizes =>
    ' ' :: (sizes.flatMap fun size => '[' :: size.text ++ [']']) ++ element.right
  | .function returned parameters => '(' :: commas parameters.texts ++ ')' :: returned.right

def Types.texts : Types → List (List Char)
  | .nil => []
  | .cons type more => (type.left ++ type.right) :: more.texts

def Scopes.print : Scopes → List Char
  | .nil => []
  | .anonymous more => anonymousNamespace ++ more.print
  | .named name args more => name.text ++ args.print ++ ':' :: ':' :: more.print

def TemplateArgs.print : TemplateArgs → List Char
  | .absent => []
  | .present args => '<' :: commas args.texts ++ closing (commas args.texts)

def Args.texts : Args → List (List Char)
  | .nil => []
  | .type type more => (type.left ++ type.right) :: more.texts
  | .value negative number more => (sign negative ++ number.text) :: more.texts
  | .cast type negative number more =>
    ('(' :: (type.left ++ type.right ++ ')' :: (sign negative ++ number.text))) :: more.texts

end

def Ty.print (type : Ty) : List Char := type.left ++ type.right

def BaseName.print : BaseName → List Char
  | plain name => name.text
  | destructor cls => '~' :: cls.text
  | operator symbol _ => operatorKeyword ++ symbol
  | literal suffix => operatorKeyword ++ '"' :: '"' :: ' ' :: suffix.text
  | conversion type => operatorKeyword ++ ' ' :: type.print

def Qualifier.print : Qualifier → List Char
  | const => " const".toList
  | volatile => " volatile".toList
  | lvalue => " &".toList
  | rvalue => " &&".toList

namespace Signature
variable (sig : Signature)

/-- What stands before the scopes. -/
def returnedText : List Char :=
  match sig.returned with
  | none => []
  | some type => type.left ++ type.gap

/-- The template arguments of the function.  An opening bracket does not follow another one. -/
def argsText : List Char :=
  if sig.args.print ≠ [] ∧ sig.name.print.getLast? = some '<' then ' ' :: sig.args.print
  else sig.args.print

def print : List Char :=
  sig.returnedText ++ sig.scopes.print ++ sig.name.print ++ sig.argsText ++
    '(' :: commas sig.parameters.texts ++ ')' :: sig.qualifiers.flatMap Qualifier.print ++
    (match sig.returned with
      | none => []
      | some type => type.right)

end Signature

/-! ## Quiet texts -/

/-- What a name can end with. -/
def endsName (c : Char) : Bool := isWordChar c || c == '>'

structure Quiet (text : List Char) : Prop where
  /-- No opening parenthesis follows a name. -/
  parens : text.IsChain fun x y => endsName x = true → y ≠ '('
  /-- No word is the keyword. -/
  keyword : ∀ a b, text = a ++ (operatorKeyword ++ b) →
    (∃ x ∈ a.getLast?, isWordChar x = true) ∨ ∃ y ∈ b.head?, isWordChar y = true

/-- Two texts that can follow each other. -/
def Apart (a b : List Char) : Prop :=
  ∀ x ∈ a.getLast?, ∀ y ∈ b.head?, endsName x = true → isWordChar y = false ∧ y ≠ '('

theorem endsName_of_isWordChar {c : Char} (h : isWordChar c = true) : endsName c = true := by
  simp [endsName, h]

theorem isWordChar_of_mem_keyword : ∀ c ∈ operatorKeyword, isWordChar c = true := by
  decide

theorem apart_of_ends {a : List Char} (h : ∀ x ∈ a.getLast?, endsName x = false) (b : List Char) :
    Apart a b := by
  intro x hx y _ hends
  rw [h x hx] at hends
  cases hends

theorem apart_of_starts (a : List Char) {b : List Char}
    (h : ∀ y ∈ b.head?, isWordChar y = false ∧ y ≠ '(') : Apart a b :=
  fun _ _ y hy _ => h y hy

theorem quiet_nil : Quiet [] := by
  refine ⟨List.isChain_nil, fun a b h => ?_⟩
  have hlength := congrArg List.length h
  simp [operatorKeyword] at hlength

theorem Quiet.append {a b : List Char} (ha : Quiet a) (hb : Quiet b) (h : Apart a b) :
    Quiet (a ++ b) := by
  refine ⟨List.isChain_append.mpr ⟨ha.parens, hb.parens, fun x hx y hy hends => (h x hx y hy hends).2⟩,
    fun u v heq => ?_⟩
  rcases List.append_eq_append_iff.mp heq with ⟨w, rfl, hw⟩ | ⟨w, rfl, hw⟩
  · -- The keyword is in the second text.
    refine (hb.keyword w v hw).imp_left ?_
    rintro ⟨x, hx, hword⟩
    exact ⟨x, List.mem_getLast?_append_of_mem_getLast? hx, hword⟩
  · rcases List.append_eq_append_iff.mp hw with ⟨z, rfl, rfl⟩ | ⟨z, hz, rfl⟩
    · -- It is in the first one.
      refine (ha.keyword u z rfl).imp_right ?_
      rintro ⟨y, hy, hword⟩
      exact ⟨y, List.mem_head?_append_of_mem_head? hy, hword⟩
    · -- It begins in the first one and ends in the second one.
      by_cases hwnil : w = []
      · subst hwnil
        refine (hb.keyword [] v (by rw [List.nil_append, hz, List.nil_append])).imp_left ?_
        rintro ⟨x, hx, -⟩
        cases hx
      by_cases hznil : z = []
      · subst hznil
        rw [List.append_nil] at hz
        refine (ha.keyword u [] (by rw [List.append_nil, hz])).imp_right ?_
        rintro ⟨y, hy, -⟩
        cases hy
      have hword : ∀ c ∈ w ++ z, isWordChar c = true := by
        rw [← hz]
        exact isWordChar_of_mem_keyword
      obtain ⟨y, z, rfl⟩ := List.exists_cons_of_ne_nil hznil
      have hlast : isWordChar (w.getLast hwnil) = true :=
        hword _ (List.mem_append_left _ (List.getLast_mem hwnil))
      have happart := h (w.getLast hwnil) (by simp [List.getLast?_append_of_ne_nil _ hwnil,
        List.getLast?_eq_getLast_of_ne_nil hwnil]) y rfl (endsName_of_isWordChar hlast)
      rw [hword y (by simp)] at happart
      exact absurd happart.1 (by decide)

theorem Quiet.of_not_word {text : List Char} (h : ∀ c ∈ text, isWordChar c = false)
    (hparen : '(' ∉ text.tail) : Quiet text := by
  refine ⟨?_, fun a b heq => ?_⟩
  · cases text with
    | nil => exact List.isChain_nil
    | cons c text =>
      have hne : ∀ y ∈ text, y ≠ '(' := by
        rintro y hy rfl
        exact hparen hy
      have hpairs : (c :: text).Pairwise fun x y => endsName x = true → y ≠ '(' :=
        List.pairwise_cons.mpr ⟨fun y hy _ => hne y hy,
          List.pairwise_of_forall_mem_list fun _ _ y hy _ => hne y hy⟩
      exact hpairs.isChain
  · have ho : 'o' ∈ text := by
      rw [heq]
      simp [operatorKeyword]
    exact absurd (h 'o' ho) (by decide)

/-- A character that ends no name. -/
theorem Quiet.cons {c : Char} {text : List Char} (hc : endsName c = false) (h : Quiet text) :
    Quiet (c :: text) := by
  have hword : isWordChar c = false := by
    rw [← Bool.not_eq_true] at hc ⊢
    exact fun hword => hc (endsName_of_isWordChar hword)
  have hone : Quiet [c] := Quiet.of_not_word (by simpa using hword) (by simp)
  exact hone.append h (apart_of_ends (by simpa using hc) text)

/-- A text after a name. -/
theorem Quiet.append_cons {a b : List Char} {c : Char} (ha : Quiet a) (hb : Quiet (c :: b))
    (hword : isWordChar c = false) (hparen : c ≠ '(') : Quiet (a ++ c :: b) := by
  refine ha.append hb (apart_of_starts a fun y hy => ?_)
  obtain rfl := Option.some.inj hy
  exact ⟨hword, hparen⟩

theorem Word.quiet (word : Word) : Quiet word.text := by
  have hparen : ∀ c ∈ word.text, c ≠ '(' := by
    rintro c hc rfl
    exact absurd (word.chars '(' hc) (by decide)
  refine ⟨?_, fun a b heq => ?_⟩
  · have hpairs : word.text.Pairwise fun x y => endsName x = true → y ≠ '(' :=
      List.pairwise_of_forall_mem_list fun _ _ y hy _ => hparen y hy
    exact hpairs.isChain
  · by_cases ha : a = []
    · by_cases hb : b = []
      · subst ha hb
        rw [List.nil_append, List.append_nil] at heq
        exact absurd heq word.not_operator
      · obtain ⟨y, rest, rfl⟩ := List.exists_cons_of_ne_nil hb
        exact Or.inr ⟨y, rfl, word.chars y (by rw [heq]; simp)⟩
    · refine Or.inl ⟨a.getLast ha, List.getLast?_eq_getLast_of_ne_nil ha, ?_⟩
      apply word.chars
      rw [heq]
      exact List.mem_append_left _ (List.getLast_mem ha)

theorem quiet_commas {texts : List (List Char)} (h : ∀ text ∈ texts, Quiet text) :
    Quiet (commas texts) := by
  unfold commas
  induction texts with
  | nil => exact quiet_nil
  | cons text texts ih =>
    rw [List.forall_mem_cons] at h
    cases texts with
    | nil =>
      rw [List.intercalate_singleton]
      exact h.1
    | cons next texts =>
      rw [List.intercalate_cons_cons, List.append_assoc]
      have hrest := Quiet.cons (show endsName ' ' = false by decide) (ih h.2)
      exact h.1.append_cons (Quiet.cons (by decide) hrest) (by decide) (by decide)

/-! ## Printed types -/

namespace Ty

/-- A type stands apart from what it declares. -/
theorem left_gap_ends (type : Ty) : ∀ x ∈ (type.left ++ type.gap).getLast?, x ∈ [' ', '*', '&'] := by
  have hspace : ∀ text : List Char, ∀ x ∈ (text ++ [' ']).getLast?, x ∈ [' ', '*', '&'] := by
    intro text x hx
    rw [List.getLast?_concat] at hx
    obtain rfl := Option.some.inj hx
    decide
  cases type with
  | reference type symbol =>
    by_cases h : type.encloses = true
    · rw [gap, if_pos h, List.append_nil, Ty.left,
        List.getLast?_append_of_ne_nil _ (by cases symbol <;> decide)]
      cases symbol <;> decide
    · rw [gap, if_neg h]
      exact hspace _
  | _ => exact hspace _

theorem left_gap_ne_nil (type : Ty) : type.left ++ type.gap ≠ [] := by
  cases type with
  | reference type symbol =>
    rw [Ty.left]
    cases symbol <;> simp [Reference.text]
  | _ => simp [gap]

theorem left_ends (type : Ty) (h : type.isFunction = true) :
    ∀ x ∈ type.left.getLast?, endsName x = false := by
  match type with
  | .qualified type qualifier =>
    rw [isFunction] at h
    rw [Ty.left, if_pos h]
    exact left_ends type h
  | .function returned parameters =>
    have hends : ∀ x ∈ [' ', '*', '&'], endsName x = false := by
      decide
    exact fun x hx => hends x (left_gap_ends returned x hx)

theorem isFunction_of_opening {type : Ty} (h : type.opening = none) : type.isFunction = false := by
  match type with
  | .builtin _ _ => rfl
  | .named _ _ _ => rfl
  | .qualified type _ => exact @isFunction_of_opening type h
  | .reference _ _ => rfl

/-- Only the parameters of a function start with a parenthesis. -/
theorem right_starts (type : Ty) (h : type.isFunction = false) :
    ∀ y ∈ type.right.head?, isWordChar y = false ∧ y ≠ '(' := by
  match type with
  | .builtin first more => exact fun y hy => nomatch hy
  | .named scopes name args => exact fun y hy => nomatch hy
  | .qualified type qualifier =>
    rw [isFunction] at h
    rw [Ty.right, if_neg (by rw [h]; decide)]
    exact right_starts type h
  | .reference type symbol =>
    rw [Ty.right]
    cases hopening : type.opening with
    | none => exact right_starts type (isFunction_of_opening hopening)
    | some text =>
      intro y hy
      obtain rfl := Option.some.inj hy
      decide
  | .array element sizes =>
    intro y hy
    obtain rfl := Option.some.inj hy
    decide

theorem apart (type : Ty) : Apart type.left type.right := by
  cases h : type.isFunction with
  | true => exact apart_of_ends (type.left_ends h) _
  | false => exact apart_of_starts _ (type.right_starts h)

end Ty

theorem quiet_closing (text : List Char) : Quiet (closing text) := by
  unfold closing
  split_ifs
  · exact Quiet.of_not_word (by decide) (by decide)
  · exact Quiet.of_not_word (by decide) (by decide)

theorem quiet_number (negative : Bool) (number : Word) : Quiet (sign negative ++ number.text) := by
  cases negative with
  | false => exact number.quiet
  | true => exact number.quiet.cons (by decide)

theorem Reference.quiet (symbol : Reference) : Quiet symbol.text :=
  Quiet.of_not_word (by cases symbol <;> decide) (by cases symbol <;> decide)

theorem quiet_anonymousNamespace : Quiet anonymousNamespace := by
  have hanonymous := Word.quiet ⟨['a', 'n', 'o', 'n', 'y', 'm', 'o', 'u', 's'], by decide, by decide,
    by decide⟩
  have hnamespace := Word.quiet ⟨['n', 'a', 'm', 'e', 's', 'p', 'a', 'c', 'e'], by decide, by decide,
    by decide⟩
  have hend : Quiet [')', ':', ':'] := Quiet.of_not_word (by decide) (by decide)
  have hlast := (hnamespace.append_cons hend (by decide) (by decide)).cons
    (show endsName ' ' = false by decide)
  exact (hanonymous.append_cons hlast (by decide) (by decide)).cons (by decide)

theorem closing_starts (text : List Char) :
    ∀ y ∈ (closing text).head?, isWordChar y = false ∧ y ≠ '(' := by
  unfold closing
  split_ifs <;> decide

theorem TemplateArgs.print_starts (args : TemplateArgs) :
    ∀ y ∈ args.print.head?, isWordChar y = false ∧ y ≠ '(' := by
  cases args with
  | absent => simp [TemplateArgs.print]
  | present args =>
    intro y hy
    rw [TemplateArgs.print] at hy
    obtain rfl := Option.some.inj hy
    decide

/-- Scopes end with a separator. -/
theorem Scopes.print_ends (scopes : Scopes) : ∀ x ∈ scopes.print.getLast?, endsName x = false := by
  match scopes with
  | .nil => simp [Scopes.print]
  | .anonymous more =>
    have hmore := Scopes.print_ends more
    rw [Scopes.print, List.getLast?_append]
    intro x hx
    cases hlast : more.print.getLast? with
    | none =>
      rw [hlast] at hx
      obtain rfl := Option.some.inj hx
      decide
    | some y =>
      rw [hlast] at hx
      obtain rfl := Option.some.inj hx
      exact hmore y hlast
  | .named name args more =>
    have hmore := Scopes.print_ends more
    rw [Scopes.print, List.getLast?_append, List.getLast?_cons_cons, List.getLast?_cons]
    intro x hx
    obtain rfl := Option.some.inj hx
    cases hlast : more.print.getLast? with
    | none => decide
    | some y => exact hmore y hlast

theorem Args.getLast?_print (args : Args) :
    (TemplateArgs.present args).print.getLast? = some '>' := by
  rw [TemplateArgs.print, List.getLast?_append]
  unfold closing
  split_ifs <;> rfl

/-- A name with its template arguments does not end with a colon. -/
theorem exists_concat_name (name : Word) (args : TemplateArgs) :
    ∃ a x, name.text ++ args.print = a ++ [x] ∧ x ≠ ':' := by
  have hne : name.text ++ args.print ≠ [] := List.append_ne_nil_of_left_ne_nil name.nonempty _
  refine ⟨_, _, (List.dropLast_append_getLast hne).symm, fun hlast => ?_⟩
  have hcolon : (name.text ++ args.print).getLast? = some ':' := by
    rw [List.getLast?_eq_getLast_of_ne_nil hne, hlast]
  cases args with
  | absent =>
    rw [TemplateArgs.print, List.append_nil] at hcolon
    exact absurd (name.chars ':' (List.mem_of_getLast? hcolon)) (by decide)
  | present args =>
    rw [List.getLast?_append, args.getLast?_print] at hcolon
    exact absurd (Option.some.inj hcolon) (by decide)

/-- What the separator at the end follows. -/
theorem Scopes.print_separator (scopes : Scopes) (h : scopes ≠ .nil) :
    ∃ a x, scopes.print = a ++ [x] ++ [':', ':'] ∧ x ≠ ':' := by
  match scopes with
  | .nil => exact absurd rfl h
  | .anonymous more =>
    rw [Scopes.print]
    by_cases hmore : more = .nil
    · subst hmore
      exact ⟨anonymousNamespace.take 20, ')', by decide, by decide⟩
    · obtain ⟨a, x, heq, hx⟩ := Scopes.print_separator more hmore
      exact ⟨anonymousNamespace ++ a, x, by rw [heq]; simp, hx⟩
  | .named name args more =>
    rw [Scopes.print]
    by_cases hmore : more = .nil
    · subst hmore
      obtain ⟨a, x, heq, hx⟩ := exists_concat_name name args
      exact ⟨a, x, by rw [heq, Scopes.print], hx⟩
    · obtain ⟨a, x, heq, hx⟩ := Scopes.print_separator more hmore
      exact ⟨name.text ++ args.print ++ ':' :: ':' :: a, x, by rw [heq]; simp, hx⟩

namespace Ty

theorem opening_cases (type : Ty) :
    type.opening = none ∨ type.opening = some [' ', '('] ∨
      type.opening = some ['('] ∧ type.isFunction = true := by
  match type with
  | .builtin _ _ => exact Or.inl rfl
  | .named _ _ _ => exact Or.inl rfl
  | .qualified type _ => exact opening_cases type
  | .reference _ _ => exact Or.inl rfl
  | .array _ _ => exact Or.inr (Or.inl rfl)
  | .function _ _ => exact Or.inr (Or.inr ⟨rfl, rfl⟩)

theorem quiet_opening (type : Ty) : Quiet (type.opening.getD []) := by
  rcases type.opening_cases with h | h | ⟨h, -⟩
  · rw [h]
    exact quiet_nil
  · rw [h]
    exact (Quiet.of_not_word (by decide) (by decide)).cons (by decide)
  · rw [h]
    exact Quiet.of_not_word (by decide) (by decide)

theorem apart_opening (type : Ty) : Apart type.left (type.opening.getD []) := by
  rcases type.opening_cases with h | h | ⟨h, hfunction⟩
  · rw [h]
    exact apart_of_starts _ (by decide)
  · rw [h]
    exact apart_of_starts _ (by decide)
  · exact apart_of_ends (type.left_ends hfunction) _

theorem gap_cases (type : Ty) : type.gap = [] ∨ type.gap = [' '] := by
  cases type with
  | reference type symbol =>
    rw [gap]
    exact ite_eq_or_eq _ _ _
  | _ => exact Or.inr rfl

theorem quiet_gap (type : Ty) : Quiet type.gap := by
  rcases type.gap_cases with h | h
  · rw [h]
    exact quiet_nil
  · rw [h]
    exact quiet_nil.cons (by decide)

theorem gap_starts (type : Ty) : ∀ y ∈ type.gap.head?, isWordChar y = false ∧ y ≠ '(' := by
  rcases type.gap_cases with h | h <;> rw [h] <;> decide

end Ty

/-- `[2][3]` -/
theorem quiet_sizes (sizes : List Word) :
    Quiet (sizes.flatMap fun size => '[' :: size.text ++ [']']) := by
  induction sizes with
  | nil => exact quiet_nil
  | cons size sizes ih =>
    have hsize := size.quiet.append_cons (ih.cons (show endsName ']' = false by decide))
      (by decide) (by decide)
    have heq : ((size :: sizes).flatMap fun size => '[' :: size.text ++ [']']) =
        '[' :: (size.text ++ ']' :: sizes.flatMap fun size => '[' :: size.text ++ [']']) := by
      simp
    rw [heq]
    exact hsize.cons (by decide)

theorem sizes_end (sizes : List Word) :
    ∀ x ∈ (sizes.flatMap fun size => '[' :: size.text ++ [']']).getLast?, endsName x = false := by
  cases sizes using List.reverseRecOn with
  | nil => simp
  | append_singleton sizes size =>
    rw [List.flatMap_append, List.flatMap_singleton, ← List.append_assoc, List.getLast?_concat]
    intro x hx
    obtain rfl := Option.some.inj hx
    decide

mutual

theorem Ty.quiet_left : ∀ type : Ty, Quiet type.left
  | .builtin first more => by
    rw [Ty.left]
    induction more using List.reverseRecOn with
    | nil => simpa using first.quiet
    | append_singleton more word ih =>
      have hword := word.quiet.cons (show endsName ' ' = false by decide)
      have hnext := ih.append_cons hword (by decide) (by decide)
      simpa using hnext
  | .named scopes name args => by
    have hname := (Scopes.quiet_print scopes).append name.quiet
      (apart_of_ends (scopes.print_ends) name.text)
    rw [Ty.left]
    exact hname.append (TemplateArgs.quiet_print args) (apart_of_starts _ args.print_starts)
  | .qualified type qualifier => by
    have hleft := Ty.quiet_left type
    rw [Ty.left]
    split_ifs
    · exact hleft
    · exact hleft.append_cons (qualifier.quiet.cons (by decide)) (by decide) (by decide)
  | .reference type symbol => by
    have hopening := (Ty.quiet_left type).append type.quiet_opening type.apart_opening
    rw [Ty.left]
    exact hopening.append symbol.quiet (apart_of_starts _ (by cases symbol <;> decide))
  | .array element sizes => Ty.quiet_left element
  | .function returned parameters => by
    rw [Ty.left]
    exact (Ty.quiet_left returned).append returned.quiet_gap (apart_of_starts _ returned.gap_starts)

theorem Ty.quiet_right : ∀ type : Ty, Quiet type.right
  | .builtin _ _ => quiet_nil
  | .named _ _ _ => quiet_nil
  | .qualified type qualifier => by
    have hright := Ty.quiet_right type
    rw [Ty.right]
    split_ifs
    · exact hright.append_cons (qualifier.quiet.cons (by decide)) (by decide) (by decide)
    · exact hright
  | .reference type symbol => by
    have hright := Ty.quiet_right type
    rw [Ty.right]
    split_ifs
    · exact hright.cons (by decide)
    · exact hright
  | .array element sizes => by
    have hright := (quiet_sizes sizes).append (Ty.quiet_right element)
      (apart_of_ends (sizes_end sizes) _)
    rw [Ty.right]
    exact hright.cons (by decide)
  | .function returned parameters => by
    have hright := (Ty.quiet_right returned).cons (show endsName ')' = false by decide)
    have hparameters := quiet_commas (Types.quiet_texts parameters)
    rw [Ty.right]
    exact (hparameters.append_cons hright (by decide) (by decide)).cons (by decide)

theorem Types.quiet_texts : ∀ types : Types, ∀ text ∈ types.texts, Quiet text
  | .nil => by
    simp [Types.texts]
  | .cons type more => by
    have htype := (Ty.quiet_left type).append (Ty.quiet_right type) type.apart
    rw [Types.texts]
    exact List.forall_mem_cons.mpr ⟨htype, Types.quiet_texts more⟩

theorem Scopes.quiet_print : ∀ scopes : Scopes, Quiet scopes.print
  | .nil => quiet_nil
  | .anonymous more => by
    rw [Scopes.print]
    exact quiet_anonymousNamespace.append (Scopes.quiet_print more) (apart_of_ends (by decide) _)
  | .named name args more => by
    have hmore := (Scopes.quiet_print more).cons (show endsName ':' = false by decide)
    have hname := name.quiet.append (TemplateArgs.quiet_print args)
      (apart_of_starts _ args.print_starts)
    rw [Scopes.print]
    exact hname.append_cons (hmore.cons (by decide)) (by decide) (by decide)

theorem TemplateArgs.quiet_print : ∀ args : TemplateArgs, Quiet args.print
  | .absent => quiet_nil
  | .present args => by
    have hargs := quiet_commas (Args.quiet_texts args)
    have hclosed := hargs.append (quiet_closing (commas args.texts))
      (apart_of_starts _ (closing_starts (commas args.texts)))
    rw [TemplateArgs.print]
    exact hclosed.cons (by decide)

theorem Args.quiet_texts : ∀ args : Args, ∀ text ∈ args.texts, Quiet text
  | .nil => by
    simp [Args.texts]
  | .type type more => by
    have htype := (Ty.quiet_left type).append (Ty.quiet_right type) type.apart
    rw [Args.texts]
    exact List.forall_mem_cons.mpr ⟨htype, Args.quiet_texts more⟩
  | .value negative number more => by
    rw [Args.texts]
    exact List.forall_mem_cons.mpr ⟨quiet_number negative number, Args.quiet_texts more⟩
  | .cast type negative number more => by
    have htype := (Ty.quiet_left type).append (Ty.quiet_right type) type.apart
    have hnumber := (quiet_number negative number).cons (show endsName ')' = false by decide)
    rw [Args.texts]
    refine List.forall_mem_cons.mpr ⟨?_, Args.quiet_texts more⟩
    exact (htype.append_cons hnumber (by decide) (by decide)).cons (by decide)

end

/-! ## Printed signatures -/

namespace Signature
variable (sig : Signature)

/-- What stands before the name of the function is quiet. -/
theorem quiet_scopes : Quiet (sig.returnedText ++ sig.scopes.print) := by
  have hscopes := sig.scopes.quiet_print
  unfold returnedText
  cases sig.returned with
  | none => exact hscopes
  | some type =>
    have hreturned := (Ty.quiet_left type).append type.quiet_gap (apart_of_starts _ type.gap_starts)
    have hends : ∀ x ∈ [' ', '*', '&'], endsName x = false := by
      decide
    exact hreturned.append hscopes
      (apart_of_ends (fun x hx => hends x (type.left_gap_ends x hx)) _)

theorem quiet_argsText : Quiet sig.argsText := by
  unfold argsText
  split_ifs
  · exact sig.args.quiet_print.cons (by decide)
  · exact sig.args.quiet_print

end Signature

end Bracelet.Signatures
