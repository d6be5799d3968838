import Mathlib.Tactic

/-!
# Pointer programs

A language of pointers for programs that are written to be analysed.  A procedure runs the
statements of `entry`, and then goes through those of `loop` any number of times, where it may skip
any of them; it returns `final`, or null, unless a statement has returned something else.  A block
of memory holds one pointer.

`Inclusion` is the analysis of such a program that knows neither the order of the statements nor
the contexts of calls: a block is told by the variable that it was allocated for.

* `run_included`: what a variable or a block holds at any point of any run is in it.
-/
namespace Bracelet.PointerPrograms

/-- A variable, or the address of a procedure. -/
inductive Operand (ν φ : Type)
  | var (x : ν)
  | fn (f : φ)
  deriving DecidableEq

inductive Stmt (ν φ : Type)
  /-- `x = malloc()` -/
  | malloc (x : ν)
  /-- `x = e` -/
  | copy (x : ν) (e : Operand ν φ)
  /-- `x =` the parameter `i` -/
  | param (x : ν) (i : Nat)
  /-- `x = *addr` -/
  | load (x : ν) (addr : Operand ν φ)
  /-- `*addr = value` -/
  | store (addr value : Operand ν φ)
  /-- `x = callee(args)` -/
  | call (x : ν) (callee : Operand ν φ) (args : List ν)
  /-- `return e` -/
  | ret (e : Operand ν φ)
  deriving DecidableEq

structure Procedure (ν φ : Type) where
  nparams : Nat
  /-- The variables that each activation has of its own. -/
  autos : List ν
  entry : List (Stmt ν φ)
  loop : List (Stmt ν φ)
  final : Option (Operand ν φ)

structure Prog (ν φ : Type) where
  procedures : φ → Option (Procedure ν φ)
  /-- The variables that hold a block when the program starts. -/
  globals : List ν

variable {ν φ : Type}

/-- A statement of a procedure. -/
def Prog.Has (P : Prog ν φ) (f : φ) (c : Stmt ν φ) : Prop :=
  ∃ proc, P.procedures f = some proc ∧ (c ∈ proc.entry ∨ c ∈ proc.loop)

/-- What a procedure returns: by a statement, or in the end. -/
def Prog.Returns (P : Prog ν φ) (f : φ) (e : Operand ν φ) : Prop :=
  P.Has f (.ret e) ∨ ∃ proc, P.procedures f = some proc ∧ proc.final = some e

/-! ## Runs -/

inductive Val (ν φ : Type)
  | null
  | fn (f : φ)
  /-- A block that was allocated for the variable `site`. -/
  | block (site : ν) (id : Nat)

structure Activation (ν φ : Type) where
  f : φ
  proc : Procedure ν φ
  args : List (Val ν φ)
  autos : ν → Val ν φ
  /-- What is left of the pass through the statements. -/
  todo : List (Stmt ν φ)
  looping : Bool
  /-- The variable of the caller that is given the result. -/
  result : Option ν

/-- The activation of a procedure that is called. -/
def Activation.enter (f : φ) (proc : Procedure ν φ) (args : List (Val ν φ)) (result : Option ν) :
    Activation ν φ where
  f := f
  proc := proc
  args := args
  autos _ := .null
  todo := proc.entry
  looping := false
  result := result

structure Exec (ν φ : Type) where
  vars : ν → Val ν φ
  heap : ν → Nat → Val ν φ
  next : Nat
  stack : List (Activation ν φ)

section
variable [DecidableEq ν]

namespace Exec

/-- The value of an operand in an activation. -/
def value (s : Exec ν φ) (a : Activation ν φ) : Operand ν φ → Val ν φ
  | .var x => if x ∈ a.proc.autos then a.autos x else s.vars x
  | .fn f => .fn f

/-- `a` goes on, above `st`. -/
def goOn (s : Exec ν φ) (a : Activation ν φ) (st : List (Activation ν φ)) : Exec ν φ :=
  { s with stack := a :: st }

/-- `x = v` in the activation `a`, which goes on. -/
def assign (s : Exec ν φ) (a : Activation ν φ) (st : List (Activation ν φ)) (x : ν)
    (v : Val ν φ) : Exec ν φ :=
  if x ∈ a.proc.autos then s.goOn { a with autos := Function.update a.autos x v } st
  else { s with vars := Function.update s.vars x v }.goOn a st

/-- `a` returns `v`. -/
def returns (s : Exec ν φ) (a : Activation ν φ) (v : Val ν φ) : List (Activation ν φ) → Exec ν φ
  | [] => { s with stack := [] }
  | caller :: st =>
    match a.result with
    | none => s.goOn caller st
    | some x => s.assign caller st x v

end Exec

/-- **A step of a run.** -/
inductive Step (P : Prog ν φ) (s : Exec ν φ) : Exec ν φ → Prop
  /-- The program is entered at any procedure. -/
  | enter {f proc} : s.stack = [] → P.procedures f = some proc →
      Step P s (s.goOn (.enter f proc [] none) [])
  | again {a st} : s.stack = a :: st → a.todo = [] →
      Step P s (s.goOn { a with todo := a.proc.loop, looping := true } st)
  | leave {a st} : s.stack = a :: st → a.todo = [] →
      Step P s (s.returns a ((a.proc.final.map (s.value a)).getD .null) st)
  | skip {a st c todo} : s.stack = a :: st → a.todo = c :: todo → a.looping = true →
      Step P s (s.goOn { a with todo := todo } st)
  | malloc {a st x todo} : s.stack = a :: st → a.todo = .malloc x :: todo →
      Step P s ({ s with next := s.next + 1 }.assign { a with todo := todo } st x (.block x s.next))
  | copy {a st x e todo} : s.stack = a :: st → a.todo = .copy x e :: todo →
      Step P s (s.assign { a with todo := todo } st x (s.value a e))
  | param {a st x i todo} : s.stack = a :: st → a.todo = .param x i :: todo →
      Step P s (s.assign { a with todo := todo } st x (a.args.getD i .null))
  | load {a st x addr todo site id} : s.stack = a :: st → a.todo = .load x addr :: todo →
      s.value a addr = .block site id →
      Step P s (s.assign { a with todo := todo } st x (s.heap site id))
  | store {a st addr e todo site id} : s.stack = a :: st → a.todo = .store addr e :: todo →
      s.value a addr = .block site id →
      Step P s ({ s with
        heap := Function.update s.heap site
          (Function.update (s.heap site) id (s.value a e)) }.goOn { a with todo := todo } st)
  | call {a st x callee args todo g proc} : s.stack = a :: st →
      a.todo = .call x callee args :: todo → s.value a callee = .fn g →
      P.procedures g = some proc →
      Step P s (s.goOn (.enter g proc (args.map fun y => s.value a (.var y)) (some x))
        ({ a with todo := todo } :: st))
  | ret {a st e todo} : s.stack = a :: st → a.todo = .ret e :: todo →
      Step P s (s.returns a (s.value a e) st)

/-- The globals hold a block each, and everything else is null. -/
def Prog.initial (P : Prog ν φ) : Exec ν φ where
  vars x := if x ∈ P.globals then .block x 0 else .null
  heap _ _ := .null
  next := 1
  stack := []

def Prog.Reached (P : Prog ν φ) (s : Exec ν φ) : Prop :=
  Relation.ReflTransGen (Step P) P.initial s

end

/-! ## The analysis -/

/-- What a pointer may point to: a block, or a procedure. -/
inductive Obj (ν φ : Type)
  | site (x : ν)
  | fn (f : φ)
  deriving DecidableEq

inductive InclusionFact (ν φ : Type)
  /-- The operand may point to the object. -/
  | val (e : Operand ν φ) (o : Obj ν φ)
  /-- The object may hold a pointer to the object `o'`. -/
  | holds (o o' : Obj ν φ)
  /-- The parameter of the procedure may point to the object. -/
  | arg (f : φ) (i : Nat) (o : Obj ν φ)
  /-- The procedure may return a pointer to the object. -/
  | ret (f : φ) (o : Obj ν φ)

open InclusionFact in
/-- **The inclusion-based analysis** of a program. -/
inductive Inclusion (P : Prog ν φ) : InclusionFact ν φ → Prop
  | fn (f : φ) : Inclusion P (val (.fn f) (.fn f))
  | global {x} : x ∈ P.globals → Inclusion P (val (.var x) (.site x))
  | malloc {f x} : P.Has f (.malloc x) → Inclusion P (val (.var x) (.site x))
  | copy {f x e o} : P.Has f (.copy x e) → Inclusion P (val e o) → Inclusion P (val (.var x) o)
  | param {f x i o} : P.Has f (.param x i) → Inclusion P (arg f i o) →
      Inclusion P (val (.var x) o)
  | load {f x addr o o'} : P.Has f (.load x addr) → Inclusion P (val addr o) →
      Inclusion P (holds o o') → Inclusion P (val (.var x) o')
  | store {f addr e o o'} : P.Has f (.store addr e) → Inclusion P (val addr o) →
      Inclusion P (val e o') → Inclusion P (holds o o')
  | supply {f x callee args g i y o} : P.Has f (.call x callee args) →
      Inclusion P (val callee (.fn g)) → args[i]? = some y → Inclusion P (val (.var y) o) →
      Inclusion P (arg g i o)
  | result {f x callee args g o} : P.Has f (.call x callee args) →
      Inclusion P (val callee (.fn g)) → Inclusion P (ret g o) → Inclusion P (val (.var x) o)
  | ret {f e o} : P.Returns f e → Inclusion P (val e o) → Inclusion P (ret f o)

/-- **A program that has more** is found to have more. -/
theorem Inclusion.mono {P Q : Prog ν φ}
    (hprocedures : ∀ f proc, P.procedures f = some proc → Q.procedures f = some proc)
    (hglobals : ∀ x ∈ P.globals, x ∈ Q.globals) {fact : InclusionFact ν φ} (h : Inclusion P fact) :
    Inclusion Q fact := by
  have hhas : ∀ {f c}, P.Has f c → Q.Has f c := by
    rintro f c ⟨proc, hproc, hc⟩
    exact ⟨proc, hprocedures f proc hproc, hc⟩
  have hreturns : ∀ {f e}, P.Returns f e → Q.Returns f e := by
    rintro f e (hret | ⟨proc, hproc, hfinal⟩)
    · exact .inl (hhas hret)
    · exact .inr ⟨proc, hprocedures f proc hproc, hfinal⟩
  induction h with
  | fn f => exact .fn f
  | global hx => exact .global (hglobals _ hx)
  | malloc hc => exact .malloc (hhas hc)
  | copy hc _ ih => exact .copy (hhas hc) ih
  | param hc _ ih => exact .param (hhas hc) ih
  | load hc _ _ ihaddr ihholds => exact .load (hhas hc) ihaddr ihholds
  | store hc _ _ ihaddr ihvalue => exact .store (hhas hc) ihaddr ihvalue
  | supply hc _ harg _ ihcallee ihvalue => exact .supply (hhas hc) ihcallee harg ihvalue
  | result hc _ _ ihcallee ihret => exact .result (hhas hc) ihcallee ihret
  | ret hret _ ih => exact .ret (hreturns hret) ih

/-- **The induction over what a variable holds**: by the statements that assign to it. -/
theorem Inclusion.var_induction {P : Prog ν φ} {x : ν}
    {motive : (o : Obj ν φ) → Inclusion P (.val (.var x) o) → Prop}
    (global : ∀ hx : x ∈ P.globals, motive _ (.global hx))
    (malloc : ∀ {f} (hc : P.Has f (.malloc x)), motive _ (.malloc hc))
    (copy : ∀ {f e o} (hc : P.Has f (.copy x e)) (hval : Inclusion P (.val e o)),
      (∀ h : Inclusion P (.val (.var x) o), e = .var x → motive o h) → motive o (.copy hc hval))
    (param : ∀ {f i o} (hc : P.Has f (.param x i)) (harg : Inclusion P (.arg f i o)),
      motive o (.param hc harg))
    (load : ∀ {f addr o o'} (hc : P.Has f (.load x addr)) (haddr : Inclusion P (.val addr o))
      (hholds : Inclusion P (.holds o o')),
      (∀ h : Inclusion P (.val (.var x) o), addr = .var x → motive o h) →
      motive o' (.load hc haddr hholds))
    (result : ∀ {f callee args g o} (hc : P.Has f (.call x callee args))
      (hcallee : Inclusion P (.val callee (.fn g))) (hret : Inclusion P (.ret g o)),
      motive o (.result hc hcallee hret))
    (o : Obj ν φ) (h : Inclusion P (.val (.var x) o)) : motive o h := by
  have hfacts : ∀ {fact} (_ : Inclusion P fact) o, fact = .val (.var x) o →
      ∀ h : Inclusion P (.val (.var x) o), motive o h := by
    intro fact hfact
    induction hfact with
    | global hx =>
      rintro o ho h
      cases ho
      exact global hx
    | malloc hc =>
      rintro o ho h
      cases ho
      exact malloc hc
    | copy hc hval ih =>
      rintro o ho h
      cases ho
      exact copy hc hval fun h heq => ih _ (by rw [heq]) h
    | param hc harg =>
      rintro o ho h
      cases ho
      exact param hc harg
    | load hc haddr hholds ihaddr =>
      rintro o ho h
      cases ho
      exact load hc haddr hholds fun h heq => ihaddr _ (by rw [heq]) h
    | result hc hcallee hret =>
      rintro o ho h
      cases ho
      exact result hc hcallee hret
    | fn | store | supply | ret =>
      rintro o ho
      cases ho
  exact hfacts h o rfl h

/-- The variable that a statement assigns to. -/
def Stmt.dest : Stmt ν φ → Option ν
  | .malloc x | .copy x _ | .param x _ | .load x _ | .call x _ _ => some x
  | .store _ _ | .ret _ => none

/-! ## Every run is in the analysis -/

/-- What a value points to. -/
def Val.obj : Val ν φ → Option (Obj ν φ)
  | .null => none
  | .fn f => some (.fn f)
  | .block site _ => some (.site site)

section
variable {P : Prog ν φ}

/-- A value is among the objects of a fact. -/
def Within (P : Prog ν φ) (fact : Obj ν φ → InclusionFact ν φ) (v : Val ν φ) : Prop :=
  ∀ o, v.obj = some o → Inclusion P (fact o)

theorem within_null {fact : Obj ν φ → InclusionFact ν φ} : Within P fact .null := by
  intro o ho
  cases ho

/-- An activation holds what the analysis says. -/
structure Activation.Included (P : Prog ν φ) (a : Activation ν φ) : Prop where
  proc : P.procedures a.f = some a.proc
  todo : ∀ c ∈ a.todo, P.Has a.f c
  autos : ∀ x, Within P (.val (.var x)) (a.autos x)
  args : ∀ i, Within P (.arg a.f i) (a.args.getD i .null)
  result : ∀ x, a.result = some x → ∀ o, Inclusion P (.ret a.f o) → Inclusion P (.val (.var x) o)

structure Exec.Included (P : Prog ν φ) (s : Exec ν φ) : Prop where
  vars : ∀ x, Within P (.val (.var x)) (s.vars x)
  heap : ∀ site id, Within P (.holds (.site site)) (s.heap site id)
  stack : ∀ a ∈ s.stack, a.Included P

variable [DecidableEq ν]

theorem included_initial : P.initial.Included P where
  vars x := by
    unfold Prog.initial
    dsimp only
    split
    · rename_i hx
      intro o ho
      obtain rfl := Option.some.inj ho
      exact .global hx
    · exact within_null
  heap site id := within_null
  stack a ha := by cases ha

variable {s s' : Exec ν φ} {a : Activation ν φ} {st : List (Activation ν φ)}

omit [DecidableEq ν] in
theorem Exec.Included.goOn (h : s.Included P) (ha : a.Included P) (hst : ∀ b ∈ st, b.Included P) :
    (s.goOn a st).Included P :=
  ⟨h.vars, h.heap, List.forall_mem_cons.mpr ⟨ha, hst⟩⟩

theorem Exec.Included.value (h : s.Included P) (ha : a.Included P) (e : Operand ν φ) :
    Within P (.val e) (s.value a e) := by
  cases e with
  | var x =>
    dsimp only [Exec.value]
    split_ifs
    · exact ha.autos x
    · exact h.vars x
  | fn f =>
    intro o ho
    obtain rfl := Option.some.inj ho
    exact .fn f

theorem Exec.Included.assign (h : s.Included P) (ha : a.Included P)
    (hst : ∀ b ∈ st, b.Included P) {x : ν} {v : Val ν φ} (hv : Within P (.val (.var x)) v) :
    (s.assign a st x v).Included P := by
  unfold Exec.assign
  split
  · refine h.goOn { ha with autos := fun y => ?_ } hst
    by_cases hy : y = x
    · subst hy
      simp only [Function.update_self]
      exact hv
    · simp only [Function.update_of_ne hy]
      exact ha.autos y
  · refine Exec.Included.goOn ⟨fun y => ?_, h.heap, h.stack⟩ ha hst
    by_cases hy : y = x
    · subst hy
      simp only [Function.update_self]
      exact hv
    · simp only [Function.update_of_ne hy]
      exact h.vars y

theorem Exec.Included.returns (h : s.Included P) (ha : a.Included P)
    (hst : ∀ b ∈ st, b.Included P) {v : Val ν φ} (hv : Within P (.ret a.f) v) :
    (s.returns a v st).Included P := by
  cases st with
  | nil => exact ⟨h.vars, h.heap, fun b hb => by cases hb⟩
  | cons caller st =>
    obtain ⟨hcaller, hst⟩ := List.forall_mem_cons.mp hst
    unfold Exec.returns
    cases hresult : a.result with
    | none => exact h.goOn hcaller hst
    | some x => exact h.assign hcaller hst fun o ho => ha.result x hresult o (hv o ho)

omit [DecidableEq ν] in
theorem Activation.Included.rest (ha : a.Included P) {c : Stmt ν φ} {todo : List (Stmt ν φ)}
    (htodo : a.todo = c :: todo) :
    P.Has a.f c ∧ ({ a with todo := todo } : Activation ν φ).Included P := by
  have hall := ha.todo
  rw [htodo] at hall
  obtain ⟨hc, hrest⟩ := List.forall_mem_cons.mp hall
  exact ⟨hc, { ha with todo := hrest }⟩

/-- **One step stays in the analysis.** -/
theorem Step.included (hstep : Step P s s') (h : s.Included P) : s'.Included P := by
  have hsplit : ∀ {a st}, s.stack = a :: st → a.Included P ∧ ∀ b ∈ st, b.Included P := by
    intro a st hstack
    exact List.forall_mem_cons.mp (hstack ▸ h.stack)
  cases hstep with
  | @enter f proc hstack hproc =>
    refine h.goOn ⟨hproc, fun c hc => ⟨proc, hproc, .inl hc⟩, fun x => within_null, fun i => ?_,
      fun x hx => by cases hx⟩ (fun b hb => by cases hb)
    rw [Activation.enter, List.getD_nil]
    exact within_null
  | again hstack htodo =>
    obtain ⟨ha, hst⟩ := hsplit hstack
    exact h.goOn { ha with todo := fun c hc => ⟨_, ha.proc, .inr hc⟩ } hst
  | @leave a st hstack htodo =>
    obtain ⟨ha, hst⟩ := hsplit hstack
    refine h.returns ha hst ?_
    cases hfinal : a.proc.final with
    | none => exact within_null
    | some e => exact fun o ho => .ret (.inr ⟨_, ha.proc, hfinal⟩) (h.value ha e o ho)
  | skip hstack htodo _ =>
    obtain ⟨ha, hst⟩ := hsplit hstack
    exact h.goOn (ha.rest htodo).2 hst
  | malloc hstack htodo =>
    obtain ⟨ha, hst⟩ := hsplit hstack
    obtain ⟨hhas, hrest⟩ := ha.rest htodo
    have hnext : ({ s with next := s.next + 1 } : Exec ν φ).Included P :=
      ⟨h.vars, h.heap, h.stack⟩
    refine hnext.assign hrest hst fun o ho => ?_
    obtain rfl := Option.some.inj ho
    exact .malloc hhas
  | copy hstack htodo =>
    obtain ⟨ha, hst⟩ := hsplit hstack
    obtain ⟨hhas, hrest⟩ := ha.rest htodo
    exact h.assign hrest hst fun o ho => .copy hhas (h.value ha _ o ho)
  | param hstack htodo =>
    obtain ⟨ha, hst⟩ := hsplit hstack
    obtain ⟨hhas, hrest⟩ := ha.rest htodo
    exact h.assign hrest hst fun o ho => .param hhas (ha.args _ o ho)
  | load hstack htodo haddr =>
    obtain ⟨ha, hst⟩ := hsplit hstack
    obtain ⟨hhas, hrest⟩ := ha.rest htodo
    exact h.assign hrest hst fun o ho =>
      .load hhas (h.value ha _ _ (by rw [haddr]; rfl)) (h.heap _ _ o ho)
  | @store a st addr e todo site id hstack htodo haddr =>
    obtain ⟨ha, hst⟩ := hsplit hstack
    obtain ⟨hhas, hrest⟩ := ha.rest htodo
    refine Exec.Included.goOn ⟨h.vars, fun site' id' => ?_, h.stack⟩ hrest hst
    by_cases hsite : site' = site
    · subst hsite
      by_cases hid : id' = id
      · subst hid
        simp only [Function.update_self]
        exact fun o ho => .store hhas (h.value ha _ _ (by rw [haddr]; rfl)) (h.value ha _ o ho)
      · simp only [Function.update_self, Function.update_of_ne hid]
        exact h.heap site' id'
    · simp only [Function.update_of_ne hsite]
      exact h.heap site' id'
  | @call a st x callee args todo g proc hstack htodo hcallee hproc =>
    obtain ⟨ha, hst⟩ := hsplit hstack
    obtain ⟨hhas, hrest⟩ := ha.rest htodo
    have hg : Inclusion P (.val callee (.fn g)) := h.value ha _ _ (by rw [hcallee]; rfl)
    refine h.goOn ⟨hproc, fun c hc => ⟨proc, hproc, .inl hc⟩, fun x => within_null, fun i => ?_,
      fun y hy o ho => ?_⟩ (List.forall_mem_cons.mpr ⟨hrest, hst⟩)
    · simp only [Activation.enter, List.getD_eq_getElem?_getD, List.getElem?_map]
      cases hi : args[i]? with
      | none => exact within_null
      | some y => exact fun o ho => .supply hhas hg hi (h.value ha _ o ho)
    · obtain rfl := Option.some.inj hy
      exact .result hhas hg ho
  | ret hstack htodo =>
    obtain ⟨ha, hst⟩ := hsplit hstack
    obtain ⟨hhas, -⟩ := ha.rest htodo
    exact h.returns ha hst fun o ho => .ret (.inl hhas) (h.value ha _ o ho)

/-- **Every run is in the analysis.** -/
theorem run_included (h : P.Reached s) : s.Included P := by
  induction h with
  | refl => exact included_initial
  | tail _ hstep ih => exact hstep.included ih

end
end Bracelet.PointerPrograms
